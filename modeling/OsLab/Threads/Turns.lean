/-
Turns: who runs next, and that nobody is overtaken.

Every step lets the running thread go on or switches to the first thread of the ready queue (`Lib.Sched.Turn`); the only
exceptions are a `thread_yield` to a given thread, which takes that one out of the queue, and a `thread_kill`, which
takes its victim out (`Next`, `step_next`). A thread that is ready waits for as many switches as there are threads
before it in the queue, fewer than `THREAD_MAX_THREADS`, and then it runs or is killed (`bounded_waiting`). A preemption
is such a switch.
-/
import OsLab.Lib.Turns
import OsLab.Threads.Fifo
import OsLab.Threads.Runs

namespace OsLab.Threads

open OsLab.Lib Function State

variable {s s' t u : State} {op : Op} {p x : Ptr} {r : QRef} {q rest : List Ptr} {tid : Tid} {enabled : Bool} {k : ℕ}

/-- what becomes of the processor and of the ready queue -/
inductive Next (s : State) (op : Op) (s' : State) : Prop
  | turn : (view s).Turn (view s') → Next s op s'
  /-- to a given thread -/
  | directed {tid : Tid} : op = .yield tid → tid ≠ threadAny → s'.cpu.owner ∈ s.readyQueue →
      s'.readyQueue = s.readyQueue.erase s'.cpu.owner ++ [s.cpu.owner] → Next s op s'
  | kill {tid : Tid} {p : Ptr} {l : List Ptr} : op = .kill tid → s.threads tid = some p → s'.cpu.owner = s.cpu.owner →
      s'.readyQueue = s.readyQueue.erase p ++ l → p ∉ s'.readyQueue → Next s op s'

/-! ## Calls that switch to nobody -/

theorem stays_same (hcpu : s'.cpu.owner = s.cpu.owner) (hready : s'.readyQueue = s.readyQueue) :
    (view s).Stays (view s') :=
  ⟨hcpu, [], by rw [List.append_nil]; exact hready⟩

theorem Next.stays (h : (view s).Stays (view s')) : Next s op s' := .turn (Or.inl h)

theorem setQueue_stays (s : State) (r : QRef) (q : List Ptr) : (view s).Stays (view (s.setQueue r q)) :=
  stays_same (by cases r <;> rfl) (setQueue_readyQueue s r q)

theorem setStatus_stays (s : State) (p : Ptr) (st : Status) :
    Post (s.setStatus p st) fun s' => (view s).Stays (view s') :=
  Post.trivial.bind fun _ _ => Post.pure (stays_same rfl rfl)

theorem wake_stays (s : State) (r : QRef) (wakeId : Tid) :
    Post (wake s r wakeId) fun s' => (view s).Stays (view s') := by
  unfold wake
  refine Post.trivial.bind fun q _ => Post.trivial.bind fun q' _ => Post.trivial.bind fun p _ => ?_
  set s1 := s.setQueue r q' with hs1
  have hpush : (view s1).Stays (view { s1 with readyQueue := s1.readyQueue ++ [p] }) := ⟨rfl, [p], rfl⟩
  exact (setStatus_stays _ p .ready).mono fun s' h => (setQueue_stays s r q').trans (hpush.trans h)

theorem wakeLoop_stays (r : QRef) (n : ℕ) (s : State) (count : ℕ) :
    Post (wakeLoop r n s count) fun res => (view s).Stays (view res.1) := by
  induction n generalizing s count with
  | zero => exact Post.ok (Sched.Stays.refl _)
  | succ n ih =>
    refine Post.trivial.bind fun q _ => Post.trivial.bind fun first _ => ?_
    cases first with
    | none => exact Post.pure (Sched.Stays.refl _)
    | some wakeId =>
      exact (wake_stays s r wakeId).bind fun s1 h1 => (ih s1 (count + 1)).mono fun res h2 => h1.trans h2

theorem threadWakeup_stays (s : State) (r : QRef) (all : Bool) :
    Post (threadWakeup s r all) fun s' => (view s).Stays (view s') := by
  have hoff : (view s).Stays (view s.interruptsOff) := stays_same rfl rfl
  have hret : ∀ (e : Bool) (v : Option ℤ) (s1 : State), (view s.interruptsOff).Stays (view s1) →
      (view s).Stays (view (s1.returns e v)) := fun e v s1 h1 => hoff.trans (h1.trans (stays_same rfl rfl))
  unfold threadWakeup
  refine Post.trivial.bind fun q _ => Post.trivial.bind fun first _ => ?_
  cases first with
  | none => exact Post.pure (hret _ _ _ (Sched.Stays.refl _))
  | some wakeId =>
    refine Post.ite (fun _ => ?_) fun _ => ?_
    · exact (wakeLoop_stays r q.length s.interruptsOff 0).bind fun res h1 => Post.pure (hret _ _ _ h1)
    · exact (wake_stays s.interruptsOff r wakeId).bind fun s1 h1 => Post.pure (hret _ _ _ h1)

theorem threadCreate_stays (s : State) (mem : Bool) : Post (threadCreate s mem) fun s' => (view s).Stays (view s') := by
  unfold threadCreate
  refine Post.ite (fun _ => Post.pure (stays_same rfl rfl)) fun _ => ?_
  exact Post.ite (fun _ => Post.pure (stays_same rfl rfl)) fun _ => Post.pure ⟨rfl, [s.nextPtr], rfl⟩

theorem lockRelease_stays (s : State) (l : ℕ) : Post (lockRelease s l) fun s' => (view s).Stays (view s') := by
  unfold lockRelease
  refine Post.trivial.bind fun k _ => Post.ite (fun _ => ?_) fun _ => Post.pure (stays_same rfl rfl)
  refine (threadWakeup_stays _ (.lock l) true).bind fun s1 h1 => Post.pure ?_
  exact Sched.Stays.trans (stays_same rfl rfl) (h1.trans (stays_same rfl rfl))

theorem cvWake_stays (s : State) (all : Bool) (c l : ℕ) :
    Post (cvWake all s c l) fun s' => (view s).Stays (view s') := by
  unfold cvWake
  refine Post.trivial.bind fun k _ => Post.ite (fun _ => ?_) fun _ => Post.pure (stays_same rfl rfl)
  refine (threadWakeup_stays _ (.cv c) all).bind fun s1 h1 => Post.pure ?_
  exact Sched.Stays.trans (stays_same rfl rfl) (h1.trans (stays_same rfl rfl))

theorem waitQueueDestroy_stays (s : State) (w : ℕ) : Post (waitQueueDestroy s w) fun s' => (view s).Stays (view s') :=
  Post.trivial.bind fun _ _ => Post.trivial.bind fun _ _ => Post.pure (stays_same rfl rfl)

theorem lockDestroy_stays (s : State) (l : ℕ) : Post (lockDestroy s l) fun s' => (view s).Stays (view s') := by
  unfold lockDestroy
  refine Post.trivial.bind fun k _ => Post.ite (fun _ => ?_) fun _ => Post.pure (stays_same rfl rfl)
  exact Post.trivial.bind fun _ _ => Post.pure (stays_same rfl rfl)

theorem cvDestroy_stays (s : State) (c : ℕ) : Post (cvDestroy s c) fun s' => (view s).Stays (view s') :=
  Post.trivial.bind fun _ _ => Post.ite (fun _ => Post.pure (stays_same rfl rfl)) fun _ =>
    Post.pure (stays_same rfl rfl)

/-! ## Calls that switch -/

theorem Reclaims.same {a b : Sched Ptr QRef} {acts : List (Act Ptr QRef)} (h : Reclaims acts)
    (ht : a.Trace .thread acts b) : b.cur = a.cur ∧ b.ready = a.ready := by
  induction ht with
  | nil => exact ⟨rfl, rfl⟩
  | cons act _ _ ih =>
    obtain ⟨p, rfl⟩ := h act List.mem_cons_self
    exact ih fun b hb => h b (List.mem_cons_of_mem _ hb)

/-- no thread that waits for the running one is forgotten -/
theorem Reclaims.wait {a b : Sched Ptr QRef} {acts : List (Act Ptr QRef)} (h : Reclaims acts)
    (ht : a.Trace .thread acts b) (ha : a.Inv) : b.wait (.thread a.cur) = a.wait (.thread a.cur) := by
  induction ht with
  | nil => rfl
  | @cons a v l act hen _ ih =>
    obtain ⟨p, rfl⟩ := h act List.mem_cons_self
    have hne : a.cur ≠ p := by
      intro hc
      have hstat : a.stat p = some .exited := hen.1
      rw [← hc, ha.cur_running] at hstat
      cases hstat
    have hrest := ih (fun b hb => h b (List.mem_cons_of_mem _ hb)) (ha.apply hen)
    rw [show (a.apply (.reclaim p (.thread p))).cur = a.cur from rfl] at hrest
    rw [hrest]
    exact update_of_ne (fun hc => hne (QRef.thread.inj hc)) _ _

/-- the second half of `thread_yield` -/
theorem yieldTo_next (h : Inv s) (enabled : Bool) {runningId readyId : Tid}
    (hrun : s.threads runningId = some s.cpu.owner) (hrdy : s.threads readyId = some x) (hx : x ∈ s.readyQueue)
    (hstack : ∀ e y, savedStack (.yield e y :: s.cpu.frames)) (hs : yieldTo s enabled runningId readyId = .ok s') :
    s'.cpu.owner = x ∧ s'.readyQueue = s.readyQueue.erase x ++ [s.cpu.owner] := by
  obtain ⟨s1, acts, hy, hm, hrec, -⟩ := yieldTo_spec h enabled hrun hrdy hx hstack
  rw [hs, Except.ok.injEq] at hy
  subst hy
  obtain ⟨v, hreclaim, hlast⟩ := hm.trace.split
  obtain ⟨hcur, hready⟩ := hrec.same hreclaim
  have hview := hlast.eq_of_single
  refine ⟨congrArg Sched.cur hview, ?_⟩
  calc s'.readyQueue = v.ready.erase x ++ [v.cur] := congrArg Sched.ready hview
    _ = s.readyQueue.erase x ++ [s.cpu.owner] := by rw [hready, hcur]; rfl

/-- what `thread_yield` does; `thread_yield(THREAD_ANY)` takes the first thread, if there is one -/
theorem threadYield_next (h : Inv s) (hstack : ∀ e y, savedStack (.yield e y :: s.cpu.frames))
    (hs : threadYield s tid = .ok s') :
    (s'.cpu.owner = s.cpu.owner ∧ s'.readyQueue = s.readyQueue ∧ (tid = threadAny → s.readyQueue = [])) ∨
      (tid = threadAny ∧ ∃ rest, s.readyQueue = s'.cpu.owner :: rest ∧ s'.readyQueue = rest ++ [s.cpu.owner]) ∨
      (tid ≠ threadAny ∧ s'.cpu.owner ∈ s.readyQueue ∧
        s'.readyQueue = s.readyQueue.erase s'.cpu.owner ++ [s.cpu.owner]) := by
  obtain ⟨hid, -⟩ := threadId_eq h.off
  obtain ⟨s1, acts, hf, hfree⟩ := freeExited_spec h.off
  have h1 := hfree.inv h.off
  have hcpu : s1.cpu.owner = s.cpu.owner := by rw [hfree.cpu]; rfl
  have hready : s1.readyQueue = s.readyQueue := by rw [hfree.ready]; rfl
  have hframes : s1.cpu.frames = s.cpu.frames := by rw [hfree.cpu]; rfl
  have hrun : s1.threads (threadId s.interruptsOff) = some s1.cpu.owner := by
    rw [hfree.cpu]
    exact hfree.slots _ _ hid (by rw [h.off.cur_stat]; simp)
  unfold threadYield at hs
  simp only [hf, ok_bind] at hs
  split at hs
  · next hself =>
    cases hs
    refine Or.inl ⟨hcpu, hready, fun hany => ?_⟩
    exfalso
    subst hany
    rcases hself with hself | ⟨hvalid, -⟩
    · exact absurd hself (by decide)
    · exact absurd hvalid.1 (by decide)
  · split at hs
    · next hany =>
      cases hq : s1.readyQueue with
      | nil =>
        rw [hq, getFirst_nil, ok_bind] at hs
        cases hs
        exact Or.inl ⟨hcpu, hready, fun _ => hready.symm.trans hq⟩
      | cons y rest =>
        have hy : y ∈ s1.readyQueue := by rw [hq]; exact List.mem_cons_self
        obtain ⟨v, hv, hslot, -⟩ := stat_eq_some (h1.ready_stat hy)
        rw [hq, getFirst_cons hv, ok_bind] at hs
        obtain ⟨howner, hready'⟩ := yieldTo_next h1 _ hrun hslot hy (by rw [hframes]; exact hstack) hs
        refine Or.inr (Or.inl ⟨hany, rest, by rw [howner, ← hready, hq], ?_⟩)
        rw [hready', hq, List.erase_cons_head, hcpu]
    · next hany =>
      split at hs
      · next hc =>
        obtain ⟨v, hv, hst⟩ := (Option.any_eq_true _ _).1 hc.2
        obtain ⟨y, hslot, hy⟩ := tcbAt_eq hv
        obtain ⟨v', hv', -, hstat⟩ := h1.table.stat_slot hslot
        rw [hy, Option.some.injEq] at hv'
        subst hv'
        have hmem : y ∈ s1.readyQueue := (h1.sched.ready_iff y).2 (by
          have hrdy : v.status = .ready := by simpa using hst
          rw [← hrdy]
          exact hstat)
        obtain ⟨howner, hready'⟩ := yieldTo_next h1 _ hrun hslot hmem (by rw [hframes]; exact hstack) hs
        rw [hready, hcpu] at hready'
        rw [hready] at hmem
        exact Or.inr (Or.inr ⟨hany, by rw [howner]; exact hmem, by rw [howner]; exact hready'⟩)
      · cases hs
        exact Or.inl ⟨hcpu, hready, fun hc => absurd hc hany⟩

/-- `thread_sleep` switches to the first thread -/
theorem threadSleep_turn (h : Inv s) (hr : ∀ p, r = .thread p → (stat s p).isSome) (hself : r ≠ .thread s.cpu.owner)
    (hstack : ∀ e i, savedStack (.sleep e i :: s.cpu.frames)) (hs : threadSleep s r = .ok s') :
    (view s).Turn (view s') := by
  cases hready : s.readyQueue with
  | nil =>
    rw [threadSleep_none r hready] at hs
    cases hs
    exact Or.inl (stays_same rfl rfl)
  | cons x rest =>
    cases hq : s.queue r with
    | none =>
      rw [threadSleep_crash h hq hstack hready] at hs
      cases hs
    | some q =>
      obtain ⟨s1, hs1, hm, -, -⟩ := threadSleep_block h ⟨hq, hr⟩ hself hstack hready
      rw [hs, Except.ok.injEq] at hs1
      subst hs1
      rw [hm.trace.eq_of_single]
      exact Or.inr (Sched.takes_block r hready)

/-! ## `thread_exit` -/

/-- the end of `thread_exit` is a switch to the first thread -/
theorem yeet_cons (h : Table s) (hready : ∀ y ∈ s.readyQueue, stat s y = some .ready) (hq : s.readyQueue = x :: q) :
    ∃ s', yeet s = .ok s' ∧ s'.cpu.owner = x ∧ s'.readyQueue = q := by
  have hx : x ∈ s.readyQueue := by rw [hq]; exact List.mem_cons_self
  obtain ⟨v, hv, hslot, -⟩ := stat_eq_some (hready x hx)
  obtain ⟨w, hw, hset, hview, h1⟩ := setStatus_spec h (p := x) (by rw [hready x hx]; rfl) .running (by simp)
  rw [hv, Option.some.injEq] at hw
  subst hw
  set s1 := s.setTcb x { v with status := .running } with hs1
  have hv1 : s1.heap x = some { v with status := .running } := by simp [hs1, State.setTcb]
  have hdel : deleteFromQueue s1 v.id s1.readyQueue = .ok (s.readyQueue.erase x) := by
    refine deleteFromQueue_eq h1 hslot fun y hy => ?_
    have hstat : stat s1 = update (stat s) x (some .running) := congrArg Sched.stat hview
    rw [hstat]
    by_cases hyx : y = x
    · rw [hyx, update_self]
      rfl
    · rw [update_of_ne hyx, hready y hy]
      rfl
  have htable : Table { s1 with readyQueue := s.readyQueue.erase x } := h1.aux _ _ _ _
  obtain ⟨hset2, hview2⟩ := setcontext_spec htable hv1
  have hfirst : getFirst s s.readyQueue = .ok (some v.id) := by rw [hq, getFirst_cons hv]
  refine ⟨_, ?_, congrArg Sched.cur hview2, ?_⟩
  · unfold yeet
    simp only [hfirst, ok_bind, slot_eq hslot, hset, deref_eq hv1, hdel, hset2]
  · show s.readyQueue.erase x = q
    rw [hq, List.erase_cons_head]

theorem yeet_nil (hq : s.readyQueue = []) : yeet s = .error .exit := by
  unfold yeet
  rw [hq, getFirst_nil, ok_bind]

/-- before its last switch `thread_exit` wakes the threads that wait for the caller -/
theorem threadExit_eq (h : Inv s) :
    ∃ t, threadExit s = yeet t ∧ Table t ∧ (∀ y ∈ t.readyQueue, stat t y = some .ready) ∧
    t.readyQueue = s.readyQueue ++ waiting s (.thread s.cpu.owner) := by
  obtain ⟨s1, acts, hf, hfree⟩ := freeExited_spec h.off
  have h1 := hfree.inv h.off
  have howner : s1.cpu.owner = s.cpu.owner := by rw [hfree.cpu]; rfl
  have hready : s1.readyQueue = s.readyQueue := by rw [hfree.ready]; rfl
  have hwait : waiting s1 (.thread s.cpu.owner) = waiting s (.thread s.cpu.owner) :=
    hfree.reclaims.wait hfree.moves.trace h.off.sched
  obtain ⟨hid1, -⟩ := threadId_eq h1
  have hdel := deleteFromAllQueues_eq h1.table hid1 h1.waiting_some h1.wait_nodup
  have hview2 := purged_self h1
  set s2 := purged s1 s1.cpu.owner tids with hs2
  have h2 : Inv s2 := ⟨by rw [hview2]; exact h1.sched, h1.table.purged _ _, h1.live⟩
  have hcpu2 : s2.cpu.owner = s1.cpu.owner := congrArg Sched.cur hview2
  -- those that wait wake up
  obtain ⟨hid2, -⟩ := threadId_eq h2
  have hreach := reaches_thread (s := s2) (p := s2.cpu.owner) (by rw [h2.cur_stat]; rfl)
  obtain ⟨s3, hwake, e3, ht3, hview3⟩ := threadWakeup_all h2.table hreach (h2.wait_stat _) (h2.wait_nodup _)
  have h3 : Inv s3 := ⟨by rw [hview3]; exact h2.sched.wakeAll _, ht3, by rw [e3.cpu]; exact h2.live⟩
  have hready3 : s3.readyQueue = s.readyQueue ++ waiting s (.thread s.cpu.owner) := by
    calc s3.readyQueue = s2.readyQueue ++ waiting s2 (.thread s2.cpu.owner) := congrArg Sched.ready hview3
      _ = s1.readyQueue ++ waiting s1 (.thread s1.cpu.owner) := by
        rw [hcpu2]
        exact congrArg (fun v : Sched Ptr QRef => v.ready ++ v.wait (.thread s1.cpu.owner)) hview2
      _ = s.readyQueue ++ waiting s (.thread s.cpu.owner) := by rw [howner, hready, hwait]
  obtain ⟨hid3, -⟩ := threadId_eq h3
  -- the caller has exited
  obtain ⟨v, hv, hset4, hview4, h4⟩ :=
    setStatus_spec h3.table (p := s3.cpu.owner) (by rw [h3.cur_stat]; rfl) .exited (by simp)
  set s4 := s3.setTcb s3.cpu.owner { v with status := .exited } with hs4
  refine ⟨s4.record (.exited s3.cpu.owner), ?_, h4.aux _ _ _ _, fun y hy => ?_, hready3⟩
  · simp only [threadExit, hf, ok_bind, hdel, slot_eq hid2, hwake, slot_eq hid3, hset4]
  · have hstat : stat s4 = update (stat s3) s3.cpu.owner (some .exited) := congrArg Sched.stat hview4
    show stat s4 y = some .ready
    rw [hstat, update_of_ne (h3.ready_ne_owner hy)]
    exact h3.ready_stat hy

/-- `thread_exit` switches to the first thread; the process ends where nobody is ready and nobody waits for the
caller -/
theorem threadExit_cases (h : Inv s) :
    (threadExit s = .error .exit ∧ s.readyQueue = [] ∧ waiting s (.thread s.cpu.owner) = []) ∨
      ∃ s', threadExit s = .ok s' ∧ (view s).Takes (view s') := by
  obtain ⟨t, heq, htable, hready, hq⟩ := threadExit_eq h
  cases hcase : t.readyQueue with
  | nil =>
    rw [hcase] at hq
    obtain ⟨h1, h2⟩ := List.append_eq_nil_iff.1 hq.symm
    exact Or.inl ⟨heq.trans (yeet_nil hcase), h1, h2⟩
  | cons x rest =>
    obtain ⟨s', hs', howner, hrest⟩ := yeet_cons htable hready hcase
    refine Or.inr ⟨s', heq.trans hs', waiting s (.thread s.cpu.owner), rest, [], ?_, ?_⟩
    · show s.readyQueue ++ _ = s'.cpu.owner :: rest
      rw [← hq, hcase, howner]
    · show s'.readyQueue = rest ++ []
      rw [hrest, List.append_nil]

/-! ## Locks -/

theorem lockTry_turn {l : ℕ} (h : Inv s)
    (hstack : ∀ b i, savedStack (.sleep b i :: .lockAcquire enabled l :: s.cpu.frames))
    (hlive : liveStack (.lockAcquire enabled l :: s.cpu.frames)) (hs : lockTry s enabled l = .ok s') :
    (view s).Turn (view s') := by
  unfold lockTry at hs
  obtain ⟨lk, -, hs⟩ := bind_eq_ok.1 hs
  split at hs
  · set s1 := s.push (.lockAcquire enabled l) with hs1
    have hm : Moves s s1 [] [] := moves_regs_quiet h s1.cpu s.ret rfl hlive
    have hstay : (view s).Stays (view s1) := stays_same rfl rfl
    exact hstay.turn (threadSleep_turn (s := s1) (hm.inv h) (by simp) (by simp) hstack hs)
  · refine Or.inl ?_
    cases hs
    split
    · exact stays_same rfl rfl
    · exact stays_same rfl rfl

theorem cvWait_turn {c l : ℕ} (h : Inv s) (hf : s.cpu.frames = []) (hs : cvWait s c l = .ok s') :
    (view s).Turn (view s') := by
  unfold cvWait at hs
  obtain ⟨lk, -, hs⟩ := bind_eq_ok.1 hs
  split at hs
  · obtain ⟨s1, hrel, hs⟩ := bind_eq_ok.1 hs
    have hoff : (view s).Stays (view s.interruptsOff) := stays_same rfl rfl
    have hstay := hoff.trans (lockRelease_stays s.interruptsOff l s1 hrel)
    obtain ⟨acts, hm1, hf1⟩ : ∃ acts, Moves s s1 acts [] ∧ s1.cpu.frames = [] := by
      rcases lockRelease_cases h.off hrel with ⟨rfl, -⟩ | ⟨a, hm, -, hcpu, -⟩
      · exact ⟨[], (moves_self h.off).of_off.returns _ _, hf⟩
      · exact ⟨[a], hm.of_off, by rw [hcpu]; exact hf⟩
    set s2 := s1.push (.cvSleep s.cpu.enabled l) with hs2
    have hframes : s2.cpu.frames = [.cvSleep s.cpu.enabled l] := by simp [hs2, State.push, hf1]
    have hm2 : Moves s1 s2 [] [] := moves_regs_quiet (hm1.inv h) s2.cpu s1.ret rfl (by rw [hframes]; rfl)
    have hpush : (view s1).Stays (view s2) := stays_same rfl rfl
    have hsleep : (view s2).Turn (view s') :=
      threadSleep_turn (s := s2) (hm2.inv (hm1.inv h)) (by simp) (by simp) (fun e i => by rw [hframes]; rfl) hs
    exact (hstay.trans hpush).turn hsleep
  · set s1 := (s.interruptsOff.push (.cvAcquire s.cpu.enabled l)).interruptsOff with hs1
    have hframes : s1.cpu.frames = [.cvAcquire s.cpu.enabled l] := by simp [hs1, State.interruptsOff, State.push, hf]
    have hm1 : Moves s s1 [] [] := moves_regs_quiet h s1.cpu s.ret rfl (by rw [hframes]; rfl)
    have hpush : (view s).Stays (view s1) := stays_same rfl rfl
    refine hpush.turn (lockTry_turn (s := s1) (hm1.inv h) (fun b i => ?_) ?_ hs)
    · rw [hframes]
      simp [savedStack]
    · rw [hframes]
      simp [liveStack]

/-! ## Steps -/

theorem threadWait_turn (h : Inv s) (hf : s.cpu.frames = []) (hs : threadWait s tid = .ok s') :
    (view s).Turn (view s') := by
  unfold threadWait at hs
  dsimp only at hs
  split at hs
  · cases hs
    exact Or.inl (stays_same rfl rfl)
  · next hv =>
    have hv' : validTid s.interruptsOff tid = true := by simpa using hv
    obtain ⟨p, hp, hne⟩ := (validTid_iff h.off).1 hv'
    rw [slot_eq hp, ok_bind] at hs
    set s1 := (s.interruptsOff.record (.waitCall s.cpu.owner tid p)).push (.wait s.cpu.enabled tid) with hs1
    have hframes : s1.cpu.frames = [.wait s.cpu.enabled tid] := by
      simp [hs1, State.push, State.record, State.interruptsOff, hf]
    have hm1 : Moves s s1 [] [.waitCall s.cpu.owner tid p] :=
      moves_regs h s1.cpu s.ret [.waitCall s.cpu.owner tid p] rfl (by rw [hframes]; rfl)
    have hp' : s.threads tid = some p := hp
    obtain ⟨t, -, -, hst⟩ := h.table.stat_slot hp'
    have hsome : (stat s1 p).isSome := by
      rw [show stat s1 p = stat s p from stat_congr rfl rfl, hst]
      rfl
    have hstay : (view s).Stays (view s1) := stays_same rfl rfl
    refine hstay.turn (threadSleep_turn (s := s1) (r := .thread p) (hm1.inv h) (fun y hy => ?_)
      (fun hc => hne (QRef.thread.inj hc)) (fun e i => by rw [hframes]; rfl) hs)
    cases hy
    exact hsome

theorem threadKill_next (h : Inv s) (hsafe : killSafe s (.kill tid) = true) (hs : threadKill s tid = .ok s') :
    Next s (.kill tid) s' := by
  by_cases hv : validTid s.interruptsOff tid = true
  · obtain ⟨p, hp, hne⟩ := (validTid_iff h.off).1 hv
    have hp' : s.threads tid = some p := hp
    have hout : inObjectQueue s p = false := by simpa [killSafe, hp'] using hsafe
    obtain ⟨s1, acts, hs1, hrec, hm, -⟩ := threadKill_spec h hp' hne fun r => inObjectQueue_false h.table hout
    rw [hs, Except.ok.injEq] at hs1
    subst hs1
    obtain ⟨v, hkill, hreclaim⟩ := hm.trace.split
    obtain ⟨hcur, hready⟩ := hrec.same hreclaim
    obtain ⟨w, hwake, hlast⟩ := Sched.Trace.split (a := [Act.wakeAll (QRef.thread p)]) hkill
    rw [hlast.eq_of_single, hwake.eq_of_single] at hcur hready
    -- the victim does not wait for itself
    have hself : p ∉ waiting s (.thread p) := h.table.noSelf p
    have hready' : s'.readyQueue = s.readyQueue.erase p ++ waiting s (.thread p) := by
      refine hready.trans ?_
      show (s.readyQueue ++ waiting s (.thread p)).erase p = _
      by_cases hmem : p ∈ s.readyQueue
      · rw [List.erase_append_left _ hmem]
      · rw [List.erase_append_right _ hmem, List.erase_of_not_mem hmem, List.erase_of_not_mem hself]
    refine .kill rfl hp' hcur hready' fun hmem => ?_
    rw [hready'] at hmem
    exact (List.mem_append.1 hmem).elim (h.sched.ready_nodup.not_mem_erase) hself
  · have hv' : validTid s.interruptsOff tid = false := Bool.not_eq_true _ ▸ hv
    unfold threadKill at hs
    simp only [hv', Bool.not_false, if_true] at hs
    cases hs
    exact .stays (stays_same rfl rfl)

theorem call_next (h : Inv s) (hf : s.cpu.frames = []) (hsafe : killSafe s op = true) (hs : call s op = .ok s') :
    Next s op s' := by
  have hstay : ∀ {x : Except Stop State}, Post x (fun s' => (view s).Stays (view s')) → x = .ok s' → Next s op s' :=
    fun hpost hx => .stays (hpost s' hx)
  cases op with
  | create mem => exact hstay (threadCreate_stays s mem) hs
  | yield wantTid =>
    rcases threadYield_next h (fun e y => by rw [hf]; rfl) hs with ⟨hcpu, hready, -⟩ | ⟨-, rest, hhead, hready⟩ |
      ⟨hany, hmem, hready⟩
    · exact .stays (stays_same hcpu hready)
    · exact .turn (Or.inr (Sched.takes_of_head hhead hready))
    · exact .directed rfl hany hmem hready
  | exit =>
    rcases threadExit_cases h with ⟨herr, -⟩ | ⟨s1, hs1, htakes⟩
    · rw [show call s .exit = threadExit s from rfl, herr] at hs
      cases hs
    · rw [show call s .exit = threadExit s from rfl, hs1, Except.ok.injEq] at hs
      subst hs
      exact .turn (Or.inr htakes)
  | kill tid => exact threadKill_next h hsafe hs
  | sleep w => exact .turn (threadSleep_turn h (by simp) (by simp) (fun e i => by rw [hf]; rfl) hs)
  | sleepNull =>
    cases hs
    exact .stays (stays_same rfl rfl)
  | wakeup w all => exact hstay (threadWakeup_stays s (.user w) all) hs
  | wakeupNull =>
    cases hs
    exact .stays (stays_same rfl rfl)
  | wait tid => exact .turn (threadWait_turn h hf hs)
  | waitQueueCreate =>
    cases hs
    exact .stays (stays_same rfl rfl)
  | waitQueueDestroy w => exact hstay (waitQueueDestroy_stays s w) hs
  | lockCreate garbage =>
    cases hs
    exact .stays (stays_same rfl rfl)
  | lockDestroy l => exact hstay (lockDestroy_stays s l) hs
  | lockAcquire l =>
    have hoff : (view s).Stays (view s.interruptsOff) := stays_same rfl rfl
    have hframes : s.interruptsOff.cpu.frames = [] := hf
    refine .turn (hoff.turn (lockTry_turn h.off (fun b i => ?_) ?_ hs))
    · rw [hframes]
      rfl
    · rw [hframes]
      rfl
  | lockRelease l =>
    have hrec : (view s).Stays (view (s.record (.releaseCall s.cpu.owner l))) := stays_same rfl rfl
    exact .stays (hrec.trans (lockRelease_stays _ l s' hs))
  | cvCreate =>
    cases hs
    exact .stays (stays_same rfl rfl)
  | cvDestroy c => exact hstay (cvDestroy_stays s c) hs
  | cvWait c l =>
    have hrec : (view s).Stays (view (s.record (.releaseCall s.cpu.owner l))) := stays_same rfl rfl
    exact .turn (hrec.turn (cvWait_turn ((moves_release h l).inv h) hf hs))
  | cvSignal c l => exact hstay (cvWake_stays s false c l) hs
  | cvBroadcast c l => exact hstay (cvWake_stays s true c l) hs
  | interruptsSet enabled =>
    cases hs
    exact .stays (stays_same rfl rfl)
  | preempt =>
    simp only [call] at hs
    split at hs
    · set s0 := s.interruptsOff.push .handler with hs0
      have hframes : s0.cpu.frames = [.handler] := by simp [hs0, State.push, State.interruptsOff, hf]
      have hm0 : Moves s s0 [] [] := moves_regs_quiet h s0.cpu s.ret rfl (by rw [hframes]; rfl)
      have hstay0 : (view s).Stays (view s0) := stays_same rfl rfl
      rcases threadYield_next (hm0.inv h) (fun e y => by rw [hframes]; rfl) hs with ⟨hcpu, hready, -⟩ |
        ⟨-, rest, hhead, hready⟩ | ⟨hany, -⟩
      · exact .stays (hstay0.trans (stays_same hcpu hready))
      · exact .turn (Or.inr (hstay0.takes (Sched.takes_of_head hhead hready)))
      · exact absurd rfl hany
    · cases hs
  | resume => cases hs

theorem resume_next {f : Frame} {fs : List Frame} (h : Inv s) (hf : s.cpu.frames = f :: fs)
    (hs : resumeFrame { s with cpu := { s.cpu with frames := fs } } f = .ok s') : Next s op s' := by
  have hlive := h.live
  rw [hf] at hlive
  set s0 : State := { s with cpu := { s.cpu with frames := fs } } with hs0
  have hm0 : Moves s s0 [] [] := moves_regs_quiet h s0.cpu s.ret rfl (liveStack_pop hlive)
  have h0 := hm0.inv h
  have hstay0 : (view s).Stays (view s0) := stays_same rfl rfl
  cases f with
  | stub =>
    cases hs
    exact .stays (stays_same rfl rfl)
  | yield e y =>
    cases hs
    exact .stays (stays_same rfl rfl)
  | sleep e i =>
    obtain ⟨s1, acts, hf1, hfree⟩ := freeExited_spec h0
    simp only [resumeFrame, hf1, ok_bind, pure_eq_ok, Except.ok.injEq] at hs
    subst hs
    have hfrees : (view s0).Stays (view (s1.returns e (some i))) :=
      stays_same (congrArg Context.owner hfree.cpu :) hfree.ready
    exact .stays (hstay0.trans hfrees)
  | wait e i =>
    cases hs
    exact .stays (stays_same rfl rfl)
  | lockAcquire e l =>
    refine .turn (hstay0.turn (lockTry_turn (s := s0) h0 (fun b i => ?_) hlive hs))
    show savedStack (.sleep b i :: .lockAcquire e l :: fs) = true
    rcases liveStack_lockAcquire hlive with hnil | ⟨b', hcv⟩
    · rw [hnil]
      rfl
    · rw [hcv] at hlive ⊢
      simp [savedStack] at hlive ⊢
  | cvSleep e l =>
    have hnil : fs = [] := by
      unfold liveStack at hlive
      split at hlive <;> simp_all [savedStack]
    set s1 := (s0.push (.cvAcquire e l)).interruptsOff with hs1
    have hframes : s1.cpu.frames = [.cvAcquire e l] := by simp [hs1, hs0, State.interruptsOff, State.push, hnil]
    have hm1 : Moves s0 s1 [] [] := moves_regs_quiet h0 s1.cpu s.ret rfl (by rw [hframes]; rfl)
    have hpush : (view s0).Stays (view s1) := stays_same rfl rfl
    refine .turn ((hstay0.trans hpush).turn (lockTry_turn (s := s1) (hm1.inv h0) (fun b i => ?_) ?_ hs))
    · rw [hframes]
      simp [savedStack]
    · rw [hframes]
      simp [liveStack]
  | cvAcquire e l =>
    cases hs
    exact .stays (stays_same rfl rfl)
  | handler =>
    cases hs
    exact .stays (stays_same rfl rfl)

/-- **What a step does to the processor and to the ready queue.** -/
theorem step_next (h : Inv s) (hsafe : killSafe s op = true) (hs : step s op = .ok s') : Next s op s' := by
  unfold step at hs
  split at hs
  · next hf => exact call_next h hf hsafe hs
  · next f fs hf =>
    split at hs
    · exact resume_next h hf hs
    · cases hs

/-! ## Bounded waiting -/

/-- a `thread_yield` to a given thread -/
def directed : Op → Bool
  | .yield tid => tid ≠ threadAny
  | _ => false

/-- a step that gives the processor to another thread in turn -/
def switches (s : State) (op : Op) (s' : State) : ℕ := if directed op = false ∧ s'.cpu.owner ≠ s.cpu.owner then 1 else 0

/-- a thread that stays ready moves up with every switch -/
theorem Next.idxOf (h : Next s op s') (hs : Inv s') (hp : p ∈ s.readyQueue) (hp' : p ∈ s'.readyQueue) :
    switches s op s' + s'.readyQueue.idxOf p ≤ s.readyQueue.idxOf p := by
  have hne : p ≠ s'.cpu.owner := hs.ready_ne_owner hp'
  have hzero : s'.cpu.owner = s.cpu.owner → switches s op s' = 0 := fun hc => if_neg fun hsw => hsw.2 hc
  cases h with
  | turn hturn =>
    rcases hturn with hstay | htakes
    · have hidx : s'.readyQueue.idxOf p = s.readyQueue.idxOf p := (hstay.idxOf hp).2
      rw [hzero hstay.1, hidx, zero_add]
    · have hidx : s'.readyQueue.idxOf p + 1 = s.readyQueue.idxOf p := ((htakes.idxOf hp).resolve_left hne).2
      have hle : switches s op s' ≤ 1 := by
        unfold switches
        split <;> omega
      omega
  | directed hop hany hmem hready =>
    have hno : switches s op s' = 0 := if_neg fun hsw => by
      rw [hop] at hsw
      exact absurd hsw.1 (by simp [Threads.directed, hany])
    obtain ⟨herase, hle⟩ := Sched.idxOf_erase_le hp hne
    rw [hno, zero_add, hready, List.idxOf_append_of_mem herase]
    exact hle
  | @kill tid v l hop hslot hcur hready hgone =>
    have hpv : p ≠ v := fun hc => hgone (hc ▸ hp')
    obtain ⟨herase, hle⟩ := Sched.idxOf_erase_le hp hpv
    rw [hzero hcur, zero_add, hready, List.idxOf_append_of_mem herase]
    exact hle

/-- a thread that is no longer ready runs, or it was killed -/
theorem Next.leaves (h : Next s op s') (hp : p ∈ s.readyQueue) (hp' : p ∉ s'.readyQueue) :
    s'.cpu.owner = p ∨ ∃ tid, op = .kill tid ∧ s.threads tid = some p := by
  cases h with
  | turn hturn =>
    rcases hturn with hstay | htakes
    · exact absurd (hstay.idxOf hp).1 hp'
    · exact Or.inl ((htakes.idxOf hp).resolve_right fun hc => hp' hc.1).symm
  | directed hop hany hmem hready =>
    left
    by_contra hne
    exact hp' (hready ▸ List.mem_append_left _ (Sched.idxOf_erase_le hp (Ne.symm hne)).1)
  | @kill tid v l hop hslot hcur hready hgone =>
    right
    by_cases hpv : p = v
    · exact ⟨tid, hop, hpv ▸ hslot⟩
    · exact absurd (hready ▸ List.mem_append_left _ (Sched.idxOf_erase_le hp hpv).1) hp'

/-- there are fewer ready threads than slots -/
theorem readyQueue_lt (h : Inv s) : s.readyQueue.length < threadMaxThreads := by
  set slot : Ptr → Tid := fun p => ((s.heap p).map Tcb.id).getD threadNone with hslot
  have hmem : ∀ y ∈ s.cpu.owner :: s.readyQueue, s.threads (slot y) = some y := by
    intro y hy
    have hsome : (stat s y).isSome := by
      rcases List.mem_cons.1 hy with rfl | hy
      · rw [h.cur_stat]
        rfl
      · rw [h.ready_stat hy]
        rfl
    obtain ⟨v, hv, hthr, -⟩ := stat_isSome hsome
    simpa [hslot, hv] using hthr
  have hnodup : (s.cpu.owner :: s.readyQueue).Nodup := List.nodup_cons.2 ⟨h.sched.cur_not_ready, h.sched.ready_nodup⟩
  have hslots : ((s.cpu.owner :: s.readyQueue).map slot).Nodup := by
    refine List.Nodup.map_on (fun y hy z hz heq => ?_) hnodup
    have hyz := hmem y hy
    rw [heq, hmem z hz] at hyz
    exact (Option.some.inj hyz).symm
  have hsub : (s.cpu.owner :: s.readyQueue).map slot ⊆ tids := by
    intro i hi
    obtain ⟨y, hy, rfl⟩ := List.mem_map.1 hi
    exact h.table.range _ _ (hmem y hy)
  have hle := (List.subperm_of_subset hslots hsub).length_le
  rw [List.length_map, List.length_cons] at hle
  have htids : tids.length = threadMaxThreads := by simp [tids]
  omega

/-- a preemption is a switch -/
theorem preempt_switches (h : Inv s) (hp : p ∈ s.readyQueue) (hs : step s .preempt = .ok s') :
    switches s .preempt s' = 1 := by
  unfold step at hs
  split at hs
  · next hf =>
    simp only [call] at hs
    split at hs
    · set s0 := s.interruptsOff.push .handler with hs0
      have hframes : s0.cpu.frames = [.handler] := by simp [hs0, State.push, State.interruptsOff, hf]
      have hm0 : Moves s s0 [] [] := moves_regs_quiet h s0.cpu s.ret rfl (by rw [hframes]; rfl)
      refine if_pos ⟨rfl, ?_⟩
      rcases threadYield_next (hm0.inv h) (fun e y => by rw [hframes]; rfl) hs with ⟨-, -, hnil⟩ |
        ⟨-, rest, hhead, -⟩ | ⟨hany, -⟩
      · have hready : s.readyQueue = [] := hnil rfl
        rw [hready] at hp
        exact absurd hp List.not_mem_nil
      · have hready : s.readyQueue = s'.cpu.owner :: rest := hhead
        exact h.ready_ne_owner (by rw [hready]; exact List.mem_cons_self)
      · exact absurd rfl hany
    · cases hs
  · split at hs
    · next hc => cases hc
    · cases hs

/-- **Bounded waiting.** A thread that is ready stays so for fewer than `THREAD_MAX_THREADS` switches, each of which
moves it up in the queue, as every preemption does; then it runs, or it is killed. -/
theorem bounded_waiting (enabled : Bool) (hrun : Run step killSafe (threadInit enabled) s)
    (hwait : Tally step killSafe (fun s => p ∈ s.readyQueue) switches s t k) :
    k + t.readyQueue.idxOf p ≤ s.readyQueue.idxOf p ∧ s.readyQueue.idxOf p + 1 < threadMaxThreads ∧
      (∀ u, step t .preempt = .ok u → switches t .preempt u = 1) ∧
      ∀ op u, killSafe t op = true → step t op = .ok u → p ∉ u.readyQueue →
        u.cpu.owner = p ∨ ∃ tid, op = .kill tid ∧ t.threads tid = some p := by
  have hs := run_inv hrun (inv_init enabled)
  have ht := run_inv hwait.run hs
  refine ⟨?_, ?_, fun u hu => preempt_switches ht hwait.last hu, fun op u hsafe hu hout => ?_⟩
  · refine Tally.bound (fun s => s.readyQueue.idxOf p) hwait hs (fun _ _ _ h hk hs => step_inv h hk hs) ?_
    intro v op w hv hp hp' hsafe hstep
    exact (step_next hv hsafe hstep).idxOf (step_inv hv hsafe hstep) hp hp'
  · have hlt := List.idxOf_lt_length_of_mem hwait.start
    have hmax := readyQueue_lt hs
    omega
  · exact (step_next ht hsafe hu).leaves hwait.last hout

/-- thread 2 is behind thread 1, and moves up when the initial thread yields -/
theorem bounded_waiting_two :
    ∃ s t, Run step killSafe (threadInit true) s ∧ Tally step killSafe (fun s => 2 ∈ s.readyQueue) switches s t 1 ∧
      1 + t.readyQueue.idxOf 2 ≤ s.readyQueue.idxOf 2 ∧ s.readyQueue.idxOf 2 + 1 < threadMaxThreads ∧
      (∀ u, step t .preempt = .ok u → switches t .preempt u = 1) ∧
      ∀ op u, killSafe t op = true → step t op = .ok u → 2 ∉ u.readyQueue →
        u.cpu.owner = 2 ∨ ∃ tid, op = .kill tid ∧ t.threads tid = some 2 := by
  have h : ∃ s, Run step killSafe (threadInit true) s ∧ (decide (2 ∈ s.readyQueue) &&
      tallies step killSafe (fun s => decide (2 ∈ s.readyQueue)) switches (fun _ n => decide (n = 1)) s 0
        [.yield threadAny]) = true := run_of_passes [.create true, .create true] (by decide +kernel)
  obtain ⟨s, hrun, hs⟩ := h
  obtain ⟨hmem, hs⟩ := Bool.and_eq_true_iff.1 hs
  have hzero : Tally step killSafe (fun s => decide (2 ∈ s.readyQueue) = true) switches s s 0 := .refl hmem
  obtain ⟨t, n, htally, hn⟩ := tally_of_tallies [Op.yield threadAny] hzero hs
  obtain rfl : n = 1 := of_decide_eq_true hn
  simp only [decide_eq_true_eq] at htally
  exact ⟨s, t, hrun, htally, bounded_waiting true hrun htally⟩

end OsLab.Threads
