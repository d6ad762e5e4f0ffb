/-
Which identifiers the entry points of the thread library accept.

`thread_kill` and `thread_wait` accept every identifier whose slot of `threads[]` is in use, `thread_yield` only that of
a ready thread. A thread that has exited keeps its slot until some `free_exited` reaches it, and so long it can be
killed and waited for (`exited_thread_killed`). `tids_agree`: they refuse exactly the identifiers that name no live
thread besides the caller as long as the slot holds no exited thread and `thread_id` answers for the caller; the latter
is so in every run in which victims of `thread_kill` are outside the objects' queues.
-/
import Mathlib.Tactic
import OsLab.Threads.Writes

namespace OsLab.Threads

open OsLab.Lib Function State

/-- `tid` is the identifier of a live thread other than the caller -/
def NamesLive (s : State) (tid : Tid) : Prop :=
  0 ≤ tid ∧ tid < threadMaxThreads ∧ s.threads tid ≠ some s.cpu.owner ∧ ∃ p st, InSlot s tid p st ∧ st ≠ .exited

/-- the call returned `THREAD_INVALID`, and nothing else happened -/
def refused (s : State) : State := { s with ret := some threadInvalid }

/-- `thread_kill` and `thread_wait` refuse exactly the identifiers that name no live thread other than the caller, and
`thread_yield` those of exited threads -/
structure Agree (s : State) (tid : Tid) : Prop where
  kill : threadKill s tid = .ok (refused s) ↔ ¬ NamesLive s tid
  wait : threadWait s tid = .ok (refused s) ↔ ¬ NamesLive s tid
  yield : ∀ p, InSlot s tid p .exited → ∀ s', threadYield s tid = .ok s' → s'.ret = some threadInvalid

/-- the slot `tid` holds the caller exactly if `thread_id` returns `tid`, and no other thread that has exited -/
def Clear (s : State) (tid : Tid) : Prop :=
  ∀ p, s.threads tid = some p →
    (p = s.cpu.owner ↔ tid = threadId s) ∧ (p ≠ s.cpu.owner → ¬ InSlot s tid p .exited)

section

variable {s s' : State} {tid : Tid} {p : Ptr}

/-! ## What each call refuses -/

theorem validTid_off (s : State) (tid : Tid) : validTid s.interruptsOff tid = validTid s tid := rfl

theorem threadKill_refused : threadKill s tid = .ok (refused s) ↔ validTid s tid = false := by
  unfold threadKill
  rcases Bool.eq_false_or_eq_true (validTid s tid) with hv | hv
  · have h0 : 0 ≤ tid := (of_decide_eq_true hv).1
    simp only [validTid_off, hv, Bool.not_true, Bool.false_eq_true, if_false, Bool.true_eq_false, iff_false]
    intro h
    simp only [bind_eq_ok] at h
    obtain ⟨p, -, s1, -, q, -, s2, -, s3, -, s4, -, h⟩ := h
    have hret : some tid = some threadInvalid := congrArg State.ret (Except.ok.inj h)
    rw [Option.some.injEq] at hret
    rw [hret] at h0
    exact absurd h0 (by decide)
  · simp only [validTid_off, hv, Bool.not_false, if_true, iff_true]
    rfl

theorem setStatus_log {st : Status} (h : s.setStatus p st = .ok s') : s'.log = s.log := by
  obtain ⟨t, -, rfl⟩ := setStatus_ok h
  rfl

theorem setQueue_log (s : State) (r : QRef) (q : List Ptr) : (s.setQueue r q).log = s.log := by
  cases r <;> rfl

theorem threadSleep_log {r : QRef} (h : threadSleep s r = .ok s') : s'.log = s.log := by
  simp only [threadSleep, bind_eq_ok] at h
  obtain ⟨first, -, h⟩ := h
  cases first with
  | none => cases h; rfl
  | some readyId =>
    simp only [bind_eq_ok, State.getcontext, State.setcontext] at h
    obtain ⟨p, -, me, -, s1, ⟨t1, -, h1⟩, q, -, t, -, q', -, s2, h2, s3, h3, t2, -, h4⟩ := h
    cases h1
    cases h4
    calc s3.log = s2.log := setStatus_log h3
      _ = _ := setStatus_log h2
      _ = s.log := setQueue_log _ r (q ++ [me])

theorem threadWait_refused : threadWait s tid = .ok (refused s) ↔ validTid s tid = false := by
  unfold threadWait
  rcases Bool.eq_false_or_eq_true (validTid s tid) with hv | hv
  · simp only [validTid_off, hv, Bool.not_true, Bool.false_eq_true, if_false, Bool.true_eq_false, iff_false]
    intro h
    rw [bind_eq_ok] at h
    obtain ⟨p, -, h⟩ := h
    -- the call has been recorded
    have hlog := congrArg List.length (threadSleep_log h)
    simp [refused, State.push, State.record, State.interruptsOff] at hlog
  · simp only [validTid_off, hv, Bool.not_false, if_true, iff_true]
    rfl

theorem inSlot_unique {st : Status} (h : InSlot s tid p st) {t : Tcb} (ht : s.heap p = some t) : t.status = st := by
  obtain ⟨-, u, hu, -, hst⟩ := h
  rw [ht, Option.some.injEq] at hu
  rw [hu, hst]

/-- the thread that `thread_id` finds is running -/
theorem threadId_running (h0 : 0 ≤ tid) (hid : tid = threadId s) : ∃ t, s.tcbAt tid = some t ∧ t.status = .running := by
  unfold threadId at hid
  generalize tids = l at hid
  cases hfind : l.find? fun i => (s.tcbAt i).any fun t => t.status = .running with
  | none =>
    rw [hfind] at hid
    rw [hid] at h0
    exact absurd h0 (by decide)
  | some i =>
    rw [hfind, Option.getD_some] at hid
    have hany := List.find?_some (p := fun i => (s.tcbAt i).any fun t => t.status = .running) hfind
    obtain ⟨t, ht, hst⟩ := (Option.any_eq_true _ _).1 hany
    exact ⟨t, by rw [hid]; exact ht, of_decide_eq_true hst⟩

/-- `thread_yield` accepts no exited thread -/
theorem threadYield_exited (h : Kept true s) (hex : InSlot s tid p .exited) (hs : threadYield s tid = .ok s') :
    s'.ret = some threadInvalid := by
  obtain ⟨hslot, t, ht, -, hst⟩ := hex
  have h0 : 0 ≤ tid := (mem_tids.1 (h.range tid p hslot)).1
  unfold threadYield at hs
  simp only [bind_eq_ok] at hs
  obtain ⟨s1, hf, hs⟩ := hs
  -- afterwards the slot is empty, or it holds the exited thread still
  have hat : ∀ u, s1.tcbAt tid = some u → u.status = .exited := by
    intro u hu
    obtain ⟨x, hx, hux⟩ := tcbAt_eq hu
    rcases freeExited_ok hf with rfl | ⟨i, y, q, hi, rfl⟩
    · have hx0 : s.threads tid = some x := hx
      have hux0 : s.heap x = some u := hux
      rw [hslot, Option.some.injEq] at hx0
      rw [← hx0, ht, Option.some.injEq] at hux0
      rw [← hux0, hst]
    · have hne : tid ≠ i := by rintro rfl; simp [reclaimed] at hx
      have hxy : x ≠ y := by rintro rfl; simp [reclaimed] at hux
      simp only [reclaimed, update_of_ne hne] at hx
      simp only [reclaimed, update_of_ne hxy] at hux
      have hx0 : s.threads tid = some x := hx
      have hux0 : s.heap x = some u := hux
      rw [hslot, Option.some.injEq] at hx0
      rw [← hx0, ht, Option.some.injEq] at hux0
      rw [← hux0, hst]
  have hself : tid ≠ threadSelf := by rintro rfl; exact absurd h0 (by decide)
  have hany : tid ≠ threadAny := by rintro rfl; exact absurd h0 (by decide)
  have hid : threadId s1 ≠ tid := by
    intro hid
    obtain ⟨u, hu, hrun⟩ := threadId_running h0 hid.symm
    rw [hat u hu] at hrun
    cases hrun
  have hready : (s1.tcbAt tid).any (fun t => t.status = .ready) = false := by
    rw [Option.any_eq_false]
    intro u hu
    simp [hat u hu]
  simp only [hself, hid, hany, hready, and_false, or_self, if_false, Bool.false_eq_true] at hs
  cases hs
  rfl

/-! ## When the entry points agree -/

theorem validTid_iff_slot (h : Kept true s) :
    validTid s tid = true ↔ (∃ p, s.threads tid = some p) ∧ tid ≠ threadId s := by
  simp only [validTid, decide_eq_true_eq, Option.isSome_iff_exists]
  constructor
  · rintro ⟨-, -, hsome, hne⟩
    exact ⟨hsome, hne⟩
  · rintro ⟨⟨p, hp⟩, hne⟩
    obtain ⟨h0, h1⟩ := mem_tids.1 (h.range tid p hp)
    exact ⟨h0, h1, ⟨p, hp⟩, hne⟩

theorem namesLive_iff (h : Kept true s) {t : Tcb} (hp : s.threads tid = some p) (ht : s.heap p = some t) :
    NamesLive s tid ↔ p ≠ s.cpu.owner ∧ t.status ≠ .exited := by
  obtain ⟨h0, h1⟩ := mem_tids.1 (h.range tid p hp)
  obtain ⟨u, hu, hid⟩ := h.slots tid p hp
  rw [ht, Option.some.injEq] at hu
  constructor
  · rintro ⟨-, -, hown, q, st, hq, hst⟩
    have hqp := hq.1
    rw [hp, Option.some.injEq] at hqp
    subst hqp
    exact ⟨fun heq => hown (by rw [hp, heq]), by rw [inSlot_unique hq ht]; exact hst⟩
  · rintro ⟨hown, hst⟩
    exact ⟨h0, h1, by rw [hp]; simpa using hown, p, t.status, ⟨hp, t, ht, by rw [hu]; exact hid, rfl⟩, hst⟩

theorem agree_iff (h : Kept true s) (tid : Tid) : Agree s tid ↔ Clear s tid := by
  have hagree : Agree s tid ↔ (validTid s tid = true ↔ NamesLive s tid) := by
    have hiff : (validTid s tid = false ↔ ¬ NamesLive s tid) ↔ (validTid s tid = true ↔ NamesLive s tid) := by
      rw [← Bool.not_eq_true, not_iff_not]
    refine ⟨fun ha => hiff.1 (threadKill_refused.symm.trans ha.kill), fun hv => ?_⟩
    exact ⟨threadKill_refused.trans (hiff.2 hv), threadWait_refused.trans (hiff.2 hv),
      fun p hex s' hs => threadYield_exited h hex hs⟩
  rw [hagree, validTid_iff_slot h]
  cases hp : s.threads tid with
  | none =>
    refine ⟨fun _ p hp' => ?_, fun _ => ⟨fun ⟨⟨p, hp'⟩, _⟩ => ?_, fun ⟨_, _, _, p, st, hslot, _⟩ => ?_⟩⟩
    · rw [hp] at hp'; cases hp'
    · cases hp'
    · rw [hslot.1] at hp; cases hp
  | some p =>
    obtain ⟨t, ht, hid⟩ := h.slots tid p hp
    rw [namesLive_iff h hp ht]
    have hslot : ∀ x, s.threads tid = some x ↔ x = p := fun x => by rw [hp, Option.some.injEq, eq_comm]
    have hexited : InSlot s tid p .exited ↔ t.status = .exited :=
      ⟨fun hs => inSlot_unique hs ht, fun hst => ⟨hp, t, ht, hid, hst⟩⟩
    have hclear : Clear s tid ↔ (p = s.cpu.owner ↔ tid = threadId s) ∧ (p ≠ s.cpu.owner → t.status ≠ .exited) := by
      simp only [Clear, hslot, forall_eq, hexited, ne_eq]
    -- a thread that `thread_id` finds is running
    have hrun : tid = threadId s → t.status ≠ .exited := by
      intro hid'
      obtain ⟨u, hu, hst⟩ := threadId_running (mem_tids.1 (h.range tid p hp)).1 hid'
      have hut : u = t := by simpa [State.tcbAt, hp, ht] using hu.symm
      rw [← hut, hst]
      decide
    rw [hclear]
    have hsome : ∃ x, some p = some x := ⟨p, rfl⟩
    simp only [hsome, true_and]
    by_cases hown : p = s.cpu.owner
    · simp [hown]
    · by_cases hst : t.status = .exited
      · have hnot : tid ≠ threadId s := fun hid' => hrun hid' hst
        simp [hown, hst, hnot]
      · simp [hown, hst]

/-- while no victim of `thread_kill` is in the queue of an object, `thread_id` answers for the caller -/
theorem clear_iff (h : Inv s) (tid : Tid) : Clear s tid ↔ ∀ p, ¬ InSlot s tid p .exited := by
  obtain ⟨hown, -⟩ := threadId_eq h
  constructor
  · intro hc p hex
    by_cases hp : p = s.cpu.owner
    · obtain ⟨u, hu, -, hst⟩ := stat_eq_some h.cur_stat
      obtain ⟨-, t, ht, -, hst'⟩ := hex
      rw [hp, hu, Option.some.injEq] at ht
      rw [← ht, hst] at hst'
      cases hst'
    · exact (hc p hex.1).2 hp hex
  · intro hno p hp
    refine ⟨⟨fun heq => ?_, fun heq => ?_⟩, fun _ => hno p⟩
    · rw [heq] at hp
      exact h.table.id_inj hp hown
    · rw [← heq, hp, Option.some.injEq] at hown
      exact hown

end

/-- **When the entry points agree on which identifiers are valid.** In every reachable state and for every integer they
agree exactly if its slot holds no exited thread besides the caller, and holds the caller exactly if `thread_id` returns
it. In runs in which victims of `thread_kill` are outside the objects' queues that is: if the slot holds no exited
thread. -/
theorem tids_agree (enabled : Bool) (s : State) (tid : Tid) (hrun : Run step anyStep (threadInit enabled) s) :
    (Agree s tid ↔ Clear s tid) ∧
      (Run step killSafe (threadInit enabled) s → (Clear s tid ↔ ∀ p, ¬ InSlot s tid p .exited)) :=
  ⟨agree_iff (kept_of_run hrun) tid, fun hsafe => clear_iff (run_inv hsafe (inv_init enabled)) tid⟩

/-- The initial thread yields to thread 1, which exits; then it can still be killed. -/
theorem exited_thread_killed :
    ¬ ∀ (enabled : Bool) (s : State), Run step anyStep (threadInit enabled) s → ∀ tid : Tid, Agree s tid := by
  intro hall
  have h : ∃ s, Run step anyStep (threadInit true) s ∧
      (decide (InSlot s 1 1 .exited ∧ s.cpu.owner = 0 ∧ s.cpu.frames = []) &&
        after (threadKill s 1) fun s' => s'.ret = some 1) = true :=
    run_of_passes [.create true, .yield 1, .resume, .exit, .resume] (by decide +kernel)
  obtain ⟨s, hrun, hs⟩ := h
  rw [Bool.and_eq_true] at hs
  obtain ⟨hex, -⟩ := of_decide_eq_true hs.1
  obtain ⟨s', hs', hret⟩ := exists_of_after hs.2
  have hdead : ¬ NamesLive s 1 := by
    rintro ⟨-, -, -, p, st, hlive, hst⟩
    obtain ⟨hp, t, ht, -, hte⟩ := hex
    have hpp := hlive.1
    rw [hp, Option.some.injEq] at hpp
    subst hpp
    exact hst (by rw [← inSlot_unique hlive ht, hte])
  have hkill := (hall true s hrun 1).kill.2 hdead
  rw [hs', Except.ok.injEq] at hkill
  have hinv : s'.ret = some threadInvalid := by rw [hkill]; rfl
  rw [of_decide_eq_true hret] at hinv
  cases hinv

/-- thread 1 is ready: it can be killed, and the initial thread cannot kill itself -/
theorem tids_agree_ready :
    ∃ s, Run step anyStep (threadInit true) s ∧ Agree s 1 ∧ NamesLive s 1 ∧ Agree s 0 ∧
      threadKill s 0 = .ok (refused s) := by
  have h : ∃ s, Run step killSafe (threadInit true) s ∧ decide (InSlot s 1 1 .ready ∧ InSlot s 0 0 .running ∧
      s.cpu.owner = 0) = true := run_of_passes [.create true] (by decide +kernel)
  obtain ⟨s, hrun, hs⟩ := h
  obtain ⟨h1, h0, hown⟩ := of_decide_eq_true hs
  have hany : Run step anyStep (threadInit true) s := hrun.mono fun _ _ _ => rfl
  have hagree : ∀ tid p st, InSlot s tid p st → st ≠ .exited → Agree s tid := by
    intro tid p st hslot hst
    refine (tids_agree true s tid hany).1.2 (((tids_agree true s tid hany).2 hrun).2 fun q hq => ?_)
    have hqp := hq.1
    rw [hslot.1, Option.some.injEq] at hqp
    subst hqp
    obtain ⟨hp, t, ht, -, hte⟩ := hq
    exact hst (by rw [← inSlot_unique hslot ht, hte])
  have ha0 := hagree 0 0 .running h0 (by decide)
  refine ⟨s, hany, hagree 1 1 .ready h1 (by decide), ?_, ha0, ha0.kill.2 fun hlive => ?_⟩
  · exact ⟨by decide, by decide, by rw [h1.1, hown]; decide, 1, .ready, h1, by decide⟩
  · exact hlive.2.2.1 (by rw [h0.1, hown])

end OsLab.Threads
