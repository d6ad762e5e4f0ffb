/-
Runs of the thread library: scheduling, kill, sleep and wait.

Every state is reached from `thread_init` by calls and preemptions in any order, over any number of threads.
- `scheduler_invariant`: without `thread_kill`, one thread runs and the ready queue is exactly the ready threads.
- `kill_is_final`: if every victim of `thread_kill` is outside the queues of locks, condition variables and user wait
  queues, a killed thread is in no queue afterwards and never becomes ready or running again. `killed_thread_wakes` is
  a victim asleep on a user queue: `delete_from_all_queues` visits the queues of threads only, the victim stays queued,
  and a later wakeup makes it ready.
- `no_lost_sleeper`: if moreover no `thread_wait` names an exited thread and no object is destroyed, every blocked
  thread waits in one queue, once, and the queue can still be woken. `sleeper_lost` waits for a thread that has exited
  and is not yet reclaimed: `free_exited` drops the queue with the sleeper in it.
- `wait_waits`: if moreover some thread is ready at every valid `thread_wait`, a `thread_wait` returns only after its
  target has exited or been killed. `wait_returns_early` calls it with nobody ready: `thread_sleep` returns
  `THREAD_NONE`, which `thread_wait` ignores.
-/
import Mathlib.Tactic
import OsLab.Threads.Step

namespace OsLab.Threads

open OsLab.Lib Function State

/-! ## The invariant over runs -/

theorem stat_init (enabled : Bool) (p : Ptr) :
    stat (threadInit enabled) p = if p = 0 then some .running else none := by
  by_cases hp : p = 0
  · subst hp; rfl
  · simp [stat, threadInit, hp]

theorem waiting_init (enabled : Bool) (r : QRef) : waiting (threadInit enabled) r = [] := by
  cases r with
  | thread p =>
    simp only [waiting, stat_init]
    by_cases hp : p = 0
    · subst hp; rfl
    · simp [hp]
  | lock | cv | user => rfl

theorem inv_init (enabled : Bool) : Inv (threadInit enabled) := by
  refine ⟨⟨fun t => ?_, List.nodup_nil, fun t => ?_, fun q t ht => ?_, fun q => ?_, fun q q' t ht => ?_⟩, ?_, rfl⟩
  · show stat (threadInit enabled) t = some .running ↔ t = 0
    rw [stat_init]
    by_cases ht : t = 0 <;> simp [ht]
  · show t ∈ [] ↔ stat (threadInit enabled) t = some .ready
    rw [stat_init]
    by_cases ht : t = 0 <;> simp [ht]
  · have : t ∈ waiting (threadInit enabled) q := ht
    rw [waiting_init] at this; cases this
  · show (waiting (threadInit enabled) q).Nodup
    rw [waiting_init]; exact List.nodup_nil
  · have : t ∈ waiting (threadInit enabled) q := ht
    rw [waiting_init] at this; cases this
  · refine ⟨fun i p hi => ?_, fun i p hi => ?_, fun p hp => ?_, fun p t ht => ?_, fun p t ht hst => ?_, fun p => ?_,
      fun _ _ => ⟨rfl, rfl, rfl⟩⟩
    · by_cases h0 : i = 0
      · subst h0; exact mem_tids.2 ⟨le_rfl, by decide⟩
      · simp [threadInit, h0] at hi
    · by_cases h0 : i = 0
      · subst h0
        have : p = 0 := by simpa [threadInit] using hi.symm
        subst this; exact ⟨_, rfl, rfl⟩
      · simp [threadInit, h0] at hi
    · have h0 : p ≠ 0 := (Nat.lt_of_succ_le hp).ne'
      simp [threadInit, h0]
    · by_cases h0 : p = 0
      · subst h0
        simp only [threadInit, if_true, Option.some.injEq] at ht
        rw [← ht]
      · simp [threadInit, h0] at ht
    · rw [stat_init] at hst
      by_cases h0 : p = 0 <;> simp [h0] at hst
    · rw [waiting_init]; simp

theorem step_inv {s s' : State} {op : Op} (h : Inv s) (hk : killSafe s op = true) (hs : step s op = .ok s') :
    Inv s' := by
  obtain ⟨acts, evs, hm, -⟩ := step_spec h hk hs
  exact hm.inv h

theorem run_inv {s s' : State} (hrun : Run step killSafe s s') (h : Inv s) : Inv s' :=
  hrun.inv Inv (fun _ _ _ h hk hs => step_inv h hk hs) h

/-! ## Scheduling -/

def noKill (_ : State) : Op → Bool
  | .kill _ => false
  | _ => true

theorem killSafe_of_noKill {s : State} {op : Op} (h : noKill s op = true) : killSafe s op = true := by
  cases op with
  | kill tid => cases h
  | _ => rfl

theorem reachable_inv {enabled : Bool} {s : State} (hrun : Run step noKill (threadInit enabled) s) : Inv s :=
  run_inv (hrun.mono fun _ _ => killSafe_of_noKill) (inv_init enabled)

/-- the thread `p` is in slot `i` of `threads[]`, with status `st` -/
def InSlot (s : State) (i : Tid) (p : Ptr) (st : Status) : Prop :=
  s.threads i = some p ∧ ∃ t, s.heap p = some t ∧ t.id = i ∧ t.status = st

instance (s : State) (i : Tid) (p : Ptr) (st : Status) : Decidable (InSlot s i p st) :=
  decidable_of_iff (s.threads i = some p ∧ (s.heap p).any (fun t => t.id = i ∧ t.status = st) = true)
    (by simp [InSlot, Option.any_eq_true])

theorem inSlot_iff {s : State} (h : Table s) {p : Ptr} {st : Status} :
    (∃ i, InSlot s i p st) ↔ stat s p = some st := by
  constructor
  · rintro ⟨i, hi, t, ht, -, hst⟩
    obtain ⟨t', ht', -, hstat⟩ := h.stat_slot hi
    rw [ht, Option.some.injEq] at ht'
    subst ht'
    rw [hstat, hst]
  · intro hst
    obtain ⟨t, ht, hslot, hst⟩ := stat_eq_some hst
    exact ⟨t.id, hslot, t, ht, rfl, hst⟩

/-- **The scheduler invariant.** Exactly one thread of the table runs; the ready queue holds exactly the ready threads
of the table, each once and at its own slot; no blocked or exited thread is in it. -/
theorem scheduler_invariant (enabled : Bool) (s : State) (hrun : Run step noKill (threadInit enabled) s) :
    (∃! i, ∃ p, InSlot s i p .running) ∧ s.readyQueue.Nodup ∧
      (∀ p, p ∈ s.readyQueue ↔ ∃ i, InSlot s i p .ready) ∧
      (∀ i p, InSlot s i p .blocked ∨ InSlot s i p .exited → p ∉ s.readyQueue) ∧
      ∀ i p, s.threads i = some p → ∃ t, s.heap p = some t ∧ t.id = i := by
  have h := reachable_inv hrun
  have hready : ∀ p, p ∈ s.readyQueue ↔ ∃ i, InSlot s i p .ready := by
    intro p
    rw [inSlot_iff h.table]; exact h.sched.ready_iff p
  refine ⟨?_, h.sched.ready_nodup, hready, ?_, h.table.id⟩
  · obtain ⟨i, hi⟩ := (inSlot_iff h.table).2 h.cur_stat
    refine ⟨i, ⟨s.cpu.owner, hi⟩, ?_⟩
    rintro j ⟨p, hj⟩
    have hp : p = s.cpu.owner := (h.sched.running_iff p).1 ((inSlot_iff h.table).1 ⟨j, hj⟩)
    subst hp
    exact h.table.id_inj hj.1 hi.1
  · intro i p hst hm
    have hr := h.ready_stat hm
    rcases hst with hst | hst
    · rw [(inSlot_iff h.table).1 ⟨i, hst⟩] at hr; cases hr
    · rw [(inSlot_iff h.table).1 ⟨i, hst⟩] at hr; cases hr

/-- two threads are created, one takes a lock and is preempted, the other blocks on the lock -/
theorem scheduler_invariant_contended_lock :
    ∃ s, Run step noKill (threadInit true) s ∧ s.readyQueue = [1] ∧ ∃! i, ∃ p, InSlot s i p .running := by
  have h : ∃ t, Run step noKill (threadInit true) t ∧ decide (t.readyQueue = [1]) = true :=
    run_of_passes [.create true, .create true, .lockCreate 7, .yield 1, .resume, .lockAcquire 0, .preempt, .resume,
      .lockAcquire 0] (by decide +kernel)
  obtain ⟨s, hrun, hq⟩ := h
  exact ⟨s, hrun, of_decide_eq_true hq, (scheduler_invariant true s hrun).1⟩

/-! ## Kill -/

theorem ret_invalid {s s' : State} {tid : Tid} (hv : validTid s.interruptsOff tid ≠ true)
    (hs : threadKill s tid = .ok s') : s'.ret = some threadInvalid := by
  simp only [threadKill, hv] at hs
  cases hs; rfl

/-- a `thread_kill` that returns its argument leaves the victim dead -/
theorem kill_dead {s s' : State} (h : Inv s) {tid : Tid} {p : Ptr} (hp : s.threads tid = some p)
    (hsafe : killSafe s (.kill tid) = true) (hs : step s (.kill tid) = .ok s') (hret : s'.ret = some tid) :
    (view s').Dead p ∧ p < s'.nextPtr := by
  have hpn : p < s.nextPtr := by
    by_contra hge
    obtain ⟨t, ht, -⟩ := h.table.id tid p hp
    rw [h.table.fresh p (Nat.le_of_not_lt hge)] at ht; cases ht
  have hf : s.cpu.frames = [] := by
    cases hf : s.cpu.frames with
    | nil => rfl
    | cons f fs => simp [step, hf] at hs
  simp only [step, hf, call] at hs
  have hne : p ≠ s.cpu.owner := by
    rintro rfl
    have hv : validTid s.interruptsOff tid ≠ true := by
      intro hv
      obtain ⟨q, hq, hne⟩ := (validTid_iff h.off).1 hv
      have hq' : s.threads tid = some q := hq
      rw [hp, Option.some.injEq] at hq'
      exact hne hq'.symm
    have hinv := ret_invalid hv hs
    rw [hret, Option.some.injEq] at hinv
    have := (mem_tids.1 (h.table.range _ _ hp)).1
    rw [hinv] at this
    exact absurd this (by decide)
  have hout : inObjectQueue s p = false := by simpa [killSafe, hp] using hsafe
  obtain ⟨s1, acts, hs1, hr, hm, -, -⟩ := threadKill_spec h hp hne fun r => inObjectQueue_false h.table hout
  rw [hs1, Except.ok.injEq] at hs
  subst hs
  refine ⟨?_, hpn.trans_le hm.nextPtr⟩
  cases hm.trace with
  | cons _ ha htr =>
    have hinv := h.sched.apply ha
    cases htr with
    | cons _ hb htr =>
      refine htr.dead (hinv.apply hb) (Or.inr (update_self _ _ _)) fun hsp => ?_
      obtain ⟨q, hq⟩ := hr _ hsp
      cases hq

theorem step_dead {s s' : State} {op : Op} {p : Ptr} (h : Inv s) (hd : (view s).Dead p) (hp : p < s.nextPtr)
    (hk : killSafe s op = true) (hs : step s op = .ok s') : (view s').Dead p ∧ p < s'.nextPtr := by
  obtain ⟨acts, evs, hm, -⟩ := step_spec h hk hs
  refine ⟨hm.trace.dead h.sched hd fun hsp => ?_, hp.trans_le hm.nextPtr⟩
  exact absurd (hm.spawned p hsp) (Nat.not_le_of_lt hp)

/-- **Kill is final**, if victims are outside the objects' queues: the killed thread is in no queue and is neither ready
nor running, right after the kill and in every later state. -/
theorem kill_is_final (enabled : Bool) (s s1 s2 : State) (tid : Tid) (p : Ptr)
    (h0 : Run step killSafe (threadInit enabled) s) (hp : s.threads tid = some p)
    (hsafe : killSafe s (.kill tid) = true) (hkill : step s (.kill tid) = .ok s1) (hret : s1.ret = some tid)
    (hlater : Run step killSafe s1 s2) :
    p ∉ s2.readyQueue ∧ (∀ r, p ∉ waiting s2 r) ∧ stat s2 p ≠ some .ready ∧ stat s2 p ≠ some .running := by
  have h := run_inv h0 (inv_init enabled)
  obtain ⟨hd1, hp1⟩ := kill_dead h hp hsafe hkill hret
  have h1 := step_inv h hsafe hkill
  have hinv : ∀ t op t', (Inv t ∧ (view t).Dead p ∧ p < t.nextPtr) → killSafe t op = true → step t op = .ok t' →
      Inv t' ∧ (view t').Dead p ∧ p < t'.nextPtr := by
    rintro t op t' ⟨ht, hd, hpt⟩ hk hs
    exact ⟨step_inv ht hk hs, step_dead ht hd hpt hk hs⟩
  obtain ⟨h2, hd, -⟩ := hlater.inv (fun t => Inv t ∧ (view t).Dead p ∧ p < t.nextPtr) hinv ⟨h1, hd1, hp1⟩
  refine ⟨hd.not_ready h2.sched, hd.not_wait h2.sched, fun hst => ?_, fun hst => ?_⟩
  · exact hd.not_ready h2.sched ((h2.sched.ready_iff p).2 hst)
  · exact hd.ne_cur h2.sched ((h2.sched.running_iff p).1 hst)

/-- thread 2 is ready when it is killed, and a new thread takes its slot -/
theorem kill_is_final_of_ready :
    ∃ s s1 s2, Run step killSafe (threadInit true) s ∧ 2 ∈ s.readyQueue ∧ step s (.kill 2) = .ok s1 ∧
      Run step killSafe s1 s2 ∧ s2.threads 2 = some 3 ∧ 2 ∉ s2.readyQueue ∧ ∀ r, 2 ∉ waiting s2 r := by
  have h : ∃ s, Run step killSafe (threadInit true) s ∧ (decide (2 ∈ s.readyQueue) &&
      decide (s.threads 2 = some 2) && killSafe s (.kill 2) && after (step s (.kill 2)) fun s1 =>
      decide (s1.ret = some 2) &&
      passes step killSafe (fun s2 => decide (s2.threads 2 = some 3)) s1 [.create true, .yield 1, .resume, .exit]) =
        true :=
    run_of_passes [.create true, .create true] (by decide +kernel)
  obtain ⟨s, h0, hs⟩ := h
  simp only [Bool.and_eq_true, decide_eq_true_eq] at hs
  obtain ⟨⟨⟨hready, hp⟩, hsafe⟩, hafter⟩ := hs
  obtain ⟨s1, hk, hs1⟩ := exists_of_after hafter
  simp only [Bool.and_eq_true, decide_eq_true_eq] at hs1
  obtain ⟨s2, h2, hslot⟩ := run_of_passes _ hs1.2
  obtain ⟨hq, hr, -⟩ := kill_is_final true s s1 s2 2 2 h0 hp hsafe hk hs1.1 h2
  exact ⟨s, s1, s2, h0, hready, hk, h2, of_decide_eq_true hslot, hq, hr⟩

/-- Without the condition on victims kill is not final. Thread 2 sleeps on a user queue and thread 1 has exited when the
initial thread kills thread 2: `free_exited` reclaims thread 1, thread 2 stays in the queue, and a wakeup makes it
ready. -/
theorem killed_thread_wakes :
    ¬ ∀ (enabled : Bool) (s s1 s2 : State) (tid : Tid) (p : Ptr), Run step anyStep (threadInit enabled) s →
      s.threads tid = some p → step s (.kill tid) = .ok s1 → s1.ret = some tid → Run step anyStep s1 s2 →
      p ∉ s2.readyQueue ∧ (∀ r, p ∉ waiting s2 r) ∧ stat s2 p ≠ some .ready ∧ stat s2 p ≠ some .running := by
  intro hall
  have h : ∃ s, Run step anyStep (threadInit true) s ∧ (decide (s.threads 2 = some 2) &&
      after (step s (.kill 2)) fun s1 => decide (s1.ret = some 2) &&
        (decide (2 ∈ waiting s1 (.user 0)) &&
          passes step anyStep (fun s2 => decide (stat s2 2 = some .ready)) s1 [.wakeup 0 true])) = true :=
    run_of_passes [.waitQueueCreate, .create true, .create true, .yield 2, .resume, .sleep 0, .resume, .exit, .resume]
      (by decide +kernel)
  obtain ⟨s, h0, hs⟩ := h
  simp only [Bool.and_eq_true, decide_eq_true_eq] at hs
  obtain ⟨hp, hafter⟩ := hs
  obtain ⟨s1, hk, hs1⟩ := exists_of_after hafter
  simp only [Bool.and_eq_true, decide_eq_true_eq] at hs1
  obtain ⟨s2, h2, hready⟩ := run_of_passes _ hs1.2.2
  exact (hall true s s1 s2 2 2 h0 hp hk hs1.1 h2).2.2.1 (of_decide_eq_true hready)

/-! ## Sleep -/

/-- no `thread_wait` names a thread that has exited -/
def waitsForLive (s : State) : Op → Bool
  | .wait tid => (s.tcbAt tid).all fun t => t.status ≠ .exited
  | _ => true

def sleeperSafe (s : State) (op : Op) : Bool := killSafe s op && waitsForLive s op && !op.destroys

theorem plain_safe {a : Act Ptr QRef} (h : Plain a) (v : Sched Ptr QRef) : v.Safe .thread a := by
  cases a with
  | block q t =>
    cases q with
    | thread p => exact absurd h id
    | lock | cv | user => intro x hx; cases hx
  | drop q => exact absurd h id
  | _ => trivial

theorem step_tidy {s s' : State} {op : Op} (h : Inv s) (ht : (view s).Tidy .thread) (hg : sleeperSafe s op = true)
    (hs : step s op = .ok s') : (view s').Tidy .thread := by
  simp only [sleeperSafe, Bool.and_eq_true, Bool.not_eq_true'] at hg
  obtain ⟨⟨hk, hw⟩, hd⟩ := hg
  obtain ⟨acts, evs, hm, heff, -⟩ := step_spec h hk hs
  cases heff with
  | plain hp _ => exact hm.trace.tidy h.sched ht fun a ha v => plain_safe (hp a ha) v
  | exit hr =>
    refine hm.trace.tidy h.sched ht fun a ha v => ?_
    rcases List.mem_append.1 ha with ha | ha
    · exact plain_safe (hr.plain a ha) v
    · simp only [List.mem_cons, List.not_mem_nil, or_false] at ha
      rcases ha with rfl | rfl <;> trivial
  | kill _ _ hr =>
    refine hm.trace.tidy h.sched ht fun a ha v => ?_
    rcases List.mem_append.1 ha with ha | ha
    · simp only [List.mem_cons, List.not_mem_nil, or_false] at ha
      rcases ha with rfl | rfl <;> trivial
    · exact plain_safe (hr.plain a ha) v
  | @wait tid p t hop hp =>
    have htr := hm.trace
    generalize view s' = v at htr ⊢
    cases htr with
    | cons _ ha htr =>
      cases htr
      refine ht.apply h.sched ha fun x hx hdead => ?_
      cases hx
      obtain ⟨u, hu, -, hst⟩ := h.table.stat_slot hp
      subst hop
      have hne : u.status ≠ .exited := by simpa [waitsForLive, State.tcbAt, hp, hu] using hw
      rcases hdead with hn | hn
      · rw [show stat s p = none from hn] at hst; cases hst
      · rw [show stat s p = some .exited from hn, Option.some.injEq] at hst
        exact hne hst.symm
  | busyWait => exact hm.trace.tidy h.sched ht (by simp)
  | drop hdes _ => rw [hdes] at hd; cases hd

/-- the queue can still be woken: it is that of a thread that has not exited, or of an existing object -/
def wakeable (s : State) : QRef → Bool
  | .thread p => (stat s p).any fun st => st ≠ .exited
  | r => (s.queue r).isSome

/-- **No lost sleeper**, if no wait names an exited thread, victims of kills are outside the objects' queues and no
object is destroyed: every blocked thread waits in exactly one queue, once, and that queue can still be woken. -/
theorem no_lost_sleeper (enabled : Bool) (s : State) (hrun : Run step sleeperSafe (threadInit enabled) s) (i : Tid)
    (p : Ptr) (hb : InSlot s i p .blocked) :
    ∃ r, (waiting s r).count p = 1 ∧ (∀ r', p ∈ waiting s r' → r' = r) ∧ wakeable s r = true := by
  have hinit : (view (threadInit enabled)).Tidy .thread := by
    refine ⟨fun t ht => ?_, fun t _ => waiting_init enabled (.thread t)⟩
    have : stat (threadInit enabled) t = some .blocked := ht
    rw [stat_init] at this
    by_cases h0 : t = 0 <;> simp [h0] at this
  have hstep : ∀ t op t', (Inv t ∧ (view t).Tidy .thread) → sleeperSafe t op = true → step t op = .ok t' →
      Inv t' ∧ (view t').Tidy .thread := by
    rintro t op t' ⟨h, ht⟩ hg hs
    have hk : killSafe t op = true := by
      simp only [sleeperSafe, Bool.and_eq_true] at hg; exact hg.1.1
    exact ⟨step_inv h hk hs, step_tidy h ht hg hs⟩
  obtain ⟨h, ht⟩ := hrun.inv (fun t => Inv t ∧ (view t).Tidy .thread) hstep ⟨inv_init enabled, hinit⟩
  have hst : stat s p = some .blocked := (inSlot_iff h.table).1 ⟨i, hb⟩
  obtain ⟨r, hr⟩ := ht.covered p hst
  have hr' : p ∈ waiting s r := hr
  refine ⟨r, List.count_eq_one_of_mem (h.wait_nodup r) hr', fun r' hm => h.sched.wait_unique r' r p hm hr, ?_⟩
  cases r with
  | thread x =>
    have hnd : ¬ (view s).Dead x := fun hd => by
      have : waiting s (.thread x) = [] := ht.empty x hd
      rw [this] at hr'; cases hr'
    cases hx : stat s x with
    | none => exact absurd (Or.inl hx) hnd
    | some st =>
      have hne : st ≠ .exited := by rintro rfl; exact hnd (Or.inr hx)
      simp [wakeable, hx, hne]
  | lock l | cv l | user l =>
    have hsome : ∀ q : Option (List Ptr), p ∈ q.getD [] → q.isSome = true := by
      intro q hq
      cases q with
      | none => cases hq
      | some => rfl
    exact hsome _ hr'

/-- thread 2 is blocked on a lock that thread 1 holds -/
theorem no_lost_sleeper_on_lock :
    ∃ s r, Run step sleeperSafe (threadInit true) s ∧ InSlot s 2 2 .blocked ∧ (waiting s r).count 2 = 1 ∧
      wakeable s r = true := by
  have h : ∃ s, Run step sleeperSafe (threadInit true) s ∧ decide (InSlot s 2 2 .blocked) = true :=
    run_of_passes [.create true, .create true, .lockCreate 7, .yield 1, .resume, .lockAcquire 0, .preempt, .resume,
      .lockAcquire 0] (by decide +kernel)
  obtain ⟨s, hrun, hb⟩ := h
  obtain ⟨r, hc, -, hw⟩ := no_lost_sleeper true s hrun 2 2 (of_decide_eq_true hb)
  exact ⟨s, r, hrun, of_decide_eq_true hb, hc, hw⟩

def noDestroy (_ : State) (op : Op) : Bool := !op.destroys

/-- A sleeper can be lost without any destroyed object. Thread 1 has exited and is not reclaimed when thread 2 waits for
it; the next `free_exited` destroys the queue, and thread 2 is blocked in no queue. -/
theorem sleeper_lost :
    ¬ ∀ (enabled : Bool) (s : State), Run step noDestroy (threadInit enabled) s → ∀ (i : Tid) (p : Ptr),
      InSlot s i p .blocked →
      ∃ r, (waiting s r).count p = 1 ∧ (∀ r', p ∈ waiting s r' → r' = r) ∧ wakeable s r = true := by
  intro hall
  have h : ∃ s, Run step (fun s op => noKill s op && noDestroy s op) (threadInit true) s ∧
      (decide (InSlot s 2 2 .blocked) && !inObjectQueue s 2 &&
        (List.range s.nextPtr).all fun x => decide (2 ∉ waiting s (.thread x))) = true :=
    run_of_passes [.create true, .create true, .yield 1, .resume, .exit, .resume, .wait 1, .resume, .yield threadSelf]
      (by decide +kernel)
  obtain ⟨s, hrun, hs⟩ := h
  simp only [Bool.and_eq_true, Bool.not_eq_true', decide_eq_true_eq, List.all_eq_true, List.mem_range] at hs
  obtain ⟨⟨hb, hout⟩, hthr⟩ := hs
  have hinv : Inv s := reachable_inv (hrun.mono fun _ _ hg => by simp only [Bool.and_eq_true] at hg; exact hg.1)
  obtain ⟨r, hc, -, -⟩ := hall true s (hrun.mono fun _ _ hg => by simp only [Bool.and_eq_true] at hg; exact hg.2) 2 2 hb
  have hm : 2 ∈ waiting s r := List.count_pos_iff.1 (by omega)
  obtain ⟨x, rfl⟩ := inObjectQueue_false hinv.table hout hm
  by_cases hx : x < s.nextPtr
  · exact hthr x hx hm
  · simp [waiting, hinv.table.stat_none (Nat.le_of_not_lt hx)] at hm

/-! ## Wait -/

/-- some thread is ready whenever `thread_wait` names another thread of the table -/
def readyAtWait (s : State) : Op → Bool
  | .wait tid => !validTid s tid || !s.readyQueue.isEmpty
  | _ => true

def waitSafe (s : State) (op : Op) : Bool := killSafe s op && readyAtWait s op

/-- a `thread_wait` by `c` on thread `p` that has not returned: the target has ended, or `c` is parked in its queue -/
def Pending (s : State) : Prop :=
  ∀ pre mid c tid p, s.log = pre ++ .waitCall c tid p :: mid → (∀ i, .waitReturn c i ∉ mid) →
    .exited p ∈ mid ∨ .killed p ∈ mid ∨ ((view s).Parked c (.thread p) ∧ c < s.nextPtr)

/-- between a call of `thread_wait` and its return the target has ended -/
def Waited (log : List Event) : Prop :=
  ∀ pre mid post c tid p, log = pre ++ .waitCall c tid p :: (mid ++ .waitReturn c tid :: post) →
    (∀ i, .waitReturn c i ∉ mid) → .exited p ∈ mid ∨ .killed p ∈ mid

/-- where an element of a list with one more at its end is -/
theorem concat_split {A : Type} {l pre mid : List A} {e x : A} (h : l ++ [e] = pre ++ x :: mid) :
    (mid = [] ∧ x = e ∧ l = pre) ∨ ∃ mid', mid = mid' ++ [e] ∧ l = pre ++ x :: mid' := by
  rcases List.eq_nil_or_concat mid with rfl | ⟨mid', y, rfl⟩
  · obtain ⟨h1, h2⟩ := List.append_inj' h rfl
    exact Or.inl ⟨rfl, (List.cons.inj h2).1.symm, h1⟩
  · have h' : l ++ [e] = (pre ++ x :: mid') ++ [y] := by simpa using h
    obtain ⟨h1, h2⟩ := List.append_inj' h' rfl
    exact Or.inr ⟨mid', by rw [(List.cons.inj h2).1, List.concat_eq_append], h1⟩

/-- how the record of calls grows: what was pending stays parked unless its target's queue is woken -/
theorem pending_parked {s s' : State} {acts : List (Act Ptr QRef)} {evs : List Event} (h : Inv s)
    (hm : Moves s s' acts evs) {c p : Ptr} (hp : (view s).Parked c (.thread p)) (hc : c < s.nextPtr)
    (h1 : Act.wakeOne (.thread p) ∉ acts) (h2 : Act.wakeAll (.thread p) ∉ acts) :
    (view s').Parked c (.thread p) ∧ c < s'.nextPtr :=
  ⟨hm.trace.parked h.sched hp (fun hsp => absurd (hm.spawned c hsp) (Nat.not_le_of_lt hc)) h1 h2,
    hc.trans_le hm.nextPtr⟩

/-- a thread's queue is woken only by its end -/
theorem Effect.wakes {s : State} {op : Op} {acts : List (Act Ptr QRef)} {evs : List Event} (h : Effect s op acts evs)
    (p : Ptr) : Act.wakeOne (.thread p) ∉ acts ∧
      (Act.wakeAll (.thread p) ∈ acts → .exited p ∈ evs ∨ .killed p ∈ evs) := by
  cases h with
  | plain hp _ => exact ⟨fun hm => hp _ hm, fun hm => absurd (hp _ hm) id⟩
  | exit hr =>
    constructor
    · intro hm
      rcases List.mem_append.1 hm with hm | hm
      · exact hr.plain _ hm
      · simp at hm
    · intro hm
      rcases List.mem_append.1 hm with hm | hm
      · exact absurd (hr.plain _ hm) id
      · simp only [List.mem_cons, Act.wakeAll.injEq, QRef.thread.injEq, List.not_mem_nil, or_false, reduceCtorEq] at hm
        left; rw [hm]; exact List.mem_cons_self
  | kill _ _ hr =>
    constructor
    · intro hm
      rcases List.mem_append.1 hm with hm | hm
      · simp at hm
      · exact hr.plain _ hm
    · intro hm
      rcases List.mem_append.1 hm with hm | hm
      · simp only [List.mem_cons, Act.wakeAll.injEq, QRef.thread.injEq, List.not_mem_nil, or_false, reduceCtorEq] at hm
        right; rw [hm]; exact List.mem_cons_self
      · exact absurd (hr.plain _ hm) id
  | wait | busyWait | drop => simp

theorem Effect.events {s : State} {op : Op} {acts : List (Act Ptr QRef)} {evs : List Event} (h : Effect s op acts evs) :
    evs = [] ∨ ∃ e, evs = [e] := by
  cases h with
  | plain _ hmin => cases hmin <;> simp
  | exit | kill | wait | busyWait | drop => simp

/-- `thread_wait` returns in the running thread -/
theorem Effect.waitReturn {s : State} {op : Op} {acts : List (Act Ptr QRef)} {c : Ptr} {tid : Tid}
    (h : Effect s op acts [.waitReturn c tid]) : c = s.cpu.owner := by
  cases h with
  | plain _ hmin => cases hmin; rfl

/-- a call of `thread_wait` parks its caller, if somebody is ready -/
theorem parked_of_waitCall {s s' : State} {op : Op} {acts : List (Act Ptr QRef)} {c p : Ptr} {tid : Tid} (h : Inv s)
    (hw : readyAtWait s op = true) (hm : Moves s s' acts [.waitCall c tid p])
    (he : Effect s op acts [.waitCall c tid p]) : (view s').Parked c (.thread p) ∧ c < s'.nextPtr := by
  have hlt : s.cpu.owner < s.nextPtr := by
    by_contra hge
    have := h.table.stat_none (Nat.le_of_not_lt hge)
    rw [h.cur_stat] at this; cases this
  cases he with
  | plain _ hmin => cases hmin
  | wait hop hp =>
    refine ⟨?_, hlt.trans_le hm.nextPtr⟩
    have htr := hm.trace
    generalize view s' = v at htr ⊢
    cases htr with
    | cons _ ha htr =>
      cases htr
      exact Sched.parked_of_block h.sched (.thread p)
  | busyWait hop hp hne hnil =>
    subst hop
    have hv : validTid s tid = true := (validTid_iff h).2 ⟨p, hp, hne⟩
    simp [readyAtWait, hv, hnil] at hw

theorem step_pending {s s' : State} {op : Op} (h : Inv s) (hp : Pending s) (hg : waitSafe s op = true)
    (hs : step s op = .ok s') : Pending s' := by
  simp only [waitSafe, Bool.and_eq_true] at hg
  obtain ⟨acts, evs, hm, heff, -⟩ := step_spec h hg.1 hs
  -- a call already pending in `s`
  have hold : ∀ pre mid c tid p, s.log = pre ++ .waitCall c tid p :: mid → (∀ i, .waitReturn c i ∉ mid) →
      .exited p ∈ mid ++ evs ∨ .killed p ∈ mid ++ evs ∨ ((view s').Parked c (.thread p) ∧ c < s'.nextPtr) := by
    intro pre mid c tid p hlog hno
    rcases hp pre mid c tid p hlog hno with hx | hx | ⟨hpark, hc⟩
    · exact Or.inl (List.mem_append_left _ hx)
    · exact Or.inr (Or.inl (List.mem_append_left _ hx))
    · obtain ⟨h1, h2⟩ := heff.wakes p
      by_cases hwake : Act.wakeAll (.thread p) ∈ acts
      · rcases h2 hwake with hx | hx
        · exact Or.inl (List.mem_append_right _ hx)
        · exact Or.inr (Or.inl (List.mem_append_right _ hx))
      · exact Or.inr (Or.inr (pending_parked h hm hpark hc h1 hwake))
  intro pre mid c tid p hlog hno
  rw [hm.log] at hlog
  rcases heff.events with rfl | ⟨e, rfl⟩
  · rw [List.append_nil] at hlog
    have := hold pre mid c tid p hlog hno
    rwa [List.append_nil] at this
  · rcases concat_split hlog with ⟨rfl, rfl, -⟩ | ⟨mid', rfl, hlog'⟩
    · exact Or.inr (Or.inr (parked_of_waitCall h hg.2 hm heff))
    · exact hold pre mid' c tid p hlog' fun i hi => hno i (List.mem_append_left _ hi)

theorem step_waited {s s' : State} {op : Op} (h : Inv s) (hp : Pending s) (hw : Waited s.log)
    (hg : waitSafe s op = true) (hs : step s op = .ok s') : Waited s'.log := by
  simp only [waitSafe, Bool.and_eq_true] at hg
  obtain ⟨acts, evs, hm, heff, -⟩ := step_spec h hg.1 hs
  intro pre mid post c tid p hlog hno
  rw [hm.log] at hlog
  rcases heff.events with rfl | ⟨e, rfl⟩
  · rw [List.append_nil] at hlog
    exact hw pre mid post c tid p hlog hno
  · rcases concat_split hlog with ⟨hnil, -, -⟩ | ⟨mid', hmid, hlog'⟩
    · simp at hnil
    · rcases concat_split hmid.symm with ⟨rfl, rfl, rfl⟩ | ⟨post', rfl, rfl⟩
      · -- the call returns now, so its caller runs and is not parked
        rcases hp pre mid' c tid p hlog' hno with hx | hx | ⟨hpark, -⟩
        · exact Or.inl hx
        · exact Or.inr hx
        · have hc := heff.waitReturn
          subst hc
          exact absurd h.sched.cur_running hpark.not_running
      · exact hw pre mid post' c tid p hlog' hno

/-- **`thread_wait` waits**, if somebody is ready at every valid call and victims of kills are outside the objects'
queues: between a call that names thread `p` and the return of that call to its caller, `p` has exited or been
killed. -/
theorem wait_waits (enabled : Bool) (s : State) (hrun : Run step waitSafe (threadInit enabled) s) : Waited s.log := by
  have hstep : ∀ t op t', (Inv t ∧ Pending t ∧ Waited t.log) → waitSafe t op = true → step t op = .ok t' →
      Inv t' ∧ Pending t' ∧ Waited t'.log := by
    rintro t op t' ⟨h, hp, hw⟩ hg hs
    have hk : killSafe t op = true := by
      simp only [waitSafe, Bool.and_eq_true] at hg; exact hg.1
    exact ⟨step_inv h hk hs, step_pending h hp hg hs, step_waited h hp hw hg hs⟩
  have hinit : Pending (threadInit enabled) ∧ Waited (threadInit enabled).log := by
    refine ⟨?_, ?_⟩
    · intro pre mid c tid p hlog
      simp [threadInit] at hlog
    · intro pre mid post c tid p hlog
      simp [threadInit] at hlog
  exact (hrun.inv (fun t => Inv t ∧ Pending t ∧ Waited t.log) hstep ⟨inv_init enabled, hinit⟩).2.2

/-- the initial thread waits for thread 1, which exits -/
theorem wait_waits_for_exit :
    ∃ s, Run step waitSafe (threadInit true) s ∧ s.log = [.waitCall 0 1 1, .exited 1, .waitReturn 0 1] ∧
      Waited s.log := by
  have h : ∃ s, Run step waitSafe (threadInit true) s ∧
      decide (s.log = [.waitCall 0 1 1, .exited 1, .waitReturn 0 1]) = true :=
    run_of_passes [.create true, .wait 1, .resume, .exit, .resume, .resume] (by decide +kernel)
  obtain ⟨s, hrun, hlog⟩ := h
  exact ⟨s, hrun, of_decide_eq_true hlog, wait_waits true s hrun⟩

/-- With nobody ready `thread_wait` does not wait: thread 1 sleeps on a user queue, and a call that names it returns its
argument at once. -/
theorem wait_returns_early :
    ¬ ∀ (enabled : Bool) (s : State), Run step anyStep (threadInit enabled) s → Waited s.log := by
  intro hall
  have h : ∃ s, Run step anyStep (threadInit true) s ∧
      decide (s.ret = some 1 ∧ s.log = [.waitCall 0 1 1, .waitReturn 0 1]) = true :=
    run_of_passes [.waitQueueCreate, .create true, .yield 1, .resume, .sleep 0, .resume, .wait 1, .resume]
      (by decide +kernel)
  obtain ⟨s, hrun, hs⟩ := h
  obtain ⟨-, hlog⟩ := of_decide_eq_true hs
  have := hall true s hrun [] [] [] 0 1 1 hlog
  simp at this

end OsLab.Threads
