/-
Calls on a condition variable by a thread that does not hold the lock.

`thread.h` asks for a check that the caller has acquired the lock. The code compares `lock->thread` with the caller, but
that word is written by `lock_acquire` only: it is not cleared by `lock_release`, not set by `lock_create`, and
identifiers are reused. `cv_calls_guarded` says for every state and every call when the call leaves the queue alone;
`signal_after_release` is a thread that has released the lock and wakes a waiter.
-/
import Mathlib.Tactic
import OsLab.Threads.Cvs

namespace OsLab.Threads

open OsLab.Lib Function State

/-- no thread is woken; every queue and every status is as before -/
structure Quiet (s s' : State) : Prop where
  ready : s'.readyQueue = s.readyQueue
  queue : ∀ r, s'.queue r = s.queue r
  status : ∀ p, (s'.heap p).map Tcb.status = (s.heap p).map Tcb.status

/-- the word `thread` of lock `l` is the caller's identifier -/
def Named (s : State) (l : ℕ) : Prop := ∃ k, s.locks l = some k ∧ k.thread = threadId s

/-- `lock_release(l)` by the caller would leave nobody ready -/
def NobodyReady (s : State) (l : ℕ) : Prop :=
  s.readyQueue = [] ∧ ∀ k, s.locks l = some k → k.acquired = 1 → k.queue = []

section

variable {s s' : State}

/-! ## The ready queue -/

theorem setStatus_ready {p : Ptr} {st : Status} (h : s.setStatus p st = .ok s') : s'.readyQueue = s.readyQueue := by
  rw [State.setStatus, bind_eq_ok] at h
  obtain ⟨t, -, h⟩ := h
  cases h
  rfl

theorem wake_ready {r : QRef} {wakeId : Tid} (h : wake s r wakeId = .ok s') :
    s'.readyQueue.length = s.readyQueue.length + 1 := by
  simp only [wake, bind_eq_ok] at h
  obtain ⟨q, -, q', -, p, -, h⟩ := h
  rw [setStatus_ready h]
  simp [setQueue_readyQueue]

theorem wakeLoop_ready {r : QRef} (n : ℕ) {count : ℕ} {res : State × ℕ} (h : wakeLoop r n s count = .ok res) :
    s.readyQueue.length ≤ res.1.readyQueue.length := by
  induction n generalizing s count with
  | zero => cases h; exact le_rfl
  | succ n ih =>
    simp only [wakeLoop, bind_eq_ok] at h
    obtain ⟨q, -, first, -, h⟩ := h
    cases first with
    | none => cases h; exact le_rfl
    | some wakeId =>
      simp only [bind_eq_ok] at h
      obtain ⟨t, ht, h⟩ := h
      have hlen := wake_ready ht
      exact (by omega : s.readyQueue.length ≤ t.readyQueue.length).trans (ih h)

theorem getFirst_ok {p : Ptr} {q : List Ptr} {first : Option Tid} (h : getFirst s (p :: q) = .ok first) :
    ∃ id, first = some id := by
  rw [getFirst, bind_eq_ok] at h
  obtain ⟨t, -, h⟩ := h
  cases h
  exact ⟨t.id, rfl⟩

/-- a wakeup of an empty queue does nothing -/
theorem threadWakeup_empty {r : QRef} (hq : s.queue r = some []) (all : Bool) :
    threadWakeup s r all = .ok (s.interruptsOff.returns s.cpu.enabled (some 0)) := by
  have h0 : s.interruptsOff.queue r = some [] := by cases r <;> exact hq
  simp [threadWakeup, State.queueAt, h0, getFirst]

/-- a wakeup of any other queue that returns makes somebody ready -/
theorem threadWakeup_grows {r : QRef} {p : Ptr} {rest : List Ptr} (hq : s.queue r = some (p :: rest)) {all : Bool}
    (h : threadWakeup s r all = .ok s') : s.readyQueue.length < s'.readyQueue.length := by
  have h0 : s.interruptsOff.queueAt r = .ok (p :: rest) := by
    have : s.interruptsOff.queue r = some (p :: rest) := by cases r <;> exact hq
    simp [State.queueAt, this]
  simp only [threadWakeup, h0, ok_bind, bind_eq_ok] at h
  obtain ⟨first, hfirst, h⟩ := h
  obtain ⟨wakeId, rfl⟩ := getFirst_ok hfirst
  cases all with
  | true =>
    simp only [if_true, bind_eq_ok] at h
    obtain ⟨⟨t, count⟩, ht, h⟩ := h
    cases h
    -- the first turn of the loop
    rw [List.length_cons] at ht
    simp only [wakeLoop, h0, ok_bind, hfirst, bind_eq_ok] at ht
    obtain ⟨u, hu, ht⟩ := ht
    have hone : u.readyQueue.length = s.readyQueue.length + 1 := (wake_ready hu :)
    have hmore : u.readyQueue.length ≤ t.readyQueue.length := wakeLoop_ready _ ht
    change s.readyQueue.length < t.readyQueue.length
    omega
  | false =>
    simp only [Bool.false_eq_true, if_false, bind_eq_ok] at h
    obtain ⟨t, ht, h⟩ := h
    cases h
    have hone : t.readyQueue.length = s.readyQueue.length + 1 := (wake_ready ht :)
    change s.readyQueue.length < t.readyQueue.length
    omega

/-! ## Signal and broadcast -/

theorem quiet_returns (s : State) (e : Bool) (v : Option ℤ) : Quiet s (s.interruptsOff.returns e v) :=
  ⟨rfl, fun r => by cases r <;> rfl, fun _ => rfl⟩

theorem cvWake_quiet_iff {all : Bool} {c l : ℕ} (hs : cvWake all s c l = .ok s') :
    Quiet s s' ↔ (Named s l → waiting s (.cv c) = []) := by
  have hid : threadId s.interruptsOff = threadId s := threadId_congr rfl rfl
  unfold cvWake at hs
  simp only [bind_eq_ok] at hs
  obtain ⟨k, hk, hs⟩ := hs
  have hkl : s.locks l = some k := lockAt_eq hk
  split at hs
  · next hthr =>
    have hnamed : Named s l := ⟨k, hkl, hthr.trans hid⟩
    rw [bind_eq_ok] at hs
    obtain ⟨t, ht, hs⟩ := hs
    cases hs
    rw [imp_iff_right hnamed, waiting_cv]
    cases hq : s.cvs c with
    | none =>
      have : s.interruptsOff.interruptsOff.queue (.cv c) = none := hq
      simp [threadWakeup, State.queueAt, this] at ht
    | some q =>
      have hq0 : s.interruptsOff.queue (.cv c) = some q := hq
      cases q with
      | nil =>
        rw [threadWakeup_empty hq0, Except.ok.injEq] at ht
        subst ht
        exact iff_of_true (quiet_returns s _ _) rfl
      | cons p rest =>
        have hlen : s.readyQueue.length < t.readyQueue.length := (threadWakeup_grows hq0 ht :)
        refine iff_of_false (fun h => ?_) (by simp)
        have : t.readyQueue = s.readyQueue := h.ready
        rw [this] at hlen
        exact lt_irrefl _ hlen
  · next hthr =>
    cases hs
    refine iff_of_true (quiet_returns s _ _) ?_
    rintro ⟨k', hk', hthr'⟩
    rw [hkl, Option.some.injEq] at hk'
    subst hk'
    exact absurd (hthr'.trans hid.symm) hthr

/-! ## Waiting -/

/-- a sleep puts a thread on the queue exactly if somebody is ready -/
theorem threadSleep_cv_iff {c : ℕ} (hs : threadSleep s (.cv c) = .ok s') :
    waiting s' (.cv c) = waiting s (.cv c) ↔ s.readyQueue = [] := by
  cases hready : s.readyQueue with
  | nil =>
    rw [threadSleep_none _ hready, Except.ok.injEq] at hs
    subst hs
    exact iff_of_true rfl rfl
  | cons t rest =>
    refine iff_of_false ?_ (by simp)
    have hro : s.interruptsOff.readyQueue = t :: rest := hready
    simp only [threadSleep, hro, bind_eq_ok] at hs
    obtain ⟨first, hfirst, hs⟩ := hs
    obtain ⟨readyId, rfl⟩ := getFirst_ok hfirst
    simp only [bind_eq_ok] at hs
    obtain ⟨p, -, me, -, s1, h1, q, hq, u, -, q', -, s2, h2, s3, h3, h4⟩ := hs
    have hcv1 : s1.cvs = s.cvs := cvs_eq (getcontext_objs h1 :)
    have hq1 : s.cvs c = some q := by rw [← hcv1]; exact queueAt_ok hq
    have hcvs : s'.cvs = update s.cvs c (some (q ++ [me])) := by
      calc s'.cvs = s3.cvs := cvs_eq (setcontext_objs h4)
        _ = s2.cvs := cvs_eq (setStatus_objs h3)
        _ = (s1.setQueue (.cv c) (q ++ [me])).cvs := (cvs_eq (setStatus_objs h2) :)
        _ = update s.cvs c (some (q ++ [me])) := by simp only [State.setQueue, hcv1]
    rw [waiting_cv, waiting_cv, hcvs, update_self, hq1]
    simp

theorem lockRelease_ready_iff {l : ℕ} {k : Lock} (hk : s.locks l = some k) (hthr : k.thread = threadId s)
    (hs : lockRelease s l = .ok s') : s'.readyQueue = [] ↔ s.readyQueue = [] ∧ (k.acquired = 1 → k.queue = []) := by
  have hid : threadId s.interruptsOff = threadId s := threadId_congr rfl rfl
  have hat : lockAt s.interruptsOff l = .ok k := lockAt_of_some hk
  simp only [lockRelease, hat, ok_bind, hid] at hs
  by_cases hacq : k.acquired = 1
  · rw [if_pos ⟨hacq, hthr.symm⟩, bind_eq_ok] at hs
    obtain ⟨t, ht, hs⟩ := hs
    cases hs
    change t.readyQueue = [] ↔ _
    rw [imp_iff_right hacq]
    set u : State := { s.interruptsOff with locks := update s.interruptsOff.locks l (some { k with acquired := 0 }) }
      with hu
    have hq : u.queue (.lock l) = some k.queue := by simp [hu, State.queue]
    have huready : u.readyQueue = s.readyQueue := rfl
    cases hkq : k.queue with
    | nil =>
      rw [hkq] at hq
      rw [threadWakeup_empty hq, Except.ok.injEq] at ht
      subst ht
      exact (and_iff_left rfl).symm
    | cons p rest =>
      rw [hkq] at hq
      have hlen := threadWakeup_grows hq ht
      refine iff_of_false (fun hnil => ?_) (by simp)
      rw [hnil] at hlen
      exact absurd hlen (Nat.not_lt_zero _)
  · rw [if_neg fun h => hacq h.1] at hs
    cases hs
    exact (and_iff_left fun h => absurd h hacq).symm

/-- what `cv_wait` does to the queue of the condition variable -/
theorem cvWait_queue_iff {c l : ℕ} (hs : cvWait s c l = .ok s') :
    waiting s' (.cv c) = waiting s (.cv c) ↔ (Named s l → NobodyReady s l) := by
  have hid : threadId s.interruptsOff = threadId s := threadId_congr rfl rfl
  unfold cvWait at hs
  simp only [bind_eq_ok] at hs
  obtain ⟨k, hk, hs⟩ := hs
  have hkl : s.locks l = some k := lockAt_eq hk
  split at hs
  · next hthr =>
    have hnamed : Named s l := ⟨k, hkl, hthr.trans hid⟩
    rw [bind_eq_ok] at hs
    obtain ⟨m, hm, hs⟩ := hs
    have hcvs : m.cvs = s.cvs := (lockRelease_cvs hm :)
    have hwait : waiting (m.push (.cvSleep s.cpu.enabled l)) (.cv c) = waiting s (.cv c) := by
      rw [waiting_cv, waiting_cv, ← hcvs]; rfl
    rw [imp_iff_right hnamed, ← hwait, threadSleep_cv_iff hs]
    change m.readyQueue = [] ↔ _
    rw [lockRelease_ready_iff (s := s.interruptsOff) hkl hthr hm]
    refine and_congr_right fun _ => ⟨fun h k' hk' => ?_, fun h => h k hkl⟩
    rw [hkl, Option.some.injEq] at hk'
    subst hk'
    exact h
  · next hthr =>
    refine iff_of_true ?_ ?_
    · have hcvs : s'.cvs = s.cvs := (lockTry_cvs hs :)
      rw [waiting_cv, waiting_cv, hcvs]
    · rintro ⟨k', hk', hthr'⟩
      rw [hkl, Option.some.injEq] at hk'
      subst hk'
      exact absurd (hthr'.trans hid.symm) hthr

theorem named_record {e : Event} {l : ℕ} : Named (s.record e) l ↔ Named s l := by
  have hid : threadId (s.record e) = threadId s := threadId_congr rfl rfl
  unfold Named
  rw [hid]; rfl

theorem step_frames {op : Op} (hop : op ≠ .resume) (hs : step s op = .ok s') : s.cpu.frames = [] := by
  cases hf : s.cpu.frames with
  | nil => rfl
  | cons f fs => simp [step, hf, hop] at hs

end

/-- **What the check of `lock->thread` guards.** For every state and caller: a `cv_signal` or `cv_broadcast` wakes
nobody exactly if the word does not name the caller or nobody waits; a `cv_wait` leaves the queue of the condition
variable as it is exactly if the word does not name the caller or, once the lock is released, nobody is ready. -/
theorem cv_calls_guarded (s s' : State) (c l : ℕ) :
    (step s (.cvSignal c l) = .ok s' → (Quiet s s' ↔ (Named s l → waiting s (.cv c) = []))) ∧
      (step s (.cvBroadcast c l) = .ok s' → (Quiet s s' ↔ (Named s l → waiting s (.cv c) = []))) ∧
      (step s (.cvWait c l) = .ok s' →
        (waiting s' (.cv c) = waiting s (.cv c) ↔ (Named s l → NobodyReady s l))) := by
  refine ⟨fun hs => ?_, fun hs => ?_, fun hs => ?_⟩
  · rw [step, step_frames (by simp) hs] at hs
    exact cvWake_quiet_iff hs
  · rw [step, step_frames (by simp) hs] at hs
    exact cvWake_quiet_iff hs
  · rw [step, step_frames (by simp) hs] at hs
    have h := cvWait_queue_iff (s := s.record (.releaseCall s.cpu.owner l)) hs
    rw [named_record] at h
    exact h

/-- thread 1 waits, the initial thread takes the lock and releases it: its `cv_signal` wakes thread 1 -/
theorem signal_after_release :
    ∃ s s', Run step noKill (threadInit true) s ∧ s.cpu.frames = [] ∧ holds s.log s.cpu.owner 0 = false ∧
      step s (.cvSignal 1 0) = .ok s' ∧ stat s 1 = some .blocked ∧ stat s' 1 = some .ready ∧ ¬ Quiet s s' := by
  have h : ∃ s, Run step noKill (threadInit true) s ∧ (decide (s.cpu.frames = [] ∧ holds s.log s.cpu.owner 0 = false ∧
      stat s 1 = some .blocked ∧ s.readyQueue = []) && after (step s (.cvSignal 1 0)) fun s' =>
        decide (stat s' 1 = some .ready ∧ s'.readyQueue = [1])) = true :=
    run_of_passes [.create true, .lockCreate 7, .cvCreate, .yield 1, .resume, .lockAcquire 0, .cvWait 1 0, .resume,
      .lockAcquire 0, .lockRelease 0] (by decide +kernel)
  obtain ⟨s, hrun, hs⟩ := h
  rw [Bool.and_eq_true] at hs
  obtain ⟨hf, hc, hb, hr⟩ := of_decide_eq_true hs.1
  obtain ⟨s', hs', hafter⟩ := exists_of_after hs.2
  obtain ⟨hst, hready⟩ := of_decide_eq_true hafter
  refine ⟨s, s', hrun, hf, hc, hs', hb, hst, fun hq => ?_⟩
  have := hq.ready
  rw [hready, hr] at this; cases this

/-- the initial thread, which never took the lock, signals and wakes nobody -/
theorem cv_calls_guarded_stranger :
    ∃ s s', Run step noKill (threadInit true) s ∧ waiting s (.cv 1) = [1] ∧ step s (.cvSignal 1 0) = .ok s' ∧
      Quiet s s' := by
  have h : ∃ s, Run step noKill (threadInit true) s ∧ (decide ((s.locks 0).map Lock.thread = some 1 ∧ threadId s = 0 ∧
      waiting s (.cv 1) = [1]) && after (step s (.cvSignal 1 0)) fun _ => true) = true :=
    run_of_passes [.create true, .lockCreate 7, .cvCreate, .yield 1, .resume, .lockAcquire 0, .cvWait 1 0, .resume]
      (by decide +kernel)
  obtain ⟨s, hrun, hs⟩ := h
  rw [Bool.and_eq_true] at hs
  obtain ⟨hl, hid, hw⟩ := of_decide_eq_true hs.1
  obtain ⟨s', hs', -⟩ := exists_of_after hs.2
  refine ⟨s, s', hrun, hw, hs', ((cv_calls_guarded s s' 1 0).1 hs').2 fun hnamed => ?_⟩
  obtain ⟨k, hk, hthr⟩ := hnamed
  rw [hk, Option.map_some, Option.some.injEq, hthr, hid] at hl
  cases hl

end OsLab.Threads
