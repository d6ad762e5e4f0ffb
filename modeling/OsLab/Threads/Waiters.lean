/-
A free lock has no waiters.

The queue of a lock grows only in `lock_acquire`, while the lock is acquired, and `lock_release` empties it in the same
call that frees the lock: between the two, interrupts are off and no other thread runs. `FreeLocks` is the invariant;
every other call leaves the locks alone. It holds in every run, also with `thread_kill`.
-/
import Mathlib.Tactic
import OsLab.Threads.Objects

namespace OsLab.Threads

open OsLab.Lib Function State

/-- a lock that is not acquired has an empty queue -/
def FreeLocks (s : State) : Prop := ∀ l k, s.locks l = some k → k.acquired = 0 → k.queue = []

/-! ## Releasing a lock empties its queue -/

section

variable {s s' : State}

/-- every turn takes the first thread of the queue, so as many turns as there are threads empty it -/
theorem wakeLoop_lock {l : ℕ} (n : ℕ) {k : Lock} {count : ℕ} {res : State × ℕ} (hk : s.locks l = some k)
    (hn : k.queue.length ≤ n) (h : wakeLoop (.lock l) n s count = .ok res) :
    res.1.locks = update s.locks l (some { k with queue := [] }) := by
  induction n generalizing s k count with
  | zero =>
    have hnil : k.queue = [] := List.length_eq_zero_iff.1 (by omega)
    cases h
    rw [← hnil, ← hk, update_eq_self]
  | succ n ih =>
    rw [wakeLoop, bind_eq_ok] at h
    obtain ⟨q, hq, h⟩ := h
    have hqk : q = k.queue := by simpa [State.queueAt, State.queue, hk] using hq.symm
    rw [bind_eq_ok] at h
    obtain ⟨first, hfirst, h⟩ := h
    cases hkq : k.queue with
    | nil =>
      rw [hqk, hkq] at hfirst
      cases hfirst
      cases h
      rw [← hkq, ← hk, update_eq_self]
    | cons p rest =>
      rw [hqk, hkq, getFirst, bind_eq_ok] at hfirst
      obtain ⟨t, ht, hfirst⟩ := hfirst
      cases hfirst
      simp only [bind_eq_ok] at h
      obtain ⟨s1, h1, h⟩ := h
      obtain ⟨q1, q2, hq1, hdel, hobjs⟩ := wake_objs h1
      have hq1k : q1 = p :: rest := by simpa [State.queue, hk, hkq] using hq1.symm
      rw [hq1k, deleteFromQueue, ht, ok_bind, if_pos rfl] at hdel
      cases hdel
      have hlocks1 : s1.locks = update s.locks l (some { k with queue := rest }) := by
        rw [locks_eq hobjs]; simp [State.setQueue, hk]
      have hk1 : s1.locks l = some { k with queue := rest } := by rw [hlocks1, update_self]
      have hlen : rest.length ≤ n := by rw [hkq] at hn; simpa using hn
      rw [ih hk1 hlen h, hlocks1, update_idem]

theorem threadWakeup_lock {l : ℕ} {k : Lock} (hk : s.locks l = some k) (h : threadWakeup s (.lock l) true = .ok s') :
    s'.locks = update s.locks l (some { k with queue := [] }) := by
  unfold threadWakeup at h
  simp only [bind_eq_ok] at h
  obtain ⟨q, hq, first, hfirst, h⟩ := h
  have hqk : q = k.queue := by simpa [State.queueAt, State.queue, State.interruptsOff, hk] using hq.symm
  cases first with
  | none =>
    have hnil : k.queue = [] := by
      cases hkq : k.queue with
      | nil => rfl
      | cons p rest =>
        rw [hqk, hkq, getFirst, bind_eq_ok] at hfirst
        obtain ⟨t, -, hfirst⟩ := hfirst
        cases hfirst
    cases h
    show s.locks = _
    rw [← hnil, ← hk, update_eq_self]
  | some wakeId =>
    simp only [if_true, bind_eq_ok] at h
    obtain ⟨⟨t, count⟩, ht, h⟩ := h
    cases h
    exact wakeLoop_lock (s := s.interruptsOff) _ hk (by rw [hqk]) ht

/-! ## The invariant -/

theorem FreeLocks.congr (h : FreeLocks s) (hlocks : s'.locks = s.locks) : FreeLocks s' := by
  unfold FreeLocks
  rw [hlocks]; exact h

theorem FreeLocks.update (h : FreeLocks s) {l : ℕ} {k : Option Lock}
    (hlocks : s'.locks = Function.update s.locks l k) (hk : ∀ k', k = some k' → k'.acquired = 0 → k'.queue = []) :
    FreeLocks s' := by
  intro l' k' hl' hfree
  rw [hlocks] at hl'
  by_cases hll : l' = l
  · subst hll
    rw [update_self] at hl'
    exact hk k' hl' hfree
  · rw [update_of_ne hll] at hl'
    exact h l' k' hl' hfree

theorem FreeLocks.lockTry (h : FreeLocks s) {enabled : Bool} {l : ℕ} (hs : lockTry s enabled l = .ok s') :
    FreeLocks s' := by
  rw [Threads.lockTry, bind_eq_ok] at hs
  obtain ⟨k, hk, hs⟩ := hs
  have hkl := lockAt_eq hk
  split at hs
  · next hacq =>
    rcases threadSleep_objs hs with hobjs | ⟨q, hobjs⟩
    · exact h.congr (locks_eq hobjs :)
    · refine h.update (l := l) (k := some { k with queue := q }) ?_ ?_
      · rw [locks_eq hobjs]; simp [State.setQueue, State.push, hkl]
      · rintro k' hk' hfree
        cases hk'
        simp only at hfree
        omega
  · cases hs
    refine h.update (l := l) (k := some { k with acquired := 1, thread := threadId s }) ?_ ?_
    · dsimp only [State.returns]; split <;> rfl
    · rintro k' hk' hfree
      cases hk'
      cases hfree

theorem FreeLocks.lockRelease (h : FreeLocks s) {l : ℕ} (hs : lockRelease s l = .ok s') : FreeLocks s' := by
  unfold Threads.lockRelease at hs
  simp only [bind_eq_ok] at hs
  obtain ⟨k, hk, hs⟩ := hs
  split at hs
  · rw [bind_eq_ok] at hs
    obtain ⟨t, ht, hs⟩ := hs
    cases hs
    have hlocks := threadWakeup_lock (l := l) (k := { k with acquired := 0 }) (by simp) ht
    refine h.update (l := l) (k := some { k with acquired := 0, queue := [] }) ?_ ?_
    · show t.locks = _
      rw [hlocks, update_idem]; rfl
    · rintro k' hk' -
      cases hk'
      rfl
  · cases hs
    exact h

theorem FreeLocks.lockAcquire (h : FreeLocks s) {l : ℕ} (hs : lockAcquire s l = .ok s') : FreeLocks s' :=
  FreeLocks.lockTry (s := s.interruptsOff) h hs

theorem FreeLocks.cvWait (h : FreeLocks s) {c l : ℕ} (hs : cvWait s c l = .ok s') : FreeLocks s' := by
  unfold Threads.cvWait at hs
  simp only [bind_eq_ok] at hs
  obtain ⟨k, -, hs⟩ := hs
  split at hs
  · rw [bind_eq_ok] at hs
    obtain ⟨t, ht, hs⟩ := hs
    have hfree : FreeLocks t := FreeLocks.lockRelease (s := s.interruptsOff) h ht
    exact hfree.congr (threadSleep_hides (hides_locks (by simp)) hs :)
  · exact FreeLocks.lockAcquire (s := s.interruptsOff.push (.cvAcquire s.cpu.enabled l)) h hs

theorem cvWake_locks {all : Bool} {c l : ℕ} (hs : cvWake all s c l = .ok s') : s'.locks = s.locks := by
  unfold cvWake at hs
  simp only [bind_eq_ok] at hs
  obtain ⟨k, -, hs⟩ := hs
  split at hs
  · rw [bind_eq_ok] at hs
    obtain ⟨t, ht, hs⟩ := hs
    cases hs
    exact (threadWakeup_hides (hides_locks (by simp)) ht :)
  · cases hs; rfl

theorem FreeLocks.lockDestroy (h : FreeLocks s) {l : ℕ} (hs : lockDestroy s l = .ok s') : FreeLocks s' := by
  rw [Threads.lockDestroy, bind_eq_ok] at hs
  obtain ⟨k, -, hs⟩ := hs
  split at hs
  · rw [bind_eq_ok] at hs
    obtain ⟨-, -, hs⟩ := hs
    cases hs
    exact h.update (l := l) (k := none) rfl (by simp)
  · cases hs; exact h

theorem call_freeLocks (h : FreeLocks s) {op : Op} (hs : call s op = .ok s') : FreeLocks s' := by
  cases op with
  | create mem =>
    rw [call] at hs
    exact h.congr (locks_eq (threadCreate_objs hs))
  | yield wantTid => exact h.congr (locks_eq (threadYield_objs hs))
  | exit => exact h.congr (locks_eq (threadExit_objs hs))
  | kill tid => exact h.congr (locks_eq (threadKill_objs hs))
  | sleep w => exact h.congr (locks_eq (threadSleep_hides (hides_user w) hs))
  | sleepNull => cases hs; exact h
  | wakeup w all => exact h.congr (locks_eq (threadWakeup_hides (hides_user w) hs))
  | wakeupNull => cases hs; exact h
  | wait tid => exact h.congr (locks_eq (threadWait_objs hs))
  | waitQueueCreate => cases hs; exact h
  | waitQueueDestroy w =>
    simp only [call, waitQueueDestroy, bind_eq_ok] at hs
    obtain ⟨q, -, -, -, hs⟩ := hs
    cases hs; exact h
  | lockCreate garbage =>
    cases hs
    exact h.update (l := s.nextObj) (k := some ⟨[], garbage, 0⟩) rfl (by rintro k hk -; cases hk; rfl)
  | lockDestroy l => exact h.lockDestroy hs
  | lockAcquire l => exact h.lockAcquire hs
  | lockRelease l => exact FreeLocks.lockRelease (s := s.record _) h hs
  | cvCreate => cases hs; exact h
  | cvDestroy c =>
    simp only [call, cvDestroy, bind_eq_ok] at hs
    obtain ⟨q, -, hs⟩ := hs
    split at hs <;> cases hs <;> exact h
  | cvWait c l => exact FreeLocks.cvWait (s := s.record _) h hs
  | cvSignal c l => exact h.congr (cvWake_locks hs)
  | cvBroadcast c l => exact h.congr (cvWake_locks hs)
  | interruptsSet enabled => cases hs; exact h
  | preempt =>
    simp only [call] at hs
    split at hs
    · exact h.congr (locks_eq (threadYield_objs hs) :)
    · cases hs
  | resume => cases hs

theorem resumeFrame_freeLocks (h : FreeLocks s) {f : Frame} (hs : resumeFrame s f = .ok s') : FreeLocks s' := by
  cases f with
  | stub => cases hs; exact h
  | yield enabled p => cases hs; exact h
  | sleep enabled readyId =>
    simp only [resumeFrame, bind_eq_ok] at hs
    obtain ⟨t, ht, hs⟩ := hs
    cases hs
    exact h.congr (locks_eq (freeExited_objs ht) :)
  | wait enabled tid => cases hs; exact h
  | lockAcquire enabled l => exact h.lockTry hs
  | cvSleep enabled l => exact FreeLocks.lockAcquire (s := s.push _) h hs
  | cvAcquire enabled l => cases hs; exact h
  | handler => cases hs; exact h

theorem step_freeLocks (h : FreeLocks s) {op : Op} (hs : step s op = .ok s') : FreeLocks s' := by
  unfold step at hs
  split at hs
  · exact call_freeLocks h hs
  · next f fs hf =>
    split at hs
    · exact resumeFrame_freeLocks (s := { s with cpu := { s.cpu with frames := fs } }) h hs
    · cases hs

end

/-- **A free lock has no waiters.** In every state of every run, a lock that is not acquired has an empty queue; so
`lock_destroy`, which destroys only such a lock, discards no sleeping thread. -/
theorem free_lock_has_no_waiters (enabled : Bool) (s : State) (hrun : Run step anyStep (threadInit enabled) s) (l : ℕ)
    (k : Lock) (hk : s.locks l = some k) :
    (k.acquired = 0 → k.queue = []) ∧
      ∀ s', s.cpu.frames = [] → step s (.lockDestroy l) = .ok s' → s'.locks l = none → k.queue = [] := by
  have h := hrun.inv FreeLocks (fun t op t' h _ hs => step_freeLocks h hs) fun l k hl => by cases hl
  refine ⟨h l k hk, fun s' hf hs hgone => ?_⟩
  simp only [step, hf, call, lockDestroy, bind_eq_ok] at hs
  obtain ⟨k', hk', hs⟩ := hs
  have hkk : k' = k := by
    have := lockAt_eq hk'
    rw [hk, Option.some.injEq] at this
    exact this.symm
  subst hkk
  split at hs
  · next hfree => exact h l k' hk hfree
  · cases hs
    rw [hk] at hgone; cases hgone

/-- a contended lock is released: both waiters have left its queue -/
theorem free_lock_has_no_waiters_after_release :
    ∃ s k, Run step anyStep (threadInit true) s ∧ s.readyQueue = [0, 2] ∧ s.locks 0 = some k ∧ k.queue = [] := by
  have h : ∃ s, Run step anyStep (threadInit true) s ∧
      decide (s.readyQueue = [0, 2] ∧ (s.locks 0).map Lock.acquired = some 0) = true :=
    run_of_passes [.create true, .create true, .lockCreate 7, .yield 1, .resume, .lockAcquire 0, .yield 0, .resume,
      .lockAcquire 0, .resume, .lockAcquire 0, .resume, .lockRelease 0] (by decide +kernel)
  obtain ⟨s, hrun, hs⟩ := h
  obtain ⟨hready, hlock⟩ := of_decide_eq_true hs
  rw [Option.map_eq_some_iff] at hlock
  obtain ⟨k, hk, hfree⟩ := hlock
  exact ⟨s, k, hrun, hready, hk, (free_lock_has_no_waiters true s hrun 0 k hk).1 hfree⟩

end OsLab.Threads
