/-
What the calls of the thread library leave alone: the locks and the condition variables.

`objs` is what both are made of. Of the calls, only those named after an object write it: a wakeup and a sleep write the
queue they are given (`Hides`), every other scheduling call nothing.
-/
import Mathlib.Tactic
import OsLab.Threads.Runs

namespace OsLab.Threads

open OsLab.Lib Function State

abbrev Objs := (ℕ → Option Lock) × (ℕ → Option (List Ptr))

def objs (s : State) : Objs := (s.locks, s.cvs)

theorem locks_eq {s s' : State} (h : objs s' = objs s) : s'.locks = s.locks := congrArg Prod.fst h

theorem cvs_eq {s s' : State} (h : objs s' = objs s) : s'.cvs = s.cvs := congrArg Prod.snd h

/-- `g`, a view of the locks and condition variables, does not show queue `r` -/
def Hides {A : Type} (g : Objs → A) (r : QRef) : Prop :=
  ∀ (t : State) q, g (objs (t.setQueue r q)) = g (objs t)

theorem hides_thread (p : Ptr) : Hides id (.thread p) := fun _ _ => rfl

theorem hides_user (w : ℕ) : Hides id (.user w) := fun _ _ => rfl

theorem hides_locks {r : QRef} (hr : ∀ l, r ≠ .lock l) : Hides Prod.fst r := by
  intro t q
  cases r with
  | thread p => rfl
  | lock l => exact absurd rfl (hr l)
  | cv c => rfl
  | user w => rfl

theorem hides_cvs {r : QRef} (hr : ∀ c, r ≠ .cv c) : Hides Prod.snd r := by
  intro t q
  cases r with
  | thread p => rfl
  | lock l => rfl
  | cv c => exact absurd rfl (hr c)
  | user w => rfl

section

variable {s s' : State} {A : Type} {g : Objs → A}

theorem setStatus_objs {p : Ptr} {st : Status} (h : s.setStatus p st = .ok s') : objs s' = objs s := by
  rw [State.setStatus, bind_eq_ok] at h
  obtain ⟨t, -, h⟩ := h
  cases h
  rfl

theorem getcontext_objs {p : Ptr} {f : Frame} (h : s.getcontext p f = .ok s') : objs s' = objs s := by
  rw [State.getcontext, bind_eq_ok] at h
  obtain ⟨t, -, h⟩ := h
  cases h
  rfl

theorem setcontext_objs {p : Ptr} (h : s.setcontext p = .ok s') : objs s' = objs s := by
  rw [State.setcontext, bind_eq_ok] at h
  obtain ⟨t, -, h⟩ := h
  cases h
  rfl

theorem freeThread_objs {id : Tid} (h : freeThread s id = .ok s') : objs s' = objs s := by
  rw [freeThread, bind_eq_ok] at h
  obtain ⟨p, -, h⟩ := h
  rw [bind_eq_ok] at h
  obtain ⟨t, -, h⟩ := h
  rw [bind_eq_ok] at h
  obtain ⟨-, -, h⟩ := h
  cases h
  rfl

theorem freeExited_objs (h : freeExited s = .ok s') : objs s' = objs s := by
  unfold freeExited at h
  split at h
  · cases h; rfl
  · rw [bind_eq_ok] at h
    obtain ⟨q, -, h⟩ := h
    exact (freeThread_objs h :)

theorem purgeSlot_objs {id i : Tid} (h : purgeSlot id s i = .ok s') : objs s' = objs s := by
  unfold purgeSlot at h
  split at h
  · cases h; rfl
  · rw [bind_eq_ok] at h
    obtain ⟨t, -, h⟩ := h
    rw [bind_eq_ok] at h
    obtain ⟨q, -, h⟩ := h
    cases h
    rfl

theorem deleteFromAllQueues_objs {id : Tid} (h : deleteFromAllQueues s id = .ok s') : objs s' = objs s := by
  unfold deleteFromAllQueues at h
  generalize tids = l at h
  induction l generalizing s with
  | nil => cases h; rfl
  | cons i l ih =>
    rw [List.foldlM_cons, bind_eq_ok] at h
    obtain ⟨t, ht, h⟩ := h
    rw [ih h, purgeSlot_objs ht]

/-- taking a thread out of a queue changes the objects only through that queue -/
theorem wake_objs {r : QRef} {wakeId : Tid} (h : wake s r wakeId = .ok s') :
    ∃ q q', s.queue r = some q ∧ deleteFromQueue s wakeId q = .ok q' ∧ objs s' = objs (s.setQueue r q') := by
  rw [wake, bind_eq_ok] at h
  obtain ⟨q, hq, h⟩ := h
  rw [bind_eq_ok] at h
  obtain ⟨q', hq', h⟩ := h
  rw [bind_eq_ok] at h
  obtain ⟨p, -, h⟩ := h
  have hqueue : s.queue r = some q := by
    unfold State.queueAt at hq
    split at hq
    · next q0 h0 => cases hq; exact h0
    · cases hq
  exact ⟨q, q', hqueue, hq', (setStatus_objs h :)⟩

theorem wakeLoop_hides {r : QRef} (hr : Hides g r) (n : ℕ) {count : ℕ} {res : State × ℕ}
    (h : wakeLoop r n s count = .ok res) : g (objs res.1) = g (objs s) := by
  induction n generalizing s count with
  | zero => cases h; rfl
  | succ n ih =>
    rw [wakeLoop, bind_eq_ok] at h
    obtain ⟨q, -, h⟩ := h
    rw [bind_eq_ok] at h
    obtain ⟨first, -, h⟩ := h
    cases first with
    | none => cases h; rfl
    | some wakeId =>
      simp only [bind_eq_ok] at h
      obtain ⟨t, ht, h⟩ := h
      obtain ⟨-, q', -, -, hobjs⟩ := wake_objs ht
      rw [ih h, hobjs, hr s q']

theorem threadWakeup_hides {r : QRef} (hr : Hides g r) {all : Bool} (h : threadWakeup s r all = .ok s') :
    g (objs s') = g (objs s) := by
  unfold threadWakeup at h
  simp only [bind_eq_ok] at h
  obtain ⟨q, -, first, -, h⟩ := h
  cases first with
  | none => cases h; rfl
  | some wakeId =>
    cases all with
    | true =>
      simp only [if_true, bind_eq_ok] at h
      obtain ⟨⟨t, count⟩, ht, h⟩ := h
      cases h
      exact (wakeLoop_hides hr _ ht :)
    | false =>
      simp only [Bool.false_eq_true, if_false, bind_eq_ok] at h
      obtain ⟨t, ht, h⟩ := h
      cases h
      obtain ⟨-, q', -, -, hobjs⟩ := wake_objs ht
      rw [show objs (t.returns s.cpu.enabled (some 1)) = objs t from rfl, hobjs, hr _ q']
      rfl

theorem threadCreate_objs {mem : Bool} (h : threadCreate s mem = .ok s') : objs s' = objs s := by
  unfold threadCreate at h
  simp only at h
  split at h
  · cases h; rfl
  · split at h
    · cases h; rfl
    · cases h; rfl

theorem yieldTo_objs {enabled : Bool} {runningId readyId : Tid} (h : yieldTo s enabled runningId readyId = .ok s') :
    objs s' = objs s := by
  simp only [yieldTo, bind_eq_ok] at h
  obtain ⟨p, -, q, -, s1, h1, me, -, s2, h2, s3, h3, s4, h4, h5⟩ := h
  calc objs s' = objs s4 := (setcontext_objs h5 :)
    _ = objs s3 := (setStatus_objs h4 :)
    _ = objs s2 := (setStatus_objs h3 :)
    _ = objs s1 := (getcontext_objs h2 :)
    _ = objs s := (freeExited_objs h1 :)

theorem threadYield_objs {wantTid : Tid} (h : threadYield s wantTid = .ok s') : objs s' = objs s := by
  unfold threadYield at h
  simp only [bind_eq_ok] at h
  obtain ⟨s1, h1, h⟩ := h
  have hobjs : objs s1 = objs s := (freeExited_objs h1 :)
  split at h
  · cases h; exact hobjs
  · split at h
    · rw [bind_eq_ok] at h
      obtain ⟨first, -, h⟩ := h
      cases first with
      | none => cases h; exact hobjs
      | some readyId => exact (yieldTo_objs h).trans hobjs
    · split at h
      · exact (yieldTo_objs h).trans hobjs
      · cases h; exact hobjs

theorem yeet_objs (h : yeet s = .ok s') : objs s' = objs s := by
  rw [yeet, bind_eq_ok] at h
  obtain ⟨first, -, h⟩ := h
  cases first with
  | none => cases h
  | some readyId =>
    simp only [bind_eq_ok] at h
    obtain ⟨p, -, s1, h1, t, -, q, -, h2⟩ := h
    calc objs s' = objs s1 := (setcontext_objs h2 :)
      _ = objs s := (setStatus_objs h1 :)

theorem threadExit_objs (h : threadExit s = .ok s') : objs s' = objs s := by
  simp only [threadExit, bind_eq_ok] at h
  obtain ⟨s1, h1, s2, h2, me, -, s3, h3, me', -, s4, h4, h5⟩ := h
  calc objs s' = objs s4 := (yeet_objs h5 :)
    _ = objs s3 := (setStatus_objs h4 :)
    _ = objs s2 := (threadWakeup_hides (hides_thread _) h3 :)
    _ = objs s1 := (deleteFromAllQueues_objs h2 :)
    _ = objs s := (freeExited_objs h1 :)

theorem threadKill_objs {tid : Tid} (h : threadKill s tid = .ok s') : objs s' = objs s := by
  unfold threadKill at h
  simp only at h
  split at h
  · cases h; rfl
  · simp only [bind_eq_ok] at h
    obtain ⟨p, -, s1, h1, q, -, s2, h2, s3, h3, s4, h4, h5⟩ := h
    cases h5
    calc objs s4 = objs s3 := (freeExited_objs h4 :)
      _ = objs s2 := (deleteFromAllQueues_objs h3 :)
      _ = objs s1 := (threadWakeup_hides (hides_thread _) h2 :)
      _ = objs s := (setStatus_objs h1 :)

/-- going to sleep changes the objects only through the queue slept on -/
theorem threadSleep_objs {r : QRef} (h : threadSleep s r = .ok s') :
    objs s' = objs s ∨ ∃ q, objs s' = objs (s.setQueue r q) := by
  unfold threadSleep at h
  simp only [bind_eq_ok] at h
  obtain ⟨first, -, h⟩ := h
  cases first with
  | none => cases h; exact .inl rfl
  | some readyId =>
    simp only [bind_eq_ok] at h
    obtain ⟨p, -, me, -, s1, h1, q, -, t, -, q', -, s2, h2, s3, h3, h4⟩ := h
    have hobjs1 : objs s1 = objs s := (getcontext_objs h1 :)
    have hset : objs (s1.setQueue r (q ++ [me])) = objs (s.setQueue r (q ++ [me])) := by
      obtain ⟨hl, hc⟩ := Prod.mk.inj hobjs1
      cases r <;> simp only [objs, State.setQueue, hl, hc]
    right
    refine ⟨q ++ [me], ?_⟩
    calc objs s' = objs s3 := (setcontext_objs h4 :)
      _ = objs s2 := (setStatus_objs h3 :)
      _ = objs (s1.setQueue r (q ++ [me])) := (setStatus_objs h2 :)
      _ = objs (s.setQueue r (q ++ [me])) := hset

theorem threadSleep_hides {r : QRef} (hr : Hides g r) (h : threadSleep s r = .ok s') : g (objs s') = g (objs s) := by
  rcases threadSleep_objs h with hobjs | ⟨q, hobjs⟩
  · rw [hobjs]
  · rw [hobjs, hr s q]

theorem threadWait_objs {tid : Tid} (h : threadWait s tid = .ok s') : objs s' = objs s := by
  unfold threadWait at h
  simp only at h
  split at h
  · cases h; rfl
  · rw [bind_eq_ok] at h
    obtain ⟨p, -, h⟩ := h
    exact (threadSleep_hides (hides_thread _) h :)

end

end OsLab.Threads
