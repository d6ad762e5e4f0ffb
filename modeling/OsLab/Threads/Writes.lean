/-
What a call of the thread library does to the control blocks and to `threads[]`, as a sequence of elementary writes.

`Write` lists them: the status of a thread of the table, a saved context, a wait queue, a block freed with its slot, a
block that takes a slot. Every step is a sequence of them (`step_writes`), in any run, so what every write keeps holds
in every reachable state. `Kept` is such an invariant: a block is in the slot of its identifier, unless it was lost.
-/
import Mathlib.Tactic
import OsLab.Threads.Runs

namespace OsLab.Threads

open OsLab.Lib Function State

/-- `thread_create` does not choose the slot of an exited thread -/
def freshSlot (s : State) : Op → Bool
  | .create mem => !mem || (s.threads (getId s)).isNone
  | _ => true

/-- the elementary writes; the index says whether a new block takes only slots that are empty -/
inductive Write : Bool → State → State → Prop
  /-- neither control blocks nor slots -/
  | other {fresh : Bool} {s s' : State} : s'.heap = s.heap → s'.threads = s.threads → s'.nextPtr = s.nextPtr →
      Write fresh s s'
  | context {fresh : Bool} {s : State} {p : Ptr} {t : Tcb} (c : Context) : s.heap p = some t →
      Write fresh s (s.setTcb p { t with context := c })
  | status {fresh : Bool} {s : State} {i : Tid} {p : Ptr} {t : Tcb} (st : Status) : s.threads i = some p →
      s.heap p = some t → Write fresh s (s.setTcb p { t with status := st })
  | queue {fresh : Bool} (s : State) (r : QRef) (q : List Ptr) : Write fresh s (s.setQueue r q)
  | free {fresh : Bool} {s : State} {i : Tid} {p : Ptr} : s.threads i = some p → Write fresh s (reclaimed s i p)
  | create {fresh : Bool} {s : State} {i : Tid} : i ∈ tids → (s.tcbAt i).all (fun t => t.status = .exited) = true →
      (fresh = true → s.threads i = none) → Write fresh s (created s i)

/-- a sequence of writes -/
def Writes (fresh : Bool) : State → State → Prop := Relation.ReflTransGen (Write fresh)

theorem Write.writes {fresh : Bool} {s s' : State} (h : Write fresh s s') : Writes fresh s s' := .single h

theorem Writes.refl {fresh : Bool} (s : State) : Writes fresh s s := Relation.ReflTransGen.refl

theorem Writes.trans {fresh : Bool} {s t u : State} (h1 : Writes fresh s t) (h2 : Writes fresh t u) :
    Writes fresh s u :=
  Relation.ReflTransGen.trans h1 h2

/-- what every write keeps, a sequence keeps -/
theorem Writes.inv {fresh : Bool} {I : State → Prop} (hI : ∀ s t, Write fresh s t → I s → I t) {s t : State}
    (h : Writes fresh s t) (hs : I s) : I t := by
  induction h with
  | refl => exact hs
  | tail _ hw ih => exact hI _ _ hw ih

section

variable {fresh : Bool} {s s' u : State}

/-- a change of neither control blocks nor slots before the writes -/
theorem Writes.after (h : Writes fresh u s') (hh : u.heap = s.heap) (ht : u.threads = s.threads)
    (hn : u.nextPtr = s.nextPtr) : Writes fresh s s' := (Write.other hh ht hn).writes.trans h

/-- and behind them -/
theorem Writes.before (h : Writes fresh s u) (hh : s'.heap = u.heap) (ht : s'.threads = u.threads)
    (hn : s'.nextPtr = u.nextPtr) : Writes fresh s s' := h.trans (Write.other hh ht hn).writes

theorem writes_same (hh : s'.heap = s.heap) (ht : s'.threads = s.threads) (hn : s'.nextPtr = s.nextPtr) :
    Writes fresh s s' := (Write.other hh ht hn).writes

/-! ## Every step is a sequence of writes -/

theorem deref_ok {p : Ptr} {t : Tcb} (h : s.deref p = .ok t) : s.heap p = some t := by
  unfold State.deref at h
  split at h
  · next t' ht => cases h; exact ht
  · cases h

theorem slot_ok {i : Tid} {p : Ptr} (h : s.slot i = .ok p) : s.threads i = some p := by
  unfold State.slot at h
  split at h
  · next p' hp => cases h; exact hp
  · cases h

theorem setStatus_ok {p : Ptr} {st : Status} (h : s.setStatus p st = .ok s') :
    ∃ t, s.heap p = some t ∧ s' = s.setTcb p { t with status := st } := by
  rw [State.setStatus, bind_eq_ok] at h
  obtain ⟨t, ht, h⟩ := h
  cases h
  exact ⟨t, deref_ok ht, rfl⟩

theorem setStatus_writes {i : Tid} {p : Ptr} {st : Status} (hi : s.threads i = some p) (h : s.setStatus p st = .ok s') :
    Writes fresh s s' := by
  obtain ⟨t, ht, rfl⟩ := setStatus_ok h
  exact (Write.status st hi ht).writes

theorem setStatus_threads {p : Ptr} {st : Status} (h : s.setStatus p st = .ok s') : s'.threads = s.threads := by
  obtain ⟨t, -, rfl⟩ := setStatus_ok h
  rfl

theorem getcontext_writes {p : Ptr} {f : Frame} (h : s.getcontext p f = .ok s') : Writes fresh s s' := by
  rw [State.getcontext, bind_eq_ok] at h
  obtain ⟨t, ht, h⟩ := h
  cases h
  exact (Write.context _ (deref_ok ht)).writes

theorem getcontext_threads {p : Ptr} {f : Frame} (h : s.getcontext p f = .ok s') : s'.threads = s.threads := by
  rw [State.getcontext, bind_eq_ok] at h
  obtain ⟨t, -, h⟩ := h
  cases h
  rfl

theorem setcontext_writes {p : Ptr} (h : s.setcontext p = .ok s') : Writes fresh s s' := by
  rw [State.setcontext, bind_eq_ok] at h
  obtain ⟨t, -, h⟩ := h
  cases h
  exact writes_same rfl rfl rfl

theorem setQueue_threads (s : State) (r : QRef) (q : List Ptr) : (s.setQueue r q).threads = s.threads := by
  cases r <;> rfl

/-- `free_exited` does nothing to the table, or it frees the block of one slot -/
theorem freeExited_ok (h : freeExited s = .ok s') :
    s' = s ∨ ∃ i p q, s.threads i = some p ∧ s' = reclaimed { s with readyQueue := q } i p := by
  unfold freeExited at h
  split at h
  · cases h; exact Or.inl rfl
  · next i hi =>
    simp only [bind_eq_ok, freeThread] at h
    obtain ⟨q, -, p, hp, t, -, -, -, h⟩ := h
    cases h
    exact Or.inr ⟨i, p, q, slot_ok hp, rfl⟩

theorem freeExited_writes (h : freeExited s = .ok s') : Writes fresh s s' := by
  rcases freeExited_ok h with rfl | ⟨i, p, q, hi, rfl⟩
  · exact Writes.refl s'
  · exact (Write.free (s := { s with readyQueue := q }) hi).writes.after rfl rfl rfl

/-- a block that `free_exited` left allocated is in its slot still -/
theorem freeExited_slot (h : freeExited s = .ok s') {i : Tid} {p : Ptr} (hi : s.threads i = some p)
    (hp : (s'.heap p).isSome) : s'.threads i = some p := by
  rcases freeExited_ok h with rfl | ⟨j, x, q, hj, rfl⟩
  · exact hi
  · by_cases hpx : p = x
    · subst hpx
      simp [reclaimed] at hp
    · have hij : i ≠ j := by
        rintro rfl
        rw [hi, Option.some.injEq] at hj
        exact hpx hj
      simpa only [reclaimed, update_of_ne hij] using hi

theorem deleteFromAllQueues_writes {id : Tid} (h : deleteFromAllQueues s id = .ok s') : Writes fresh s s' := by
  unfold deleteFromAllQueues at h
  generalize tids = l at h
  refine Post.foldlM (I := Writes fresh s) l s (Writes.refl s) (fun t i ht t' hst => ?_) s' h
  unfold purgeSlot at hst
  split at hst
  · cases hst; exact ht
  · simp only [bind_eq_ok] at hst
    obtain ⟨v, -, q, -, hst⟩ := hst
    cases hst
    exact ht.trans (Write.queue _ _ _).writes

theorem wake_writes {r : QRef} {wakeId : Tid} (h : wake s r wakeId = .ok s') : Writes fresh s s' := by
  simp only [wake, bind_eq_ok] at h
  obtain ⟨q, -, q', -, p, hp, h⟩ := h
  have hqueue : Writes fresh s { s.setQueue r q' with readyQueue := (s.setQueue r q').readyQueue ++ [p] } :=
    (Write.queue s r q').writes.before rfl rfl rfl
  exact hqueue.trans (setStatus_writes (i := wakeId) (slot_ok hp) h)

theorem wakeLoop_writes {r : QRef} (n : ℕ) {count : ℕ} {res : State × ℕ} (h : wakeLoop r n s count = .ok res) :
    Writes fresh s res.1 := by
  induction n generalizing s count with
  | zero => cases h; exact Writes.refl s
  | succ n ih =>
    simp only [wakeLoop, bind_eq_ok] at h
    obtain ⟨q, -, first, -, h⟩ := h
    cases first with
    | none => cases h; exact Writes.refl s
    | some wakeId =>
      simp only [bind_eq_ok] at h
      obtain ⟨t, ht, h⟩ := h
      exact (wake_writes ht).trans (ih h)

theorem threadWakeup_writes {r : QRef} {all : Bool} (h : threadWakeup s r all = .ok s') : Writes fresh s s' := by
  have h0 : Writes fresh s s.interruptsOff := writes_same rfl rfl rfl
  simp only [threadWakeup, bind_eq_ok] at h
  obtain ⟨q, -, first, -, h⟩ := h
  cases first with
  | none => cases h; exact writes_same rfl rfl rfl
  | some wakeId =>
    cases all with
    | true =>
      simp only [if_true, bind_eq_ok] at h
      obtain ⟨⟨t, count⟩, ht, h⟩ := h
      cases h
      exact (h0.trans (wakeLoop_writes _ ht)).before rfl rfl rfl
    | false =>
      simp only [Bool.false_eq_true, if_false, bind_eq_ok] at h
      obtain ⟨t, ht, h⟩ := h
      cases h
      exact (h0.trans (wake_writes ht)).before rfl rfl rfl

theorem getId_slot (s : State) : getId s = threadNomore ∨
    getId s ∈ tids ∧ (s.tcbAt (getId s)).all (fun t => t.status = .exited) = true := by
  unfold getId
  cases hf : tids.find? fun i => (s.tcbAt i).all fun t => t.status = .exited with
  | none => exact Or.inl rfl
  | some i => exact Or.inr ⟨List.mem_of_find?_eq_some hf, by simpa using List.find?_some hf⟩

theorem threadCreate_writes {mem : Bool} (hg : fresh = true → freshSlot s (.create mem) = true)
    (h : threadCreate s mem = .ok s') : Writes fresh s s' := by
  have hid : getId s.interruptsOff = getId s := rfl
  have hcases := getId_slot s
  unfold threadCreate at h
  simp only [hid] at h
  simp only [freshSlot] at hg
  generalize getId s = i at h hg hcases
  split at h
  · cases h; exact writes_same rfl rfl rfl
  · next hmore =>
    split at h
    · cases h; exact writes_same rfl rfl rfl
    · next hm =>
      obtain ⟨hmem, hall⟩ := hcases.resolve_left hmore
      cases h
      refine (Write.create (s := s) hmem hall fun hfresh => ?_).writes.before rfl rfl rfl
      simpa [hm] using hg hfresh

theorem yieldTo_writes {enabled : Bool} {runningId readyId : Tid} (h : yieldTo s enabled runningId readyId = .ok s') :
    Writes fresh s s' := by
  simp only [yieldTo, bind_eq_ok] at h
  obtain ⟨p, hp, q, -, s1, h1, me, hme, s2, h2, s3, h3, s4, h4, h5⟩ := h
  have hfree : Writes fresh s s1 := (freeExited_writes h1).after rfl rfl rfl
  have hthr2 := getcontext_threads h2
  have hthr3 := setStatus_threads h3
  -- the chosen thread may have been freed, and then its status cannot be set
  have hp2 : s2.threads readyId = some p := by
    rw [hthr2]
    refine freeExited_slot h1 (slot_ok hp) ?_
    obtain ⟨t, ht, -⟩ := setStatus_ok h3
    obtain ⟨v, hv, h2⟩ := bind_eq_ok.1 h2
    cases h2
    by_cases hpm : p = me
    · rw [hpm, deref_ok hv]; rfl
    · simp only [State.setTcb, update_of_ne hpm] at ht
      rw [ht]; rfl
  have hme3 : s3.threads runningId = some me := by rw [hthr3, hthr2]; exact slot_ok hme
  have h45 : Writes fresh s4 s' := (setcontext_writes h5).after rfl rfl rfl
  exact (((hfree.trans (getcontext_writes h2)).trans (setStatus_writes hp2 h3)).trans
    (setStatus_writes hme3 h4)).trans h45

theorem threadYield_writes {wantTid : Tid} (h : threadYield s wantTid = .ok s') : Writes fresh s s' := by
  unfold threadYield at h
  simp only [bind_eq_ok] at h
  obtain ⟨s1, hf, h⟩ := h
  have h1 : Writes fresh s s1 := (freeExited_writes hf).after rfl rfl rfl
  split at h
  · cases h; exact h1.before rfl rfl rfl
  · split at h
    · rw [bind_eq_ok] at h
      obtain ⟨first, -, h⟩ := h
      cases first with
      | none => cases h; exact h1.before rfl rfl rfl
      | some readyId => exact h1.trans (yieldTo_writes h)
    · split at h
      · exact h1.trans (yieldTo_writes h)
      · cases h; exact h1.before rfl rfl rfl

theorem yeet_writes (h : yeet s = .ok s') : Writes fresh s s' := by
  rw [yeet, bind_eq_ok] at h
  obtain ⟨first, -, h⟩ := h
  cases first with
  | none => cases h
  | some readyId =>
    simp only [bind_eq_ok] at h
    obtain ⟨p, hp, s1, h1, t, -, q, -, h2⟩ := h
    exact (setStatus_writes (slot_ok hp) h1).trans ((setcontext_writes h2).after rfl rfl rfl)

theorem threadExit_writes (h : threadExit s = .ok s') : Writes fresh s s' := by
  simp only [threadExit, bind_eq_ok] at h
  obtain ⟨s1, h1, s2, h2, me, -, s3, h3, me', hme, s4, h4, h5⟩ := h
  have h0 : Writes fresh s s1 := (freeExited_writes h1).after rfl rfl rfl
  have h4s : Writes fresh s4 s' := (yeet_writes h5).after rfl rfl rfl
  exact (((h0.trans (deleteFromAllQueues_writes h2)).trans (threadWakeup_writes h3)).trans
    (setStatus_writes (slot_ok hme) h4)).trans h4s

theorem threadKill_writes {tid : Tid} (h : threadKill s tid = .ok s') : Writes fresh s s' := by
  unfold threadKill at h
  simp only at h
  split at h
  · cases h; exact writes_same rfl rfl rfl
  · simp only [bind_eq_ok] at h
    obtain ⟨p, hp, s1, h1, q, -, s2, h2, s3, h3, s4, h4, h5⟩ := h
    cases h5
    have h01 : Writes fresh s s1 := (setStatus_writes (slot_ok hp) h1).after rfl rfl rfl
    have h12 : Writes fresh s1 s2 := (threadWakeup_writes h2).after rfl rfl rfl
    exact (((h01.trans h12).trans (deleteFromAllQueues_writes h3)).trans (freeExited_writes h4)).before rfl rfl rfl

theorem threadSleep_writes {r : QRef} (h : threadSleep s r = .ok s') : Writes fresh s s' := by
  simp only [threadSleep, bind_eq_ok] at h
  obtain ⟨first, -, h⟩ := h
  cases first with
  | none => cases h; exact writes_same rfl rfl rfl
  | some readyId =>
    simp only [bind_eq_ok] at h
    obtain ⟨p, hp, me, hme, s1, h1, q, -, t, -, q', -, s2, h2, s3, h3, h4⟩ := h
    have hthr1 := getcontext_threads h1
    have hthr := setQueue_threads s1 r (q ++ [me])
    have hp1 : (s1.setQueue r (q ++ [me])).threads readyId = some p := by rw [hthr, hthr1]; exact slot_ok hp
    have hme2 : s2.threads (threadId s.interruptsOff) = some me := by
      rw [setStatus_threads h2]
      change (s1.setQueue r (q ++ [me])).threads _ = _
      rw [hthr, hthr1]
      exact slot_ok hme
    have h01 : Writes fresh s s1 := (getcontext_writes h1).after rfl rfl rfl
    have hq : Writes fresh s1 { s1.setQueue r (q ++ [me]) with readyQueue := q' } :=
      (Write.queue s1 r (q ++ [me])).writes.before rfl rfl rfl
    exact (((h01.trans hq).trans (setStatus_writes (i := readyId) hp1 h2)).trans (setStatus_writes hme2 h3)).trans
      (setcontext_writes h4)

theorem threadWait_writes {tid : Tid} (h : threadWait s tid = .ok s') : Writes fresh s s' := by
  unfold threadWait at h
  simp only at h
  split at h
  · cases h; exact writes_same rfl rfl rfl
  · rw [bind_eq_ok] at h
    obtain ⟨p, -, h⟩ := h
    exact (threadSleep_writes h).after rfl rfl rfl

theorem lockTry_writes {enabled : Bool} {l : ℕ} (h : lockTry s enabled l = .ok s') : Writes fresh s s' := by
  rw [lockTry, bind_eq_ok] at h
  obtain ⟨k, -, h⟩ := h
  split at h
  · exact (threadSleep_writes h).after rfl rfl rfl
  · cases h
    refine writes_same ?_ ?_ ?_ <;> dsimp only [State.returns] <;> split <;> rfl

theorem lockAcquire_writes {l : ℕ} (h : lockAcquire s l = .ok s') : Writes fresh s s' :=
  (lockTry_writes h).after rfl rfl rfl

theorem lockRelease_writes {l : ℕ} (h : lockRelease s l = .ok s') : Writes fresh s s' := by
  unfold lockRelease at h
  simp only [bind_eq_ok] at h
  obtain ⟨k, -, h⟩ := h
  split at h
  · rw [bind_eq_ok] at h
    obtain ⟨t, ht, h⟩ := h
    cases h
    have hwake : Writes fresh s t := (threadWakeup_writes ht).after rfl rfl rfl
    exact hwake.before rfl rfl rfl
  · cases h; exact writes_same rfl rfl rfl

theorem cvWait_writes {c l : ℕ} (h : cvWait s c l = .ok s') : Writes fresh s s' := by
  unfold cvWait at h
  simp only [bind_eq_ok] at h
  obtain ⟨k, -, h⟩ := h
  split at h
  · rw [bind_eq_ok] at h
    obtain ⟨t, ht, h⟩ := h
    have hrel : Writes fresh s t := (lockRelease_writes ht).after rfl rfl rfl
    exact hrel.trans ((threadSleep_writes h).after rfl rfl rfl)
  · exact (lockAcquire_writes h).after rfl rfl rfl

theorem cvWake_writes {all : Bool} {c l : ℕ} (h : cvWake all s c l = .ok s') : Writes fresh s s' := by
  unfold cvWake at h
  simp only [bind_eq_ok] at h
  obtain ⟨k, -, h⟩ := h
  split at h
  · rw [bind_eq_ok] at h
    obtain ⟨t, ht, h⟩ := h
    cases h
    have hwake : Writes fresh s t := (threadWakeup_writes ht).after rfl rfl rfl
    exact hwake.before rfl rfl rfl
  · cases h; exact writes_same rfl rfl rfl

theorem call_writes {op : Op} (hg : fresh = true → freshSlot s op = true) (h : call s op = .ok s') :
    Writes fresh s s' := by
  cases op with
  | create mem => exact threadCreate_writes hg h
  | yield wantTid => exact threadYield_writes h
  | exit => exact threadExit_writes h
  | kill tid => exact threadKill_writes h
  | sleep w => exact threadSleep_writes (r := .user w) h
  | wakeup w all => exact threadWakeup_writes (r := .user w) h
  | wait tid => exact threadWait_writes h
  | waitQueueDestroy w =>
    simp only [call, waitQueueDestroy, bind_eq_ok] at h
    obtain ⟨q, -, -, -, h⟩ := h
    cases h; exact writes_same rfl rfl rfl
  | lockDestroy l =>
    simp only [call, lockDestroy, bind_eq_ok] at h
    obtain ⟨k, -, h⟩ := h
    split at h
    · rw [bind_eq_ok] at h
      obtain ⟨-, -, h⟩ := h
      cases h; exact writes_same rfl rfl rfl
    · cases h; exact writes_same rfl rfl rfl
  | lockAcquire l => exact lockAcquire_writes h
  | lockRelease l => exact (lockRelease_writes h).after rfl rfl rfl
  | cvDestroy c =>
    simp only [call, cvDestroy, bind_eq_ok] at h
    obtain ⟨q, -, h⟩ := h
    split at h <;> cases h <;> exact writes_same rfl rfl rfl
  | cvWait c l => exact (cvWait_writes h).after rfl rfl rfl
  | cvSignal c l => exact cvWake_writes h
  | cvBroadcast c l => exact cvWake_writes h
  | sleepNull | wakeupNull | waitQueueCreate | lockCreate garbage | cvCreate | interruptsSet enabled =>
    cases h; exact writes_same rfl rfl rfl
  | preempt =>
    simp only [call] at h
    split at h
    · exact (threadYield_writes h).after rfl rfl rfl
    · cases h
  | resume => cases h

/-- every step is a sequence of elementary writes -/
theorem step_writes {op : Op} (hg : fresh = true → freshSlot s op = true) (h : step s op = .ok s') :
    Writes fresh s s' := by
  unfold step at h
  split at h
  · exact call_writes hg h
  · next f fs hf =>
    split at h
    · cases f with
      | stub | yield enabled p | wait enabled tid | cvAcquire enabled l | handler =>
        cases h; exact writes_same rfl rfl rfl
      | sleep enabled readyId =>
        simp only [resumeFrame, bind_eq_ok] at h
        obtain ⟨t, ht, h⟩ := h
        cases h
        have hfree : Writes fresh s t := (freeExited_writes ht).after rfl rfl rfl
        exact hfree.before rfl rfl rfl
      | lockAcquire enabled l => exact (lockTry_writes h).after rfl rfl rfl
      | cvSleep enabled l => exact (lockAcquire_writes h).after rfl rfl rfl
    · cases h

end

/-! ## The control blocks and their slots -/

/-- every block is in the slot of its identifier; if `lost` is set, blocks of exited threads may be in no slot -/
structure Kept (lost : Bool) (s : State) : Prop where
  range : ∀ i p, s.threads i = some p → i ∈ tids
  slots : ∀ i p, s.threads i = some p → ∃ t, s.heap p = some t ∧ t.id = i
  owned : ∀ p t, s.heap p = some t → s.threads t.id = some p ∨ (lost = true ∧ t.status = .exited)
  fresh : ∀ p, s.nextPtr ≤ p → s.heap p = none

namespace Kept

variable {lost fresh : Bool} {s s' : State}

/-- the blocks keep their identifiers, and those in no slot their status -/
theorem congr (h : Kept lost s) (ht : s'.threads = s.threads) (hn : s'.nextPtr = s.nextPtr)
    (hid : ∀ p, (s'.heap p).map Tcb.id = (s.heap p).map Tcb.id)
    (hst : ∀ p t t', s.heap p = some t → s'.heap p = some t' → s.threads t.id ≠ some p → t'.status = t.status) :
    Kept lost s' := by
  refine ⟨by rw [ht]; exact h.range, fun i p hi => ?_, fun p t hp => ?_, fun p hp => ?_⟩
  · rw [ht] at hi
    obtain ⟨t, hp, hti⟩ := h.slots i p hi
    have := hid p
    rw [hp, Option.map_some, Option.map_eq_some_iff] at this
    obtain ⟨t', hp', hid'⟩ := this
    exact ⟨t', hp', hid'.trans hti⟩
  · have := hid p
    rw [hp, Option.map_some, eq_comm, Option.map_eq_some_iff] at this
    obtain ⟨t0, hp0, hid0⟩ := this
    rw [ht, ← hid0]
    by_cases hslot : s.threads t0.id = some p
    · exact Or.inl hslot
    · obtain ⟨hlost, hex⟩ := (h.owned p t0 hp0).resolve_left hslot
      exact Or.inr ⟨hlost, (hst p t0 t hp0 hp hslot).trans hex⟩
  · have := hid p
    rw [h.fresh p (hn ▸ hp), Option.map_none, Option.map_eq_none_iff] at this
    exact this

theorem setTcb (h : Kept lost s) {p : Ptr} {t t' : Tcb} (ht : s.heap p = some t) (hid : t'.id = t.id)
    (hst : s.threads t.id ≠ some p → t'.status = t.status) : Kept lost (s.setTcb p t') := by
  refine h.congr rfl rfl (fun x => ?_) fun x u u' hu hu' hslot => ?_
  · by_cases hx : x = p
    · subst hx; simp [State.setTcb, ht, hid]
    · simp [State.setTcb, update_of_ne hx]
  · by_cases hx : x = p
    · subst hx
      simp only [State.setTcb, update_self, Option.some.injEq] at hu'
      rw [ht, Option.some.injEq] at hu
      subst hu hu'
      exact hst hslot
    · simp only [State.setTcb, update_of_ne hx, hu, Option.some.injEq] at hu'
      rw [hu']

theorem setQueue (h : Kept lost s) (r : QRef) (q : List Ptr) : Kept lost (s.setQueue r q) := by
  cases r with
  | thread p =>
    refine h.congr rfl rfl (fun x => ?_) fun x u u' hu hu' _ => ?_
    · by_cases hx : x = p
      · subst hx
        cases hp : s.heap x <;> simp [State.setQueue, hp]
      · simp [State.setQueue, update_of_ne hx]
    · by_cases hx : x = p
      · subst hx
        simp only [State.setQueue, update_self, hu, Option.map_some, Option.some.injEq] at hu'
        rw [← hu']
      · simp only [State.setQueue, update_of_ne hx, hu, Option.some.injEq] at hu'
        rw [hu']
  | lock l | cv c | user w =>
    exact h.congr rfl rfl (fun _ => rfl) fun x u u' hu hu' _ => by
      have : some u = some u' := hu.symm.trans hu'
      cases this; rfl

/-- a freed block leaves the table with its slot -/
theorem reclaimed (h : Kept lost s) {i : Tid} {p : Ptr} (hi : s.threads i = some p) :
    Kept lost (reclaimed s i p) := by
  refine ⟨fun j x hj => ?_, fun j x hj => ?_, fun x u hx => ?_, fun x hx => ?_⟩
  · have hne : j ≠ i := by rintro rfl; simp [Threads.reclaimed] at hj
    exact h.range j x (by simpa only [Threads.reclaimed, update_of_ne hne] using hj)
  · have hne : j ≠ i := by rintro rfl; simp [Threads.reclaimed] at hj
    simp only [Threads.reclaimed, update_of_ne hne] at hj
    obtain ⟨u, hu, hid⟩ := h.slots j x hj
    have hxp : x ≠ p := by
      rintro rfl
      obtain ⟨v, hv, hvid⟩ := h.slots i x hi
      rw [hu, Option.some.injEq] at hv
      exact hne (by rw [← hid, hv, hvid])
    exact ⟨u, by simpa only [Threads.reclaimed, update_of_ne hxp] using hu, hid⟩
  · have hxp : x ≠ p := by rintro rfl; simp [Threads.reclaimed] at hx
    simp only [Threads.reclaimed, update_of_ne hxp] at hx
    refine (h.owned x u hx).imp_left fun hown => ?_
    have hne : u.id ≠ i := by
      intro e
      rw [e, hi, Option.some.injEq] at hown
      exact hxp hown.symm
    simpa only [Threads.reclaimed, update_of_ne hne] using hown
  · by_cases hxp : x = p
    · subst hxp; exact update_self _ _ _
    · simpa only [Threads.reclaimed, update_of_ne hxp] using h.fresh x hx

/-- a new block takes a slot that is empty, or that of an exited thread, whose block is lost -/
theorem created (h : Kept lost s) {i : Tid} (hmem : i ∈ tids)
    (hall : (s.tcbAt i).all (fun t => t.status = .exited) = true) (hi : lost = false → s.threads i = none) :
    Kept lost (created s i) := by
  have hn := h.fresh s.nextPtr le_rfl
  refine ⟨fun j p hj => ?_, fun j p hj => ?_, fun p t hp => ?_, fun p hp => ?_⟩
  · by_cases hji : j = i
    · subst hji; exact hmem
    · exact h.range j p (by simpa only [Threads.created, update_of_ne hji] using hj)
  · by_cases hji : j = i
    · subst hji
      simp only [Threads.created, update_self, Option.some.injEq] at hj
      subst hj
      exact ⟨_, update_self _ _ _, rfl⟩
    · simp only [Threads.created, update_of_ne hji] at hj
      obtain ⟨t, ht, hid⟩ := h.slots j p hj
      have hne : p ≠ s.nextPtr := by rintro rfl; rw [hn] at ht; cases ht
      exact ⟨t, by simpa only [Threads.created, update_of_ne hne] using ht, hid⟩
  · by_cases hpn : p = s.nextPtr
    · subst hpn
      simp only [Threads.created, update_self, Option.some.injEq] at hp
      subst hp
      exact Or.inl (update_self _ _ _)
    · simp only [Threads.created, update_of_ne hpn] at hp
      rcases h.owned p t hp with hown | hlost
      · by_cases hti : t.id = i
        · subst hti
          have hex : t.status = .exited := by simpa [State.tcbAt, hown, hp] using hall
          cases hl : lost with
          | true => exact Or.inr ⟨rfl, hex⟩
          | false => rw [hi hl] at hown; cases hown
        · left
          simpa only [Threads.created, update_of_ne hti] using hown
      · exact Or.inr hlost
  · have hlt : s.nextPtr < p := Nat.lt_of_succ_le hp
    simpa only [Threads.created, update_of_ne hlt.ne'] using h.fresh p hlt.le

theorem write (hf : lost = false → fresh = true) (hw : Write fresh s s') (h : Kept lost s) : Kept lost s' := by
  cases hw with
  | other hh ht hn =>
    refine h.congr ht hn (fun p => by rw [hh]) fun p t t' hp hp' _ => ?_
    rw [hh, hp, Option.some.injEq] at hp'
    rw [hp']
  | context c ht => exact h.setTcb ht rfl fun _ => rfl
  | @status i p t st hi ht =>
    refine h.setTcb ht rfl fun hslot => absurd ?_ hslot
    obtain ⟨u, hu, hid⟩ := h.slots i p hi
    rw [ht, Option.some.injEq] at hu
    rw [hu, hid]
    exact hi
  | queue r q => exact h.setQueue r q
  | free hi => exact h.reclaimed hi
  | create hmem hall hnone => exact h.created hmem hall fun hl => hnone (hf hl)

theorem step (fresh : Bool) (hf : lost = false → fresh = true) (h : Kept lost s) {op : Op}
    (hg : fresh = true → freshSlot s op = true) (hs : step s op = .ok s') : Kept lost s' :=
  (step_writes hg hs).inv (fun _ _ hw => Kept.write hf hw) h

end Kept

theorem kept_init (lost enabled : Bool) : Kept lost (threadInit enabled) := by
  refine ⟨fun i p hi => ?_, fun i p hi => ?_, fun p t hp => ?_, fun p hp => ?_⟩
  · by_cases h0 : i = 0
    · subst h0; exact mem_tids.2 ⟨le_rfl, by decide⟩
    · simp [threadInit, h0] at hi
  · by_cases h0 : i = 0
    · subst h0
      have : p = 0 := by simpa [threadInit] using hi.symm
      subst this; exact ⟨_, rfl, rfl⟩
    · simp [threadInit, h0] at hi
  · by_cases h0 : p = 0
    · subst h0
      simp only [threadInit, if_true, Option.some.injEq] at hp
      subst hp; exact Or.inl rfl
    · simp [threadInit, h0] at hp
  · have h0 : p ≠ 0 := (Nat.lt_of_succ_le hp).ne'
    simp [threadInit, h0]

/-- in every reachable state the block of a thread that has not exited is in its slot -/
theorem kept_of_run {enabled : Bool} {s : State} (hrun : Run step anyStep (threadInit enabled) s) : Kept true s :=
  hrun.inv (Kept true) (fun _ _ _ h _ hs => h.step false (by simp) (by simp) hs) (kept_init true enabled)

end OsLab.Threads
