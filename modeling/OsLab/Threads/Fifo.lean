/-
`thread_wakeup` wakes the threads of a queue in the order in which they went to sleep.

The loop takes the identifier at the head of the queue, deletes the first node with that identifier and makes the thread
in its slot of `threads[]` ready. Head, node and slot are the same thread because a block that has not exited is in the
slot of its identifier (`Kept`); so every turn takes one node, and the loop ends with the queue empty (`wakeLoop_eq`).
-/
import Mathlib.Tactic
import OsLab.Threads.Writes

namespace OsLab.Threads

open OsLab.Lib Function State

/-- the threads in `q` become ready -/
def readied (s : State) (q : List Ptr) : State :=
  { s with heap := fun p => if p ∈ q then (s.heap p).map fun t => { t with status := .ready } else s.heap p }

/-- the threads in `q` go from the front of queue `r`, which has `rest` left, to the end of the ready queue -/
def moved (s : State) (r : QRef) (q rest : List Ptr) : State :=
  { readied (s.setQueue r rest) q with readyQueue := s.readyQueue ++ q }

/-- the block is in the slot of its identifier -/
def Slotted (s : State) (p : Ptr) : Prop := ∃ t, s.heap p = some t ∧ s.threads t.id = some p

section

variable {s s' : State} {r : QRef} {q rest : List Ptr} {p x : Ptr}

theorem Slotted.of_blocked (h : Kept true s) {t : Tcb} (ht : s.heap p = some t) (hb : t.status = .blocked) :
    Slotted s p := by
  refine ⟨t, ht, (h.owned p t ht).resolve_right fun hlost => ?_⟩
  rw [hb] at hlost
  cases hlost.2

/-! ## Moving threads -/

theorem queue_setQueue (h : s.queue r = some q) (rest : List Ptr) : (s.setQueue r rest).queue r = some rest := by
  cases r with
  | thread p =>
    obtain ⟨t, ht, -⟩ := Option.map_eq_some_iff.1 h
    simp [State.queue, State.setQueue, ht]
  | lock l =>
    obtain ⟨k, hk, -⟩ := Option.map_eq_some_iff.1 h
    simp [State.queue, State.setQueue, hk]
  | cv c => simp [State.queue, State.setQueue]
  | user w => simp [State.queue, State.setQueue]

theorem queue_readied (s : State) (q : List Ptr) (r : QRef) : (readied s q).queue r = s.queue r := by
  cases r with
  | thread p =>
    simp only [State.queue, readied]
    split
    · rw [Option.map_map]; rfl
    · rfl
  | lock l | cv c | user w => rfl

theorem queue_moved (h : s.queue r = some (q ++ rest)) : (moved s r q rest).queue r = some rest :=
  (queue_readied (s.setQueue r rest) q r).trans (queue_setQueue h rest)

theorem slotted_moved (h : Slotted s p) : Slotted (moved s r q rest) p := by
  obtain ⟨t, ht, hslot⟩ := h
  obtain ⟨u, hu, hid, -, -⟩ := heap_setQueue_of (r := r) rest ht
  have hthr : (s.setQueue r rest).threads = s.threads := setQueue_threads s r rest
  by_cases hp : p ∈ q
  · refine ⟨{ u with status := .ready }, ?_, ?_⟩
    · simp only [moved, readied, hp, if_true, hu, Option.map_some]
    · change (s.setQueue r rest).threads u.id = some p
      rw [hthr, hid, hslot]
  · refine ⟨u, ?_, ?_⟩
    · simp only [moved, readied, hp, if_false, hu]
    · change (s.setQueue r rest).threads u.id = some p
      rw [hthr, hid, hslot]

theorem setQueue_readied (s : State) (q rest : List Ptr) (r : QRef) :
    (readied s q).setQueue r rest = readied (s.setQueue r rest) q := by
  cases r with
  | thread p =>
    simp only [State.setQueue, readied, State.mk.injEq, and_true]
    funext x
    by_cases hx : x = p
    · subst hx
      simp only [update_self]
      split
      · simp only [Option.map_map]; rfl
      · rfl
    · simp only [update_of_ne hx]
  | lock l | cv c | user w => rfl

theorem setQueue_setQueue (s : State) (r : QRef) (q q' : List Ptr) :
    (s.setQueue r q).setQueue r q' = s.setQueue r q' := by
  cases r with
  | thread p => cases h : s.heap p <;> simp [State.setQueue, h]
  | lock l => cases h : s.locks l <;> simp [State.setQueue, h]
  | cv c => simp [State.setQueue]
  | user w => simp [State.setQueue]

theorem readied_readied (s : State) (q q' : List Ptr) : readied (readied s q) q' = readied s (q ++ q') := by
  simp only [readied, State.mk.injEq, and_true]
  funext x
  by_cases hq : x ∈ q <;> by_cases hq' : x ∈ q' <;> simp [hq, hq', Function.comp_def]

/-- moving the first thread and then the others is moving all -/
theorem moved_cons (s : State) (r : QRef) (x : Ptr) (q rest : List Ptr) :
    moved (moved s r [x] (q ++ rest)) r q rest = moved s r (x :: q) rest := by
  have hq : (moved s r [x] (q ++ rest)).setQueue r rest =
      { readied (s.setQueue r rest) [x] with readyQueue := s.readyQueue ++ [x] } := by
    have h1 : (readied (s.setQueue r (q ++ rest)) [x]).setQueue r rest = readied (s.setQueue r rest) [x] := by
      rw [setQueue_readied, setQueue_setQueue]
    rw [← h1]
    cases r <;> rfl
  have hheap : (readied (readied (s.setQueue r rest) [x]) q).heap = (readied (s.setQueue r rest) (x :: q)).heap := by
    rw [readied_readied, List.singleton_append]
  rw [moved, hq, moved]
  congr 1
  exact List.append_assoc s.readyQueue [x] q

theorem moved_nil (h : s.queue r = some rest) : moved s r [] rest = s := by
  have hset : s.setQueue r rest = s := by
    cases r with
    | thread p =>
      obtain ⟨t, ht, hq⟩ := Option.map_eq_some_iff.1 h
      have hsame : update s.heap p ((s.heap p).map fun t => { t with queue := rest }) = s.heap := by
        rw [ht, Option.map_some, ← hq, ← ht, update_eq_self]
      simp only [State.setQueue, hsame]
    | lock l =>
      obtain ⟨k, hk, hq⟩ := Option.map_eq_some_iff.1 h
      have hsame : update s.locks l ((s.locks l).map fun k => { k with queue := rest }) = s.locks := by
        rw [hk, Option.map_some, ← hq, ← hk, update_eq_self]
      simp only [State.setQueue, hsame]
    | cv c =>
      have hc : s.cvs c = some rest := h
      simp only [State.setQueue, ← hc, update_eq_self]
    | user w =>
      have hw : s.waitQueues w = some rest := h
      simp only [State.setQueue, ← hw, update_eq_self]
  simp [moved, readied, hset]

/-! ## The loop -/

/-- one turn: the head of the queue -/
theorem wake_eq (hq : s.queue r = some (x :: rest)) {t : Tcb} (ht : s.heap x = some t) (hx : s.threads t.id = some x) :
    wake s r t.id = .ok (moved s r [x] rest) := by
  obtain ⟨u, hu, -⟩ := heap_setQueue_of (r := r) rest ht
  have hdel : deleteFromQueue s t.id (x :: rest) = .ok rest := by
    simp only [deleteFromQueue, deref_eq ht, ok_bind, if_true, pure_eq_ok]
  have hslot : (s.setQueue r rest).slot t.id = .ok x :=
    slot_eq (by rw [setQueue_threads]; exact hx)
  simp only [wake, queueAt_eq hq, ok_bind, hdel, hslot, State.setStatus, State.deref, hu, pure_eq_ok]
  simp only [moved, readied, State.setTcb, setQueue_readyQueue, List.mem_singleton, Except.ok.injEq, State.mk.injEq,
    and_true]
  funext y
  by_cases hy : y = x
  · subst hy; simp [hu]
  · simp [hy]

theorem wakeLoop_eq (hq : s.queue r = some q) (hslots : ∀ x ∈ q, Slotted s x) (count : ℕ) :
    wakeLoop r q.length s count = .ok (moved s r q [], count + q.length) := by
  induction q generalizing s count with
  | nil => rw [moved_nil hq]; rfl
  | cons x q ih =>
    obtain ⟨t, ht, hx⟩ := hslots x List.mem_cons_self
    have hq1 : (moved s r [x] q).queue r = some q := queue_moved hq
    have hrest := ih hq1 (fun y hy => slotted_moved (hslots y (List.mem_cons_of_mem _ hy))) (count + 1)
    have hmoved := moved_cons s r x q []
    rw [List.append_nil] at hmoved
    simp only [List.length_cons, wakeLoop, queueAt_eq hq, ok_bind, getFirst_cons ht, wake_eq hq ht hx, hrest, hmoved]
    congr 2
    omega

/-- `interrupts_off` and then `interrupts_set` with its result -/
theorem moved_interrupts (s : State) (r : QRef) (q rest : List Ptr) (n : ℕ) :
    (moved s.interruptsOff r q rest).returns s.cpu.enabled (some n) =
    { moved s r q rest with ret := some (n : ℤ) } := by
  cases r <;> rfl

theorem threadWakeup_nil (hq : s.queue r = some []) (all : Bool) :
    threadWakeup s r all = .ok { s with ret := some 0 } := by
  have hq0 : s.interruptsOff.queue r = some [] := by cases r <;> exact hq
  simp only [threadWakeup, queueAt_eq hq0, ok_bind, getFirst_nil]
  rfl

theorem threadWakeup_first (hq : s.queue r = some (x :: rest)) (hx : Slotted s x) :
    threadWakeup s r false = .ok { moved s r [x] rest with ret := some 1 } := by
  obtain ⟨t, ht, hslot⟩ := hx
  have hq0 : s.interruptsOff.queue r = some (x :: rest) := by cases r <;> exact hq
  have ht0 : s.interruptsOff.heap x = some t := ht
  have hwake := wake_eq hq0 ht0 hslot
  simp only [threadWakeup, queueAt_eq hq0, ok_bind, getFirst_cons ht0, Bool.false_eq_true, if_false, hwake]
  exact congrArg Except.ok (moved_interrupts s r [x] rest 1)

theorem threadWakeup_queue (hq : s.queue r = some q) (hslots : ∀ x ∈ q, Slotted s x) :
    threadWakeup s r true = .ok { moved s r q [] with ret := some (q.length : ℤ) } := by
  cases q with
  | nil => rw [moved_nil hq]; exact threadWakeup_nil hq true
  | cons x q =>
    obtain ⟨t, ht, -⟩ := hslots x List.mem_cons_self
    have hq0 : s.interruptsOff.queue r = some (x :: q) := by cases r <;> exact hq
    have ht0 : s.interruptsOff.heap x = some t := ht
    have hloop := wakeLoop_eq hq0 hslots 0
    rw [Nat.zero_add] at hloop
    simp only [threadWakeup, queueAt_eq hq0, ok_bind, getFirst_cons ht0, if_true, hloop]
    exact congrArg Except.ok (moved_interrupts s r (x :: q) [] _)

end

/-- **Wake-up is FIFO and exact.** In every state whose thread table is well formed, and these are all reachable ones,
for every wait queue `q` of blocked threads: `thread_wakeup(queue, 1)` moves them all, in order, to the end of the ready
queue and returns their number; `thread_wakeup(queue, 0)` moves the first one and returns 1; on an empty queue both
return 0. Nothing else changes. -/
theorem wakeup_fifo :
    (∀ enabled s, Run step anyStep (threadInit enabled) s → Kept true s) ∧
      ∀ s, Kept true s → ∀ r q, s.queue r = some q → (∀ x ∈ q, ∃ t, s.heap x = some t ∧ t.status = .blocked) →
        threadWakeup s r true = .ok { moved s r q [] with ret := some (q.length : ℤ) } ∧
        (moved s r q []).queue r = some [] ∧
        (∀ x rest, q = x :: rest → threadWakeup s r false = .ok { moved s r [x] rest with ret := some 1 } ∧
          (moved s r [x] rest).queue r = some rest) ∧
        (q = [] → threadWakeup s r true = .ok { s with ret := some 0 } ∧
          threadWakeup s r false = .ok { s with ret := some 0 }) := by
  refine ⟨fun enabled s hrun => kept_of_run hrun, fun s h r q hq hb => ?_⟩
  have hslots : ∀ x ∈ q, Slotted s x := by
    intro x hx
    obtain ⟨t, ht, hblocked⟩ := hb x hx
    exact Slotted.of_blocked h ht hblocked
  refine ⟨threadWakeup_queue hq hslots, queue_moved (by rwa [List.append_nil]), ?_, ?_⟩
  · rintro x rest rfl
    exact ⟨threadWakeup_first hq (hslots x List.mem_cons_self), queue_moved hq⟩
  · rintro rfl
    exact ⟨threadWakeup_nil hq true, threadWakeup_nil hq false⟩

/-- threads 1 and 2 have gone to sleep on a user queue, in this order -/
theorem wakeup_fifo_two_sleepers :
    ∃ s s', Run step anyStep (threadInit true) s ∧ s.queue (.user 0) = some [1, 2] ∧
      threadWakeup s (.user 0) true = .ok s' ∧ s'.readyQueue = [1, 2] ∧ s'.ret = some 2 := by
  have h : ∃ s, Run step anyStep (threadInit true) s ∧
      decide (s.queue (.user 0) = some [1, 2] ∧ s.readyQueue = [] ∧ (s.heap 1).map Tcb.status = some .blocked ∧
        (s.heap 2).map Tcb.status = some .blocked) = true :=
    run_of_passes [.create true, .create true, .waitQueueCreate, .yield 1, .resume, .sleep
      0, .resume, .sleep 0, .resume]
      (by decide +kernel)
  obtain ⟨s, hrun, hs⟩ := h
  obtain ⟨hq, hready, h1, h2⟩ := of_decide_eq_true hs
  obtain ⟨hall, -⟩ := wakeup_fifo.2 s (wakeup_fifo.1 true s hrun) (.user 0) [1, 2] hq (by
    intro x hx
    rcases List.mem_pair.1 hx with rfl | rfl
    · exact Option.map_eq_some_iff.1 h1
    · exact Option.map_eq_some_iff.1 h2)
  exact ⟨s, _, hrun, hq, hall, by simp [moved, hready], rfl⟩

end OsLab.Threads
