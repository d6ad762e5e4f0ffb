/-
The thread library as a scheduler: every call is a list of dispatcher actions (`OsLab.Lib.Sched`).

`view` forgets addresses, identifiers and stacks; `Inv` is the scheduler invariant of the view plus what ties the view
to `threads[]` (`Table`).
-/
import Mathlib.Tactic
import OsLab.Threads.Model

namespace OsLab.Threads

open OsLab.Lib Function State

/-! ## The view -/

/-- the status of a thread of the table -/
def stat (s : State) (p : Ptr) : Option Status :=
  match s.heap p with
  | none => none
  | some t => if s.threads t.id = some p then some t.status else none

/-- the wait queues that can still be reached: those of threads in the table and of existing objects -/
def waiting (s : State) : QRef → List Ptr
  | .thread p => if (stat s p).isSome then (s.queue (.thread p)).getD [] else []
  | r => (s.queue r).getD []

def view (s : State) : Sched Ptr QRef where
  stat := stat s
  cur := s.cpu.owner
  ready := s.readyQueue
  wait := waiting s

/-- the stacks with which a thread can be switched away -/
def savedStack : List Frame → Bool
  | [.stub] | [.yield _ _] | [.yield _ _, .handler] => true
  | [.sleep _ _] | [.sleep _ _, .wait _ _] | [.sleep _ _, .lockAcquire _ _] | [.sleep _ _, .cvSleep _ _] => true
  | [.sleep _ _, .lockAcquire _ l, .cvAcquire _ l'] => l = l'
  | _ => false

/-- the thread table is well formed -/
structure Table (s : State) : Prop where
  range : ∀ i p, s.threads i = some p → i ∈ tids
  id : ∀ i p, s.threads i = some p → ∃ t, s.heap p = some t ∧ t.id = i
  fresh : ∀ p, s.nextPtr ≤ p → s.heap p = none
  /-- a saved context belongs to the thread it is saved in -/
  owner : ∀ p t, s.heap p = some t → t.context.owner = p
  saved : ∀ p t, s.heap p = some t → stat s p = some .ready ∨ stat s p = some .blocked →
    savedStack t.context.frames
  noSelf : ∀ p, p ∉ waiting s (.thread p)
  objs : ∀ n, s.nextObj ≤ n → s.locks n = none ∧ s.cvs n = none ∧ s.waitQueues n = none

/-- `Table` does not look at the registers, the ready queue, the result or the log -/
theorem Table.aux {s : State} (h : Table s) (cpu : Context) (ready : List Ptr) (ret : Option ℤ) (log : List Event) :
    Table { s with cpu := cpu, readyQueue := ready, ret := ret, log := log } :=
  ⟨h.range, h.id, h.fresh, h.owner, h.saved, h.noSelf, h.objs⟩

/-- the stacks with which a thread can run -/
def liveStack : List Frame → Bool
  | [] | [.handler] | [.wait _ _] | [.lockAcquire _ _] | [.cvSleep _ _] | [.cvAcquire _ _] => true
  | [.lockAcquire _ l, .cvAcquire _ l'] => l = l'
  | fs => savedStack fs

structure Inv (s : State) : Prop where
  sched : (view s).Inv
  table : Table s
  live : liveStack s.cpu.frames

theorem mem_tids {i : Tid} : i ∈ tids ↔ 0 ≤ i ∧ i < threadMaxThreads := by
  simp only [tids, List.mem_map, List.mem_range]
  constructor
  · rintro ⟨n, hn, rfl⟩
    exact ⟨Int.natCast_nonneg n, Int.ofNat_lt.2 hn⟩
  · rintro ⟨h0, h1⟩
    exact ⟨i.toNat, (Int.toNat_lt h0).2 h1, Int.toNat_of_nonneg h0⟩

theorem stat_isSome {s : State} {p : Ptr} (h : (stat s p).isSome) :
    ∃ t, s.heap p = some t ∧ s.threads t.id = some p ∧ stat s p = some t.status := by
  unfold stat at h ⊢
  cases hp : s.heap p with
  | none => simp [hp] at h
  | some t =>
    simp only [hp] at h ⊢
    by_cases ht : s.threads t.id = some p
    · exact ⟨t, rfl, ht, by simp [ht]⟩
    · simp [ht] at h

theorem stat_eq_some {s : State} {p : Ptr} {st : Status} (h : stat s p = some st) :
    ∃ t, s.heap p = some t ∧ s.threads t.id = some p ∧ t.status = st := by
  obtain ⟨t, h1, h2, h3⟩ := stat_isSome (s := s) (p := p) (by simp [h])
  rw [h] at h3
  exact ⟨t, h1, h2, (Option.some.inj h3).symm⟩

theorem Table.stat_slot {s : State} (h : Table s) {i : Tid} {p : Ptr} (hi : s.threads i = some p) :
    ∃ t, s.heap p = some t ∧ t.id = i ∧ stat s p = some t.status := by
  obtain ⟨t, ht, hid⟩ := h.id i p hi
  exact ⟨t, ht, hid, by simp [stat, ht, hid, hi]⟩

theorem Table.stat_none {s : State} (h : Table s) {p : Ptr} (hp : s.nextPtr ≤ p) : stat s p = none := by
  simp [stat, h.fresh p hp]

theorem Table.id_inj {s : State} (h : Table s) {i j : Tid} {p : Ptr} (hi : s.threads i = some p)
    (hj : s.threads j = some p) : i = j := by
  obtain ⟨t, ht, rfl⟩ := h.id i p hi
  obtain ⟨t', ht', rfl⟩ := h.id j p hj
  rw [ht] at ht'; cases ht'; rfl

theorem tcbAt_eq {s : State} {i : Tid} {t : Tcb} (h : s.tcbAt i = some t) :
    ∃ p, s.threads i = some p ∧ s.heap p = some t := by
  simpa [State.tcbAt, Option.bind_eq_some_iff] using h

/-! ## Reading the table -/

/-- `thread_id()` is the identifier of the thread whose stack is running -/
theorem threadId_eq {s : State} (h : Inv s) :
    s.threads (threadId s) = some s.cpu.owner ∧ threadId s ∈ tids := by
  obtain ⟨t, ht, hslot, hrun⟩ := stat_eq_some (s := s) (p := s.cpu.owner) h.sched.cur_running
  have hmem := h.table.range _ _ hslot
  have hsome : (tids.find? fun i => (s.tcbAt i).any fun t => t.status = .running).isSome := by
    rw [List.find?_isSome]
    exact ⟨t.id, hmem, by simp [State.tcbAt, hslot, ht, hrun]⟩
  obtain ⟨i, hi⟩ := Option.isSome_iff_exists.1 hsome
  have hprop := List.find?_some hi
  have hi' := List.mem_of_find?_eq_some hi
  simp only [Option.any_eq_true, decide_eq_true_eq] at hprop
  obtain ⟨t', ht', hrun'⟩ := hprop
  obtain ⟨p, hp, hpt⟩ := tcbAt_eq ht'
  obtain ⟨t'', ht'', -, hst⟩ := h.table.stat_slot hp
  rw [hpt] at ht''; cases ht''
  have hcur : p = s.cpu.owner := (h.sched.running_iff p).1 (by simpa [view, hrun'] using hst)
  unfold threadId
  rw [hi]
  exact ⟨by simpa [hcur] using hp, hi'⟩

theorem slot_eq {s : State} {i : Tid} {p : Ptr} (h : s.threads i = some p) : s.slot i = .ok p := by
  simp [State.slot, h]

theorem deref_eq {s : State} {p : Ptr} {t : Tcb} (h : s.heap p = some t) : s.deref p = .ok t := by
  simp [State.deref, h]

/-- deleting by identifier is deleting by address, in a queue of threads of the table -/
theorem deleteFromQueue_eq {s : State} (h : Table s) {i : Tid} {p : Ptr} (hi : s.threads i = some p) {q : List Ptr}
    (hq : ∀ x ∈ q, (stat s x).isSome) : deleteFromQueue s i q = .ok (q.erase p) := by
  induction q with
  | nil => rfl
  | cons x q ih =>
    obtain ⟨t, ht, hx, -⟩ := stat_isSome (hq x List.mem_cons_self)
    have ih' := ih fun y hy => hq y (List.mem_cons_of_mem _ hy)
    by_cases hxp : x = p
    · subst hxp
      have : t.id = i := h.id_inj hx hi
      simp [deleteFromQueue, deref_eq ht, this]
    · have : t.id ≠ i := by
        intro hid
        rw [hid, hi] at hx
        exact hxp (Option.some.inj hx).symm
      simp [deleteFromQueue, deref_eq ht, this, ih', List.erase_cons_tail, hxp]

theorem drain_eq {s : State} {q : List Ptr} (hq : ∀ x ∈ q, (stat s x).isSome) : drain s q = .ok () := by
  induction q with
  | nil => rfl
  | cons x q ih =>
    obtain ⟨t, ht, -, -⟩ := stat_isSome (hq x List.mem_cons_self)
    simp [drain, deref_eq ht, ih fun y hy => hq y (List.mem_cons_of_mem _ hy)]

theorem getFirst_nil (s : State) : getFirst s [] = .ok none := rfl

theorem getFirst_cons {s : State} {p : Ptr} {t : Tcb} (ht : s.heap p = some t) (q : List Ptr) :
    getFirst s (p :: q) = .ok (some t.id) := by
  simp [getFirst, deref_eq ht]

/-! ## Editing the table

Each edit of the table changes the view in one component and keeps what `Table` says. -/

theorem stat_congr {s s' : State} {x : Ptr} (hh : s'.heap x = s.heap x) (ht : s'.threads = s.threads) :
    stat s' x = stat s x := by
  unfold stat; rw [hh, ht]

theorem stat_setTcb {s : State} {p : Ptr} {t t' : Tcb} (ht : s.heap p = some t) (hid : t'.id = t.id)
    (hp : s.threads t.id = some p) : stat (s.setTcb p t') = update (stat s) p (some t'.status) := by
  funext x
  by_cases hx : x = p
  · subst hx; simp [stat, State.setTcb, hid, hp]
  · rw [update_of_ne hx]; exact stat_congr (by simp [State.setTcb, update_of_ne hx]) rfl

theorem waiting_setTcb {s : State} {p : Ptr} {t t' : Tcb} (ht : s.heap p = some t) (hid : t'.id = t.id)
    (hp : s.threads t.id = some p) (hq : t'.queue = t.queue) : waiting (s.setTcb p t') = waiting s := by
  funext r
  cases r with
  | thread x =>
    simp only [waiting, stat_setTcb ht hid hp]
    by_cases hx : x = p
    · subst hx; simp [State.queue, State.setTcb, stat, ht, hp, hq]
    · simp [State.queue, State.setTcb, update_of_ne hx]
  | lock | cv | user => rfl

theorem view_setTcb {s : State} {p : Ptr} {t t' : Tcb} (ht : s.heap p = some t) (hid : t'.id = t.id)
    (hp : s.threads t.id = some p) (hq : t'.queue = t.queue) :
    view (s.setTcb p t') = { view s with stat := update (view s).stat p (some t'.status) } := by
  simp only [view, stat_setTcb ht hid hp, waiting_setTcb ht hid hp hq]; rfl

theorem Table.setTcb {s : State} (h : Table s) {p : Ptr} {t t' : Tcb} (ht : s.heap p = some t) (hid : t'.id = t.id)
    (hp : s.threads t.id = some p) (hq : t'.queue = t.queue) (ho : t'.context.owner = p)
    (hs : t'.status = .ready ∨ t'.status = .blocked → savedStack t'.context.frames) : Table (s.setTcb p t') where
  range := h.range
  id i x hi := by
    obtain ⟨u, hu, huid⟩ := h.id i x hi
    by_cases hx : x = p
    · subst hx; rw [ht] at hu; cases hu; exact ⟨t', by simp [State.setTcb], hid.trans huid⟩
    · exact ⟨u, by simpa [State.setTcb, update_of_ne hx] using hu, huid⟩
  fresh x hx := by
    have hne : x ≠ p := by rintro rfl; rw [h.fresh x hx] at ht; cases ht
    simpa [State.setTcb, update_of_ne hne] using h.fresh x hx
  owner x u hu := by
    by_cases hx : x = p
    · subst hx; simp only [State.setTcb, update_self, Option.some.injEq] at hu; subst hu; exact ho
    · exact h.owner x u (by simpa [State.setTcb, update_of_ne hx] using hu)
  saved x u hu hst := by
    rw [stat_setTcb ht hid hp] at hst
    by_cases hx : x = p
    · subst hx
      simp only [State.setTcb, update_self, Option.some.injEq] at hu hst; subst hu; exact hs hst
    · rw [update_of_ne hx] at hst
      exact h.saved x u (by simpa [State.setTcb, update_of_ne hx] using hu) hst
  noSelf x := by rw [waiting_setTcb ht hid hp hq]; exact h.noSelf x
  objs := h.objs

/-- `r` is the queue of a thread of the table or of an existing object, with contents `q` -/
def Reaches (s : State) (r : QRef) (q : List Ptr) : Prop :=
  s.queue r = some q ∧ ∀ p, r = .thread p → (stat s p).isSome

theorem Reaches.waiting {s : State} {r : QRef} {q : List Ptr} (h : Reaches s r q) : waiting s r = q := by
  cases r with
  | thread p => simp [Threads.waiting, h.2 p rfl, h.1]
  | lock | cv | user => simp [Threads.waiting, h.1]

theorem setQueue_readyQueue (s : State) (r : QRef) (q : List Ptr) : (s.setQueue r q).readyQueue = s.readyQueue := by
  cases r <;> rfl

theorem stat_setQueue {s : State} {r : QRef} (q : List Ptr) : stat (s.setQueue r q) = stat s := by
  funext x
  cases r with
  | thread p =>
    by_cases hx : x = p
    · subst hx
      cases hh : s.heap x <;> simp [stat, State.setQueue, hh]
    · exact stat_congr (by simp [State.setQueue, update_of_ne hx]) rfl
  | lock | cv | user => rfl

theorem waiting_setQueue {s : State} {r : QRef} {q0 : List Ptr} (h : Reaches s r q0) (q : List Ptr) :
    waiting (s.setQueue r q) = update (waiting s) r q := by
  obtain ⟨hq, hr⟩ := h
  funext r'
  by_cases hrr : r' = r
  · subst hrr
    rw [update_self]
    cases r' with
    | thread p =>
      simp only [State.queue, Option.map_eq_some_iff] at hq
      obtain ⟨t, ht, -⟩ := hq
      simp only [waiting, stat_setQueue, hr p rfl, if_true]
      simp [State.queue, State.setQueue, ht]
    | lock l =>
      simp only [State.queue, Option.map_eq_some_iff] at hq
      obtain ⟨k, hk, -⟩ := hq
      simp [waiting, State.queue, State.setQueue, hk]
    | cv | user => simp [waiting, State.queue, State.setQueue]
  · rw [update_of_ne hrr]
    cases r' with
    | thread p' =>
      cases r with
      | thread p =>
        have hne : p' ≠ p := by rintro rfl; exact hrr rfl
        simp only [waiting, stat_setQueue]
        simp [State.queue, State.setQueue, update_of_ne hne]
      | lock | cv | user => rfl
    | lock l' =>
      cases r with
      | lock l =>
        have hne : l' ≠ l := by rintro rfl; exact hrr rfl
        simp [waiting, State.queue, State.setQueue, update_of_ne hne]
      | thread | cv | user => rfl
    | cv c' =>
      cases r with
      | cv c =>
        have hne : c' ≠ c := by rintro rfl; exact hrr rfl
        simp [waiting, State.queue, State.setQueue, update_of_ne hne]
      | thread | lock | user => rfl
    | user w' =>
      cases r with
      | user w =>
        have hne : w' ≠ w := by rintro rfl; exact hrr rfl
        simp [waiting, State.queue, State.setQueue, update_of_ne hne]
      | thread | lock | cv => rfl

theorem view_setQueue {s : State} {r : QRef} {q0 : List Ptr} (h : Reaches s r q0) (q : List Ptr) :
    view (s.setQueue r q) = { view s with wait := update (view s).wait r q } := by
  have hcpu : (s.setQueue r q).cpu = s.cpu := by cases r <;> rfl
  have hready : (s.setQueue r q).readyQueue = s.readyQueue := by cases r <;> rfl
  simp only [view, stat_setQueue, waiting_setQueue h, hcpu, hready]

/-- a control block after `setQueue` differs from the one before in its queue only -/
theorem heap_setQueue {s : State} {r : QRef} {q : List Ptr} {x : Ptr} {u : Tcb}
    (h : (s.setQueue r q).heap x = some u) :
    ∃ t, s.heap x = some t ∧ t.id = u.id ∧ t.context = u.context ∧ t.status = u.status := by
  cases r with
  | thread p =>
    by_cases hx : x = p
    · subst hx
      simp only [State.setQueue, update_self, Option.map_eq_some_iff] at h
      obtain ⟨t, ht, rfl⟩ := h
      exact ⟨t, ht, rfl, rfl, rfl⟩
    · exact ⟨u, by simpa [State.setQueue, update_of_ne hx] using h, rfl, rfl, rfl⟩
  | lock | cv | user => exact ⟨u, h, rfl, rfl, rfl⟩

theorem heap_setQueue_of {s : State} {r : QRef} (q : List Ptr) {x : Ptr} {t : Tcb} (h : s.heap x = some t) :
    ∃ u, (s.setQueue r q).heap x = some u ∧ u.id = t.id ∧ u.context = t.context ∧ u.status = t.status := by
  cases r with
  | thread p =>
    by_cases hx : x = p
    · subst hx; exact ⟨{ t with queue := q }, by simp [State.setQueue, h], rfl, rfl, rfl⟩
    · exact ⟨t, by simpa [State.setQueue, update_of_ne hx] using h, rfl, rfl, rfl⟩
  | lock | cv | user => exact ⟨t, h, rfl, rfl, rfl⟩

theorem Table.setQueue {s : State} (h : Table s) {r : QRef} {q0 : List Ptr} (hr : Reaches s r q0) {q : List Ptr}
    (hq : ∀ p, r = .thread p → p ∉ q) : Table (s.setQueue r q) where
  range i p hi := h.range i p (by cases r <;> exact hi)
  id i p hi := by
    obtain ⟨t, ht, hid⟩ := h.id i p (by cases r <;> exact hi)
    obtain ⟨u, hu, huid, -, -⟩ := heap_setQueue_of (r := r) q ht
    exact ⟨u, hu, huid.trans hid⟩
  fresh p hp := by
    have := h.fresh p (by cases r <;> exact hp)
    cases hh : (s.setQueue r q).heap p with
    | none => rfl
    | some u => obtain ⟨t, ht, -⟩ := heap_setQueue hh; rw [this] at ht; cases ht
  owner p u hu := by
    obtain ⟨t, ht, -, hc, -⟩ := heap_setQueue hu
    rw [← hc]; exact h.owner p t ht
  saved p u hu hst := by
    obtain ⟨t, ht, -, hc, -⟩ := heap_setQueue hu
    rw [stat_setQueue] at hst
    rw [← hc]; exact h.saved p t ht hst
  noSelf p := by
    rw [waiting_setQueue hr]
    by_cases hpr : QRef.thread p = r
    · subst hpr; rw [update_self]; exact hq p rfl
    · rw [update_of_ne hpr]; exact h.noSelf p
  objs n hn := by
    obtain ⟨h1, h2, h3⟩ := h.objs n (by cases r <;> exact hn)
    have hq := hr.1
    cases r with
    | thread p => exact ⟨h1, h2, h3⟩
    | lock l =>
      have hne : n ≠ l := by rintro rfl; simp [State.queue, h1] at hq
      exact ⟨by simp [State.setQueue, update_of_ne hne, h1], h2, h3⟩
    | cv c =>
      have hne : n ≠ c := by rintro rfl; simp [State.queue, h2] at hq
      exact ⟨h1, by simp [State.setQueue, update_of_ne hne, h2], h3⟩
    | user w =>
      have hne : n ≠ w := by rintro rfl; simp [State.queue, h3] at hq
      exact ⟨h1, h2, by simp [State.setQueue, update_of_ne hne, h3]⟩

theorem setStatus_eq {s : State} {p : Ptr} {t : Tcb} (ht : s.heap p = some t) (st : Status) :
    s.setStatus p st = .ok (s.setTcb p { t with status := st }) := by
  simp [State.setStatus, deref_eq ht]

/-- a status edit: the view changes in one status, the table stays well formed -/
theorem setStatus_spec {s : State} (h : Table s) {p : Ptr} (hp : (stat s p).isSome) (st : Status)
    (hs : st = .ready ∨ st = .blocked → ∀ t, s.heap p = some t → savedStack t.context.frames) :
    ∃ t, s.heap p = some t ∧ s.setStatus p st = .ok (s.setTcb p { t with status := st }) ∧
      view (s.setTcb p { t with status := st }) = { view s with stat := update (view s).stat p (some st) } ∧
      Table (s.setTcb p { t with status := st }) := by
  obtain ⟨t, ht, hslot, -⟩ := stat_isSome hp
  refine ⟨t, ht, setStatus_eq ht st, view_setTcb ht rfl hslot rfl, ?_⟩
  exact h.setTcb ht rfl hslot rfl (h.owner p t ht) (fun hst => hs hst t ht)

/-! ## Reclaiming -/

/-- `threads[i] = p` freed -/
def reclaimed (s : State) (i : Tid) (p : Ptr) : State :=
  { s with heap := update s.heap p none, threads := update s.threads i none }

theorem stat_reclaimed {s : State} (h : Table s) {i : Tid} {p : Ptr} (hi : s.threads i = some p) :
    stat (reclaimed s i p) = update (stat s) p none := by
  obtain ⟨t, ht, hid, -⟩ := h.stat_slot hi
  funext x
  by_cases hx : x = p
  · subst hx; simp [stat, reclaimed]
  · rw [update_of_ne hx]
    simp only [stat, reclaimed, update_of_ne hx]
    cases hu : s.heap x with
    | none => rfl
    | some u =>
      simp only
      by_cases hui : u.id = i
      · have : s.threads u.id ≠ some x := by
          rw [hui, hi]; intro e; exact hx (Option.some.inj e).symm
        simp [hui, hi, Ne.symm hx]
      · simp [update_of_ne hui]

theorem waiting_reclaimed {s : State} (h : Table s) {i : Tid} {p : Ptr} (hi : s.threads i = some p) :
    waiting (reclaimed s i p) = update (waiting s) (.thread p) [] := by
  funext r
  cases r with
  | thread x =>
    simp only [waiting, stat_reclaimed h hi]
    by_cases hx : x = p
    · subst hx; simp
    · rw [update_of_ne hx, update_of_ne (by simpa using hx)]
      simp [waiting, State.queue, reclaimed, update_of_ne hx]
  | lock l | cv c | user w => rw [update_of_ne (by simp)]; rfl

theorem view_reclaimed {s : State} (h : Table s) {i : Tid} {p : Ptr} (hi : s.threads i = some p) :
    view (reclaimed s i p) = (view s).apply (.reclaim p (.thread p)) := by
  simp only [view, stat_reclaimed h hi, waiting_reclaimed h hi, Sched.apply]; rfl

theorem Table.reclaimed {s : State} (h : Table s) {i : Tid} {p : Ptr} (hi : s.threads i = some p) :
    Table (reclaimed s i p) where
  range j x hj := by
    by_cases hji : j = i
    · subst hji; simp [Threads.reclaimed] at hj
    · exact h.range j x (by simpa [Threads.reclaimed, update_of_ne hji] using hj)
  id j x hj := by
    by_cases hji : j = i
    · subst hji; simp [Threads.reclaimed] at hj
    · have hj' : s.threads j = some x := by simpa [Threads.reclaimed, update_of_ne hji] using hj
      have hx : x ≠ p := by rintro rfl; exact hji (h.id_inj hj' hi)
      obtain ⟨t, ht, hid⟩ := h.id j x hj'
      exact ⟨t, by simpa [Threads.reclaimed, update_of_ne hx] using ht, hid⟩
  fresh x hx := by
    by_cases hxp : x = p
    · subst hxp; simp [Threads.reclaimed]
    · simpa [Threads.reclaimed, update_of_ne hxp] using h.fresh x hx
  owner x t ht := by
    by_cases hxp : x = p
    · subst hxp; simp [Threads.reclaimed] at ht
    · exact h.owner x t (by simpa [Threads.reclaimed, update_of_ne hxp] using ht)
  saved x t ht hst := by
    rw [stat_reclaimed h hi] at hst
    by_cases hxp : x = p
    · subst hxp; simp at hst
    · rw [update_of_ne hxp] at hst
      exact h.saved x t (by simpa [Threads.reclaimed, update_of_ne hxp] using ht) hst
  noSelf x := by
    rw [waiting_reclaimed h hi]
    by_cases hxp : x = p
    · subst hxp; simp
    · rw [update_of_ne (by simpa using hxp)]; exact h.noSelf x
  objs := h.objs

/-- `free_exited` reclaims at most one thread; the ready queue does not hold it -/
theorem freeExited_cases {s : State} (h : Table s) (hr : ∀ x ∈ s.readyQueue, stat s x = some .ready)
    (hw : ∀ r, ∀ x ∈ waiting s r, stat s x = some .blocked) :
    freeExited s = .ok s ∨
      ∃ i p, s.threads i = some p ∧ stat s p = some .exited ∧ freeExited s = .ok (reclaimed s i p) := by
  unfold freeExited
  cases hf : tids.find? fun i => (s.tcbAt i).any fun t => t.status = .exited with
  | none => exact Or.inl rfl
  | some i =>
    right
    have hprop := List.find?_some hf
    simp only [Option.any_eq_true, decide_eq_true_eq] at hprop
    obtain ⟨t, ht, hst⟩ := hprop
    obtain ⟨p, hp, hpt⟩ := tcbAt_eq ht
    obtain ⟨t', ht', -, hstat⟩ := h.stat_slot hp
    rw [hpt] at ht'; cases ht'
    rw [hst] at hstat
    have hmem : p ∉ s.readyQueue := fun hm => by rw [hr p hm] at hstat; simp at hstat
    have hdel : deleteFromQueue s i s.readyQueue = .ok s.readyQueue := by
      rw [deleteFromQueue_eq h hp (fun x hx => by simp [hr x hx]), List.erase_of_not_mem hmem]
    have hdrain : drain s t.queue = .ok () := by
      refine drain_eq fun x hx => ?_
      have hxw : x ∈ waiting s (.thread p) := by simp [waiting, hstat, State.queue, hpt, hx]
      simp [hw _ x hxw]
    refine ⟨i, p, hp, hstat, ?_⟩
    simp only [hdel, ok_bind, freeThread, slot_eq hp, deref_eq hpt, hdrain]
    rfl

/-! ## Waking up -/

theorem queueAt_eq {s : State} {r : QRef} {q : List Ptr} (h : s.queue r = some q) : s.queueAt r = .ok q := by
  simp [State.queueAt, h]

/-- the fields no queue or status edit touches -/
structure Edits (s s' : State) : Prop where
  threads : s'.threads = s.threads
  nextPtr : s'.nextPtr = s.nextPtr
  cpu : s'.cpu = s.cpu
  log : s'.log = s.log
  nextObj : s'.nextObj = s.nextObj
  words : ∀ l, (s'.locks l).map (fun k => (k.thread, k.acquired)) = (s.locks l).map fun k => (k.thread, k.acquired)
  ids : ∀ p, (s'.heap p).map Tcb.id = (s.heap p).map Tcb.id
  contexts : ∀ p, (s'.heap p).map Tcb.context = (s.heap p).map Tcb.context

theorem Edits.refl (s : State) : Edits s s := ⟨rfl, rfl, rfl, rfl, rfl, fun _ => rfl, fun _ => rfl, fun _ => rfl⟩

theorem Edits.trans {s t u : State} (h1 : Edits s t) (h2 : Edits t u) : Edits s u :=
  ⟨h2.threads.trans h1.threads, h2.nextPtr.trans h1.nextPtr, h2.cpu.trans h1.cpu, h2.log.trans h1.log,
    h2.nextObj.trans h1.nextObj, fun l => (h2.words l).trans (h1.words l), fun p => (h2.ids p).trans (h1.ids p),
    fun p => (h2.contexts p).trans (h1.contexts p)⟩

theorem edits_setTcb {s : State} {p : Ptr} {t t' : Tcb} (ht : s.heap p = some t) (hid : t'.id = t.id)
    (hc : t'.context = t.context) : Edits s (s.setTcb p t') := by
  refine ⟨rfl, rfl, rfl, rfl, rfl, fun _ => rfl, fun x => ?_, fun x => ?_⟩
  · by_cases hx : x = p
    · subst hx; simp [State.setTcb, ht, hid]
    · simp [State.setTcb, update_of_ne hx]
  · by_cases hx : x = p
    · subst hx; simp [State.setTcb, ht, hc]
    · simp [State.setTcb, update_of_ne hx]

theorem edits_setQueue (s : State) (r : QRef) (q : List Ptr) : Edits s (s.setQueue r q) := by
  cases r with
  | thread p =>
    refine ⟨rfl, rfl, rfl, rfl, rfl, fun _ => rfl, fun x => ?_, fun x => ?_⟩
    all_goals
      by_cases hx : x = p
      · subst hx; cases hh : s.heap x <;> simp [State.setQueue, hh]
      · simp [State.setQueue, update_of_ne hx]
  | lock l =>
    refine ⟨rfl, rfl, rfl, rfl, rfl, fun x => ?_, fun _ => rfl, fun _ => rfl⟩
    by_cases hx : x = l
    · subst hx; cases hh : s.locks x <;> simp [State.setQueue, hh]
    · simp [State.setQueue, update_of_ne hx]
  | cv c => exact ⟨rfl, rfl, rfl, rfl, rfl, fun _ => rfl, fun _ => rfl, fun _ => rfl⟩
  | user w => exact ⟨rfl, rfl, rfl, rfl, rfl, fun _ => rfl, fun _ => rfl, fun _ => rfl⟩

/-- waking the head of a queue of blocked threads -/
theorem wake_spec {s : State} (h : Table s) {r : QRef} {x : Ptr} {q : List Ptr} (hr : Reaches s r (x :: q))
    (hb : ∀ y ∈ x :: q, stat s y = some .blocked) :
    ∃ t s', s.heap x = some t ∧ wake s r t.id = .ok s' ∧ Edits s s' ∧ Table s' ∧ Reaches s' r q ∧
      view s' = { view s with
        stat := update (view s).stat x (some .ready)
        ready := (view s).ready ++ [x]
        wait := update (view s).wait r q } := by
  have hbx := hb x List.mem_cons_self
  obtain ⟨t, ht, hslot, hst⟩ := stat_eq_some hbx
  have hdel : deleteFromQueue s t.id (x :: q) = .ok q := by
    rw [deleteFromQueue_eq h hslot (fun y hy => by simp [hb y hy])]; simp
  have hnoself : ∀ p, r = .thread p → p ∉ q := by
    rintro p rfl hm
    refine h.noSelf p ?_
    rw [hr.waiting]; exact List.mem_cons_of_mem _ hm
  have h1 : Table (s.setQueue r q) := h.setQueue hr hnoself
  have hv1 := view_setQueue hr q
  set s1 := s.setQueue r q with hs1
  have hslot1 : s1.threads t.id = some x := by rw [(edits_setQueue s r q).threads]; exact hslot
  set s2 : State := { s1 with readyQueue := s1.readyQueue ++ [x] } with hs2
  have h2 : Table s2 := h1.aux _ _ _ _
  have hx2 : stat s2 x = some .blocked := by
    show stat s1 x = _
    rw [hs1, stat_setQueue]; exact hbx
  obtain ⟨u, hu, hset, hv3, h3⟩ := setStatus_spec h2 (p := x) (by simp [hx2]) .ready
    (fun _ u hu => h2.saved x u hu (Or.inr hx2))
  refine ⟨t, s2.setTcb x { u with status := .ready }, ht, ?_, ?_, h3, ?_, ?_⟩
  · simp only [wake, queueAt_eq hr.1, ok_bind, hdel, ← hs1, slot_eq hslot1]
    exact hset
  · have e2 : Edits s1 s2 := ⟨rfl, rfl, rfl, rfl, rfl, fun _ => rfl, fun _ => rfl, fun _ => rfl⟩
    exact ((edits_setQueue s r q).trans e2).trans (edits_setTcb hu rfl rfl)
  · refine ⟨?_, ?_⟩
    · cases r with
      | thread p =>
        obtain ⟨v, hv, -⟩ := stat_isSome (hr.2 p rfl)
        by_cases hxp : p = x
        · subst hxp
          exact absurd hr.waiting (fun e => h.noSelf p (by rw [e]; exact List.mem_cons_self))
        · simp [State.queue, State.setTcb, update_of_ne hxp, s2, s1, State.setQueue, hv]
      | lock l =>
        have := hr.1
        simp only [State.queue, Option.map_eq_some_iff] at this
        obtain ⟨k, hk, -⟩ := this
        simp [State.queue, State.setTcb, s2, s1, State.setQueue, hk]
      | cv c => simp [State.queue, State.setTcb, s2, s1, State.setQueue]
      | user w => simp [State.queue, State.setTcb, s2, s1, State.setQueue]
    · rintro p rfl
      have hp := hr.2 p rfl
      have : stat (s2.setTcb x { u with status := .ready }) = update (stat s2) x (some .ready) :=
        congrArg Sched.stat hv3
      rw [this]
      by_cases hxp : p = x
      · subst hxp; simp
      · rw [update_of_ne hxp]
        show (stat s1 p).isSome = true
        rw [hs1, stat_setQueue]; exact hp
  · rw [hv3]
    show { view s1 with ready := (view s1).ready ++ [x], stat := update (view s1).stat x (some .ready) } = _
    rw [hv1]

theorem wakeLoop_spec {r : QRef} {q : List Ptr} {s : State} (h : Table s) (hr : Reaches s r q)
    (hb : ∀ y ∈ q, stat s y = some .blocked) (hnd : q.Nodup) (n : ℕ) :
    ∃ s', wakeLoop r q.length s n = .ok (s', n + q.length) ∧ Edits s s' ∧ Table s' ∧
      view s' = { view s with
        stat := fun t => if t ∈ q then some .ready else (view s).stat t
        ready := (view s).ready ++ q
        wait := update (view s).wait r [] } := by
  induction q generalizing s n with
  | nil =>
    refine ⟨s, rfl, Edits.refl s, h, ?_⟩
    have hw : (view s).wait r = [] := hr.waiting
    have : update (view s).wait r [] = (view s).wait := by rw [← hw]; exact update_eq_self _ _
    simp [this]
  | cons x q ih =>
    obtain ⟨t, s1, ht, hwake, he, h1, hr1, hv1⟩ := wake_spec h hr hb
    obtain ⟨hxq, hnd'⟩ := List.nodup_cons.1 hnd
    have hstat1 : stat s1 = update (stat s) x (some .ready) := congrArg Sched.stat hv1
    have hb1 : ∀ y ∈ q, stat s1 y = some .blocked := by
      intro y hy
      have hyx : y ≠ x := by rintro rfl; exact hxq hy
      rw [hstat1, update_of_ne hyx]
      exact hb y (List.mem_cons_of_mem _ hy)
    obtain ⟨s', hloop, he', h', hv'⟩ := ih h1 hr1 hb1 hnd' (n + 1)
    refine ⟨s', ?_, he.trans he', h', ?_⟩
    · simp only [List.length_cons, wakeLoop, queueAt_eq hr.1, ok_bind, getFirst_cons ht, hwake, hloop]
      congr 2; omega
    · rw [hv', hv1]
      simp only [Sched.mk.injEq, List.append_assoc, List.singleton_append, update_idem, and_self, and_true]
      funext y
      by_cases hyx : y = x
      · subst hyx; simp
      · simp [hyx]

/-- `thread_wakeup(queue, 1)` -/
theorem threadWakeup_all {s : State} (h : Table s) {r : QRef} {q : List Ptr} (hr : Reaches s r q)
    (hb : ∀ y ∈ q, stat s y = some .blocked) (hnd : q.Nodup) :
    ∃ s', threadWakeup s r true = .ok s' ∧ Edits s s' ∧ Table s' ∧ view s' = (view s).apply (.wakeAll r) := by
  have h0 : Table s.interruptsOff := h.aux _ _ _ _
  have hr0 : Reaches s.interruptsOff r q := by cases r <;> exact hr
  obtain ⟨s1, hloop, he, h1, hv⟩ := wakeLoop_spec h0 hr0 hb hnd 0
  have hwait : (view s).wait r = q := hr.waiting
  have hback : ∀ v, Edits s (s1.returns s.cpu.enabled v) := by
    intro v
    refine ⟨he.threads, he.nextPtr, ?_, he.log, he.nextObj, he.words, he.ids, he.contexts⟩
    simp only [State.returns, he.cpu, State.interruptsOff]
  cases q with
  | nil =>
    simp only [List.length_nil, wakeLoop, Except.ok.injEq, Prod.mk.injEq] at hloop
    obtain ⟨rfl, -⟩ := hloop
    refine ⟨s.interruptsOff.returns s.cpu.enabled (some 0), ?_, hback _, ?_, ?_⟩
    · simp only [threadWakeup, queueAt_eq hr0.1, ok_bind, getFirst_nil]; rfl
    · exact h.aux _ _ _ _
    · show view s.interruptsOff = _
      rw [hv]; simp only [Sched.apply, hwait]; rfl
  | cons x q =>
    obtain ⟨t, ht, -, -⟩ := stat_eq_some (hb x List.mem_cons_self)
    refine ⟨s1.returns s.cpu.enabled (some (0 + (x :: q).length : ℕ)), ?_, hback _, ?_, ?_⟩
    · have ht0 : s.interruptsOff.heap x = some t := ht
      simp only [threadWakeup, queueAt_eq hr0.1, ok_bind, getFirst_cons ht0, if_true, hloop]
      rfl
    · exact h1.aux _ _ _ _
    · show view s1 = _
      rw [hv]; simp only [Sched.apply, hwait]; rfl

/-- `thread_wakeup(queue, 0)` -/
theorem threadWakeup_one {s : State} (h : Table s) {r : QRef} {q : List Ptr} (hr : Reaches s r q)
    (hb : ∀ y ∈ q, stat s y = some .blocked) :
    ∃ s', threadWakeup s r false = .ok s' ∧ Edits s s' ∧ Table s' ∧ view s' = (view s).apply (.wakeOne r) := by
  have h0 : Table s.interruptsOff := h.aux _ _ _ _
  have hr0 : Reaches s.interruptsOff r q := by cases r <;> exact hr
  have hwait : (view s).wait r = q := hr.waiting
  cases q with
  | nil =>
    refine ⟨s.interruptsOff.returns s.cpu.enabled (some 0), ?_, ?_, ?_, ?_⟩
    · simp only [threadWakeup, queueAt_eq hr0.1, ok_bind, getFirst_nil]; rfl
    · exact ⟨rfl, rfl, rfl, rfl, rfl, fun _ => rfl, fun _ => rfl, fun _ => rfl⟩
    · exact h.aux _ _ _ _
    · simp only [Sched.apply, hwait]; rfl
  | cons x q =>
    obtain ⟨t, s1, ht, hwake, he, h1, -, hv⟩ := wake_spec h0 hr0 hb
    refine ⟨s1.returns s.cpu.enabled (some 1), ?_, ?_, ?_, ?_⟩
    · simp only [threadWakeup, queueAt_eq hr0.1, ok_bind, getFirst_cons ht, Bool.false_eq_true, if_false, hwake]
      rfl
    · refine ⟨he.threads, he.nextPtr, ?_, he.log, he.nextObj, he.words, he.ids, he.contexts⟩
      simp only [State.returns, he.cpu, State.interruptsOff]
    · exact h1.aux _ _ _ _
    · show view s1 = _
      rw [hv]; simp only [Sched.apply, hwait]; rfl

/-! ## Deleting a thread from the queues of the table -/

theorem purge_eq {s : State} (h : Table s) {i : Tid} {p : Ptr} (hi : s.threads i = some p) {acc q : List Ptr}
    (hacc : ∀ x ∈ acc, (stat s x).isSome) (hq : ∀ x ∈ q, (stat s x).isSome) (hnd : q.Nodup) :
    purge s i acc q = .ok (if p ∈ q then acc.erase p else acc) := by
  induction q generalizing acc with
  | nil => rfl
  | cons x q ih =>
    obtain ⟨hxq, hnd'⟩ := List.nodup_cons.1 hnd
    obtain ⟨t, ht, hx, -⟩ := stat_isSome (hq x List.mem_cons_self)
    have hq' : ∀ y ∈ q, (stat s y).isSome := fun y hy => hq y (List.mem_cons_of_mem _ hy)
    by_cases hxp : x = p
    · subst hxp
      have hid : t.id = i := h.id_inj hx hi
      have hacc' : ∀ y ∈ acc.erase x, (stat s y).isSome := fun y hy => hacc y (List.mem_of_mem_erase hy)
      simp [purge, deref_eq ht, hid, deleteFromQueue_eq h hi hacc, ih hacc' hq' hnd', hxq]
    · have hid : t.id ≠ i := by
        intro hid
        rw [hid, hi] at hx
        exact hxp (Option.some.inj hx).symm
      simp [purge, deref_eq ht, hid, ih hacc hq' hnd', Ne.symm hxp]

/-- the queues of the threads in slots `l`, without `p` -/
def purged (s : State) (p : Ptr) (l : List Tid) : State :=
  { s with heap := fun x => (s.heap x).map fun t =>
      if t.id ∈ l ∧ s.threads t.id = some x then { t with queue := t.queue.erase p } else t }

theorem stat_purged (s : State) (p : Ptr) (l : List Tid) : stat (purged s p l) = stat s := by
  funext x
  cases hx : s.heap x with
  | none => simp [stat, purged, hx]
  | some t =>
    by_cases ht : t.id ∈ l ∧ s.threads t.id = some x
    · simp [stat, purged, hx, ht]
    · exact stat_congr (by simp [purged, hx, ht]) rfl

theorem purgeSlot_eq {s : State} (h : Table s) {i : Tid} {p : Ptr} (hi : s.threads i = some p)
    (hw : ∀ r, ∀ x ∈ waiting s r, (stat s x).isSome) (hnd : ∀ r, (waiting s r).Nodup) (j : Tid) :
    purgeSlot i s j = .ok (purged s p [j]) := by
  unfold purgeSlot
  cases hj : s.threads j with
  | none =>
    have : purged s p [j] = s := by
      have hheap : (purged s p [j]).heap = s.heap := by
        funext x
        cases hx : s.heap x with
        | none => simp [purged, hx]
        | some t =>
          have : ¬ (t.id = j ∧ s.threads t.id = some x) := by rintro ⟨h1, h2⟩; rw [h1, hj] at h2; cases h2
          simp [purged, hx, this]
      show { s with heap := (purged s p [j]).heap } = s
      rw [hheap]
    rw [this]
  | some x =>
    obtain ⟨t, ht, hid, hst⟩ := h.stat_slot hj
    have hq : waiting s (.thread x) = t.queue := by simp [waiting, hst, State.queue, ht]
    have hpurge : purge s i t.queue t.queue = .ok (t.queue.erase p) := by
      have hm : ∀ y ∈ t.queue, (stat s y).isSome := fun y hy => hw (.thread x) y (by rw [hq]; exact hy)
      rw [purge_eq h hi hm hm (by rw [← hq]; exact hnd _)]
      by_cases hp : p ∈ t.queue
      · simp [hp]
      · simp [hp, List.erase_of_not_mem hp]
    simp only [deref_eq ht, ok_bind, hpurge, pure_eq_ok]
    congr 1
    have hheap : (s.setQueue (.thread x) (t.queue.erase p)).heap = (purged s p [j]).heap := by
      funext y
      by_cases hy : y = x
      · subst hy; simp [State.setQueue, purged, ht, hid, hj]
      · have : ∀ u, s.heap y = some u → ¬ (u.id = j ∧ s.threads u.id = some y) := by
          rintro u - ⟨h1, h2⟩
          rw [h1, hj] at h2; exact hy (Option.some.inj h2).symm
        cases hu : s.heap y with
        | none => simp [State.setQueue, purged, update_of_ne hy, hu]
        | some u => simp [State.setQueue, purged, update_of_ne hy, hu, this u hu]
    show { s with heap := (s.setQueue (.thread x) (t.queue.erase p)).heap } = _
    rw [hheap]; rfl

theorem waiting_purged (s : State) (p : Ptr) (l : List Tid) (x : Ptr) {t : Tcb} (ht : s.heap x = some t)
    (hs : s.threads t.id = some x) :
    waiting (purged s p l) (.thread x) =
      if t.id ∈ l then (waiting s (.thread x)).erase p else waiting s (.thread x) := by
  have hsome : (stat s x).isSome := by simp [stat, ht, hs]
  simp only [waiting, stat_purged, hsome, if_true]
  by_cases hl : t.id ∈ l <;> simp [State.queue, purged, ht, hl, hs]

theorem waiting_purged_none (s : State) (p : Ptr) (l : List Tid) (x : Ptr) (hx : stat s x = none) :
    waiting (purged s p l) (.thread x) = waiting s (.thread x) := by
  simp [waiting, stat_purged, hx]

theorem waiting_purged_sub (s : State) (p : Ptr) (l : List Tid) (r : QRef) :
    (waiting (purged s p l) r).Sublist (waiting s r) := by
  cases r with
  | thread x =>
    cases hx : stat s x with
    | none => rw [waiting_purged_none s p l x hx]
    | some st =>
      obtain ⟨t, ht, hs, -⟩ := stat_eq_some hx
      rw [waiting_purged s p l x ht hs]
      split
      · exact List.erase_sublist
      · exact List.Sublist.refl _
  | lock | cv | user => exact List.Sublist.refl _

theorem Table.purged {s : State} (h : Table s) (p : Ptr) (l : List Tid) : Table (purged s p l) where
  range := h.range
  id i x hi := by
    obtain ⟨t, ht, hid⟩ := h.id i x hi
    by_cases hc : t.id ∈ l ∧ s.threads t.id = some x
    · exact ⟨{ t with queue := t.queue.erase p }, by simp [Threads.purged, ht, hc], hid⟩
    · exact ⟨t, by simp [Threads.purged, ht, hc], hid⟩
  fresh x hx := by simp [Threads.purged, h.fresh x hx]
  owner x u hu := by
    simp only [Threads.purged, Option.map_eq_some_iff] at hu
    obtain ⟨t, ht, rfl⟩ := hu
    have := h.owner x t ht
    split <;> exact this
  saved x u hu hst := by
    rw [stat_purged] at hst
    simp only [Threads.purged, Option.map_eq_some_iff] at hu
    obtain ⟨t, ht, rfl⟩ := hu
    have := h.saved x t ht hst
    split <;> exact this
  noSelf x hm := h.noSelf x ((waiting_purged_sub s p l _).subset hm)
  objs := h.objs

theorem purged_cons {s : State} (p : Ptr) {j : Tid} {l : List Tid} (hj : j ∉ l) :
    purged (purged s p [j]) p l = purged s p (j :: l) := by
  have hheap : (purged (purged s p [j]) p l).heap = (purged s p (j :: l)).heap := by
    funext x
    cases hx : s.heap x with
    | none => simp [purged, hx]
    | some t =>
      by_cases htj : t.id = j
      · by_cases hs : s.threads t.id = some x
        · have : t.id ∉ l := by rw [htj]; exact hj
          simp [purged, hx, htj, hj, htj ▸ hs]
        · simp [purged, hx, hs]
      · by_cases hs : s.threads t.id = some x <;> simp [purged, hx, htj, hs]
  show { purged s p [j] with heap := (purged (purged s p [j]) p l).heap } = _
  rw [hheap]; rfl

theorem foldlM_purgeSlot {i : Tid} {p : Ptr} {l : List Tid} (hl : l.Nodup) {s : State} (h : Table s)
    (hi : s.threads i = some p) (hw : ∀ r, ∀ x ∈ waiting s r, (stat s x).isSome)
    (hnd : ∀ r, (waiting s r).Nodup) : l.foldlM (purgeSlot i) s = .ok (purged s p l) := by
  induction l generalizing s with
  | nil =>
    have : purged s p [] = s := by
      show { s with heap := (purged s p []).heap } = s
      have : (purged s p []).heap = s.heap := by funext x; cases hx : s.heap x <;> simp [purged, hx]
      rw [this]
    rw [this]; rfl
  | cons j l ih =>
    obtain ⟨hj, hl'⟩ := List.nodup_cons.1 hl
    rw [List.foldlM_cons, purgeSlot_eq h hi hw hnd, ok_bind,
      ih hl' (h.purged p [j]) hi ?_ fun r => (hnd r).sublist (waiting_purged_sub s p [j] r), purged_cons p hj]
    intro r x hx
    rw [stat_purged]
    exact hw r x ((waiting_purged_sub s p [j] r).subset hx)

theorem tids_nodup : tids.Nodup := List.Nodup.map (fun _ _ h => Int.ofNat.inj h) List.nodup_range

theorem deleteFromAllQueues_eq {s : State} (h : Table s) {i : Tid} {p : Ptr} (hi : s.threads i = some p)
    (hw : ∀ r, ∀ x ∈ waiting s r, (stat s x).isSome) (hnd : ∀ r, (waiting s r).Nodup) :
    deleteFromAllQueues s i = .ok (purged s p tids) :=
  foldlM_purgeSlot tids_nodup h hi hw hnd

/-- after `delete_from_all_queues` the queues are without `p`, if it waited only for threads -/
theorem waiting_purged_all {s : State} (h : Table s) {p : Ptr}
    (hp : ∀ r, p ∈ waiting s r → ∃ x, r = .thread x) :
    waiting (purged s p tids) = fun r => (waiting s r).erase p := by
  funext r
  cases r with
  | thread x =>
    cases hx : stat s x with
    | none => rw [waiting_purged_none s p _ x hx]; simp [waiting, hx]
    | some st =>
      obtain ⟨t, ht, hs, -⟩ := stat_eq_some hx
      rw [waiting_purged s p _ x ht hs, if_pos (h.range _ _ hs)]
  | lock l =>
    show waiting s (.lock l) = _
    rw [List.erase_of_not_mem fun hm => by obtain ⟨x, hx⟩ := hp _ hm; cases hx]
  | cv c =>
    show waiting s (.cv c) = _
    rw [List.erase_of_not_mem fun hm => by obtain ⟨x, hx⟩ := hp _ hm; cases hx]
  | user w =>
    show waiting s (.user w) = _
    rw [List.erase_of_not_mem fun hm => by obtain ⟨x, hx⟩ := hp _ hm; cases hx]

theorem edits_purged (s : State) (p : Ptr) (l : List Tid) : Edits s (purged s p l) := by
  refine ⟨rfl, rfl, rfl, rfl, rfl, fun _ => rfl, fun x => ?_, fun x => ?_⟩
  · cases hx : s.heap x with
    | none => simp [purged, hx]
    | some t => by_cases hc : t.id ∈ l ∧ s.threads t.id = some x <;> simp [purged, hx, hc]
  · cases hx : s.heap x with
    | none => simp [purged, hx]
    | some t => by_cases hc : t.id ∈ l ∧ s.threads t.id = some x <;> simp [purged, hx, hc]

end OsLab.Threads
