/-
Every call of the thread library is a list of dispatcher actions.

`Moves s s' acts evs` summarises what a call does: the actions it amounts to, the events it records, and that the
table stays well formed. The lemmas below give it for every function of the library, from any state that satisfies
`Inv`.
-/
import Mathlib.Tactic
import OsLab.Threads.Invariant

namespace OsLab.Threads

open OsLab.Lib Function State

/-- `s'` comes from `s` by the actions `acts`, recording the events `evs` -/
structure Moves (s s' : State) (acts : List (Act Ptr QRef)) (evs : List Event) : Prop where
  trace : (view s).Trace .thread acts (view s')
  table : Table s'
  live : liveStack s'.cpu.frames
  log : s'.log = s.log ++ evs
  nextPtr : s.nextPtr ≤ s'.nextPtr
  nextObj : s.nextObj ≤ s'.nextObj
  spawned : ∀ x, Act.spawn x ∈ acts → s.nextPtr ≤ x
  ids : ∀ x t', x < s.nextPtr → s'.heap x = some t' → ∃ t, s.heap x = some t ∧ t.id = t'.id

theorem Moves.inv {s s' : State} {acts : List (Act Ptr QRef)} {evs : List Event} (h : Moves s s' acts evs)
    (hs : Inv s) : Inv s' := ⟨h.trace.inv hs.sched, h.table, h.live⟩

theorem Moves.trans {s t u : State} {a b : List (Act Ptr QRef)} {e f : List Event} (h1 : Moves s t a e)
    (h2 : Moves t u b f) : Moves s u (a ++ b) (e ++ f) where
  trace := h1.trace.append h2.trace
  table := h2.table
  live := h2.live
  log := by rw [h2.log, h1.log, List.append_assoc]
  nextPtr := h1.nextPtr.trans h2.nextPtr
  nextObj := h1.nextObj.trans h2.nextObj
  spawned x hx := by
    rcases List.mem_append.1 hx with hx | hx
    · exact h1.spawned x hx
    · exact h1.nextPtr.trans (h2.spawned x hx)
  ids x t' hx ht' := by
    obtain ⟨t, ht, hid⟩ := h2.ids x t' (hx.trans_le h1.nextPtr) ht'
    obtain ⟨t0, ht0, hid0⟩ := h1.ids x t hx ht
    exact ⟨t0, ht0, hid0.trans hid⟩

/-- nothing but the processor registers, the result, the log, the words of the locks and empty new queues changes -/
theorem moves_refl {s : State} (s' : State) (h : Table s) (hheap : s'.heap = s.heap) (hthreads : s'.threads = s.threads)
    (hready : s'.readyQueue = s.readyQueue) (hq : ∀ r, (s'.queue r).getD [] = (s.queue r).getD [])
    (hown : s'.cpu.owner = s.cpu.owner) (hlive : liveStack s'.cpu.frames) (hnext : s'.nextPtr = s.nextPtr)
    (hobj : s.nextObj ≤ s'.nextObj)
    (hobjs : ∀ n, s'.nextObj ≤ n → s'.locks n = none ∧ s'.cvs n = none ∧ s'.waitQueues n = none)
    {evs : List Event} (hlog : s'.log = s.log ++ evs) : Moves s s' [] evs := by
  have hstat : stat s' = stat s := by funext x; exact stat_congr (by rw [hheap]) hthreads
  have hwait : waiting s' = waiting s := by
    funext r; cases r <;> simp only [waiting, hstat, hq]
  have hview : view s' = view s := by simp only [view, hstat, hwait, hready, hown]
  refine ⟨?_, ?_, hlive, hlog, hnext.ge, hobj, by simp, fun x t' _ ht' => ⟨t', by rw [← hheap]; exact ht', rfl⟩⟩
  · rw [hview]; exact .nil _
  · exact ⟨by rw [hthreads]; exact h.range, by rw [hthreads, hheap]; exact h.id,
      by rw [hheap, hnext]; exact h.fresh, by rw [hheap]; exact h.owner, by rw [hheap, hstat]; exact h.saved,
      by rw [hwait]; exact h.noSelf, hobjs⟩

theorem moves_self {s : State} (h : Inv s) : Moves s s [] [] :=
  moves_refl s h.table rfl rfl rfl (fun _ => rfl) rfl h.live rfl le_rfl h.table.objs (List.append_nil _).symm

/-- the invariant looks at the registers only for the owner and the shape of the stack -/
theorem Inv.aux {s : State} (h : Inv s) (cpu : Context) (hown : cpu.owner = s.cpu.owner) (hlive : liveStack cpu.frames)
    (ret : Option ℤ) (log : List Event) : Inv { s with cpu := cpu, ret := ret, log := log } := by
  refine ⟨?_, h.table.aux _ _ _ _, hlive⟩
  have : view { s with cpu := cpu, ret := ret, log := log } = view s := by
    show { view s with cur := cpu.owner } = _
    rw [hown]; rfl
  rw [this]; exact h.sched

theorem Inv.off {s : State} (h : Inv s) : Inv s.interruptsOff := h.aux s.interruptsOff.cpu rfl h.live s.ret s.log

theorem Inv.ready_stat {s : State} (h : Inv s) {x : Ptr} (hx : x ∈ s.readyQueue) : stat s x = some .ready :=
  (h.sched.ready_iff x).1 hx

theorem Inv.wait_stat {s : State} (h : Inv s) (r : QRef) : ∀ x ∈ waiting s r, stat s x = some .blocked :=
  h.sched.wait_blocked r

theorem Inv.cur_stat {s : State} (h : Inv s) : stat s s.cpu.owner = some .running := h.sched.cur_running

theorem Inv.ready_ne_owner {s : State} (h : Inv s) {x : Ptr} (hx : x ∈ s.readyQueue) : x ≠ s.cpu.owner :=
  h.sched.ready_ne_cur hx

theorem Inv.owner_not_wait {s : State} (h : Inv s) (r : QRef) : s.cpu.owner ∉ waiting s r := h.sched.cur_not_wait r

theorem Inv.wait_nodup {s : State} (h : Inv s) (r : QRef) : (waiting s r).Nodup := h.sched.wait_nodup r

theorem Edits.heap {s s' : State} (h : Edits s s') {x : Ptr} {u : Tcb} (hu : s'.heap x = some u) :
    ∃ t, s.heap x = some t ∧ t.id = u.id ∧ t.context = u.context := by
  have h1 := h.ids x
  have h2 := h.contexts x
  rw [hu] at h1 h2
  cases ht : s.heap x with
  | none => rw [ht] at h1; simp at h1
  | some t =>
    rw [ht] at h1 h2
    simp only [Option.map_some, Option.some.injEq] at h1 h2
    exact ⟨t, rfl, h1.symm, h2.symm⟩

/-- edits that amount to the actions `acts` -/
theorem Edits.moves {s s' : State} (h : Edits s s') (ht : Table s') (hlive : liveStack s.cpu.frames)
    {acts : List (Act Ptr QRef)} (hv : (view s).Trace .thread acts (view s')) (hsp : ∀ x, Act.spawn x ∉ acts) :
    Moves s s' acts [] where
  trace := hv
  table := ht
  live := by rw [h.cpu]; exact hlive
  log := by rw [h.log, List.append_nil]
  nextPtr := h.nextPtr.ge
  nextObj := h.nextObj.ge
  spawned x hx := absurd hx (hsp x)
  ids x t' _ ht' := by
    obtain ⟨t, ht, hid, -⟩ := h.heap ht'
    exact ⟨t, ht, hid⟩

theorem liveStack_of_saved {fs : List Frame} (h : savedStack fs) : liveStack fs := by
  unfold liveStack; split <;> simp_all [savedStack]

/-- the words of a lock that only `lock_acquire` and `lock_release` write: `thread` and `acquired` -/
def lockWord (s : State) (l : ℕ) : Option (Tid × ℕ) := (s.locks l).map fun k => (k.thread, k.acquired)

theorem Edits.lockWord {s s' : State} (h : Edits s s') : lockWord s' = lockWord s := by
  funext l; exact h.words l

/-! ## Reclaiming -/

/-- only retired threads are forgotten -/
def Reclaims (acts : List (Act Ptr QRef)) : Prop := ∀ a ∈ acts, ∃ p, a = .reclaim p (.thread p)

/-- what `free_exited` does -/
structure Frees (s s' : State) (acts : List (Act Ptr QRef)) : Prop where
  moves : Moves s s' acts []
  reclaims : Reclaims acts
  cpu : s'.cpu = s.cpu
  locks : s'.locks = s.locks
  ready : s'.readyQueue = s.readyQueue
  slots : ∀ i x, s.threads i = some x → stat s x ≠ some .exited → s'.threads i = some x

theorem Frees.lockWord {s s' : State} {acts : List (Act Ptr QRef)} (h : Frees s s' acts) :
    lockWord s' = lockWord s := by
  funext l; simp only [Threads.lockWord, h.locks]

theorem Frees.inv {s s' : State} {acts : List (Act Ptr QRef)} (h : Frees s s' acts) (hs : Inv s) : Inv s' :=
  h.moves.inv hs

/-- `free_exited`, with the ready queue or a part of it in place -/
theorem freeExited_sub {s : State} (h : Inv s) {q : List Ptr} (hq : ∀ x ∈ q, x ∈ s.readyQueue) :
    ∃ s' acts, freeExited { s with readyQueue := q } = .ok { s' with readyQueue := q } ∧ Frees s s' acts := by
  have h0 : Table { s with readyQueue := q } := h.table.aux s.cpu q s.ret s.log
  rcases freeExited_cases h0 (fun x hx => h.ready_stat (hq x hx)) h.wait_stat with hf | ⟨i, p, hi, hst, hf⟩
  · refine ⟨s, [], hf, ?_, by simp [Reclaims], rfl, rfl, rfl, fun _ _ hx _ => hx⟩
    exact moves_refl s h.table rfl rfl rfl (fun _ => rfl) rfl h.live rfl le_rfl h.table.objs (by simp)
  · refine ⟨reclaimed s i p, [.reclaim p (.thread p)], hf, ?_, by simp [Reclaims], rfl, rfl, rfl, ?_⟩
    · refine ⟨?_, h.table.reclaimed hi, h.live, by simp [reclaimed], le_rfl, le_rfl, by simp, fun x t' _ ht' => ?_⟩
      · rw [view_reclaimed h.table hi]; exact .single ⟨hst, rfl⟩
      · refine ⟨t', ?_, rfl⟩
        by_cases hx : x = p
        · subst hx; simp [reclaimed] at ht'
        · simpa [reclaimed, update_of_ne hx] using ht'
    · intro j x hj hx
      have : j ≠ i := by
        rintro rfl
        rw [show s.threads j = some p from hi, Option.some.injEq] at hj
        subst hj; exact hx hst
      simpa [reclaimed, update_of_ne this] using hj

theorem freeExited_spec {s : State} (h : Inv s) : ∃ s' acts, freeExited s = .ok s' ∧ Frees s s' acts := by
  obtain ⟨s', acts, hf, hs'⟩ := freeExited_sub h (q := s.readyQueue) fun _ hx => hx
  refine ⟨s', acts, ?_, hs'⟩
  have : { s' with readyQueue := s.readyQueue } = s' := by rw [← hs'.ready]
  rw [this] at hf; exact hf

/-! ## Context switches -/

theorem setcontext_spec {s : State} (h : Table s) {p : Ptr} {t : Tcb} (ht : s.heap p = some t) :
    s.setcontext p = .ok { s with cpu := t.context } ∧ view { s with cpu := t.context } = { view s with cur := p } := by
  refine ⟨by simp [State.setcontext, deref_eq ht], ?_⟩
  have := h.owner p t ht
  simp only [view, this]; rfl

/-- the status edits of a switch from `me`, whose context is saved, to the ready thread `next` -/
theorem switch_spec {s : State} (h : Table s) (me next : Ptr) (hme : (stat s me).isSome)
    (hnext : stat s next = some .ready) (hne : me ≠ next) (st : Status)
    (hs : ∀ t, s.heap me = some t → savedStack t.context.frames) :
    ∃ s1 s2 u, s.setStatus next .running = .ok s1 ∧ s1.setStatus me st = .ok s2 ∧ Edits s s2 ∧ Table s2 ∧
      s2.heap next = some u ∧ savedStack u.context.frames ∧ s2.readyQueue = s.readyQueue ∧
      view s2 = { view s with stat := update (update (view s).stat next (some .running)) me (some st) } := by
  obtain ⟨t, ht, hset, hv1, h1⟩ := setStatus_spec h (p := next) (by simp [hnext]) .running (by simp)
  set s1 := s.setTcb next { t with status := .running }
  have hme1 : (stat s1 me).isSome := by
    have : stat s1 = update (stat s) next (some .running) := congrArg Sched.stat hv1
    rw [this, update_of_ne hne]; exact hme
  have hheap : s1.heap me = s.heap me := by simp [s1, State.setTcb, update_of_ne hne]
  obtain ⟨u, hu, hset2, hv2, h2⟩ := setStatus_spec h1 hme1 st (fun _ u hu => hs u (by rw [← hheap]; exact hu))
  have e1 : Edits s (s.setTcb next { t with status := .running }) := edits_setTcb ht rfl rfl
  have e2 : Edits s1 (s1.setTcb me { u with status := st }) := edits_setTcb hu rfl rfl
  refine ⟨s1, _, { t with status := .running }, hset, hset2, e1.trans e2, h2, ?_, ?_, rfl, ?_⟩
  · simp [s1, State.setTcb, update_of_ne hne.symm]
  · exact h.saved next t ht (Or.inl hnext)
  · rw [hv2, hv1]

/-- what `getcontext` in the running thread does: only its saved context changes -/
structure Saves (s s' : State) : Prop where
  view : view s' = view s
  table : Table s'
  threads : s'.threads = s.threads
  nextPtr : s'.nextPtr = s.nextPtr
  nextObj : s'.nextObj = s.nextObj
  cpu : s'.cpu = s.cpu
  log : s'.log = s.log
  locks : s'.locks = s.locks
  queue : ∀ r, s'.queue r = s.queue r
  saved : ∀ t, s'.heap s.cpu.owner = some t → savedStack t.context.frames
  ids : ∀ p t', s'.heap p = some t' → ∃ t, s.heap p = some t ∧ t.id = t'.id

theorem getcontext_spec {s : State} (h : Table s) (hrun : stat s s.cpu.owner = some .running) {f : Frame}
    (hf : savedStack (f :: s.cpu.frames)) : ∃ s', s.getcontext s.cpu.owner f = .ok s' ∧ Saves s s' := by
  obtain ⟨t, ht, hslot, hst⟩ := stat_eq_some hrun
  set t' : Tcb := { t with context := (s.push f).cpu }
  have hid : t'.id = t.id := rfl
  refine ⟨s.setTcb s.cpu.owner t', by simp [State.getcontext, deref_eq ht, t'], ?_, ?_, rfl, rfl, rfl, rfl, rfl, rfl,
    ?_, ?_, ?_⟩
  · have hcur : (view s).stat s.cpu.owner = some t'.status := (hrun.trans (congrArg some hst.symm))
    rw [view_setTcb ht hid hslot rfl, ← hcur, update_eq_self]
  · exact h.setTcb ht hid hslot rfl rfl (by simp [t', hst])
  · intro r
    cases r with
    | thread p =>
      by_cases hp : p = s.cpu.owner
      · subst hp; simp [State.queue, State.setTcb, ht, t']
      · simp [State.queue, State.setTcb, update_of_ne hp]
    | lock | cv | user => rfl
  · intro u hu
    simp only [State.setTcb, update_self, Option.some.injEq] at hu
    subst hu; exact hf
  · intro p u hu
    by_cases hp : p = s.cpu.owner
    · subst hp
      simp only [State.setTcb, update_self, Option.some.injEq] at hu
      exact ⟨t, ht, by rw [← hu]⟩
    · exact ⟨u, by simpa [State.setTcb, update_of_ne hp] using hu, rfl⟩

/-! ## Sleeping -/

/-- `thread_sleep` on an existing queue that is not the caller's own, with a ready thread: the caller blocks at the
tail of the queue and the first ready thread runs -/
theorem threadSleep_block {s : State} (h : Inv s) {r : QRef} {q : List Ptr} (hr : Reaches s r q)
    (hself : r ≠ .thread s.cpu.owner) (hstack : ∀ e i, savedStack (.sleep e i :: s.cpu.frames)) {t : Ptr}
    {rest : List Ptr} (hready : s.readyQueue = t :: rest) :
    ∃ s', threadSleep s r = .ok s' ∧ Moves s s' [.block r t] [] ∧ lockWord s' = lockWord s ∧
      savedStack s'.cpu.frames := by
  have htm : t ∈ s.readyQueue := by rw [hready]; exact List.mem_cons_self
  have htr := h.ready_stat htm
  have hcur := h.cur_stat
  have hct : s.cpu.owner ≠ t := (h.sched.ready_ne_cur htm).symm
  obtain ⟨u, hu, huslot, -⟩ := stat_eq_some htr
  obtain ⟨hid, -⟩ := threadId_eq h.off
  -- the caller saves its context
  obtain ⟨s1, hget, g⟩ := getcontext_spec (s := s.interruptsOff) h.off.table hcur (hstack s.cpu.enabled u.id)
  have hstat1 : stat s1 = stat s := congrArg Sched.stat g.view
  have hreach : Reaches s1 r q :=
    ⟨(g.queue r).trans (by cases r <;> exact hr.1), fun p hp => by rw [hstat1]; exact hr.2 p hp⟩
  -- and goes to the tail of the queue
  have hnoself : ∀ p, r = .thread p → p ∉ q ++ [s.cpu.owner] := by
    intro p hp hm
    rcases List.mem_append.1 hm with hm | hm
    · exact g.table.noSelf p (by rw [← hp, hreach.waiting]; exact hm)
    · exact hself (by rw [hp, List.mem_singleton.1 hm])
  have h2 := g.table.setQueue hreach hnoself
  have hv2 := view_setQueue hreach (q ++ [s.cpu.owner])
  have e2 := edits_setQueue s1 r (q ++ [s.cpu.owner])
  set s2 := s1.setQueue r (q ++ [s.cpu.owner]) with hs2
  have hstat2 : stat s2 = stat s := (congrArg Sched.stat hv2).trans hstat1
  have hready2 : s2.readyQueue = s.readyQueue := (congrArg Sched.ready hv2).trans (congrArg Sched.ready g.view)
  have ht2 : (stat s2 t).isSome := by rw [hstat2, htr]; rfl
  obtain ⟨u2, hu2, hslot2, -⟩ := stat_isSome ht2
  have hdel : deleteFromQueue s2 u2.id s2.readyQueue = .ok (s.readyQueue.erase t) := by
    rw [hready2, deleteFromQueue_eq h2 hslot2 fun x hx => by rw [hstat2, h.ready_stat hx]; rfl]
  -- the first ready thread runs
  have hsaved2 : ∀ v, s2.heap s.cpu.owner = some v → savedStack v.context.frames := by
    intro v hv
    obtain ⟨w, hw, -, hwc⟩ := e2.heap hv
    rw [← hwc]; exact g.saved w hw
  obtain ⟨s4, s5, u5, hset4, hset5, e5, h5, hu5, hsaved5, -, hv5⟩ := switch_spec
    (s := { s2 with readyQueue := s.readyQueue.erase t }) (h2.aux _ _ _ _) s.cpu.owner t
    (by show (stat s2 _).isSome; rw [hstat2, hcur]; rfl) (by show stat s2 t = _; rw [hstat2, htr]) hct .blocked hsaved2
  obtain ⟨hset6, hv6⟩ := setcontext_spec h5 hu5
  refine ⟨{ s5 with cpu := u5.context }, ?_,
    ⟨?_, h5.aux _ _ _ _, liveStack_of_saved hsaved5, ?_, ?_, ?_, by simp, ?_⟩, ?_, hsaved5⟩
  · have hrq : s.interruptsOff.readyQueue = t :: rest := hready
    simp only [threadSleep, hrq, getFirst_cons (s := s.interruptsOff) hu, ok_bind,
      slot_eq (s := s.interruptsOff) huslot, slot_eq hid, hget, queueAt_eq hreach.1]
    have howner : s.interruptsOff.cpu.owner = s.cpu.owner := rfl
    simp only [howner, ← hs2, deref_eq hu2, ok_bind, hdel, hset4, hset5, hset6]
  · have hview : view { s5 with cpu := u5.context } = (view s).apply (.block r t) := by
      have hw : (view s1).wait r = q := hreach.waiting
      have hv3 : view { s2 with readyQueue := s.readyQueue.erase t } =
          { view s2 with ready := (view s).ready.erase t } := rfl
      rw [hv6, hv5, hv3, hv2, ← hw, g.view]
      rfl
    rw [hview]; exact .single htm
  · simp only [e5.log, e2.log, g.log, List.append_nil]; rfl
  · simp only [e5.nextPtr, e2.nextPtr, g.nextPtr]; exact le_rfl
  · simp only [e5.nextObj, e2.nextObj, g.nextObj]; exact le_rfl
  · intro x t' _ ht'
    obtain ⟨a, ha, haid, -⟩ := e5.heap (show s5.heap x = some t' from ht')
    obtain ⟨b, hb, hbid, -⟩ := e2.heap (show s2.heap x = some a from ha)
    obtain ⟨c, hc, hcid⟩ := g.ids x b hb
    exact ⟨c, hc, hcid.trans (hbid.trans haid)⟩
  · funext l
    have h1 := e5.words l
    have h2 := e2.words l
    simp only [lockWord, h1, h2, g.locks]; rfl

/-- `thread_sleep` with nobody ready returns at once -/
theorem threadSleep_none {s : State} (r : QRef) (hready : s.readyQueue = []) :
    threadSleep s r = .ok (s.interruptsOff.returns s.cpu.enabled (some threadNone)) := by
  have hro : s.interruptsOff.readyQueue = [] := hready
  simp only [threadSleep, hro, getFirst_nil, ok_bind, pure_eq_ok]

theorem threadSleep_crash {s : State} (h : Inv s) {r : QRef} (hr : s.queue r = none)
    (hstack : ∀ e i, savedStack (.sleep e i :: s.cpu.frames)) {t : Ptr} {rest : List Ptr}
    (hready : s.readyQueue = t :: rest) : threadSleep s r = .error .crash := by
  have htm : t ∈ s.readyQueue := by rw [hready]; exact List.mem_cons_self
  obtain ⟨u, hu, huslot, -⟩ := stat_eq_some (h.ready_stat htm)
  obtain ⟨hid, -⟩ := threadId_eq h.off
  obtain ⟨s1, hget, g⟩ := getcontext_spec (s := s.interruptsOff) h.off.table h.cur_stat (hstack s.cpu.enabled u.id)
  have hq : s1.queue r = none := (g.queue r).trans (by cases r <;> exact hr)
  have hrq : s.interruptsOff.readyQueue = t :: rest := hready
  simp only [threadSleep, hrq, getFirst_cons (s := s.interruptsOff) hu, ok_bind,
    slot_eq (s := s.interruptsOff) huslot, slot_eq hid, hget, State.queueAt, hq, error_bind]

/-- what a successful `thread_sleep` does -/
theorem threadSleep_cases {s s' : State} (h : Inv s) {r : QRef} (hr : ∀ p, r = .thread p → (stat s p).isSome)
    (hself : r ≠ .thread s.cpu.owner) (hstack : ∀ e i, savedStack (.sleep e i :: s.cpu.frames))
    (hs : threadSleep s r = .ok s') :
    (s.readyQueue = [] ∧ s' = s.interruptsOff.returns s.cpu.enabled (some threadNone)) ∨
      ∃ t, Moves s s' [.block r t] [] ∧ lockWord s' = lockWord s ∧ savedStack s'.cpu.frames := by
  cases hready : s.readyQueue with
  | nil =>
    rw [threadSleep_none r hready, Except.ok.injEq] at hs
    exact Or.inl ⟨rfl, hs.symm⟩
  | cons t rest =>
    right
    cases hq : s.queue r with
    | none => rw [threadSleep_crash h hq hstack hready] at hs; cases hs
    | some q =>
      obtain ⟨s'', hs'', hm, hw, hsv⟩ := threadSleep_block h ⟨hq, hr⟩ hself hstack hready
      rw [hs'', Except.ok.injEq] at hs
      subst hs
      exact ⟨t, hm, hw, hsv⟩

/-! ## Yielding -/

/-- the second half of `thread_yield`: the running thread goes to the tail of the ready queue, `t` runs -/
theorem yieldTo_spec {s : State} (h : Inv s) (enabled : Bool) {runningId readyId : Tid} {t : Ptr}
    (hrun : s.threads runningId = some s.cpu.owner) (hrdy : s.threads readyId = some t) (ht : t ∈ s.readyQueue)
    (hstack : ∀ e x, savedStack (.yield e x :: s.cpu.frames)) :
    ∃ s' acts, yieldTo s enabled runningId readyId = .ok s' ∧ Moves s s' (acts ++ [.yield t]) [] ∧ Reclaims acts ∧
      lockWord s' = lockWord s ∧ savedStack s'.cpu.frames := by
  have hdel : deleteFromQueue s readyId s.readyQueue = .ok (s.readyQueue.erase t) :=
    deleteFromQueue_eq h.table hrdy fun x hx => by rw [h.ready_stat hx]; rfl
  obtain ⟨s1, acts, hf, hfree⟩ := freeExited_sub h (q := s.readyQueue.erase t) fun x hx => List.mem_of_mem_erase hx
  have h1 := hfree.inv h
  have ht1 : t ∈ s1.readyQueue := by rw [hfree.ready]; exact ht
  have hme : s1.threads runningId = some s1.cpu.owner := by
    rw [hfree.cpu]; exact hfree.slots _ _ hrun (by rw [h.cur_stat]; simp)
  set s2 : State := { s1 with readyQueue := s.readyQueue.erase t } with hs2
  have h2 : Table s2 := h1.table.aux _ _ _ _
  -- the caller saves its context
  obtain ⟨s3, hget, g⟩ := getcontext_spec (s := s2) h2 (f := .yield enabled t) h1.cur_stat
    (by show savedStack (_ :: s1.cpu.frames); rw [hfree.cpu]; exact hstack enabled t)
  have hstat3 : stat s3 = stat s1 := congrArg Sched.stat g.view
  have hct : s1.cpu.owner ≠ t := (h1.sched.ready_ne_cur ht1).symm
  obtain ⟨s4, s5, u, hset4, hset5, e5, h5, hu, hsaved, hrq, hv5⟩ := switch_spec g.table s1.cpu.owner t
    (by rw [hstat3, h1.cur_stat]; rfl) (by rw [hstat3]; exact h1.ready_stat ht1) hct .ready g.saved
  set s6 : State := { s5 with readyQueue := s5.readyQueue ++ [s1.cpu.owner] } with hs6
  obtain ⟨hset6, hv6⟩ := setcontext_spec (s := s6) (h5.aux _ _ _ _) hu
  have hmove : Moves s1 { s6 with cpu := u.context } [.yield t] [] := by
    refine ⟨?_, h5.aux _ _ _ _, liveStack_of_saved hsaved, ?_, ?_, ?_, by simp, ?_⟩
    · have hview : view { s6 with cpu := u.context } = (view s1).apply (.yield t) := by
        have hv6' : view s6 = { view s5 with ready := (view s5).ready ++ [s1.cpu.owner] } := rfl
        have hv2 : view s2 = { view s1 with ready := (view s1).ready.erase t } := by
          show { view s1 with ready := s.readyQueue.erase t } = _
          rw [← hfree.ready]; rfl
        rw [hv6, hv6', hv5, g.view, hv2]; rfl
      rw [hview]; exact .single ht1
    · simp only [hs6, e5.log, g.log, List.append_nil]; rfl
    · simp only [hs6, e5.nextPtr, g.nextPtr]; exact le_rfl
    · simp only [hs6, e5.nextObj, g.nextObj]; exact le_rfl
    · intro x t' _ ht'
      obtain ⟨a, ha, haid, -⟩ := e5.heap (show s5.heap x = some t' from ht')
      obtain ⟨b, hb, hbid⟩ := g.ids x a ha
      exact ⟨b, hb, hbid.trans haid⟩
  refine ⟨{ s6 with cpu := u.context }, acts, ?_, hfree.moves.trans hmove, hfree.reclaims, ?_, hsaved⟩
  · have howner : s2.cpu.owner = s1.cpu.owner := rfl
    have hslot : s2.slot runningId = .ok s1.cpu.owner := slot_eq hme
    simp only [yieldTo, slot_eq hrdy, ok_bind, hdel, hf, hslot, ← howner, hget, hset4]
    simp only [howner, hset5, ok_bind, ← hs6, hset6]
  · funext l
    have := e5.words l
    simp only [lockWord, hs6, this, g.locks]
    show (s1.locks l).map _ = _
    rw [hfree.locks]

/-- the actions that concern no thread's own queue and end no thread -/
def Plain : Act Ptr QRef → Prop
  | .block (.thread _) _ | .wakeOne (.thread _) | .wakeAll (.thread _) | .retire _ | .kill _ | .drop _ => False
  | _ => True

theorem Reclaims.plain {acts : List (Act Ptr QRef)} (h : Reclaims acts) : ∀ a ∈ acts, Plain a := by
  intro a ha
  obtain ⟨p, rfl⟩ := h a ha
  trivial

theorem Moves.of_off {s s' : State} {acts : List (Act Ptr QRef)} {evs : List Event}
    (h : Moves s.interruptsOff s' acts evs) : Moves s s' acts evs :=
  ⟨h.trace, h.table, h.live, h.log, h.nextPtr, h.nextObj, h.spawned, h.ids⟩

/-- a call that ends in `interrupts_set(enabled); return v` -/
theorem Moves.returns {s s' : State} {acts : List (Act Ptr QRef)} {evs : List Event} (h : Moves s s' acts evs)
    (e : Bool) (v : Option ℤ) : Moves s (s'.returns e v) acts evs :=
  ⟨h.trace, h.table.aux _ _ _ _, h.live, h.log, h.nextPtr, h.nextObj, h.spawned, h.ids⟩

/-- what `thread_yield` does -/
theorem threadYield_spec {s : State} (h : Inv s) (wantTid : Tid)
    (hstack : ∀ e x, savedStack (.yield e x :: s.cpu.frames)) :
    ∃ s' acts, threadYield s wantTid = .ok s' ∧ Moves s s' acts [] ∧ (∀ a ∈ acts, Plain a) ∧
      lockWord s' = lockWord s ∧ (s'.cpu.frames = s.cpu.frames ∨ savedStack s'.cpu.frames) := by
  obtain ⟨hid, -⟩ := threadId_eq h.off
  obtain ⟨s1, acts, hf, hfree⟩ := freeExited_spec h.off
  have h1 := hfree.inv h.off
  have hmoves : Moves s s1 acts [] := hfree.moves.of_off
  have hframes : s1.cpu.frames = s.cpu.frames := by rw [hfree.cpu]; rfl
  have hrun : s1.threads (threadId s.interruptsOff) = some s1.cpu.owner := by
    rw [hfree.cpu]; exact hfree.slots _ _ hid (by rw [h.off.cur_stat]; simp)
  -- the three ways out: return at once, switch, or nothing to switch to
  have hret : ∀ e v, ∃ s' acts, (.ok (s1.returns e v) : Except Stop State) = .ok s' ∧ Moves s s' acts [] ∧
      (∀ a ∈ acts, Plain a) ∧ lockWord s' = lockWord s ∧ (s'.cpu.frames = s.cpu.frames ∨ savedStack s'.cpu.frames) :=
    fun e v => ⟨_, acts, rfl, hmoves.returns e v, hfree.reclaims.plain, hfree.lockWord, Or.inl hframes⟩
  have hswitch : ∀ readyId t, s1.threads readyId = some t → t ∈ s1.readyQueue →
      ∃ s' acts, yieldTo s1 s.cpu.enabled (threadId s.interruptsOff) readyId = .ok s' ∧ Moves s s' acts [] ∧
      (∀ a ∈ acts, Plain a) ∧ lockWord s' = lockWord s ∧ (s'.cpu.frames = s.cpu.frames ∨ savedStack s'.cpu.frames) := by
    intro readyId t hslot hm
    obtain ⟨s2, acts2, hy, hm2, hr2, hw2, hs2⟩ :=
      yieldTo_spec h1 s.cpu.enabled hrun hslot hm (by rw [hframes]; exact hstack)
    refine ⟨s2, acts ++ (acts2 ++ [.yield t]), hy, hmoves.trans hm2, ?_, hw2.trans hfree.lockWord, Or.inr hs2⟩
    intro a ha
    rcases List.mem_append.1 ha with ha | ha
    · exact hfree.reclaims.plain a ha
    · rcases List.mem_append.1 ha with ha | ha
      · exact hr2.plain a ha
      · rw [List.mem_singleton.1 ha]; trivial
  simp only [threadYield, hf, ok_bind]
  split
  · exact hret _ _
  · split
    · cases hq : s1.readyQueue with
      | nil => simp only [getFirst_nil, ok_bind]; exact hret _ _
      | cons t rest =>
        have htm : t ∈ s1.readyQueue := by rw [hq]; exact List.mem_cons_self
        obtain ⟨u, hu, huslot, -⟩ := stat_eq_some (h1.ready_stat htm)
        simp only [getFirst_cons hu, ok_bind]
        exact hswitch u.id t huslot htm
    · split
      · rename_i hc
        obtain ⟨u, hu, hst⟩ := (Option.any_eq_true _ _).1 hc.2
        obtain ⟨t, hslot, ht⟩ := tcbAt_eq hu
        obtain ⟨u', hu', -, hstat⟩ := h1.table.stat_slot hslot
        rw [ht, Option.some.injEq] at hu'
        subst hu'
        have hready : stat s1 t = some .ready := by rw [hstat]; simpa using hst
        exact hswitch wantTid t hslot ((h1.sched.ready_iff t).2 hready)
      · exact hret _ _

/-! ## Exiting -/

theorem purged_self {s : State} (h : Inv s) : view (purged s s.cpu.owner tids) = view s := by
  have hw : waiting (purged s s.cpu.owner tids) = waiting s := by
    rw [waiting_purged_all h.table fun r hm => absurd hm (h.owner_not_wait r)]
    funext r
    exact List.erase_of_not_mem (h.owner_not_wait r)
  show { view s with stat := stat (purged s s.cpu.owner tids), wait := waiting (purged s s.cpu.owner tids) } = _
  rw [stat_purged, hw]; rfl

theorem Inv.waiting_some {s : State} (h : Inv s) : ∀ r, ∀ x ∈ waiting s r, (stat s x).isSome := by
  intro r x hx
  rw [h.wait_stat r x hx]; rfl

theorem reaches_thread {s : State} {p : Ptr} (h : (stat s p).isSome) :
    Reaches s (.thread p) (waiting s (.thread p)) := by
  obtain ⟨t, ht, -, -⟩ := stat_isSome h
  refine ⟨?_, ?_⟩
  · simp [waiting, h, State.queue, ht]
  · rintro p' hp'; cases hp'; exact h

/-- `thread_exit` retires the caller, after waking the threads that wait for it; with nobody ready the process ends -/
theorem threadExit_spec {s s' : State} (h : Inv s) (hs : threadExit s = .ok s') :
    ∃ acts t, Moves s s' (acts ++ [.wakeAll (.thread s.cpu.owner), .retire t]) [.exited s.cpu.owner] ∧ Reclaims acts ∧
      lockWord s' = lockWord s ∧ savedStack s'.cpu.frames := by
  obtain ⟨s1, acts, hf, hfree⟩ := freeExited_spec h.off
  have h1 := hfree.inv h.off
  have howner : s1.cpu.owner = s.cpu.owner := by rw [hfree.cpu]; rfl
  obtain ⟨hid1, -⟩ := threadId_eq h1
  -- the caller is in no queue
  have hdel := deleteFromAllQueues_eq h1.table hid1 h1.waiting_some h1.wait_nodup
  have e2 := edits_purged s1 s1.cpu.owner tids
  have hv2 := purged_self h1
  set s2 := purged s1 s1.cpu.owner tids with hs2
  have h2 : Inv s2 := ⟨by rw [hv2]; exact h1.sched, h1.table.purged _ _, h1.live⟩
  -- wake the waiters
  obtain ⟨hid2, -⟩ := threadId_eq h2
  have hreach := reaches_thread (s := s2) (p := s2.cpu.owner) (by rw [h2.cur_stat]; rfl)
  obtain ⟨s3, hwake, e3, ht3, hv3⟩ := threadWakeup_all h2.table hreach (h2.wait_stat _) (h2.wait_nodup _)
  have h3 : Inv s3 := ⟨by rw [hv3]; exact h2.sched.wakeAll _, ht3, by rw [e3.cpu]; exact h2.live⟩
  have howner3 : s3.cpu.owner = s.cpu.owner := by rw [e3.cpu]; exact howner
  obtain ⟨hid3, -⟩ := threadId_eq h3
  -- retire
  obtain ⟨t4, ht4, hset4, hv4, h4⟩ :=
    setStatus_spec h3.table (p := s3.cpu.owner) (by rw [h3.cur_stat]; rfl) .exited (by simp)
  set s4 := s3.setTcb s3.cpu.owner { t4 with status := .exited } with hs4
  have e4 : Edits s3 (s3.setTcb s3.cpu.owner { t4 with status := .exited }) := edits_setTcb ht4 rfl rfl
  have hstat4 : stat s4 = update (stat s3) s3.cpu.owner (some .exited) := congrArg Sched.stat hv4
  simp only [threadExit, hf, ok_bind, hdel, slot_eq hid2, hwake, slot_eq hid3, hset4] at hs
  unfold yeet at hs
  have hrq : (s4.record (.exited s3.cpu.owner)).readyQueue = s3.readyQueue := rfl
  cases hready : s3.readyQueue with
  | nil => rw [hrq, hready, getFirst_nil] at hs; cases hs
  | cons t rest =>
    have htm : t ∈ s3.readyQueue := by rw [hready]; exact List.mem_cons_self
    have htc := h3.ready_ne_owner htm
    set s5 := s4.record (.exited s3.cpu.owner) with hs5
    have hstat5 : ∀ x ∈ s3.readyQueue, stat s5 x = some .ready := by
      intro x hx
      show stat s4 x = _
      rw [hstat4, update_of_ne (h3.ready_ne_owner hx)]; exact h3.ready_stat hx
    obtain ⟨u, hu, huslot, -⟩ := stat_eq_some (hstat5 t htm)
    have h5 : Table s5 := h4.aux _ _ _ _
    obtain ⟨t6, ht6, hset6, hv6, h6⟩ := setStatus_spec h5 (p := t) (by rw [hstat5 t htm]; rfl) .running (by simp)
    rw [hu, Option.some.injEq] at ht6
    subst ht6
    set s6 := s5.setTcb t { u with status := .running } with hs6
    have e6 : Edits s5 (s5.setTcb t { u with status := .running }) := edits_setTcb hu rfl rfl
    have hu6 : s6.heap t = some { u with status := .running } := by simp [hs6, State.setTcb]
    have hdel6 : deleteFromQueue s6 u.id s6.readyQueue = .ok (s3.readyQueue.erase t) := by
      refine deleteFromQueue_eq h6 (e6.threads ▸ huslot) fun x hx => ?_
      have : stat s6 = update (stat s5) t (some .running) := congrArg Sched.stat hv6
      rw [this]
      by_cases hxt : x = t
      · subst hxt; simp
      · rw [update_of_ne hxt, hstat5 x hx]; rfl
    obtain ⟨hset7, hv7⟩ := setcontext_spec (s := { s6 with readyQueue := s3.readyQueue.erase t }) (h6.aux _ _ _ _) hu6
    rw [hrq, hready, getFirst_cons hu] at hs
    simp only [ok_bind, slot_eq huslot, hset6, deref_eq hu6, hdel6, hset7, Except.ok.injEq] at hs
    subst hs
    have hsaved : savedStack u.context.frames := h5.saved t u hu (Or.inl (hstat5 t htm))
    refine ⟨acts, t, ⟨?_, h6.aux _ _ _ _, liveStack_of_saved hsaved, ?_, ?_, ?_, ?_, ?_⟩, hfree.reclaims, ?_, hsaved⟩
    · refine hfree.moves.trace.append ?_
      have hv : view { s6 with readyQueue := s3.readyQueue.erase t, cpu := u.context } =
          ((view s1).apply (.wakeAll (.thread s.cpu.owner))).apply (.retire t) := by
        have hv3' : view s3 = (view s1).apply (.wakeAll (.thread s.cpu.owner)) := by
          rw [hv3, hv2]
          show (view s1).apply (.wakeAll (.thread s1.cpu.owner)) = _
          rw [howner]
        have hv6' : view { s6 with readyQueue := s3.readyQueue.erase t } =
            { view s6 with ready := (view s3).ready.erase t } := rfl
        have hv5 : view s5 = view s4 := rfl
        rw [← hv3', hv7, hv6', hv6, hv5, hv4]; rfl
      rw [hv]
      refine .cons _ trivial (.single ⟨?_, ?_⟩)
      · have : (view s3).ready = ((view s1).apply (.wakeAll (.thread s.cpu.owner))).ready := by
          rw [hv3, hv2]; show _ = ((view s1).apply (.wakeAll (.thread s.cpu.owner))).ready; rw [← howner]; rfl
        rw [← this]; exact htm
      · show update (waiting s1) (.thread s.cpu.owner) [] (.thread s1.cpu.owner) = []
        rw [howner, update_self]
    · show s3.log ++ [.exited s3.cpu.owner] = _
      rw [e3.log, e2.log, hfree.moves.log, List.append_nil, howner3]; rfl
    · show s.nextPtr ≤ s3.nextPtr
      rw [e3.nextPtr, e2.nextPtr]; exact hfree.moves.nextPtr
    · show s.nextObj ≤ s3.nextObj
      rw [e3.nextObj, e2.nextObj]; exact hfree.moves.nextObj
    · intro x hx
      rcases List.mem_append.1 hx with hx | hx
      · exact hfree.moves.spawned x hx
      · simp at hx
    · intro x t' hx ht'
      obtain ⟨a, ha, haid, -⟩ := e6.heap (show s6.heap x = some t' from ht')
      obtain ⟨b, hb, hbid, -⟩ := e4.heap (show s4.heap x = some a from ha)
      obtain ⟨c, hc, hcid, -⟩ := e3.heap hb
      obtain ⟨d, hd, hdid, -⟩ := e2.heap hc
      obtain ⟨f, hf', hfid⟩ := hfree.moves.ids x d hx hd
      exact ⟨f, hf', hfid.trans (hdid.trans (hcid.trans (hbid.trans haid)))⟩
    · have e : lockWord s6 = lockWord s1 := (e6.lockWord.trans e4.lockWord).trans (e3.lockWord.trans e2.lockWord)
      exact e.trans hfree.lockWord

/-! ## Killing -/

theorem validTid_iff {s : State} (h : Inv s) {tid : Tid} :
    validTid s tid = true ↔ ∃ p, s.threads tid = some p ∧ p ≠ s.cpu.owner := by
  obtain ⟨hid, -⟩ := threadId_eq h
  simp only [validTid, decide_eq_true_eq]
  constructor
  · rintro ⟨-, -, hsome, hne⟩
    obtain ⟨p, hp⟩ := Option.isSome_iff_exists.1 hsome
    refine ⟨p, hp, ?_⟩
    rintro rfl
    exact hne (h.table.id_inj hp hid)
  · rintro ⟨p, hp, hne⟩
    obtain ⟨h0, h1⟩ := mem_tids.1 (h.table.range _ _ hp)
    refine ⟨h0, h1, by rw [hp]; rfl, fun htid => hne ?_⟩
    rw [htid, hid, Option.some.injEq] at hp
    exact hp.symm

/-- the view after `thread_kill` has emptied the victim's queue and taken the victim out of the others -/
theorem kill_view {s s3 : State} (h : Inv s) {p : Ptr}
    (hv3 : view s3 = ({ view s with stat := update (stat s) p (some .exited), ready := s.readyQueue.erase p } :
      Sched Ptr QRef).apply (.wakeAll (.thread p)))
    (hw : waiting (purged s3 p tids) = fun r => (waiting s3 r).erase p) :
    view (purged s3 p tids) = ((view s).apply (.wakeAll (.thread p))).apply (.kill p) := by
  have hself : p ∉ waiting s (.thread p) := h.table.noSelf p
  have h1 : view (purged s3 p tids) = { view s3 with wait := fun r => (waiting s3 r).erase p } := by
    show { view s3 with stat := stat (purged s3 p tids), wait := waiting (purged s3 p tids) } = _
    rw [stat_purged, hw]; rfl
  have h3 : waiting s3 = update (waiting s) (.thread p) [] := congrArg Sched.wait hv3
  rw [h1, hv3, h3]
  simp only [Sched.apply, Sched.mk.injEq, true_and]
  refine ⟨?_, ?_, rfl⟩
  · funext x
    by_cases hx : x = p
    · subst hx
      have hself' : x ∉ (view s).wait (.thread x) := hself
      rw [update_self, if_neg hself', update_self]
    · simp only [update_of_ne hx]; rfl
  · show s.readyQueue.erase p ++ waiting s (.thread p) = (s.readyQueue ++ waiting s (.thread p)).erase p
    by_cases hm : p ∈ s.readyQueue
    · rw [List.erase_append_left _ hm]
    · rw [List.erase_append_right _ hm, List.erase_of_not_mem hm, List.erase_of_not_mem hself]

/-- `thread_kill` of a thread that waits, if at all, for a thread of the table -/
theorem threadKill_spec {s : State} (h : Inv s) {tid : Tid} {p : Ptr} (hp : s.threads tid = some p)
    (hne : p ≠ s.cpu.owner) (hgood : ∀ r, p ∈ waiting s r → ∃ x, r = .thread x) :
    ∃ s' acts, threadKill s tid = .ok s' ∧ Reclaims acts ∧
      Moves s s' ([.wakeAll (.thread p), .kill p] ++ acts) [.killed p] ∧ lockWord s' = lockWord s ∧ s'.cpu = s.cpu := by
  have h0 := h.off
  have hvalid : validTid s.interruptsOff tid = true := (validTid_iff h0).2 ⟨p, hp, hne⟩
  obtain ⟨t, ht, hid, hst⟩ := h0.table.stat_slot hp
  -- the victim is marked and leaves the ready queue
  obtain ⟨t1, ht1, hset, hv1, h1⟩ := setStatus_spec h0.table (p := p) (by rw [hst]; rfl) .exited (by simp)
  set s1 := s.interruptsOff.setTcb p { t1 with status := .exited } with hs1
  have e1 : Edits s.interruptsOff (s.interruptsOff.setTcb p { t1 with status := .exited }) := edits_setTcb ht1 rfl rfl
  have hstat1 : stat s1 = update (stat s) p (some .exited) := congrArg Sched.stat hv1
  have hwait1 : waiting s1 = waiting s := congrArg Sched.wait hv1
  have hsome1 : ∀ x, (stat s x).isSome → (stat s1 x).isSome := by
    intro x hx
    rw [hstat1]
    by_cases hxp : x = p
    · subst hxp; simp
    · rw [update_of_ne hxp]; exact hx
  have hdel : deleteFromQueue s1 tid s1.readyQueue = .ok (s.readyQueue.erase p) :=
    deleteFromQueue_eq h1 hp fun x hx => hsome1 x (by rw [h.ready_stat hx]; rfl)
  set s2 : State := { s1 with readyQueue := s.readyQueue.erase p } with hs2
  have h2 : Table s2 := h1.aux _ _ _ _
  -- those waiting for it wake up
  have hself : p ∉ waiting s (.thread p) := h.table.noSelf p
  have hreach : Reaches s2 (.thread p) (waiting s (.thread p)) := by
    have := reaches_thread (s := s2) (p := p) (hsome1 p (by rw [show stat s p = _ from hst]; rfl))
    have hw : waiting s2 (.thread p) = waiting s (.thread p) := congrFun hwait1 (.thread p)
    rw [hw] at this; exact this
  have hb : ∀ y ∈ waiting s (.thread p), stat s2 y = some .blocked := by
    intro y hy
    show stat s1 y = _
    have hyp : y ≠ p := by rintro rfl; exact hself hy
    rw [hstat1, update_of_ne hyp]; exact h.wait_stat _ y hy
  obtain ⟨s3, hwake, e3, h3, hv3⟩ := threadWakeup_all h2 hreach hb (h.wait_nodup _)
  have hv2 : view s2 = { view s with stat := update (stat s) p (some .exited), ready := s.readyQueue.erase p } := by
    show { view s1 with ready := s.readyQueue.erase p } = _
    rw [hv1]; rfl
  rw [hv2] at hv3
  have hwait3 : waiting s3 = update (waiting s) (.thread p) [] := congrArg Sched.wait hv3
  have hmem3 : ∀ r x, x ∈ waiting s3 r → x ∈ waiting s r := by
    intro r x hx
    rw [hwait3] at hx
    by_cases hr : r = .thread p
    · subst hr; simp at hx
    · rwa [update_of_ne hr] at hx
  -- the victim leaves the queues of threads
  have hstat3 : ∀ x, (stat s x).isSome → (stat s3 x).isSome := by
    intro x hx
    have : stat s3 x = if x ∈ waiting s (.thread p) then some .ready else update (stat s) p (some .exited) x :=
      congrFun (congrArg Sched.stat hv3) x
    rw [this]
    split
    · rfl
    · rw [← hstat1]; exact hsome1 x hx
  have hnd3 : ∀ r, (waiting s3 r).Nodup := by
    intro r
    rw [hwait3]
    by_cases hr : r = .thread p
    · subst hr; simp
    · rw [update_of_ne hr]; exact h.wait_nodup r
  have hp3 : s3.threads tid = some p := by rw [e3.threads]; exact hp
  have hdel3 := deleteFromAllQueues_eq h3 hp3
    (fun r x hx => hstat3 x (by rw [h.wait_stat r x (hmem3 r x hx)]; rfl)) hnd3
  have hv4 := kill_view h hv3 (waiting_purged_all h3 fun r hm => hgood r (hmem3 r p hm))
  have e4 := edits_purged s3 p tids
  have hcpu4 : (purged s3 p tids).cpu = s.interruptsOff.cpu := by rw [e4.cpu, e3.cpu]; rfl
  set s4 := purged s3 p tids with hs4
  have htrace : (view s).Trace .thread [.wakeAll (.thread p), .kill p] (view s4) := by
    rw [hv4]
    refine .cons _ trivial (.single ⟨hne, ?_, by simp [Sched.apply]⟩)
    show (if p ∈ waiting s (.thread p) then some Status.ready else stat s p) ≠ none
    rw [if_neg hself, show stat s p = some t.status from hst]; simp
  have h4 : Inv s4 := ⟨htrace.inv h.sched, h3.purged _ _, by rw [hcpu4]; exact h.live⟩
  obtain ⟨s5, acts, hf, hfree⟩ := freeExited_spec h4
  have hm4 : Moves s s4 [.wakeAll (.thread p), .kill p] [] := by
    refine ⟨htrace, h4.table, h4.live, ?_, ?_, ?_, by simp, fun x t' _ ht' => ?_⟩
    · rw [e4.log, e3.log]; simp [hs2, hs1, State.setTcb, State.interruptsOff]
    · rw [e4.nextPtr, e3.nextPtr]; exact le_rfl
    · rw [e4.nextObj, e3.nextObj]; exact le_rfl
    · obtain ⟨a, ha, haid, -⟩ := e4.heap ht'
      obtain ⟨b, hb', hbid, -⟩ := e3.heap ha
      obtain ⟨c, hc, hcid, -⟩ := e1.heap (show s1.heap x = some b from hb')
      exact ⟨c, hc, hcid.trans (hbid.trans haid)⟩
  have hm5 := hm4.trans hfree.moves
  refine ⟨(s5.record (.killed p)).returns s.cpu.enabled (some tid), acts, ?_, hfree.reclaims, ?_, ?_, ?_⟩
  · rw [hs2] at hwake
    simp only [threadKill, hvalid, Bool.not_true, Bool.false_eq_true, if_false, slot_eq (s := s.interruptsOff) hp, hset,
      hdel, ok_bind, hwake, hdel3, hf]
    rfl
  · refine ⟨hm5.trace, hm5.table.aux _ _ _ _, hm5.live, ?_, hm5.nextPtr, hm5.nextObj, hm5.spawned, hm5.ids⟩
    show s5.log ++ [.killed p] = _
    rw [hm5.log, List.append_nil, List.append_nil]
  · have e : lockWord s4 = lockWord s1 := e4.lockWord.trans e3.lockWord
    exact hfree.lockWord.trans (e.trans e1.lockWord)
  · show { s5.cpu with enabled := s.cpu.enabled } = s.cpu
    rw [hfree.cpu, hcpu4]; rfl

/-! ## Creating -/

theorem getId_cases {s : State} (h : Table s) : getId s = threadNomore ∨
    (getId s ∈ tids ∧ ∀ p, s.threads (getId s) = some p → stat s p = some .exited) := by
  unfold getId
  cases hf : tids.find? fun i => (s.tcbAt i).all fun t => t.status = .exited with
  | none => exact Or.inl rfl
  | some i =>
    refine Or.inr ⟨List.mem_of_find?_eq_some hf, fun p hp => ?_⟩
    obtain ⟨t, ht, -, hst⟩ := h.stat_slot hp
    have := List.find?_some hf
    simp only [State.tcbAt, show s.threads i = some p from hp, Option.bind_eq_bind, Option.bind_some, ht,
      Option.all_some, decide_eq_true_eq] at this
    rw [hst, this]

/-- the table with the new thread `p` in slot `i`, which is free or holds an exited thread -/
def created (s : State) (i : Tid) : State :=
  { s with
    heap := Function.update s.heap s.nextPtr (some ⟨i, .ready, ⟨s.nextPtr, [.stub], false⟩, []⟩)
    nextPtr := s.nextPtr + 1
    threads := Function.update s.threads i (some s.nextPtr)
    readyQueue := s.readyQueue ++ [s.nextPtr] }

theorem stat_created {s : State} (h : Table s) (i : Tid) :
    stat (created s i) = update (fun x => if s.threads i = some x then none else stat s x) s.nextPtr (some .ready) := by
  funext x
  by_cases hx : x = s.nextPtr
  · subst hx; simp [stat, created]
  · rw [update_of_ne hx]
    cases hh : s.heap x with
    | none => simp [stat, created, update_of_ne hx, hh]
    | some t =>
      have hnx : some s.nextPtr ≠ some x := fun e => hx (Option.some.inj e).symm
      by_cases hi : t.id = i
      · by_cases hsx : s.threads i = some x
        · simp [stat, created, update_of_ne hx, hh, hi, hsx, hnx]
        · simp [stat, created, update_of_ne hx, hh, hi, hsx, hnx]
      · by_cases hsx : s.threads i = some x
        · obtain ⟨u, hu, huid⟩ := h.id i x hsx
          rw [hh, Option.some.injEq] at hu
          subst hu; exact absurd huid hi
        · simp [stat, created, update_of_ne hx, hh, update_of_ne hi, hsx]

theorem waiting_created {s : State} (h : Table s) (i : Tid) :
    waiting (created s i) = fun r => if (s.threads i).map QRef.thread = some r then [] else waiting s r := by
  funext r
  cases r with
  | thread x =>
    simp only [waiting, stat_created h]
    by_cases hx : x = s.nextPtr
    · subst hx
      have hn := h.fresh s.nextPtr le_rfl
      simp [State.queue, created, stat, hn]
    · rw [update_of_ne hx]
      cases hi : s.threads i with
      | none => simp [State.queue, created, update_of_ne hx]
      | some p =>
        by_cases hpx : p = x
        · subst hpx; simp
        · simp [State.queue, created, update_of_ne hx, hpx]
  | lock l | cv c | user w =>
    cases hi : s.threads i <;> simp [waiting, State.queue, created]

theorem Table.created {s : State} (h : Table s) {i : Tid} (hi : i ∈ tids) : Table (created s i) where
  range j x hj := by
    by_cases hji : j = i
    · subst hji; exact hi
    · exact h.range j x (by simpa [Threads.created, update_of_ne hji] using hj)
  id j x hj := by
    by_cases hji : j = i
    · subst hji
      simp only [Threads.created, update_self, Option.some.injEq] at hj
      subst hj
      exact ⟨_, update_self _ _ _, rfl⟩
    · have hj' : s.threads j = some x := by simpa [Threads.created, update_of_ne hji] using hj
      obtain ⟨t, ht, hid⟩ := h.id j x hj'
      have hx : x ≠ s.nextPtr := by rintro rfl; rw [h.fresh _ le_rfl] at ht; cases ht
      exact ⟨t, by simpa [Threads.created, update_of_ne hx] using ht, hid⟩
  fresh x hx := by
    have hlt : s.nextPtr < x := Nat.lt_of_succ_le hx
    simpa [Threads.created, update_of_ne hlt.ne'] using h.fresh x hlt.le
  owner x t ht := by
    by_cases hx : x = s.nextPtr
    · subst hx
      simp only [Threads.created, update_self, Option.some.injEq] at ht
      rw [← ht]
    · exact h.owner x t (by simpa [Threads.created, update_of_ne hx] using ht)
  saved x t ht hst := by
    by_cases hx : x = s.nextPtr
    · subst hx
      simp only [Threads.created, update_self, Option.some.injEq] at ht
      rw [← ht]; rfl
    · rw [stat_created h, update_of_ne hx] at hst
      have hst' : stat s x = some .ready ∨ stat s x = some .blocked := by
        split at hst
        · simp at hst
        · exact hst
      exact h.saved x t (by simpa [Threads.created, update_of_ne hx] using ht) hst'
  noSelf x := by
    rw [waiting_created h]
    simp only
    split
    · simp
    · exact h.noSelf x
  objs := h.objs

/-- `thread_create` forgets the exited thread in the slot it takes, if any, and the new thread becomes ready -/
theorem threadCreate_spec {s : State} (h : Inv s) (mem : Bool) :
    ∃ s' acts, threadCreate s mem = .ok s' ∧ Moves s s' acts [] ∧ (∀ a ∈ acts, Plain a) ∧ lockWord s' = lockWord s ∧
      s'.cpu = s.cpu := by
  have h0 := h.off
  have hret : ∀ v, ∃ s' acts, (.ok (s.interruptsOff.returns s.cpu.enabled v) : Except Stop State) = .ok s' ∧
      Moves s s' acts [] ∧ (∀ a ∈ acts, Plain a) ∧ lockWord s' = lockWord s ∧ s'.cpu = s.cpu := by
    intro v
    exact ⟨_, [], rfl, (moves_self h.off).of_off.returns _ v, by simp, rfl, rfl⟩
  unfold threadCreate
  have hcases := getId_cases h0.table
  simp only
  generalize getId s.interruptsOff = i at hcases ⊢
  split
  · exact hret _
  · split
    · exact hret _
    · rename_i hid _
      obtain ⟨hmem, hold⟩ := hcases.resolve_left hid
      have hcr : Table (created s.interruptsOff i) := h0.table.created hmem
      have hnp : stat s s.nextPtr = none := h.table.stat_none le_rfl
      have hv : ∃ acts, (view s).Trace .thread (acts ++ [.spawn s.nextPtr]) (view (created s.interruptsOff i)) ∧
          Reclaims acts := by
        cases hi : s.threads i with
        | none =>
          refine ⟨[], ?_, by simp [Reclaims]⟩
          have hview : view (created s.interruptsOff i) = (view s).apply (.spawn s.nextPtr) := by
            simp only [view, stat_created h0.table, waiting_created h0.table, Sched.apply]
            simp only [State.interruptsOff, hi, Option.map_none, Sched.mk.injEq, reduceCtorEq, if_false]
            exact ⟨rfl, rfl, rfl, funext fun r => by cases r <;> rfl⟩
          rw [hview]; exact .single hnp
        | some p =>
          refine ⟨[.reclaim p (.thread p)], ?_, by simp [Reclaims]⟩
          have hst : stat s p = some .exited := hold p hi
          have hpn : s.nextPtr ≠ p := by rintro rfl; rw [hnp] at hst; cases hst
          have hview : view (created s.interruptsOff i) =
              ((view s).apply (.reclaim p (.thread p))).apply (.spawn s.nextPtr) := by
            simp only [view, stat_created h0.table, waiting_created h0.table, Sched.apply]
            simp only [State.interruptsOff, hi, Option.map_some, Sched.mk.injEq, Option.some.injEq]
            refine ⟨?_, rfl, rfl, ?_⟩
            · congr 1
              funext x
              by_cases hx : p = x
              · subst hx; simp
              · rw [if_neg hx, update_of_ne (Ne.symm hx)]; rfl
            · funext r
              by_cases hr : r = .thread p
              · subst hr; simp
              · rw [if_neg (Ne.symm hr), update_of_ne hr]
                cases r <;> rfl
          rw [hview]
          refine .cons _ ⟨hst, rfl⟩ (.single ?_)
          show update (stat s) p none s.nextPtr = none
          rw [update_of_ne hpn]; exact hnp
      obtain ⟨acts, htr, hrec⟩ := hv
      refine ⟨(created s.interruptsOff i).returns s.cpu.enabled (some i), acts ++ [.spawn s.nextPtr], rfl,
        ⟨htr, hcr.aux _ _ _ _, h.live, ?_, Nat.le_succ _, le_rfl, ?_, ?_⟩, ?_, rfl, rfl⟩
      · simp [State.returns, created, State.interruptsOff]
      · intro x hx
        rcases List.mem_append.1 hx with hx | hx
        · obtain ⟨p, hp⟩ := hrec _ hx; cases hp
        · simp only [List.mem_singleton, Act.spawn.injEq] at hx
          exact hx.ge
      · intro x t' hx ht'
        exact ⟨t', by simpa [State.returns, created, State.interruptsOff, update_of_ne hx.ne] using ht', rfl⟩
      · intro a ha
        rcases List.mem_append.1 ha with ha | ha
        · exact hrec.plain a ha
        · rw [List.mem_singleton.1 ha]; trivial

end OsLab.Threads
