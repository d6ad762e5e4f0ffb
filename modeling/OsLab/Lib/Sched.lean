/-
A uniprocessor scheduler with FIFO wait queues, over arbitrary types of threads `T` and of queue names `Q`.

The state is what a dispatcher is about: the status of every thread, the thread on the processor, the ready list and
the waiting lists. Every thread owns a queue (`own`), where others wait for its end. `Act` lists what a dispatcher may
do; `apply` is its effect and `Enabled` when it may be done. A kernel model is connected to this one by showing that
each of its calls is a list of enabled actions (`Trace`).

Results, for every enabled action and every trace of them:
- `Inv.apply`: exactly one running thread, the ready list is exactly the ready threads without repetition, every
  waiting thread is blocked and waits in one queue, once.
- `Dead.apply`: a thread that is retired or unknown stays so, unless it is spawned.
- `Parked.apply`: a thread that waits in one queue stays there until that queue is woken.
- `Tidy.apply`: if nobody waits on a queue that is discarded, every blocked thread keeps waiting somewhere.
-/
import Mathlib.Tactic

namespace OsLab.Lib

inductive Status where
  | running
  | ready
  | blocked
  | exited
deriving DecidableEq, Repr

structure Sched (T Q : Type) where
  /-- status of a known thread -/
  stat : T → Option Status
  cur : T
  ready : List T
  wait : Q → List T

/-- what the dispatcher can do -/
inductive Act (T Q : Type) where
  /-- a new thread becomes ready -/
  | spawn (t : T)
  /-- the running thread goes to the tail of the ready list and `t` runs -/
  | yield (t : T)
  /-- the running thread goes to the tail of queue `q` and `t` runs -/
  | block (q : Q) (t : T)
  /-- the running thread retires and `t` runs -/
  | retire (t : T)
  /-- the first thread of queue `q` becomes ready -/
  | wakeOne (q : Q)
  /-- all threads of queue `q` become ready, in order -/
  | wakeAll (q : Q)
  /-- `t`, not running, retires wherever it is -/
  | kill (t : T)
  /-- the retired thread `t` is forgotten, and queue `q` with it -/
  | reclaim (t : T) (q : Q)
  /-- queue `q` is discarded -/
  | drop (q : Q)

namespace Sched

open Function

/-! ## The scheduler invariant -/

section

variable {T Q : Type}

structure Inv (s : Sched T Q) : Prop where
  running_iff : ∀ t, s.stat t = some .running ↔ t = s.cur
  ready_nodup : s.ready.Nodup
  ready_iff : ∀ t, t ∈ s.ready ↔ s.stat t = some .ready
  wait_blocked : ∀ q, ∀ t ∈ s.wait q, s.stat t = some .blocked
  wait_nodup : ∀ q, (s.wait q).Nodup
  wait_unique : ∀ q q' t, t ∈ s.wait q → t ∈ s.wait q' → q = q'

variable {s : Sched T Q}

theorem Inv.cur_running (h : Inv s) : s.stat s.cur = some .running := (h.running_iff _).2 rfl

theorem Inv.cur_not_ready (h : Inv s) : s.cur ∉ s.ready := by
  rw [h.ready_iff, h.cur_running]; simp

theorem Inv.cur_not_wait (h : Inv s) (q : Q) : s.cur ∉ s.wait q := by
  intro hm
  have := h.wait_blocked q _ hm
  rw [h.cur_running] at this; simp at this

theorem Inv.ready_ne_cur (h : Inv s) {t : T} (ht : t ∈ s.ready) : t ≠ s.cur := by
  rintro rfl; exact h.cur_not_ready ht

theorem Inv.wait_not_ready (h : Inv s) {q : Q} {t : T} (ht : t ∈ s.wait q) : t ∉ s.ready := by
  rw [h.ready_iff, h.wait_blocked q t ht]; simp

theorem Inv.wait_ne_cur (h : Inv s) {q : Q} {t : T} (ht : t ∈ s.wait q) : t ≠ s.cur := by
  rintro rfl; exact h.cur_not_wait q ht

end

/-! ## Actions -/

variable {T Q : Type} [DecidableEq T] [DecidableEq Q]

def apply (s : Sched T Q) : Act T Q → Sched T Q
  | .spawn t => { s with stat := update s.stat t (some .ready), ready := s.ready ++ [t] }
  | .yield t =>
    { s with
      stat := update (update s.stat t (some .running)) s.cur (some .ready)
      cur := t
      ready := s.ready.erase t ++ [s.cur] }
  | .block q t =>
    { stat := update (update s.stat t (some .running)) s.cur (some .blocked)
      cur := t
      ready := s.ready.erase t
      wait := update s.wait q (s.wait q ++ [s.cur]) }
  | .retire t =>
    { s with
      stat := update (update s.stat s.cur (some .exited)) t (some .running)
      cur := t
      ready := s.ready.erase t }
  | .wakeOne q =>
    match s.wait q with
    | [] => s
    | t :: ts =>
      { s with stat := update s.stat t (some .ready), ready := s.ready ++ [t], wait := update s.wait q ts }
  | .wakeAll q =>
    { s with
      stat := fun t => if t ∈ s.wait q then some .ready else s.stat t
      ready := s.ready ++ s.wait q
      wait := update s.wait q [] }
  | .kill t =>
    { s with
      stat := update s.stat t (some .exited)
      ready := s.ready.erase t
      wait := fun q => (s.wait q).erase t }
  | .reclaim t q => { s with stat := update s.stat t none, wait := update s.wait q [] }
  | .drop q => { s with wait := update s.wait q [] }

/-- when an action may be done; a thread ends only after those waiting for it have been woken -/
def Enabled (own : T → Q) (s : Sched T Q) : Act T Q → Prop
  | .spawn t => s.stat t = none
  | .yield t => t ∈ s.ready
  | .block _ t => t ∈ s.ready
  | .retire t => t ∈ s.ready ∧ s.wait (own s.cur) = []
  | .wakeOne _ => True
  | .wakeAll _ => True
  | .kill t => t ≠ s.cur ∧ s.stat t ≠ none ∧ s.wait (own t) = []
  | .reclaim t q => s.stat t = some .exited ∧ q = own t
  | .drop _ => True

theorem Inv.spawn {s : Sched T Q} (h : Inv s) {t : T} (ht : s.stat t = none) : Inv (s.apply (.spawn t)) := by
  have htr : t ∉ s.ready := by rw [h.ready_iff, ht]; simp
  have htc : t ≠ s.cur := by rintro rfl; simp [h.cur_running] at ht
  have htw : ∀ q, t ∉ s.wait q := fun q hm => by simp [h.wait_blocked q t hm] at ht
  have := h.running_iff; have := h.ready_iff; have := h.wait_blocked; have := h.ready_nodup
  constructor
  · intro u; simp only [apply, update_apply]; grind
  · simp only [apply]; grind
  · intro u; simp only [apply, update_apply]; grind
  · intro q u; simp only [apply, update_apply]; grind
  · exact h.wait_nodup
  · exact h.wait_unique

theorem Inv.yield {s : Sched T Q} (h : Inv s) {t : T} (ht : t ∈ s.ready) : Inv (s.apply (.yield t)) := by
  have htc := h.ready_ne_cur ht
  have := h.running_iff; have := h.ready_iff; have := h.wait_blocked; have := h.ready_nodup; have := h.cur_not_ready
  constructor
  · intro u; simp only [apply, update_apply]; grind
  · simp only [apply]; grind
  · intro u; simp only [apply, update_apply]; grind
  · intro q u; simp only [apply, update_apply]; grind
  · exact h.wait_nodup
  · exact h.wait_unique

theorem Inv.block {s : Sched T Q} (h : Inv s) {t : T} (q : Q) (ht : t ∈ s.ready) : Inv (s.apply (.block q t)) := by
  have htc := h.ready_ne_cur ht
  have := h.running_iff; have := h.ready_iff; have := h.wait_blocked; have := h.ready_nodup
  have := h.cur_not_ready; have := h.cur_not_wait; have := h.wait_nodup
  constructor
  · intro u; simp only [apply, update_apply]; grind
  · simp only [apply]; grind
  · intro u; simp only [apply, update_apply]; grind
  · intro q' u; simp only [apply, update_apply]; grind
  · intro q'; simp only [apply, update_apply]; grind
  · intro q1 q2 u; have := h.wait_unique q1 q2 u; simp only [apply, update_apply]; grind

theorem Inv.retire {s : Sched T Q} (h : Inv s) {t : T} (ht : t ∈ s.ready) : Inv (s.apply (.retire t)) := by
  have htc := h.ready_ne_cur ht
  have := h.running_iff; have := h.ready_iff; have := h.wait_blocked; have := h.ready_nodup; have := h.cur_not_ready
  constructor
  · intro u; simp only [apply, update_apply]; grind
  · simp only [apply]; grind
  · intro u; simp only [apply, update_apply]; grind
  · intro q u; simp only [apply, update_apply]; grind
  · exact h.wait_nodup
  · exact h.wait_unique

theorem Inv.wakeOne {s : Sched T Q} (h : Inv s) (q : Q) : Inv (s.apply (.wakeOne q)) := by
  have hnd := h.wait_nodup q
  have := h.running_iff; have := h.ready_iff; have := h.wait_blocked; have := h.ready_nodup; have := h.wait_nodup
  simp only [apply]
  split
  · exact h
  · rename_i t ts hq
    have htw : t ∈ s.wait q := by rw [hq]; exact List.mem_cons_self
    have htb := h.wait_blocked q t htw
    have htr := h.wait_not_ready htw
    have hsub : ∀ q' u, u ∈ update s.wait q ts q' → u ∈ s.wait q' ∧ u ≠ t := by
      intro q' u hu
      rw [hq] at hnd
      by_cases hqq : q' = q
      · subst hqq; rw [update_self] at hu; grind
      · rw [update_of_ne hqq] at hu
        exact ⟨hu, fun hut => hqq (h.wait_unique q' q t (hut ▸ hu) htw)⟩
    constructor
    · intro u; simp only [update_apply]; grind
    · simp only; grind
    · intro u; simp only [update_apply]; grind
    · intro q' u hu; obtain ⟨h1, h2⟩ := hsub q' u hu; simp only [update_of_ne h2]; exact h.wait_blocked q' u h1
    · intro q'; simp only [update_apply]; grind
    · intro q1 q2 u h1 h2; exact h.wait_unique q1 q2 u (hsub q1 u h1).1 (hsub q2 u h2).1

theorem Inv.wakeAll {s : Sched T Q} (h : Inv s) (q : Q) : Inv (s.apply (.wakeAll q)) := by
  have hsub : ∀ q' u, u ∈ update s.wait q [] q' → u ∈ s.wait q' ∧ u ∉ s.wait q := by
    intro q' u hu
    by_cases hqq : q' = q
    · subst hqq; simp at hu
    · rw [update_of_ne hqq] at hu
      exact ⟨hu, fun hm => hqq (h.wait_unique q' q u hu hm)⟩
  have := h.running_iff; have := h.ready_iff; have := h.wait_blocked
  constructor
  · intro u; simp only [apply]; have := h.wait_ne_cur (q := q) (t := u); grind
  · simp only [apply]
    exact List.nodup_append.2 ⟨h.ready_nodup, h.wait_nodup q, fun a ha b hb hab => h.wait_not_ready hb (hab ▸ ha)⟩
  · intro u; simp only [apply, List.mem_append]; grind
  · intro q' u hu; obtain ⟨h1, h2⟩ := hsub q' u hu; simp only [apply, if_neg h2]; exact h.wait_blocked q' u h1
  · intro q'; have := h.wait_nodup q'; simp only [apply, update_apply]; grind
  · intro q1 q2 u h1 h2; exact h.wait_unique q1 q2 u (hsub q1 u h1).1 (hsub q2 u h2).1

theorem Inv.kill {s : Sched T Q} (h : Inv s) {t : T} (ht : t ≠ s.cur) : Inv (s.apply (.kill t)) := by
  have hsub : ∀ q u, u ∈ (s.wait q).erase t → u ∈ s.wait q ∧ u ≠ t := by
    intro q u hu
    exact ⟨List.mem_of_mem_erase hu, fun hut => (h.wait_nodup q).not_mem_erase (hut ▸ hu)⟩
  have := h.running_iff; have := h.ready_iff; have := h.ready_nodup
  constructor
  · intro u; simp only [apply, update_apply]; grind
  · exact h.ready_nodup.erase t
  · intro u; simp only [apply, update_apply]; grind
  · intro q u hu; obtain ⟨h1, h2⟩ := hsub q u hu; simp only [apply, update_of_ne h2]; exact h.wait_blocked q u h1
  · intro q; exact (h.wait_nodup q).erase t
  · intro q1 q2 u h1 h2; exact h.wait_unique q1 q2 u (hsub q1 u h1).1 (hsub q2 u h2).1

theorem Inv.drop {s : Sched T Q} (h : Inv s) (q : Q) : Inv (s.apply (.drop q)) := by
  have hsub : ∀ q' u, u ∈ update s.wait q [] q' → u ∈ s.wait q' := by
    intro q' u; simp only [update_apply]; grind
  refine { h with wait_blocked := ?_, wait_nodup := ?_, wait_unique := ?_ }
  · intro q' u hu; exact h.wait_blocked q' u (hsub q' u hu)
  · intro q'; have := h.wait_nodup q'; simp only [apply, update_apply]; grind
  · intro q1 q2 u h1 h2; exact h.wait_unique q1 q2 u (hsub q1 u h1) (hsub q2 u h2)

theorem Inv.reclaim {s : Sched T Q} (h : Inv s) {t : T} (q : Q) (ht : s.stat t = some .exited) :
    Inv (s.apply (.reclaim t q)) := by
  have hd := h.drop q
  have hne : ∀ u, s.stat u = some .blocked → u ≠ t := by rintro u hu rfl; rw [ht] at hu; cases hu
  have := h.running_iff; have := h.ready_iff
  refine { hd with running_iff := ?_, ready_iff := ?_, wait_blocked := ?_ }
  · intro u; simp only [apply, update_apply]; grind
  · intro u; simp only [apply, update_apply]; grind
  · intro q' u hu
    have hb := hd.wait_blocked q' u hu
    simp only [apply] at hb ⊢
    rw [update_of_ne (hne u hb)]; exact hb

theorem Inv.apply {own : T → Q} {s : Sched T Q} (h : Inv s) {a : Act T Q} (ha : s.Enabled own a) :
    Inv (s.apply a) := by
  cases a with
  | spawn t => exact h.spawn ha
  | yield t => exact h.yield ha
  | block q t => exact h.block q ha
  | retire t => exact h.retire ha.1
  | wakeOne q => exact h.wakeOne q
  | wakeAll q => exact h.wakeAll q
  | kill t => exact h.kill ha.1
  | reclaim t q => exact h.reclaim q ha.1
  | drop q => exact h.drop q

/-! ## Traces -/

/-- a list of enabled actions -/
inductive Trace (own : T → Q) : Sched T Q → List (Act T Q) → Sched T Q → Prop
  | nil (s : Sched T Q) : Trace own s [] s
  | cons {s u : Sched T Q} {l : List (Act T Q)} (a : Act T Q) :
      Enabled own s a → Trace own (apply s a) l u → Trace own s (a :: l) u

variable {own : T → Q}

theorem Trace.append {s t u : Sched T Q} {l m : List (Act T Q)} (h1 : Trace own s l t) (h2 : Trace own t m u) :
    Trace own s (l ++ m) u := by
  induction h1 with
  | nil => exact h2
  | cons a ha _ ih => exact .cons a ha (ih h2)

theorem Trace.single {s : Sched T Q} {a : Act T Q} (h : Enabled own s a) : Trace own s [a] (apply s a) :=
  .cons a h (.nil _)

theorem Trace.eq_of_single {s t : Sched T Q} {a : Act T Q} (h : Trace own s [a] t) : t = apply s a := by
  cases h with
  | cons _ _ h => cases h; rfl

theorem Trace.inv {s t : Sched T Q} {l : List (Act T Q)} (h : Trace own s l t) (hs : Inv s) : Inv t := by
  induction h with
  | nil => exact hs
  | cons a ha _ ih => exact ih (hs.apply ha)

/-- a property kept by every enabled action of a trace, under the scheduler invariant, is kept by the trace -/
theorem Trace.keeps {s t : Sched T Q} {l : List (Act T Q)} (h : Trace own s l t) (P : Sched T Q → Prop) (hs : Inv s)
    (hP : ∀ u, Inv u → P u → ∀ a ∈ l, u.Enabled own a → P (u.apply a)) (h0 : P s) : P t := by
  induction h with
  | nil => exact h0
  | cons a ha _ ih =>
    refine ih (hs.apply ha) (fun u hu hPu b hb => hP u hu hPu b (List.mem_cons_of_mem _ hb)) ?_
    exact hP _ hs h0 a List.mem_cons_self ha

/-! ## Retired threads stay retired -/

def Dead (s : Sched T Q) (t : T) : Prop := s.stat t = none ∨ s.stat t = some .exited

omit [DecidableEq T] [DecidableEq Q] in
theorem Dead.not_ready {s : Sched T Q} (h : Inv s) {t : T} (hd : s.Dead t) : t ∉ s.ready := by
  rw [h.ready_iff]; rcases hd with hd | hd <;> simp [hd]

omit [DecidableEq T] [DecidableEq Q] in
theorem Dead.not_wait {s : Sched T Q} (h : Inv s) {t : T} (hd : s.Dead t) (q : Q) : t ∉ s.wait q := by
  intro hm
  have := h.wait_blocked q t hm
  rcases hd with hd | hd <;> simp [hd] at this

omit [DecidableEq T] [DecidableEq Q] in
theorem Dead.ne_cur {s : Sched T Q} (h : Inv s) {t : T} (hd : s.Dead t) : t ≠ s.cur := by
  rintro rfl
  have := h.cur_running
  rcases hd with hd | hd <;> simp [hd] at this

theorem Dead.apply {s : Sched T Q} (h : Inv s) {t : T} (hd : s.Dead t) {a : Act T Q} (ha : s.Enabled own a)
    (hne : a ≠ .spawn t) : (s.apply a).Dead t := by
  have hr := hd.not_ready h
  have hc := hd.ne_cur h
  have hw := hd.not_wait h
  cases a with
  | spawn u =>
    have : t ≠ u := by rintro rfl; exact hne rfl
    simpa only [Dead, Sched.apply, update_of_ne this] using hd
  | yield u | block _ u =>
    have : t ≠ u := by rintro rfl; exact hr ha
    simpa only [Dead, Sched.apply, update_of_ne this, update_of_ne hc] using hd
  | retire u =>
    have : t ≠ u := by rintro rfl; exact hr ha.1
    simpa only [Dead, Sched.apply, update_of_ne this, update_of_ne hc] using hd
  | wakeOne q =>
    simp only [Sched.apply]
    split
    · exact hd
    · rename_i u us hq
      have : t ≠ u := by rintro rfl; exact hw q (by rw [hq]; exact List.mem_cons_self)
      simpa only [Dead, update_of_ne this] using hd
  | wakeAll q => simpa only [Dead, Sched.apply, if_neg (hw q)] using hd
  | kill u | reclaim u _ =>
    by_cases htu : t = u
    · subst htu; simp [Dead, Sched.apply]
    · simpa only [Dead, Sched.apply, update_of_ne htu] using hd
  | drop q => exact hd

theorem Trace.dead {s u : Sched T Q} {l : List (Act T Q)} (h : Trace own s l u) (hs : Inv s) {t : T} (hd : s.Dead t)
    (hne : Act.spawn t ∉ l) : u.Dead t :=
  h.keeps (fun v => v.Dead t) hs (fun _ hv hdv _ ha hen => hdv.apply hv hen (fun e => hne (e ▸ ha))) hd

/-! ## A thread parked in one queue stays there until that queue is woken -/

/-- `t` neither runs nor is ready, and it waits nowhere but possibly in `q` -/
structure Parked (s : Sched T Q) (t : T) (q : Q) : Prop where
  not_running : s.stat t ≠ some .running
  not_ready : s.stat t ≠ some .ready
  only : ∀ q', t ∈ s.wait q' → q' = q

theorem parked_of_block {s : Sched T Q} (h : Inv s) {t : T} (q : Q) : (s.apply (.block q t)).Parked s.cur q := by
  refine ⟨by simp [apply], by simp [apply], fun q' hm => ?_⟩
  by_contra hqq
  simp only [apply, update_of_ne hqq] at hm
  exact h.cur_not_wait q' hm

theorem Parked.apply {s : Sched T Q} (h : Inv s) {t : T} {q : Q} (hp : s.Parked t q) {a : Act T Q}
    (ha : s.Enabled own a) (hsp : a ≠ .spawn t) (h1 : a ≠ .wakeOne q) (h2 : a ≠ .wakeAll q) :
    (s.apply a).Parked t q := by
  obtain ⟨hrun, hrdy, honly⟩ := hp
  have hc : t ≠ s.cur := by rintro rfl; exact hrun h.cur_running
  have hr : t ∉ s.ready := by rw [h.ready_iff]; exact hrdy
  cases a with
  | spawn u =>
    have : t ≠ u := by rintro rfl; exact hsp rfl
    exact ⟨by simpa only [Sched.apply, update_of_ne this], by simpa only [Sched.apply, update_of_ne this], honly⟩
  | yield u =>
    have : t ≠ u := by rintro rfl; exact hr ha
    exact ⟨by simpa only [Sched.apply, update_of_ne this, update_of_ne hc],
      by simpa only [Sched.apply, update_of_ne this, update_of_ne hc], honly⟩
  | retire u =>
    have : t ≠ u := by rintro rfl; exact hr ha.1
    exact ⟨by simpa only [Sched.apply, update_of_ne this, update_of_ne hc],
      by simpa only [Sched.apply, update_of_ne this, update_of_ne hc], honly⟩
  | block q0 u =>
    have : t ≠ u := by rintro rfl; exact hr ha
    refine ⟨by simpa only [Sched.apply, update_of_ne this, update_of_ne hc],
      by simpa only [Sched.apply, update_of_ne this, update_of_ne hc], fun q' hm => honly q' ?_⟩
    simp only [Sched.apply, update_apply] at hm
    split at hm
    · rename_i hq; subst hq
      rcases List.mem_append.1 hm with hm | hm
      · exact hm
      · exact absurd (List.mem_singleton.1 hm) hc
    · exact hm
  | wakeOne q0 =>
    have hw : t ∉ s.wait q0 := fun hm => h1 (by rw [honly q0 hm])
    simp only [Sched.apply]
    split
    · exact ⟨hrun, hrdy, honly⟩
    · rename_i u us hq
      have : t ≠ u := by rintro rfl; exact hw (by rw [hq]; exact List.mem_cons_self)
      refine ⟨by simpa only [update_of_ne this], by simpa only [update_of_ne this], fun q' hm => honly q' ?_⟩
      simp only [update_apply] at hm
      split at hm
      · rename_i hqq; subst hqq; rw [hq]; exact List.mem_cons_of_mem _ hm
      · exact hm
  | wakeAll q0 =>
    have hw : t ∉ s.wait q0 := fun hm => h2 (by rw [honly q0 hm])
    refine ⟨by simpa only [Sched.apply, if_neg hw], by simpa only [Sched.apply, if_neg hw],
      fun q' hm => honly q' ?_⟩
    simp only [Sched.apply, update_apply] at hm
    split at hm
    · simp at hm
    · exact hm
  | kill u =>
    refine ⟨?_, ?_, fun q' hm => honly q' (List.mem_of_mem_erase hm)⟩ <;>
      (simp only [Sched.apply, update_apply]; split <;> simp_all)
  | reclaim u q0 =>
    refine ⟨?_, ?_, fun q' hm => honly q' ?_⟩
    · simp only [Sched.apply, update_apply]; split <;> simp_all
    · simp only [Sched.apply, update_apply]; split <;> simp_all
    · simp only [Sched.apply, update_apply] at hm; split at hm <;> simp_all
  | drop q0 =>
    refine ⟨hrun, hrdy, fun q' hm => honly q' ?_⟩
    simp only [Sched.apply, update_apply] at hm; split at hm <;> simp_all

theorem Trace.parked {s u : Sched T Q} {l : List (Act T Q)} (h : Trace own s l u) (hs : Inv s) {t : T} {q : Q}
    (hp : s.Parked t q) (hsp : Act.spawn t ∉ l) (h1 : Act.wakeOne q ∉ l) (h2 : Act.wakeAll q ∉ l) : u.Parked t q :=
  h.keeps (fun v => v.Parked t q) hs (fun _ hv hpv _ ha hen => hpv.apply hv hen (fun e => hsp (e ▸ ha))
    (fun e => h1 (e ▸ ha)) (fun e => h2 (e ▸ ha))) hp

/-! ## No lost sleeper -/

/-- every blocked thread waits somewhere, and nobody waits on the queue of a thread that is gone -/
structure Tidy (own : T → Q) (s : Sched T Q) : Prop where
  covered : ∀ t, s.stat t = some .blocked → ∃ q, t ∈ s.wait q
  empty : ∀ t, s.Dead t → s.wait (own t) = []

/-- the actions that may strand a sleeper, and when they do not -/
def Safe (own : T → Q) (s : Sched T Q) : Act T Q → Prop
  | .block q _ => ∀ t, q = own t → ¬ s.Dead t
  | .drop q => s.wait q = []
  | _ => True

theorem Tidy.of_block {own : T → Q} {s : Sched T Q} (h : Inv s) (ht : Tidy own s) {t : T} {q : Q}
    (hr : t ∈ s.ready) (hs : ∀ u, q = own u → ¬ s.Dead u) : Tidy own (s.apply (.block q t)) := by
  have hcur := h.cur_running
  have hrdy := (h.ready_iff t).1 hr
  refine ⟨fun u hu => ?_, fun u hu => ?_⟩
  · simp only [apply, update_apply] at hu ⊢
    split at hu
    · rename_i huc; subst huc; exact ⟨q, by simp⟩
    · split at hu
      · simp at hu
      · obtain ⟨q', hq'⟩ := ht.covered u hu
        refine ⟨q', ?_⟩
        split
        · rename_i hqq; subst hqq; exact List.mem_append_left _ hq'
        · exact hq'
  · have hud : s.Dead u := by
      simp only [Dead, apply, update_apply] at hu ⊢
      split at hu
      · simp at hu
      · split at hu <;> simp_all
    simp only [apply, update_apply]
    rw [if_neg (fun e => hs u e.symm hud)]
    exact ht.empty u hud

theorem Tidy.of_wakeOne {own : T → Q} {s : Sched T Q} (ht : Tidy own s) (q : Q) : Tidy own (s.apply (.wakeOne q)) := by
  simp only [apply]
  split
  · exact ht
  · rename_i u us hq
    refine ⟨fun v hv => ?_, fun v hv => ?_⟩
    · simp only [update_apply] at hv
      split at hv
      · simp at hv
      · rename_i hvu
        obtain ⟨q', hq'⟩ := ht.covered v hv
        refine ⟨q', ?_⟩
        simp only [update_apply]
        split
        · rename_i hqq; subst hqq; rw [hq] at hq'
          exact (List.mem_cons.1 hq').resolve_left hvu
        · exact hq'
    · have hvd : s.Dead v := by
        simp only [Dead, update_apply] at hv ⊢
        split at hv <;> simp_all
      have := ht.empty v hvd
      simp only [update_apply]
      split <;> simp_all

theorem Tidy.of_wakeAll {own : T → Q} {s : Sched T Q} (ht : Tidy own s) (q : Q) : Tidy own (s.apply (.wakeAll q)) := by
  refine ⟨fun v hv => ?_, fun v hv => ?_⟩
  · simp only [apply] at hv ⊢
    split at hv
    · simp at hv
    · rename_i hvq
      obtain ⟨q', hq'⟩ := ht.covered v hv
      have hne : q' ≠ q := by rintro rfl; exact hvq hq'
      refine ⟨q', ?_⟩
      rw [update_of_ne hne]; exact hq'
  · have hvd : s.Dead v := by
      simp only [Dead, apply] at hv ⊢
      split at hv <;> simp_all
    have := ht.empty v hvd
    simp only [apply, update_apply]
    split <;> simp_all

theorem Tidy.of_kill {own : T → Q} {s : Sched T Q} (ht : Tidy own s) {t : T} (hq : s.wait (own t) = []) :
    Tidy own (s.apply (.kill t)) := by
  refine ⟨fun v hv => ?_, fun v hv => ?_⟩
  · simp only [apply, update_apply] at hv ⊢
    split at hv
    · simp at hv
    · rename_i hvt
      obtain ⟨q', hq'⟩ := ht.covered v hv
      exact ⟨q', (List.mem_erase_of_ne hvt).2 hq'⟩
  · simp only [Dead, apply, update_apply] at hv ⊢
    by_cases hvt : v = t
    · subst hvt; rw [hq]; rfl
    · rw [if_neg hvt] at hv; rw [ht.empty v hv]; rfl

theorem Tidy.apply {own : T → Q} {s : Sched T Q} (h : Inv s) (ht : Tidy own s) {a : Act T Q}
    (ha : s.Enabled own a) (hs : s.Safe own a) : Tidy own (s.apply a) := by
  cases a with
  | spawn t =>
    refine ⟨fun u hu => ?_, fun u hu => ?_⟩
    · simp only [Sched.apply, update_apply] at hu
      split at hu
      · simp at hu
      · exact ht.covered u hu
    · simp only [Dead, Sched.apply, update_apply] at hu
      split at hu
      · simp at hu
      · exact ht.empty u hu
  | yield t =>
    refine ⟨fun u hu => ?_, fun u hu => ?_⟩
    · simp only [Sched.apply, update_apply] at hu
      split at hu
      · simp at hu
      · split at hu
        · simp at hu
        · exact ht.covered u hu
    · simp only [Dead, Sched.apply, update_apply] at hu
      split at hu
      · simp at hu
      · split at hu
        · simp at hu
        · exact ht.empty u hu
  | block q t => exact ht.of_block h ha hs
  | retire t =>
    refine ⟨fun u hu => ?_, fun u hu => ?_⟩
    · simp only [Sched.apply, update_apply] at hu
      split at hu
      · simp at hu
      · split at hu
        · simp at hu
        · exact ht.covered u hu
    · simp only [Dead, Sched.apply, update_apply] at hu
      split at hu
      · simp at hu
      · split at hu
        · rename_i huc; subst huc; exact ha.2
        · exact ht.empty u hu
  | wakeOne q => exact ht.of_wakeOne q
  | wakeAll q => exact ht.of_wakeAll q
  | kill t => exact ht.of_kill ha.2.2
  | reclaim t q =>
    have hd : s.Dead t := Or.inr ha.1
    have hq : s.wait q = [] := by rw [ha.2]; exact ht.empty t hd
    have hw : update s.wait q [] = s.wait := by rw [← hq]; exact update_eq_self q s.wait
    refine ⟨fun u hu => ?_, fun u hu => ?_⟩
    · simp only [Sched.apply, hw, update_apply] at hu ⊢
      split at hu
      · simp at hu
      · exact ht.covered u hu
    · simp only [Dead, Sched.apply, hw, update_apply] at hu ⊢
      split at hu
      · rename_i hut; subst hut; exact ht.empty u hd
      · exact ht.empty u hu
  | drop q =>
    have hw : update s.wait q [] = s.wait := by
      have hq : s.wait q = [] := hs
      rw [← hq]; exact update_eq_self q s.wait
    simpa only [Sched.apply, hw] using ht

theorem Trace.tidy {s u : Sched T Q} {l : List (Act T Q)} (h : Trace own s l u) (hs : Inv s) (ht : Tidy own s)
    (hsafe : ∀ a ∈ l, ∀ v, Safe own v a) : Tidy own u :=
  h.keeps (Tidy own) hs (fun v hv htv a ha hen => htv.apply hv hen (hsafe a ha v)) ht

end Sched

end OsLab.Lib
