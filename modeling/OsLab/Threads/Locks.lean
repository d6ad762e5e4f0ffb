/-
Mutual exclusion of the locks of the thread library.

A thread holds a lock from the return of its `lock_acquire` or `cv_wait` on it until its next call of `lock_release` or
`cv_wait` on it (`holds`, read off the record of calls). `mutual_exclusion`: in every run without `thread_kill`, at most
one live thread holds a lock; while one does, the lock is marked acquired with its identifier, and a `lock_release` by
another thread changes nothing. The invariant over runs is `Held`; its last field is about the one program point where a
thread has taken the lock and not returned yet, the last line of `cv_wait`.
-/
import Mathlib.Tactic
import OsLab.Threads.Runs

namespace OsLab.Threads

open OsLab.Lib Function State

/-- after the events `log`: the last call of `c` on lock `l` is an acquisition that has returned -/
def holds (log : List Event) (c : Ptr) (l : ℕ) : Bool :=
  log.foldl (fun b e => if e = .acquireReturn c l then true else if e = .releaseCall c l then false else b) false

def Live (s : State) (c : Ptr) : Prop := ∃ st, stat s c = some st ∧ st ≠ .exited

theorem live_iff {s : State} {c : Ptr} : Live s c ↔ ¬ (view s).Dead c := by
  show (∃ st, stat s c = some st ∧ st ≠ .exited) ↔ ¬ (stat s c = none ∨ stat s c = some .exited)
  cases hc : stat s c with
  | none => simp
  | some st => simp

theorem holds_concat (log : List Event) (e : Event) (c : Ptr) (l : ℕ) :
    holds (log ++ [e]) c l =
      if e = .acquireReturn c l then true else if e = .releaseCall c l then false else holds log c l := by
  simp [holds, List.foldl_append]

/-- a new holder has just acquired -/
theorem holds_old {log evs : List Event} {c : Ptr} {l : ℕ} (he : evs = [] ∨ ∃ e, evs = [e])
    (hna : .acquireReturn c l ∉ evs) (h : holds (log ++ evs) c l = true) :
    holds log c l = true ∧ .releaseCall c l ∉ evs := by
  rcases he with rfl | ⟨e, rfl⟩
  · rw [List.append_nil] at h
    exact ⟨h, by simp⟩
  · rw [holds_concat] at h
    have h1 : e ≠ .acquireReturn c l := by rintro rfl; exact hna List.mem_cons_self
    rw [if_neg h1] at h
    by_cases h2 : e = .releaseCall c l
    · rw [if_pos h2] at h; cases h
    · rw [if_neg h2] at h
      exact ⟨h, by simpa using Ne.symm h2⟩

structure Held (s : State) : Prop where
  alloc : ∀ c l, holds s.log c l = true → c < s.nextPtr
  holder : ∀ c l, holds s.log c l = true → Live s c → ∃ t, s.heap c = some t ∧ lockWord s l = some (t.id, 1)
  entering : ∀ e l, s.cpu.frames = [.cvAcquire e l] → lockWord s l = some (threadId s, 1)

/-! ## Threads keep their identifiers -/

theorem Inv.owner_id {s : State} (h : Inv s) : ∃ t, s.heap s.cpu.owner = some t ∧ t.id = threadId s := by
  obtain ⟨hid, -⟩ := threadId_eq h
  obtain ⟨t, ht, hid⟩ := h.table.id _ _ hid
  exact ⟨t, ht, hid⟩

theorem Live.slot {s : State} {c : Ptr} (h : Live s c) : ∃ t, s.heap c = some t ∧ s.threads t.id = some c := by
  obtain ⟨st, hst, -⟩ := h
  obtain ⟨t, ht, hslot, -⟩ := stat_eq_some hst
  exact ⟨t, ht, hslot⟩

theorem Inv.owner_lt {s : State} (h : Inv s) : s.cpu.owner < s.nextPtr := by
  by_contra hge
  have := h.table.stat_none (Nat.le_of_not_lt hge)
  rw [h.cur_stat] at this; cases this

/-- a thread that is live after a step was live before it, with the same identifier -/
theorem Live.back {s s' : State} {acts : List (Act Ptr QRef)} {evs : List Event} {c : Ptr} (h : Inv s)
    (hm : Moves s s' acts evs) (hc : c < s.nextPtr) (hl : Live s' c) :
    Live s c ∧ ∃ t t', s.heap c = some t ∧ s'.heap c = some t' ∧ t.id = t'.id := by
  refine ⟨?_, ?_⟩
  · rw [live_iff] at hl ⊢
    intro hd
    exact hl (hm.trace.dead h.sched hd fun hsp => absurd (hm.spawned c hsp) (Nat.not_le_of_lt hc))
  · obtain ⟨t', ht', -⟩ := hl.slot
    obtain ⟨t, ht, hid⟩ := hm.ids c t' hc ht'
    exact ⟨t, t', ht, ht', hid⟩

/-- two live threads with one identifier are one thread -/
theorem live_id_inj {s : State} {c c' : Ptr} {t t' : Tcb} (hl : Live s c) (hl' : Live s c') (ht : s.heap c = some t)
    (ht' : s.heap c' = some t') (hid : t.id = t'.id) : c = c' := by
  obtain ⟨u, hu, hslot⟩ := hl.slot
  obtain ⟨u', hu', hslot'⟩ := hl'.slot
  rw [ht, Option.some.injEq] at hu
  rw [ht', Option.some.injEq] at hu'
  subst hu hu'
  rw [hid, hslot', Option.some.injEq] at hslot
  exact hslot.symm

theorem Inv.owner_live {s : State} (h : Inv s) : Live s s.cpu.owner := ⟨.running, h.cur_stat, by decide⟩

/-! ## One step -/

variable {s s' : State} {acts : List (Act Ptr QRef)} {evs : List Event} {op : Op}

/-- a holder from before the step, whose lock word the step leaves alone -/
theorem Held.carry (h : Inv s) (hh : Held s) (hm : Moves s s' acts evs) {c : Ptr} {l : ℕ}
    (hc : holds s.log c l = true) (hl : Live s' c) (hw : lockWord s' l = lockWord s l) :
    ∃ t, s'.heap c = some t ∧ lockWord s' l = some (t.id, 1) := by
  obtain ⟨hlive, t, t', ht, ht', hid⟩ := hl.back h hm (hh.alloc c l hc)
  obtain ⟨u, hu, hword⟩ := hh.holder c l hc hlive
  rw [ht, Option.some.injEq] at hu
  subst hu
  exact ⟨t', ht', by rw [hw, hword, hid]⟩

/-- a lock that is not acquired has no live holder -/
theorem Held.free (h : Inv s) (hh : Held s) (hm : Moves s s' acts evs) {c : Ptr} {l : ℕ}
    (hfree : ∀ i, lockWord s l ≠ some (i, 1)) (hc : holds s.log c l = true) (hl : Live s' c) : False := by
  obtain ⟨hlive, -⟩ := hl.back h hm (hh.alloc c l hc)
  obtain ⟨t, -, hword⟩ := hh.holder c l hc hlive
  exact hfree _ hword

/-- the identifier of the thread that takes the lock, after the step -/
theorem word_of_owner (h : Inv s) (hm : Moves s s' acts evs) {c : Ptr} {l : ℕ} (hc : c = s.cpu.owner)
    (hl : Live s' c) (hw : lockWord s' l = some (threadId s, 1)) :
    ∃ t, s'.heap c = some t ∧ lockWord s' l = some (t.id, 1) := by
  subst hc
  obtain ⟨-, t, t', ht, ht', hid⟩ := hl.back h hm h.owner_lt
  obtain ⟨u, hu, huid⟩ := h.owner_id
  rw [ht, Option.some.injEq] at hu
  subst hu
  exact ⟨t', ht', by rw [hw, ← hid, huid]⟩

theorem threadId_keep (h : Inv s) (hm : Moves s s' acts evs) (hown : s'.cpu.owner = s.cpu.owner) :
    threadId s' = threadId s := by
  obtain ⟨t, ht, hid⟩ := h.owner_id
  obtain ⟨t', ht', hid'⟩ := (hm.inv h).owner_id
  rw [hown] at ht'
  obtain ⟨u, hu, huid⟩ := hm.ids _ t' h.owner_lt ht'
  rw [ht, Option.some.injEq] at hu
  subst hu
  rw [← hid, ← hid', huid]

theorem step_holder (h : Inv s) (hh : Held s) (hm : Moves s s' acts evs) (heff : Effect s op acts evs)
    (hw : Words s s' evs) : ∀ c l, holds s'.log c l = true → Live s' c →
      ∃ t, s'.heap c = some t ∧ lockWord s' l = some (t.id, 1) := by
  intro c l hc hl
  rw [hm.log] at hc
  have hev := heff.events
  cases hw with
  | keep hword hna _ =>
    obtain ⟨hold, -⟩ := holds_old hev (hna c l) hc
    exact hh.carry h hm hold hl (by rw [hword])
  | @acquire l0 hfree hword hown _ =>
    by_cases hcl : c = s.cpu.owner ∧ l = l0
    · obtain ⟨rfl, rfl⟩ := hcl
      exact word_of_owner h hm rfl hl (by rw [hword, update_self])
    · have hna : Event.acquireReturn c l ∉ [Event.acquireReturn s.cpu.owner l0] := by simpa using hcl
      obtain ⟨hold, -⟩ := holds_old hev hna hc
      by_cases hll : l = l0
      · subst hll; exact absurd (hh.free h hm hfree hold hl) id
      · exact hh.carry h hm hold hl (by rw [hword, update_of_ne hll])
  | @reacquire e l0 _ hfree hword _ _ hna =>
    obtain ⟨hold, -⟩ := holds_old hev (hna c l) hc
    by_cases hll : l = l0
    · subst hll; exact absurd (hh.free h hm hfree hold hl) id
    · exact hh.carry h hm hold hl (by rw [hword, update_of_ne hll])
  | @enter e l0 hframes hword _ =>
    by_cases hcl : c = s.cpu.owner ∧ l = l0
    · obtain ⟨rfl, rfl⟩ := hcl
      exact word_of_owner h hm rfl hl (by rw [hword]; exact hh.entering e l hframes)
    · have hna : Event.acquireReturn c l ∉ [Event.acquireReturn s.cpu.owner l0] := by simpa using hcl
      obtain ⟨hold, -⟩ := holds_old hev hna hc
      exact hh.carry h hm hold hl (by rw [hword])
  | @release l0 hheld hword _ =>
    obtain ⟨hold, hnr⟩ := holds_old hev (by simp) hc
    by_cases hll : l = l0
    · -- the lock word names the caller, which has just given the lock up
      subst hll
      obtain ⟨hlive, -⟩ := hl.back h hm (hh.alloc c l hold)
      obtain ⟨t, ht, hword'⟩ := hh.holder c l hold hlive
      rw [hheld, Option.some.injEq, Prod.mk.injEq] at hword'
      obtain ⟨u, hu, huid⟩ := h.owner_id
      have hco : c = s.cpu.owner := live_id_inj hlive h.owner_live ht hu (by rw [huid, ← hword'.1])
      subst hco
      simp at hnr
    · exact hh.carry h hm hold hl (by rw [hword, update_of_ne hll])
  | @create w hword _ _ =>
    obtain ⟨hold, -⟩ := holds_old hev (by simp) hc
    by_cases hll : l = s.nextObj
    · subst hll
      obtain ⟨hlive, -⟩ := hl.back h hm (hh.alloc c _ hold)
      obtain ⟨t, -, hword'⟩ := hh.holder c _ hold hlive
      simp [lockWord, (h.table.objs s.nextObj le_rfl).1] at hword'
    · exact hh.carry h hm hold hl (by rw [hword, update_of_ne hll])
  | @destroy l0 hfree hword _ =>
    obtain ⟨hold, -⟩ := holds_old hev (by simp) hc
    by_cases hll : l = l0
    · subst hll; exact absurd (hh.free h hm hfree hold hl) id
    · exact hh.carry h hm hold hl (by rw [hword, update_of_ne hll])

theorem step_entering (h : Inv s) (hm : Moves s s' acts evs) (hw : Words s s' evs) :
    ∀ e l, s'.cpu.frames = [.cvAcquire e l] → lockWord s' l = some (threadId s', 1) := by
  intro e l hf
  cases hw with
  | keep _ _ hne => exact absurd hf (hne e l)
  | acquire _ _ _ hnil => rw [hnil] at hf; cases hf
  | reacquire _ hword hown hf' _ =>
    rw [hf'] at hf
    cases hf
    rw [hword, update_self, threadId_keep h hm hown]
  | enter _ _ hnil => rw [hnil] at hf; cases hf
  | release _ _ hne => exact absurd hf (hne e l)
  | create _ _ hne => exact absurd hf (hne e l)
  | destroy _ _ hne => exact absurd hf (hne e l)

theorem step_alloc (h : Inv s) (hh : Held s) (hm : Moves s s' acts evs) (heff : Effect s op acts evs) :
    ∀ c l, holds s'.log c l = true → c < s'.nextPtr := by
  intro c l hc
  rw [hm.log] at hc
  by_cases hna : .acquireReturn c l ∈ evs
  · have hco : c = s.cpu.owner := by
      cases heff with
      | plain _ hmin => cases hmin <;> simp_all
      | exit | kill | wait | busyWait | drop => simp at hna
    rw [hco]; exact h.owner_lt.trans_le hm.nextPtr
  · exact (hh.alloc c l (holds_old heff.events hna hc).1).trans_le hm.nextPtr

theorem step_held (h : Inv s) (hh : Held s) (hk : killSafe s op = true) (hs : step s op = .ok s') : Held s' := by
  obtain ⟨acts, evs, hm, heff, hw⟩ := step_spec h hk hs
  exact ⟨step_alloc h hh hm heff, step_holder h hh hm heff hw, step_entering h hm hw⟩

/-! ## Runs -/

theorem held_init (enabled : Bool) : Held (threadInit enabled) := by
  refine ⟨fun c l hc => ?_, fun c l hc => ?_, fun e l hf => ?_⟩
  · cases hc
  · cases hc
  · cases hf

theorem reachable_held {enabled : Bool} {s : State} (hrun : Run step noKill (threadInit enabled) s) :
    Inv s ∧ Held s := by
  have hstep : ∀ t op t', (Inv t ∧ Held t) → noKill t op = true → step t op = .ok t' → Inv t' ∧ Held t' := by
    rintro t op t' ⟨h, hh⟩ hg hs
    have hk := killSafe_of_noKill hg
    exact ⟨step_inv h hk hs, step_held h hh hk hs⟩
  exact hrun.inv (fun t => Inv t ∧ Held t) hstep ⟨inv_init enabled, held_init enabled⟩

/-- the word of a lock that the running thread holds -/
theorem Held.owner_word (h : Inv s) (hh : Held s) {l : ℕ} (hc : holds s.log s.cpu.owner l = true) :
    lockWord s l = some (threadId s, 1) := by
  obtain ⟨t, ht, hword⟩ := hh.holder _ l hc h.owner_live
  obtain ⟨u, hu, hid⟩ := h.owner_id
  rw [ht, Option.some.injEq] at hu
  subst hu
  rw [hword, hid]

/-- `lock_release` by a thread the lock word does not name returns without a change -/
theorem lockRelease_other (hf : s.cpu.frames = []) {l : ℕ} {k : Lock} (hk : s.locks l = some k)
    (hne : k.thread ≠ threadId s) :
    step s (.lockRelease l) = .ok { s with log := s.log ++ [.releaseCall s.cpu.owner l], ret := none } := by
  have hid : threadId (s.record (.releaseCall s.cpu.owner l)).interruptsOff = threadId s := threadId_congr rfl rfl
  have hat : lockAt (s.record (.releaseCall s.cpu.owner l)).interruptsOff l = .ok k := by
    have : (s.record (.releaseCall s.cpu.owner l)).interruptsOff.locks l = some k := hk
    simp [lockAt, this]
  simp only [step, hf, call, lockRelease, hat, ok_bind, hid]
  rw [if_neg fun hc => hne hc.2.symm]
  rfl

/-- **Mutual exclusion.** In every run without `thread_kill` and for every lock: a live holder's identifier is in the
lock word and the lock is marked acquired; there is at most one live holder; and a `lock_release` by another thread
changes nothing. -/
theorem mutual_exclusion (enabled : Bool) (s : State) (hrun : Run step noKill (threadInit enabled) s) (l : ℕ) (c : Ptr)
    (hc : holds s.log c l = true) (hl : Live s c) :
    (∃ t k, s.heap c = some t ∧ s.locks l = some k ∧ k.acquired = 1 ∧ k.thread = t.id) ∧
      (∀ c', holds s.log c' l = true → Live s c' → c' = c) ∧
      (s.cpu.owner ≠ c → s.cpu.frames = [] →
        step s (.lockRelease l) = .ok { s with log := s.log ++ [.releaseCall s.cpu.owner l], ret := none }) := by
  obtain ⟨h, hh⟩ := reachable_held hrun
  obtain ⟨t, ht, hword⟩ := hh.holder c l hc hl
  simp only [lockWord, Option.map_eq_some_iff, Prod.mk.injEq] at hword
  obtain ⟨k, hk, hthr, hacq⟩ := hword
  refine ⟨⟨t, k, ht, hk, hacq, hthr⟩, fun c' hc' hl' => ?_, fun hne hf => ?_⟩
  · obtain ⟨t', ht', hword'⟩ := hh.holder c' l hc' hl'
    simp only [lockWord, hk, Option.map_some, Option.some.injEq, Prod.mk.injEq] at hword'
    exact live_id_inj hl' hl ht' ht (by rw [← hword'.1, hthr])
  · refine lockRelease_other hf hk fun hid => hne ?_
    obtain ⟨u, hu, huid⟩ := h.owner_id
    exact live_id_inj h.owner_live hl hu ht (by rw [huid, ← hid, hthr])

/-- thread 1 holds the lock and is preempted; the initial thread's `lock_release` changes nothing -/
theorem mutual_exclusion_preempted :
    ∃ s, Run step noKill (threadInit true) s ∧ holds s.log 1 0 = true ∧ s.cpu.owner = 0 ∧
      step s (.lockRelease 0) = .ok { s with log := s.log ++ [.releaseCall s.cpu.owner 0], ret := none } := by
  have h : ∃ s, Run step noKill (threadInit true) s ∧ decide (holds s.log 1 0 = true ∧ stat s 1 = some .ready ∧
      s.cpu.owner = 0 ∧ s.cpu.frames = []) = true :=
    run_of_passes [.create true, .lockCreate 7, .yield 1, .resume, .lockAcquire 0, .preempt, .resume]
      (by decide +kernel)
  obtain ⟨s, hrun, hs⟩ := h
  obtain ⟨hc, hst, hown, hf⟩ := of_decide_eq_true hs
  have hl : Live s 1 := ⟨.ready, hst, by decide⟩
  refine ⟨s, hrun, hc, hown, ?_⟩
  exact (mutual_exclusion true s hrun 0 1 hc hl).2.2 (by rw [hown]; decide) hf

end OsLab.Threads
