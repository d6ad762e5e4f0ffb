/-
Taking turns: a ready list that is served in order lets nobody be overtaken.

`Turn s s'` is what a dispatcher may do to the processor and to the ready list as long as it takes the first ready
thread: the running thread goes on (`Stays`), or the first thread runs (`Takes`); either way threads may become ready.
The position of a thread that stays ready does not grow, and each `Takes` makes it smaller by one (`Stays.idxOf`,
`Takes.idxOf`).

`Tally` is a run along which a property holds, with what its steps cost. A rank that pays for every step bounds the cost
of the run (`Tally.bound`).
-/
import OsLab.Lib.Run
import OsLab.Lib.Sched

namespace OsLab.Lib

/-! ## Runs with a cost -/

section

variable {S O E : Type} {step : S → O → Except E S} {good : S → O → Bool} {P : S → Prop}
  {cost : S → O → S → ℕ} {s t u : S} {k : ℕ}

/-- `P` holds in every state of the run, and the steps cost `k` -/
inductive Tally (step : S → O → Except E S) (good : S → O → Bool) (P : S → Prop) (cost : S → O → S → ℕ) (s : S) :
    S → ℕ → Prop
  | refl : P s → Tally step good P cost s s 0
  | tail {t u : S} {k : ℕ} (o : O) : Tally step good P cost s t k → good t o = true → step t o = .ok u → P u →
      Tally step good P cost s u (k + cost t o u)

theorem Tally.run (h : Tally step good P cost s t k) : Run step good s t := by
  induction h with
  | refl => exact .refl s
  | tail o _ hg ho _ ih => exact ih.tail o hg ho

theorem Tally.start (h : Tally step good P cost s t k) : P s := by
  induction h with
  | refl hp => exact hp
  | tail _ _ _ _ _ ih => exact ih

theorem Tally.last (h : Tally step good P cost s t k) : P t := by
  cases h with
  | refl hp => exact hp
  | tail _ _ _ _ hp => exact hp

/-- a rank that falls by what a step costs -/
theorem Tally.bound {I : S → Prop} (rank : S → ℕ) (h : Tally step good P cost s t k) (hs : I s)
    (hinv : ∀ s o t, I s → good s o = true → step s o = .ok t → I t)
    (hstep : ∀ s o t, I s → P s → P t → good s o = true → step s o = .ok t → cost s o t + rank t ≤ rank s) :
    k + rank t ≤ rank s := by
  induction h with
  | refl => exact (zero_add _).le
  | @tail t u k o htally hg ho hp ih =>
    have hpay := hstep t o u (htally.run.inv I hinv hs) htally.last hp hg ho
    omega

/-- a run that passes, with its cost -/
def tallies (step : S → O → Except E S) (good : S → O → Bool) (holds : S → Bool) (cost : S → O → S → ℕ)
    (final : S → ℕ → Bool) (s : S) (k : ℕ) : List O → Bool
  | [] => final s k
  | o :: ops => good s o && after (step s o) fun t =>
    holds t && tallies step good holds cost final t (k + cost s o t) ops

theorem tally_of_tallies {holds : S → Bool} {final : S → ℕ → Bool} (ops : List O)
    (hs : Tally step good (fun s => holds s = true) cost s t k)
    (h : tallies step good holds cost final t k ops = true) :
    ∃ u n, Tally step good (fun s => holds s = true) cost s u n ∧ final u n = true := by
  induction ops generalizing t k with
  | nil => exact ⟨t, k, hs, h⟩
  | cons o ops ih =>
    obtain ⟨hg, h⟩ := Bool.and_eq_true_iff.1 h
    obtain ⟨u, ho, h⟩ := exists_of_after h
    obtain ⟨hu, h⟩ := Bool.and_eq_true_iff.1 h
    exact ih (hs.tail o hg ho hu) h

end

/-! ## Turns -/

namespace Sched

section

variable {T Q : Type} {s t u : Sched T Q} {x p : T} {rest l : List T}

/-- the running thread goes on; threads may become ready -/
def Stays (s s' : Sched T Q) : Prop := s'.cur = s.cur ∧ ∃ l, s'.ready = s.ready ++ l

/-- the first ready thread runs; threads may become ready before that and after it -/
def Takes (s s' : Sched T Q) : Prop := ∃ l rest l', s.ready ++ l = s'.cur :: rest ∧ s'.ready = rest ++ l'

def Turn (s s' : Sched T Q) : Prop := Stays s s' ∨ Takes s s'

theorem Stays.refl (s : Sched T Q) : Stays s s := ⟨rfl, [], (List.append_nil _).symm⟩

theorem Stays.trans (h : Stays s t) (h' : Stays t u) : Stays s u := by
  obtain ⟨hcur, l, hl⟩ := h
  obtain ⟨hcur', l', hl'⟩ := h'
  exact ⟨hcur'.trans hcur, l ++ l', by rw [hl', hl, List.append_assoc]⟩

theorem Stays.takes (h : Stays s t) (h' : Takes t u) : Takes s u := by
  obtain ⟨-, l, hl⟩ := h
  obtain ⟨m, rest, m', hhead, hready⟩ := h'
  exact ⟨l ++ m, rest, m', by rw [← hhead, hl, List.append_assoc], hready⟩

theorem Stays.turn (h : Stays s t) (h' : Turn t u) : Turn s u := h'.imp h.trans h.takes

theorem takes_of_head (h : s.ready = t.cur :: rest) (h' : t.ready = rest ++ l) : Takes s t :=
  ⟨[], rest, l, by rw [List.append_nil, h], h'⟩

variable [DecidableEq T]

theorem Stays.idxOf (h : Stays s t) (hp : p ∈ s.ready) : p ∈ t.ready ∧ t.ready.idxOf p = s.ready.idxOf p := by
  obtain ⟨-, l, hl⟩ := h
  rw [hl]
  exact ⟨List.mem_append_left _ hp, List.idxOf_append_of_mem hp⟩

/-- who is not the one that runs moves up -/
theorem Takes.idxOf (h : Takes s t) (hp : p ∈ s.ready) :
    p = t.cur ∨ (p ∈ t.ready ∧ t.ready.idxOf p + 1 = s.ready.idxOf p) := by
  obtain ⟨l, rest, l', hhead, hready⟩ := h
  by_cases hcur : p = t.cur
  · exact Or.inl hcur
  · right
    have hmem : p ∈ t.cur :: rest := hhead ▸ List.mem_append_left l hp
    have hrest := (List.mem_cons.1 hmem).resolve_left hcur
    have hidx : s.ready.idxOf p = rest.idxOf p + 1 := by
      calc s.ready.idxOf p = (s.ready ++ l).idxOf p := (List.idxOf_append_of_mem hp).symm
        _ = (t.cur :: rest).idxOf p := by rw [hhead]
        _ = rest.idxOf p + 1 := List.idxOf_cons_ne _ (Ne.symm hcur)
    rw [hready]
    exact ⟨List.mem_append_left _ hrest, by rw [List.idxOf_append_of_mem hrest, hidx]⟩

/-- who is not taken out does not move back -/
theorem idxOf_erase_le {l : List T} (hp : p ∈ l) (hne : p ≠ x) : p ∈ l.erase x ∧ (l.erase x).idxOf p ≤ l.idxOf p := by
  refine ⟨(List.mem_erase_of_ne hne).2 hp, ?_⟩
  induction l with
  | nil => exact le_rfl
  | cons y l ih =>
    by_cases hyx : y = x
    · subst hyx
      rw [List.erase_cons_head, List.idxOf_cons_ne _ (Ne.symm hne)]
      exact Nat.le_succ _
    · rw [List.erase_cons_tail (by simpa using hyx)]
      by_cases hyp : y = p
      · subst hyp
        rw [List.idxOf_cons_self]
        exact Nat.zero_le _
      · rw [List.idxOf_cons_ne _ hyp, List.idxOf_cons_ne _ hyp]
        exact Nat.succ_le_succ (ih ((List.mem_cons.1 hp).resolve_left (Ne.symm hyp)))

/-! ## Actions -/

variable [DecidableEq Q] {own : T → Q}

/-- the parts of a trace -/
theorem Trace.split {a b : List (Act T Q)} (h : Trace own s (a ++ b) t) : ∃ u, Trace own s a u ∧ Trace own u b t := by
  induction a generalizing s with
  | nil => exact ⟨s, .nil s, h⟩
  | cons _ _ ih =>
    cases h with
    | cons _ ha h =>
      obtain ⟨u, h1, h2⟩ := ih h
      exact ⟨u, .cons _ ha h1, h2⟩

/-- the first ready thread is switched to, and the running one waits -/
theorem takes_block (q : Q) (h : s.ready = x :: rest) : Takes s (s.apply (.block q x)) :=
  takes_of_head (l := []) h (by simp [Sched.apply, h])

end

end Sched

end OsLab.Lib
