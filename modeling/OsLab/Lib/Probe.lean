/-
Linear probing with wrap-around, over an arbitrary type of keys.

A table of `n` slots is a function `t` that gives the key of each occupied slot. A key starts at its home slot and is
searched slot by slot, cyclically, until the key or an empty slot turns up (`probe`). An entry can be reached if no
empty slot lies between its home slot and the slot it is in (`Reach`). Results:
- `probe_eq_some`: what the search finds; `find_total_iff`: it stops for every key exactly if a slot is empty.
- `Distinct.find_iff`: with distinct keys, the search is a map if and only if every entry can be reached.
- `Distinct.emptied`, `Distinct.insert`, `reach_insert`: what emptying slots and storing an absent key keep.
-/
import Mathlib.Tactic

namespace OsLab.Lib

open Function

variable {K : Type} [DecidableEq K]

/-- the slot at distance `d` from slot `h` -/
def slotAt (n h d : ℕ) : ℕ := (h + d) % n

/-- the search for `k` from slot `i`: the first slot that is empty or holds `k`, if one turns up in `fuel` steps -/
def probe (t : ℕ → Option K) (n : ℕ) (k : K) : ℕ → ℕ → Option ℕ
  | 0, _ => none
  | fuel + 1, i =>
    match t i with
    | none => some i
    | some k' => if k' = k then some i else probe t n k fuel ((i + 1) % n)

/-- the search stops at slot `j` -/
def Stops (t : ℕ → Option K) (k : K) (j : ℕ) : Prop := t j = none ∨ t j = some k

theorem slotAt_succ (n i d : ℕ) : slotAt n ((i + 1) % n) d = slotAt n i (d + 1) := by
  simp only [slotAt, Nat.mod_add_mod]
  congr 1; omega

theorem slotAt_zero {n i : ℕ} (hi : i < n) : slotAt n i 0 = i := Nat.mod_eq_of_lt hi

theorem slotAt_mod (n h d : ℕ) : slotAt n (h % n) d = slotAt n h d := by
  simp only [slotAt, Nat.mod_add_mod]

theorem slotAt_lt {n : ℕ} (hn : 0 < n) (h d : ℕ) : slotAt n h d < n := Nat.mod_lt _ hn

/-- distances below `n` from one slot give different slots -/
theorem slotAt_inj {n h d e : ℕ} (hd : d < n) (he : e < n) (heq : slotAt n h d = slotAt n h e) : d = e := by
  have hmod : (h + d) ≡ (h + e) [MOD n] := heq
  have := Nat.ModEq.add_left_cancel' h hmod
  rw [Nat.ModEq, Nat.mod_eq_of_lt hd, Nat.mod_eq_of_lt he] at this
  exact this

/-- how far slot `j` is from slot `h` -/
def dist (n h j : ℕ) : ℕ := (j + (n - h % n)) % n

theorem dist_lt {n : ℕ} (hn : 0 < n) (h j : ℕ) : dist n h j < n := Nat.mod_lt _ hn

theorem slotAt_dist {n j : ℕ} (hj : j < n) (h : ℕ) : slotAt n h (dist n h j) = j := by
  have hlt := Nat.mod_lt h (show 0 < n by omega)
  rw [← slotAt_mod]
  simp only [slotAt, dist, Nat.add_mod_mod]
  rw [show h % n + (j + (n - h % n)) = j + n by omega, Nat.add_mod_right, Nat.mod_eq_of_lt hj]

/-- **What the search finds**: the slot at the least distance where it stops. -/
theorem probe_eq_some {t : ℕ → Option K} {n : ℕ} {k : K} {fuel i j : ℕ} (hi : i < n) :
    probe t n k fuel i = some j ↔
      ∃ d < fuel, slotAt n i d = j ∧ Stops t k j ∧ ∀ e < d, ¬ Stops t k (slotAt n i e) := by
  have hn : 0 < n := by omega
  induction fuel generalizing i with
  | zero => simp [probe]
  | succ fuel ih =>
    by_cases hs : Stops t k i
    · have hp : probe t n k (fuel + 1) i = some i := by
        rcases hs with h | h <;> simp [probe, h]
      rw [hp, Option.some.injEq]
      constructor
      · rintro rfl
        exact ⟨0, by omega, slotAt_zero hi, hs, by simp⟩
      · rintro ⟨d, -, hj, -, hmin⟩
        have hd : d = 0 := by
          by_contra hd
          exact hmin 0 (by omega) (by rw [slotAt_zero hi]; exact hs)
        rw [← hj, hd, slotAt_zero hi]
    · have hp : probe t n k (fuel + 1) i = probe t n k fuel ((i + 1) % n) := by
        simp only [Stops, not_or] at hs
        cases ht : t i with
        | none => exact absurd ht hs.1
        | some k' =>
          have hk : k' ≠ k := by rintro rfl; exact hs.2 ht
          simp [probe, ht, hk]
      have hlt : (i + 1) % n < n := Nat.mod_lt _ hn
      rw [hp]
      refine (ih hlt).trans ?_
      constructor
      · rintro ⟨d, hd, hj, hst, hmin⟩
        refine ⟨d + 1, by omega, by rw [← slotAt_succ]; exact hj, hst, fun e he => ?_⟩
        rcases Nat.eq_zero_or_pos e with rfl | hpos
        · rw [slotAt_zero hi]; exact hs
        · obtain ⟨e', rfl⟩ : ∃ e', e = e' + 1 := ⟨e - 1, by omega⟩
          rw [← slotAt_succ]; exact hmin e' (by omega)
      · rintro ⟨d, hd, hj, hst, hmin⟩
        rcases Nat.eq_zero_or_pos d with rfl | hpos
        · rw [slotAt_zero hi] at hj; subst hj; exact absurd hst hs
        · obtain ⟨d', rfl⟩ : ∃ d', d = d' + 1 := ⟨d - 1, by omega⟩
          refine ⟨d', by omega, by rw [slotAt_succ]; exact hj, hst, fun e he => ?_⟩
          rw [slotAt_succ]; exact hmin (e + 1) (by omega)

/-! ## Tables as maps -/

/-- the entry in slot `i` can be reached from its home slot -/
def Reach (home : K → ℕ) (n : ℕ) (t : ℕ → Option K) (i : ℕ) : Prop :=
  ∀ k, t i = some k → ∃ d < n, slotAt n (home k) d = i ∧ ∀ e < d, t (slotAt n (home k) e) ≠ none

/-- only the first `n` slots are used, and no key twice -/
structure Distinct (n : ℕ) (t : ℕ → Option K) : Prop where
  range : ∀ i k, t i = some k → i < n
  unique : ∀ i j k, t i = some k → t j = some k → i = j

/-- the search for a key from its home slot, around the whole table -/
def find (home : K → ℕ) (n : ℕ) (t : ℕ → Option K) (k : K) : Option ℕ := probe t n k n (home k % n)

variable {home : K → ℕ} {n : ℕ} {t : ℕ → Option K}

theorem find_eq_some {k : K} {j : ℕ} (hn : 0 < n) :
    find home n t k = some j ↔
      ∃ d < n, slotAt n (home k) d = j ∧ Stops t k j ∧ ∀ e < d, ¬ Stops t k (slotAt n (home k) e) := by
  rw [find, probe_eq_some (Nat.mod_lt _ hn)]
  simp only [slotAt_mod]

theorem find_lt {k : K} {j : ℕ} (hn : 0 < n) (hf : find home n t k = some j) : j < n := by
  obtain ⟨d, -, rfl, -⟩ := (find_eq_some hn).1 hf
  exact slotAt_lt hn _ _

theorem find_stops {k : K} {j : ℕ} (hn : 0 < n) (hf : find home n t k = some j) : Stops t k j := by
  obtain ⟨d, -, -, hs, -⟩ := (find_eq_some hn).1 hf
  exact hs

/-- an entry that can be reached and whose key is unique is found -/
theorem find_of_reach {i : ℕ} {k : K} (hn : 0 < n) (hi : t i = some k) (hr : Reach home n t i)
    (hu : ∀ j, t j = some k → j = i) : find home n t k = some i := by
  obtain ⟨d, hd, hj, hpath⟩ := hr k hi
  rw [find_eq_some hn]
  refine ⟨d, hd, hj, Or.inr hi, fun e he hs => ?_⟩
  rcases hs with hs | hs
  · exact hpath e he hs
  · have := hu _ hs
    rw [← hj] at this
    exact absurd (slotAt_inj (by omega) hd this) (by omega)

/-- an entry that is found can be reached -/
theorem reach_of_find {i : ℕ} {k : K} (hn : 0 < n) (hi : t i = some k) (hf : find home n t k = some i) :
    Reach home n t i := by
  intro k' hk'
  rw [hi, Option.some.injEq] at hk'
  subst hk'
  obtain ⟨d, hd, hj, -, hmin⟩ := (find_eq_some hn).1 hf
  exact ⟨d, hd, hj, fun e he hnone => hmin e he (Or.inl hnone)⟩

/-- **When the search is a map**: keys are found exactly if they are present if and only if every entry can be
reached. -/
theorem Distinct.find_iff (h : Distinct n t) (hn : 0 < n) :
    (∀ k, (∃ i, find home n t k = some i ∧ t i = some k) ↔ ∃ i, t i = some k) ↔ ∀ i, Reach home n t i := by
  constructor
  · intro hall i k hi
    obtain ⟨j, hf, hj⟩ := (hall k).2 ⟨i, hi⟩
    have hji := h.unique j i k hj hi
    subst hji
    exact reach_of_find hn hi hf k hi
  · intro hr k
    constructor
    · rintro ⟨i, -, hi⟩
      exact ⟨i, hi⟩
    · rintro ⟨i, hi⟩
      exact ⟨i, find_of_reach hn hi (hr i) fun j hj => h.unique j i k hj hi, hi⟩

/-- with an empty slot the search stops -/
theorem find_isSome {k : K} {j : ℕ} (hj : j < n) (hnone : t j = none) : ∃ i, find home n t k = some i := by
  classical
  have hex : ∃ d, d < n ∧ Stops t k (slotAt n (home k) d) := by
    exact ⟨dist n (home k) j, dist_lt (by omega) _ _, Or.inl (by rw [slotAt_dist hj]; exact hnone)⟩
  obtain ⟨hd, hs⟩ := Nat.find_spec hex
  refine ⟨slotAt n (home k) (Nat.find hex), (find_eq_some (by omega)).2 ⟨_, hd, rfl, hs, fun e he hst => ?_⟩⟩
  exact Nat.find_min hex he ⟨by omega, hst⟩

/-- **When every search stops**: exactly if a slot is empty, where there are more keys than slots. -/
theorem find_total_iff [Infinite K] (hn : 0 < n) : (∀ k, ∃ i, find home n t k = some i) ↔ ∃ i < n, t i = none := by
  constructor
  · intro hall
    by_contra hfull
    push Not at hfull
    choose i hi using hall
    -- every key would be in the slot where its search stops
    have hthere : ∀ k, t (i k) = some k := fun k => (find_stops hn (hi k)).resolve_left (hfull _ (find_lt hn (hi k)))
    have hinj : Injective fun k => (⟨i k, find_lt hn (hi k)⟩ : Fin n) := by
      intro k k' heq
      have hslot : i k = i k' := congrArg Fin.val heq
      exact Option.some.inj ((hthere k).symm.trans ((congrArg t hslot).trans (hthere k')))
    exact not_finite_iff_infinite.2 ‹Infinite K› (Finite.of_injective _ hinj)
  · rintro ⟨j, hj, hnone⟩ k
    exact find_isSome hj hnone

/-! ## Emptying and filling slots -/

/-- the table without the slots `V` -/
def emptied (t : ℕ → Option K) (V : List ℕ) : ℕ → Option K := fun i => if i ∈ V then none else t i

omit [DecidableEq K] in
theorem emptied_eq_some {V : List ℕ} {i : ℕ} {k : K} : emptied t V i = some k ↔ i ∉ V ∧ t i = some k := by
  by_cases hi : i ∈ V <;> simp [emptied, hi]

omit [DecidableEq K] in
theorem emptied_nil : emptied t [] = t := by
  funext i; simp [emptied]

omit [DecidableEq K] in
theorem Distinct.emptied (h : Distinct n t) (V : List ℕ) : Distinct n (emptied t V) where
  range i k hi := h.range i k (emptied_eq_some.1 hi).2
  unique i j k hi hj := h.unique i j k (emptied_eq_some.1 hi).2 (emptied_eq_some.1 hj).2

omit [DecidableEq K] in
theorem update_eq_some {j i : ℕ} {k k' : K} :
    update t j (some k) i = some k' ↔ (i = j ∧ k = k') ∨ (i ≠ j ∧ t i = some k') := by
  by_cases hij : i = j
  · subst hij; simp
  · simp [hij]

omit [DecidableEq K] in
/-- storing an absent key -/
theorem Distinct.insert (h : Distinct n t) {k : K} {j : ℕ} (hj : j < n) (hk : ∀ i, t i ≠ some k) :
    Distinct n (update t j (some k)) where
  range i k' hi := by
    rcases update_eq_some.1 hi with ⟨rfl, -⟩ | ⟨-, hi⟩
    · exact hj
    · exact h.range i k' hi
  unique i i' k' hi hi' := by
    rcases update_eq_some.1 hi with ⟨hij, rfl⟩ | ⟨-, hti⟩
    · rcases update_eq_some.1 hi' with ⟨hij', -⟩ | ⟨-, hti'⟩
      · rw [hij, hij']
      · exact absurd hti' (hk i')
    · rcases update_eq_some.1 hi' with ⟨-, rfl⟩ | ⟨-, hti'⟩
      · exact absurd hti (hk i)
      · exact h.unique i i' k' hti hti'

/-- a key stored where its search stops can be reached -/
theorem reach_insert {k : K} {j : ℕ} (hn : 0 < n) (hf : find home n t k = some j) :
    Reach home n (update t j (some k)) j := by
  intro k' hk'
  rw [update_self, Option.some.injEq] at hk'
  subst hk'
  obtain ⟨d, hd, hj, -, hmin⟩ := (find_eq_some hn).1 hf
  refine ⟨d, hd, hj, fun e he => ?_⟩
  by_cases hij : slotAt n (home k) e = j
  · rw [hij]; simp
  · rw [update_of_ne hij]
    exact fun hnone => hmin e he (Or.inl hnone)

omit [DecidableEq K] in
/-- the path of an entry, given by any distance below `n` that leads to it -/
theorem reach_iff {i d : ℕ} {k : K} (hi : t i = some k) (hd : d < n) (hj : slotAt n (home k) d = i) :
    Reach home n t i ↔ ∀ e < d, t (slotAt n (home k) e) ≠ none := by
  constructor
  · intro hr e he
    obtain ⟨d', hd', hj', hpath⟩ := hr k hi
    have : d' = d := slotAt_inj hd' hd (hj'.trans hj.symm)
    subst this
    exact hpath e he
  · intro hpath k' hk'
    rw [hi, Option.some.injEq] at hk'
    subst hk'
    exact ⟨d, hd, hj, hpath⟩

end OsLab.Lib
