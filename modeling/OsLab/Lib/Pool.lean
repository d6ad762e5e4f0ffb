/-
A pool of resources held in slots.

`Exact p A`: the members of `A` are held in the slots of `p` (0 is an empty slot), each in exactly one. A resource that
comes from outside the pool is put into an empty slot (`Exact.take`), the resources of some slots leave the pool
(`Exact.clear`, `Exact.drop`). `held` counts the slots in use.
-/
import Mathlib.Tactic

namespace OsLab.Lib

open Function

variable {κ β : Type} [Zero β]

/-- every member of `A` is in exactly one slot, and the slots hold nothing else -/
structure Exact (p : κ → β) (A : β → Prop) : Prop where
  inj : ∀ k l, p k ≠ 0 → p k = p l → k = l
  mem : ∀ k, p k ≠ 0 → A (p k)
  owner : ∀ b, A b → ∃ k, p k = b
  proper : ¬A 0

namespace Exact

variable {p q : κ → β} {A B : β → Prop} {k : κ} {b : β}

theorem congr (h : Exact p A) (hp : ∀ k, q k = p k) (hA : ∀ x, B x ↔ A x) : Exact q B := by
  obtain rfl : q = p := funext hp
  obtain rfl : B = A := funext fun x => propext (hA x)
  exact h

theorem take [DecidableEq κ] (h : Exact p A) (hk : p k = 0) (hb : ¬A b) (h0 : b ≠ 0) :
    Exact (update p k b) fun x => A x ∨ x = b where
  inj := by
    intro i j hi hij
    by_cases hik : i = k <;> by_cases hjk : j = k
    · rw [hik, hjk]
    · subst hik
      rw [update_self, update_of_ne hjk] at hij
      exact absurd (hij ▸ h.mem j (by rw [← hij]; exact h0)) hb
    · subst hjk
      rw [update_self, update_of_ne hik] at hij
      exact absurd (hij ▸ h.mem i (by rw [hij]; exact h0)) hb
    · rw [update_of_ne hik] at hi hij
      rw [update_of_ne hjk] at hij
      exact h.inj i j hi hij
  mem := by
    intro i hi
    by_cases hik : i = k
    · subst hik
      exact Or.inr (update_self ..)
    · rw [update_of_ne hik] at hi ⊢
      exact Or.inl (h.mem i hi)
  owner := by
    rintro x (hx | rfl)
    · obtain ⟨i, rfl⟩ := h.owner x hx
      refine ⟨i, update_of_ne ?_ ..⟩
      rintro rfl
      exact h.proper (hk ▸ hx)
    · exact ⟨k, update_self ..⟩
  proper := by
    rintro (h' | h')
    · exact h.proper h'
    · exact h0 h'.symm

/-- the slots in `S` are emptied -/
theorem clear (h : Exact p A) (S : κ → Prop) [DecidablePred S] :
    Exact (fun k => if S k then 0 else p k) fun x => A x ∧ ∀ k, S k → p k ≠ x where
  inj := by
    intro i j hi hij
    by_cases hSi : S i
    · exact absurd (if_pos hSi) hi
    · by_cases hSj : S j
      · rw [if_pos hSj] at hij
        exact absurd hij hi
      · rw [if_neg hSi] at hi hij
        rw [if_neg hSj] at hij
        exact h.inj i j hi hij
  mem := by
    intro i hi
    by_cases hSi : S i
    · exact absurd (if_pos hSi) hi
    · simp only [if_neg hSi] at hi ⊢
      exact ⟨h.mem i hi, fun j hj hji => hSi (h.inj i j hi hji.symm ▸ hj)⟩
  owner := by
    rintro x ⟨hx, hout⟩
    obtain ⟨i, rfl⟩ := h.owner x hx
    exact ⟨i, if_neg fun hSi => hout i hSi rfl⟩
  proper := fun h' => h.proper h'.1

theorem drop [DecidableEq κ] (h : Exact p A) (hk : p k = b) : Exact (update p k 0) fun x => A x ∧ x ≠ b := by
  refine (h.clear fun i => i = k).congr (fun i => ?_) fun x => ?_
  · by_cases hi : i = k
    · simp [hi]
    · simp [hi, update_of_ne]
  · constructor
    · rintro ⟨hx, hne⟩
      refine ⟨hx, ?_⟩
      rintro i rfl hi
      exact hne (hi ▸ hk)
    · rintro ⟨hx, hne⟩
      exact ⟨hx, fun hxb => hne k rfl (hk.trans hxb.symm)⟩

end Exact

/-! ## Counting -/

section Count

variable {σ : Type} [Fintype σ] [DecidableEq β]

/-- the number of slots in use -/
def held (p : σ → β) : ℕ := (Finset.univ.filter fun k => p k ≠ 0).card

variable {p q : σ → β} {k : σ} {b : β}

theorem held_eq_zero (h : ∀ k, p k = 0) : held p = 0 := by simp [held, h]

theorem held_take [DecidableEq σ] (hk : p k = 0) (hb : b ≠ 0) : held (update p k b) = held p + 1 := by
  have hset : (Finset.univ.filter fun i => update p k b i ≠ 0) = insert k (Finset.univ.filter fun i => p i ≠ 0) := by
    ext i
    by_cases hi : i = k
    · subst hi; simp [hb]
    · simp [hi, update_of_ne]
  rw [held, hset, Finset.card_insert_of_notMem (by simp [hk]), held]

theorem held_drop [DecidableEq σ] (hk : p k ≠ 0) : held (update p k 0) + 1 = held p := by
  have h := held_take (p := update p k 0) (k := k) (b := p k) (update_self ..) hk
  rw [update_idem, update_eq_self] at h
  exact h.symm

/-- the slots that were filled -/
theorem held_grow [DecidableEq σ] (hmono : ∀ k, p k ≠ 0 → q k ≠ 0) :
    held q = held p + (Finset.univ.filter fun k => p k = 0 ∧ q k ≠ 0).card := by
  have hsplit : (Finset.univ.filter fun k => q k ≠ 0) =
      (Finset.univ.filter fun k => p k ≠ 0) ∪ Finset.univ.filter fun k => p k = 0 ∧ q k ≠ 0 := by
    ext k
    simp only [Finset.mem_filter, Finset.mem_univ, true_and, Finset.mem_union]
    constructor
    · intro hq
      by_cases hp : p k = 0
      · exact Or.inr ⟨hp, hq⟩
      · exact Or.inl hp
    · rintro (hp | ⟨-, hq⟩)
      · exact hmono k hp
      · exact hq
  rw [held, hsplit, Finset.card_union_of_disjoint, held]
  rw [Finset.disjoint_left]
  intro k h1 h2
  exact (Finset.mem_filter.1 h1).2 (Finset.mem_filter.1 h2).2.1

/-- where the slots belong to owners, the resources are as many as the slots in use of all owners -/
theorem Exact.card_eq_sum {ι : Type} {p : ι × σ → β} {A : β → Prop} {B : Finset β} {I : Finset ι} (h : Exact p A)
    (hB : ∀ b, b ∈ B ↔ A b) (hI : ∀ k, p k ≠ 0 → k.1 ∈ I) : B.card = ∑ i ∈ I, held fun k => p (i, k) := by
  classical
  set S : Finset (Σ _ : ι, σ) := I.sigma fun i => Finset.univ.filter fun k => p (i, k) ≠ 0 with hS
  have hmem : ∀ x : Σ _ : ι, σ, x ∈ S ↔ p (x.1, x.2) ≠ 0 := by
    intro x
    simp only [hS, Finset.mem_sigma, Finset.mem_filter, Finset.mem_univ, true_and]
    exact ⟨And.right, fun hx => ⟨hI _ hx, hx⟩⟩
  have himage : B = S.image fun x => p (x.1, x.2) := by
    ext b
    rw [hB, Finset.mem_image]
    constructor
    · intro hb
      obtain ⟨k, rfl⟩ := h.owner b hb
      exact ⟨⟨k.1, k.2⟩, (hmem _).2 fun hc => h.proper (hc ▸ hb), rfl⟩
    · intro hb
      obtain ⟨x, hx, rfl⟩ := hb
      exact h.mem _ ((hmem x).1 hx)
  have hinj : Set.InjOn (fun x : Σ _ : ι, σ => p (x.1, x.2)) S := by
    intro x hx y _ heq
    have hxy := h.inj _ _ ((hmem x).1 hx) heq
    exact Sigma.ext (congrArg Prod.fst hxy) (heq_of_eq (congrArg Prod.snd hxy))
  calc B.card = S.card := by rw [himage, Finset.card_image_of_injOn hinj]
    _ = ∑ i ∈ I, held fun k => p (i, k) := Finset.card_sigma _ _

/-- the slots in use are not more than the resources in `A` they hold -/
theorem held_le_card {γ : Type} {A : Finset γ} (f : σ → γ) (hf : ∀ k, p k ≠ 0 → f k ∈ A)
    (hinj : ∀ k l, p k ≠ 0 → p l ≠ 0 → f k = f l → k = l) : held p ≤ A.card := by
  refine Finset.card_le_card_of_injOn f ?_ ?_
  · intro k hk
    exact hf k (by simpa using hk)
  · intro k hk l hl heq
    exact hinj k l (by simpa using hk) (by simpa using hl) heq

/-- a list of different resources, as many as there are slots in use and each in a slot, names every resource held -/
theorem mem_of_length_eq_held {l : List β} (hl : l.Nodup) (hmem : ∀ b ∈ l, b ≠ 0 ∧ ∃ k, p k = b)
    (hlen : held p ≤ l.length) (hk : p k ≠ 0) : p k ∈ l := by
  have hsub : l.toFinset ⊆ (Finset.univ.filter fun k => p k ≠ 0).image p := by
    intro b hb
    obtain ⟨h0, i, rfl⟩ := hmem b (List.mem_toFinset.1 hb)
    exact Finset.mem_image.2 ⟨i, by simp [h0], rfl⟩
  have hcard : ((Finset.univ.filter fun k => p k ≠ 0).image p).card ≤ l.toFinset.card := by
    rw [List.toFinset_card_of_nodup hl]
    exact Finset.card_image_le.trans hlen
  have heq := Finset.eq_of_subset_of_card_le hsub hcard
  rw [← List.mem_toFinset, heq]
  exact Finset.mem_image.2 ⟨k, by simp [hk], rfl⟩

end Count

end OsLab.Lib
