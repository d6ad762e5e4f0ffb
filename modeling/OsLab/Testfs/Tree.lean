/-
The block tree of an inode.

A `Slot` is a place for a block number: the fields of the dinode, the entries of its indirect block and of its double
indirect block, the entries of the second-level blocks. `tree` is what the slots hold, `phys` the block of a logical
block number, `content` the bytes of the file. The lemmas say what a change of one field or of one entry does to the
tree; each of them asks that no block number stands in two slots.
-/
import Mathlib.Tactic
import OsLab.Testfs.Model

namespace OsLab.Testfs

open OsLab.Lib Function

inductive Slot where
  | direct (k : Fin 10)
  | ind
  | dind
  | indE (k : Fin 2048)
  | dindE (k : Fin 2048)
  | leaf (k j : Fin 2048)
deriving DecidableEq, Fintype

/-- entry `k` of the pointer block `p`, 0 if there is no such block -/
def entryOf (blocks : ℤ → Mem) (p : ℤ) (k : ℕ) : ℤ := if p = 0 then 0 else s32At (blocks p) (4 * k)

def tree (blocks : ℤ → Mem) (d : Dinode) : Slot → ℤ
  | .direct k => d.iBlockNr k
  | .ind => d.iIndirect
  | .dind => d.iDindirect
  | .indE k => entryOf blocks d.iIndirect k
  | .dindE k => entryOf blocks d.iDindirect k
  | .leaf k j => entryOf blocks (entryOf blocks d.iDindirect k) j

/-- the slot of a logical block below the maximum -/
def slotOf (b : ℕ) : Slot :=
  if h : b < 10 then .direct ⟨b, h⟩
  else if h : b - 10 < 2048 then .indE ⟨b - 10, h⟩
  else .leaf (Fin.ofNat 2048 ((b - 2058) / 2048)) (Fin.ofNat 2048 ((b - 2058) % 2048))

/-- the block of a logical block number, 0 if nothing is mapped there -/
def phys (blocks : ℤ → Mem) (d : Dinode) (b : ℕ) : ℤ := if b < maxBlockNr then tree blocks d (slotOf b) else 0

/-- what a block number stands for: 0 for a block of zeros -/
def blockAt (blocks : ℤ → Mem) (p : ℤ) : Mem := if p = 0 then zeroMem else blocks p

/-- the byte of the file at an offset -/
def content (blocks : ℤ → Mem) (d : Dinode) (o : ℕ) : UInt8 := blockAt blocks (phys blocks d (o / 8192)) (o % 8192)

/-- the slots that hold pointer blocks -/
def Slot.isPtr : Slot → Prop
  | .ind => True
  | .dind => True
  | .dindE _ => True
  | _ => False

/-- no block number stands in two slots -/
def TreeInj (t : Slot → ℤ) : Prop := ∀ σ τ, t σ ≠ 0 → t σ = t τ → σ = τ

variable {blocks blocks' : ℤ → Mem} {d d' : Dinode} {p : ℤ}

theorem entryOf_zero (k : ℕ) : entryOf blocks 0 k = 0 := if_pos rfl

theorem entryOf_of_ne (hp : p ≠ 0) (k : ℕ) : entryOf blocks p k = s32At (blocks p) (4 * k) := if_neg hp

theorem entryOf_zeroMem (h : blocks p = zeroMem) (k : ℕ) : entryOf blocks p k = 0 := by
  unfold entryOf
  split_ifs
  · rfl
  · rw [h, s32At_zeroMem]

theorem entryOf_congr (h : p ≠ 0 → blocks' p = blocks p) (k : ℕ) : entryOf blocks' p k = entryOf blocks p k := by
  unfold entryOf
  split_ifs with hp
  · rfl
  · rw [h hp]

/-- an entry of a pointer block that was stored to -/
theorem entryOf_put32 {m : Mem} {k : ℕ} {z : ℤ} (hp : p ≠ 0) (hb : blocks p = put32 m (4 * k) z)
    (hz : InInt32 z) (j : ℕ) :
    entryOf blocks p j = if j = k then z else s32At m (4 * j) := by
  rw [entryOf_of_ne hp, hb]
  split_ifs with hj
  · subst hj
    exact s32At_put32_self hz
  · exact s32At_put32_of_disjoint (by omega)

theorem maxBlockNr_eq : maxBlockNr = 4196362 := rfl

theorem slotOf_inj {a b : ℕ} (ha : a < maxBlockNr) (hb : b < maxBlockNr) (h : slotOf a = slotOf b) : a = b := by
  rw [maxBlockNr_eq] at ha hb
  unfold slotOf at h
  split_ifs at h with h1 h2 h3 h4 h5 h6
  · simpa using h
  · simp only [Slot.indE.injEq, Fin.mk.injEq] at h
    omega
  · simp only [Slot.leaf.injEq, Fin.ofNat, Fin.mk.injEq] at h
    omega

theorem slotOf_not_isPtr (b : ℕ) : ¬(slotOf b).isPtr := by
  unfold slotOf
  split_ifs <;> exact id

/-! ## Unchanged trees -/

/-- the dinodes have the same block pointers -/
def SamePtrs (d d' : Dinode) : Prop :=
  d'.iBlockNr = d.iBlockNr ∧ d'.iIndirect = d.iIndirect ∧ d'.iDindirect = d.iDindirect

theorem tree_congr (hd : SamePtrs d d')
    (h : ∀ σ, σ.isPtr → tree blocks d σ ≠ 0 → blocks' (tree blocks d σ) = blocks (tree blocks d σ)) :
    tree blocks' d' = tree blocks d := by
  obtain ⟨h1, h2, h3⟩ := hd
  have hdind : ∀ k : Fin 2048, entryOf blocks' d.iDindirect k = entryOf blocks d.iDindirect k :=
    fun k => entryOf_congr (h .dind trivial) k
  funext σ
  cases σ with
  | direct k => simp [tree, h1]
  | ind => exact h2
  | dind => exact h3
  | indE k => simpa [tree, h2] using entryOf_congr (h .ind trivial) k
  | dindE k => simpa [tree, h3] using hdind k
  | leaf k j => simpa [tree, h3, hdind k] using entryOf_congr (h (.dindE k) trivial) j

theorem phys_congr (h : tree blocks' d' = tree blocks d) (b : ℕ) : phys blocks' d' b = phys blocks d b := by
  unfold phys
  rw [h]

theorem content_congr (h : tree blocks' d' = tree blocks d)
    (hb : ∀ σ, ¬σ.isPtr → tree blocks d σ ≠ 0 → blocks' (tree blocks d σ) = blocks (tree blocks d σ)) (o : ℕ) :
    content blocks' d' o = content blocks d o := by
  unfold content blockAt
  rw [phys_congr h]
  split_ifs with hp
  · rfl
  · unfold phys at hp ⊢
    split_ifs at hp ⊢ with hlt
    · rw [hb _ (slotOf_not_isPtr _) hp]
    · exact absurd rfl hp

theorem tree_zero (hd : SamePtrs Dinode.zero d) (σ : Slot) : tree blocks d σ = 0 := by
  obtain ⟨h1, h2, h3⟩ := hd
  cases σ <;> simp_all [tree, Dinode.zero, entryOf]

/-! ## A change of one slot -/

theorem tree_set_direct (k : Fin 10) :
    tree blocks { d with iBlockNr := update d.iBlockNr k p } = update (tree blocks d) (.direct k) p := by
  funext σ
  cases σ with
  | direct j =>
    by_cases h : j = k
    · subst h; simp [tree]
    · simp [tree, h, update_of_ne]
  | ind => simp [tree]
  | dind => simp [tree]
  | indE j => simp [tree]
  | dindE j => simp [tree]
  | leaf i j => simp [tree]

/-- a fresh indirect block -/
theorem tree_set_ind (h0 : d.iIndirect = 0) (hz : blocks p = zeroMem) :
    tree blocks { d with iIndirect := p } = update (tree blocks d) .ind p := by
  funext σ
  cases σ with
  | ind => simp [tree]
  | indE k => simp [tree, h0, entryOf_zero, entryOf_zeroMem hz]
  | direct k => simp [tree]
  | dind => simp [tree]
  | dindE k => simp [tree]
  | leaf k j => simp [tree]

theorem tree_clear_ind (hz : blocks d.iIndirect = zeroMem) :
    tree blocks { d with iIndirect := 0 } = update (tree blocks d) .ind 0 := by
  funext σ
  cases σ with
  | ind => simp [tree]
  | indE k => simp [tree, entryOf_zero, entryOf_zeroMem hz]
  | direct k => simp [tree]
  | dind => simp [tree]
  | dindE k => simp [tree]
  | leaf k j => simp [tree]

/-- a fresh double indirect block -/
theorem tree_set_dind (h0 : d.iDindirect = 0) (hz : blocks p = zeroMem) :
    tree blocks { d with iDindirect := p } = update (tree blocks d) .dind p := by
  funext σ
  cases σ with
  | dind => simp [tree]
  | dindE k => simp [tree, h0, entryOf_zero, entryOf_zeroMem hz]
  | leaf k j => simp [tree, h0, entryOf_zero, entryOf_zeroMem hz]
  | direct k => simp [tree]
  | ind => simp [tree]
  | indE k => simp [tree]

theorem tree_clear_dind (hz : blocks d.iDindirect = zeroMem) :
    tree blocks { d with iDindirect := 0 } = update (tree blocks d) .dind 0 := by
  funext σ
  cases σ with
  | dind => simp [tree]
  | dindE k => simp [tree, entryOf_zero, entryOf_zeroMem hz]
  | leaf k j => simp [tree, entryOf_zero, entryOf_zeroMem hz]
  | direct k => simp [tree]
  | ind => simp [tree]
  | indE k => simp [tree]

/-- an entry of the indirect block -/
theorem tree_put_indE (hinj : TreeInj (tree blocks d)) (h0 : d.iIndirect ≠ 0) (hp : InInt32 p) (k : Fin 2048) :
    tree (update blocks d.iIndirect (put32 (blocks d.iIndirect) (4 * k) p)) d = update (tree blocks d) (.indE k) p := by
  have hne : ∀ σ, σ ≠ .ind → tree blocks d σ ≠ d.iIndirect := fun σ hσ h => hσ (hinj .ind σ h0 h.symm).symm
  have hD : d.iDindirect ≠ d.iIndirect := hne .dind (by simp)
  have hdindE : ∀ j : Fin 2048, entryOf blocks d.iDindirect j ≠ d.iIndirect := fun j => hne (.dindE j) (by simp)
  have hE : ∀ j, entryOf (update blocks d.iIndirect (put32 (blocks d.iIndirect) (4 * k) p)) d.iDindirect j =
      entryOf blocks d.iDindirect j := fun j => entryOf_congr (fun _ => update_of_ne hD ..) j
  funext σ
  cases σ with
  | direct j => simp [tree]
  | ind => simp [tree]
  | dind => simp [tree]
  | indE j =>
    have h := entryOf_put32 h0 (update_self d.iIndirect (put32 (blocks d.iIndirect) (4 * k) p) blocks) hp j
    by_cases hj : j = k
    · subst hj; simp [tree, h]
    · have hval : (j : ℕ) ≠ k := fun e => hj (Fin.ext e)
      simp [tree, h, hj, hval, update_of_ne, entryOf_of_ne h0]
  | dindE j => simp [tree, hE]
  | leaf i j => simp [tree, hE, entryOf_congr (fun _ => update_of_ne (hdindE i) ..)]

/-- an entry of the double indirect block, for a fresh second-level block -/
theorem tree_put_dindE (hinj : TreeInj (tree blocks d)) (h0 : d.iDindirect ≠ 0) (hp : InInt32 p) (k : Fin 2048)
    (hold : tree blocks d (.dindE k) = 0) (hz : blocks p = zeroMem) (hpD : p ≠ d.iDindirect) :
    tree (update blocks d.iDindirect (put32 (blocks d.iDindirect) (4 * k) p)) d = update (tree blocks d)
    (.dindE k) p := by
  have hne : ∀ σ, σ ≠ .dind → tree blocks d σ ≠ d.iDindirect := fun σ hσ h => hσ (hinj .dind σ h0 h.symm).symm
  have hI : d.iIndirect ≠ d.iDindirect := hne .ind (by simp)
  have hdindE : ∀ j : Fin 2048, entryOf blocks d.iDindirect j ≠ d.iDindirect := fun j => hne (.dindE j) (by simp)
  have hE : ∀ j, entryOf (update blocks d.iDindirect (put32 (blocks d.iDindirect) (4 * k) p)) d.iDindirect j =
      if j = (k : ℕ) then p else entryOf blocks d.iDindirect j := by
    intro j
    rw [entryOf_put32 h0 (update_self ..) hp j, entryOf_of_ne h0]
  funext σ
  cases σ with
  | direct j => simp [tree]
  | ind => simp [tree]
  | dind => simp [tree]
  | indE j => simp [tree, entryOf_congr (fun _ => update_of_ne hI ..)]
  | dindE j =>
    by_cases hj : j = k
    · subst hj; simp [tree, hE]
    · have hval : (j : ℕ) ≠ k := fun e => hj (Fin.ext e)
      simp [tree, hE, hj, hval, update_of_ne]
  | leaf i j =>
    by_cases hi : i = k
    · subst hi
      have hold' : entryOf blocks d.iDindirect i = 0 := hold
      have hz' : update blocks d.iDindirect (put32 (blocks d.iDindirect) (4 * i) p) p = zeroMem := by
        rw [update_of_ne hpD, hz]
      simp [tree, hE, hold', entryOf_zero, entryOf_zeroMem hz']
    · have hval : (i : ℕ) ≠ k := fun e => hi (Fin.ext e)
      simp [tree, hE, hval, entryOf_congr (fun _ => update_of_ne (hdindE i) ..)]

/-- an entry of a second-level block -/
theorem tree_put_leaf (hinj : TreeInj (tree blocks d)) (hp : InInt32 p) (k j : Fin 2048) {q : ℤ}
    (hq : tree blocks d (.dindE k) = q) (h0 : q ≠ 0) :
    tree (update blocks q (put32 (blocks q) (4 * j) p)) d = update (tree blocks d) (.leaf k j) p := by
  have hne : ∀ σ, σ ≠ .dindE k → tree blocks d σ ≠ q := fun σ hσ h =>
    hσ (hinj (.dindE k) σ (by rw [hq]; exact h0) (by rw [hq, h])).symm
  have hI : d.iIndirect ≠ q := hne .ind (by simp)
  have hD : d.iDindirect ≠ q := hne .dind (by simp)
  have hE : ∀ i, entryOf (update blocks q (put32 (blocks q) (4 * j) p)) d.iDindirect i =
    entryOf blocks d.iDindirect i :=
    fun i => entryOf_congr (fun _ => update_of_ne hD ..) i
  have hk : entryOf blocks d.iDindirect k = q := hq
  funext σ
  cases σ with
  | direct i => simp [tree]
  | ind => simp [tree]
  | dind => simp [tree]
  | indE i => simp [tree, entryOf_congr (fun _ => update_of_ne hI ..)]
  | dindE i => simp [tree, hE]
  | leaf i i' =>
    by_cases hi : i = k
    · subst hi
      have h := entryOf_put32 h0 (update_self q (put32 (blocks q) (4 * j) p) blocks) hp i'
      by_cases hj : i' = j
      · subst hj; simp [tree, hE, hk, h]
      · have hval : (i' : ℕ) ≠ j := fun e => hj (Fin.ext e)
        simp [tree, hE, hk, h, hj, hval, update_of_ne, entryOf_of_ne h0]
    · have hentry : entryOf blocks d.iDindirect i ≠ q := hne (.dindE i) (by simpa using hi)
      simp [tree, hE, hi, update_of_ne, entryOf_congr (fun _ => update_of_ne hentry ..)]

end OsLab.Testfs
