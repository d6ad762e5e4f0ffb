/-
`testfs_write_data` on the contents of a file.

`content n` is the file of inode `n` as an array of bytes. A write goes block by block: each block is placed and stored
to (`Placed.store`), and the blocks together are one copy into the contents (`Wrote`). `writeLoop_spec` says how a write
ends: with all its bytes in the file (`Finished`), or at the first block that is past the maximum or that there is no
space for, with the bytes in front of that block in the file (`Broken`).
-/
import Mathlib.Tactic
import OsLab.Testfs.Alloc

namespace OsLab.Testfs

open OsLab.Lib Function State

/-- the byte of inode `n` at an offset -/
def State.content (s : State) (n : ℤ) : Lib.Mem := Testfs.content s.dev.blocks (s.dinode n)

variable {s s' s'' : State} {n m b r : ℤ} {F : Finset ℤ} {i i' i'' : Inode} {σ τ : Slot}

/-- the block of a file at a logical number -/
def State.phys (s : State) (n : ℤ) (b : ℕ) : ℤ := if b < maxBlockNr then s.tree n (slotOf b) else 0

theorem content_eq (s : State) (n : ℤ) (o : ℕ) :
    s.content n o = blockAt s.dev.blocks (s.phys n (o / 8192)) (o % 8192) := rfl

/-- files with the same tree and the same data blocks -/
theorem content_eq_of_tree (ht : s'.tree n = s.tree n)
    (hb : ∀ σ, ¬σ.isPtr → s.tree n σ ≠ 0 → s'.dev.blocks (s.tree n σ) = s.dev.blocks (s.tree n σ)) :
    s'.content n = s.content n :=
  funext fun o => content_congr ht hb o

/-! ## What a write to a file leaves alone -/

/-- inode `n` got blocks or data; the other files are as before -/
structure Grew (s s' : State) (n : ℤ) (i i' : Inode) : Prop where
  touch : Touch s s' n i i'
  core : Core s' n ∅
  inside : Inside s' fun _ => False
  mono : ∀ σ, s.tree n σ ≠ 0 → s'.tree n σ = s.tree n σ
  other : ∀ m, s.alloc m → m ≠ n → s'.tree m = s.tree m
  others : ∀ m, s.alloc m → m ≠ n → s'.content m = s.content m
  log : Logs (Own s n) s s'

theorem Grew.refl (h : Core s n ∅) (hins : Inside s fun _ => False) (hi : s.find n = some i) : Grew s s n i i where
  touch := Touch.refl hi
  core := h
  inside := hins
  mono := fun _ _ => rfl
  other := fun _ _ _ => rfl
  others := fun _ _ _ => rfl
  log := Logs.of_eq rfl

theorem Grew.trans (h : Grew s s' n i i') (h' : Grew s' s'' n i' i'') : Grew s s'' n i i'' where
  touch := h.touch.trans h'.touch
  core := h'.core
  inside := h'.inside
  mono := fun σ hσ => by
    have h1 := h.mono σ hσ
    rw [h'.mono σ (by rw [h1]; exact hσ), h1]
  other := fun m hm hmn => (h'.other m (h.touch.alloc.2 hm) hmn).trans (h.other m hm hmn)
  others := fun m hm hmn => (h'.others m (h.touch.alloc.2 hm) hmn).trans (h.others m hm hmn)
  log := h.log.trans (h'.log.mono fun _ hx => (own_iff h.touch.frame h.other).1 hx)

/-- contents of the other files after an allocation -/
theorem Keeps.others (h : Keeps s s' n) (hm : s.alloc m) (hmn : m ≠ n) : s'.content m = s.content m :=
  content_eq_of_tree (h.other m hm hmn) fun σ _ h0 => h.kept m σ hm h0 fun hc => hmn hc.1

/-- a failed allocation leaves the file as it is -/
theorem Failed.grew (h : Failed s s' n i i' σ) (hins : Inside s fun _ => False) (hn : s.alloc n) :
    Grew s s' n i i' where
  touch := h.touch
  core := h.core
  inside := fun m τ hm hd _ h0 => by
    have hm' := h.touch.alloc.1 hm
    have heq : s'.tree m τ = s.tree m τ := by
      by_cases hmn : m = n
      · subst hmn
        by_contra hne
        exact hd (h.leak τ hne).1
      · rw [h.keeps.other m hm' hmn]
    rw [heq] at h0 ⊢
    exact (hins m τ hm' hd id h0).trans_le h.touch.frame.grows
  mono := h.keeps.mono
  other := h.keeps.other
  others := fun _ hm hmn => h.keeps.others hm hmn
  log := h.keeps.log

theorem Failed.content (h : Failed s s' n i i' σ) (hn : s.alloc n) : s'.content n = s.content n := by
  have hslot : ∀ τ, ¬τ.isPtr → s'.tree n τ = s.tree n τ := fun τ hτ => by
    by_contra hne
    rw [(h.leak τ hne).1] at hτ
    exact hτ trivial
  funext o
  have hphys : s'.phys n (o / 8192) = s.phys n (o / 8192) := by
    unfold State.phys
    rw [hslot _ (slotOf_not_isPtr _)]
  rw [content_eq, content_eq, hphys, blockAt, blockAt]
  split_ifs with h0
  · rfl
  · unfold State.phys at h0 ⊢
    split_ifs at h0 ⊢ with hlt
    · rw [h.keeps.kept n _ hn h0 fun hc => slotOf_not_isPtr _ hc.2]
    · exact absurd rfl h0

/-! ## One block -/

/-- logical block `b` of inode `n` has a block, and the way to it lies inside the device -/
def Mapped (s : State) (n : ℤ) (b : ℕ) : Prop := ∀ τ ∈ path (slotOf b), s.tree n τ ≠ 0 ∧ s.tree n τ < s.dev.nblocks

theorem Mapped.mono {b : ℕ} (h : Mapped s n b) (hmono : ∀ σ, s.tree n σ ≠ 0 → s'.tree n σ = s.tree n σ)
    (hgrows : s.dev.nblocks ≤ s'.dev.nblocks) : Mapped s' n b := by
  intro τ hτ
  obtain ⟨h1, h2⟩ := h τ hτ
  rw [hmono τ h1]
  exact ⟨h1, h2.trans_le hgrows⟩

/-- the blocks in `B` are mapped, and the file has the bytes `c` -/
structure Wrote (s s' : State) (n : ℤ) (i i' : Inode) (B : ℕ → Prop) (c : Lib.Mem) : Prop where
  grew : Grew s s' n i i'
  size : i'.dinode.iSize = i.dinode.iSize
  way : ∀ τ, s'.tree n τ ≠ s.tree n τ → ∃ b, B b ∧ τ ∈ path (slotOf b)
  full : ∀ b, B b → Mapped s' n b
  content : s'.content n = c
  below : ∀ b, B b → b < maxBlockNr
  same : (∀ b, B b → s.tree n (slotOf b) ≠ 0) → i' = i

theorem Wrote.refl (h : Core s n ∅) (hins : Inside s fun _ => False) (hi : s.find n = some i) :
    Wrote s s n i i (fun _ => False) (s.content n) where
  grew := Grew.refl h hins hi
  size := rfl
  way := fun _ hτ => absurd rfl hτ
  full := fun _ hb => absurd hb id
  content := rfl
  below := fun _ hb => absurd hb id
  same := fun _ => rfl

theorem Wrote.trans {B B' : ℕ → Prop} {c c' : Lib.Mem} (h : Wrote s s' n i i' B c) (h' : Wrote s' s'' n i' i'' B' c') :
    Wrote s s'' n i i'' (fun b => B b ∨ B' b) c' where
  grew := h.grew.trans h'.grew
  size := h'.size.trans h.size
  way := fun τ hτ => by
    by_cases h1 : s'.tree n τ = s.tree n τ
    · obtain ⟨b, hb, hmem⟩ := h'.way τ (by rw [h1]; exact hτ)
      exact ⟨b, Or.inr hb, hmem⟩
    · obtain ⟨b, hb, hmem⟩ := h.way τ h1
      exact ⟨b, Or.inl hb, hmem⟩
  full := fun b hb => by
    rcases hb with hb | hb
    · exact (h.full b hb).mono h'.grew.mono h'.grew.touch.frame.grows
    · exact h'.full b hb
  content := h'.content
  below := fun b hb => hb.elim (h.below b) (h'.below b)
  same := fun hall => by
    rw [h'.same fun b hb => ?_, h.same fun b hb => hall b (Or.inl hb)]
    have hne := hall b (Or.inr hb)
    rw [h.grew.mono _ hne]
    exact hne

theorem Wrote.congr {B B' : ℕ → Prop} {c c' : Lib.Mem} (h : Wrote s s' n i i' B c)
    (hB : ∀ b, B b ↔ B' b) (hc : c = c') :
    Wrote s s' n i i' B' c' := by
  obtain rfl : B = B' := funext fun b => propext (hB b)
  obtain rfl := hc
  exact h

/-- the only data slot on the way to a block is its own -/
theorem eq_of_mem_path (hτ : τ ∈ path σ) (hptr : ¬τ.isPtr) : τ = σ := by
  cases σ <;> simp [path] at hτ
  case direct k => exact hτ
  case ind => exact hτ
  case dind => exact hτ
  case dindE k => exact hτ
  case indE k =>
    rcases hτ with rfl | rfl
    · exact absurd trivial hptr
    · rfl
  case leaf k j =>
    rcases hτ with rfl | rfl | rfl
    · exact absurd trivial hptr
    · exact absurd trivial hptr
    · rfl

/-- logical block `k` is placed (`s'`), and the block it has is written (`s''`) -/
structure Patched (s s' s'' : State) (n : ℤ) (i i' : Inode) (k : ℕ) (r : ℤ) (block : Lib.Mem) : Prop where
  placed : Placed s s' n i i' (slotOf k) r
  core : Core s n ∅
  was : s.alloc n
  inside : Inside s fun _ => False
  below : k < maxBlockNr
  after : s'' = { s' with dev := s'.dev.write r block }

namespace Patched

variable {k : ℕ} {block : Lib.Mem}

theorem still_alloc (h : Patched s s' s'' n i i' k r block) : s'.alloc n := h.placed.touch.alloc.2 h.was

theorem ne_zero (h : Patched s s' s'' n i i' k r block) : r ≠ 0 := by
  have hpos := h.placed.pos
  omega

/-- a data block is written, so the pointers stay -/
theorem core_trees (h : Patched s s' s'' n i i' k r block) :
    Core s'' n ∅ ∧ ∀ m, s'.alloc m → s''.tree m = s'.tree m := by
  rw [h.after]
  exact h.placed.core.store h.still_alloc h.placed.touch.new h.placed.target h.ne_zero (slotOf_not_isPtr k)

theorem self (h : Patched s s' s'' n i i' k r block) : s''.tree n = s'.tree n := h.core_trees.2 n h.still_alloc

theorem other (h : Patched s s' s'' n i i' k r block) (hm : s.alloc m) (hmn : m ≠ n) : s''.tree m = s.tree m := by
  rw [h.core_trees.2 m (h.placed.touch.alloc.2 hm), h.placed.keeps.other m hm hmn]

theorem touch (h : Patched s s' s'' n i i' k r block) : Touch s' s'' n i' i' := by
  have hr146 : 146 ≤ r := by
    rw [← h.placed.target]
    exact h.placed.core.acc.pos_of_tree h.still_alloc (by rw [h.placed.target]; exact h.ne_zero)
  rw [h.after]
  exact touch_write h.placed.touch.new hr146

theorem nblocks (h : Patched s s' s'' n i i' k r block) : s'.dev.nblocks ≤ s''.dev.nblocks ∧ r < s''.dev.nblocks := by
  rw [h.after]
  exact ⟨le_max_left .., Int.lt_iff_add_one_le.2 (le_max_right ..)⟩

theorem written (h : Patched s s' s'' n i i' k r block) : s''.dev.blocks r = block := by
  rw [h.after]
  exact update_self ..

/-- blocks in other slots are left alone -/
theorem kept (h : Patched s s' s'' n i i' k r block) (hm : s.alloc m) (h0 : s.tree m τ ≠ 0) (hptr : ¬τ.isPtr)
    (hne : (m, τ) ≠ (n, slotOf k)) : s''.dev.blocks (s.tree m τ) = s.dev.blocks (s.tree m τ) := by
  have heq : s'.tree m τ = s.tree m τ := by
    by_cases hmn : m = n
    · subst hmn
      exact h.placed.keeps.mono τ h0
    · rw [h.placed.keeps.other m hm hmn]
  have hx : s.tree m τ ≠ r := by
    intro hc
    have hsame : s'.tree m τ = s'.tree n (slotOf k) := by rw [heq, hc, h.placed.target]
    obtain ⟨rfl, rfl⟩ :=
      h.placed.core.acc.inj (h.placed.touch.alloc.2 hm) h.still_alloc (by rw [heq]; exact h0) hsame
    exact hne rfl
  calc s''.dev.blocks (s.tree m τ) = s'.dev.blocks (s.tree m τ) := by
        rw [h.after]
        exact update_of_ne hx ..
    _ = s.dev.blocks (s.tree m τ) := h.placed.keeps.kept m τ hm h0 fun hc => hptr hc.2

/-- only the slots on the way to the block change -/
theorem slots (h : Patched s s' s'' n i i' k r block) (hτ : τ ∉ path (slotOf k)) : s''.tree n τ = s.tree n τ := by
  rw [h.self]
  by_contra hne
  exact hτ (h.placed.way τ hne)

/-- the way to the block lies inside the device -/
theorem mapped (h : Patched s s' s'' n i i' k r block) : Mapped s'' n k := by
  intro τ hτ
  rw [h.self]
  refine ⟨fun hz => h.ne_zero (h.placed.target.symm.trans (tree_eq_zero_of_path hτ hz)), ?_⟩
  by_cases hτk : τ = slotOf k
  · rw [hτk, h.placed.target]
    exact h.nblocks.2
  · exact (h.placed.inside τ hτ hτk).trans_le h.nblocks.1

/-- every slot lies inside the device -/
theorem inside_after (h : Patched s s' s'' n i i' k r block) : Inside s'' fun _ => False := by
  intro m τ hm hd _ h0
  have hm' : s.alloc m := h.placed.touch.alloc.1 (h.touch.alloc.1 hm)
  have hold : s.tree m τ ≠ 0 → s.tree m τ < s''.dev.nblocks := fun h0 =>
    (h.inside m τ hm' hd id h0).trans_le (h.placed.touch.frame.grows.trans h.nblocks.1)
  by_cases hmn : m = n
  · subst hmn
    by_cases hτ : τ ∈ path (slotOf k)
    · exact (h.mapped τ hτ).2
    · rw [h.slots hτ] at h0 ⊢
      exact hold h0
  · rw [h.other hm' hmn] at h0 ⊢
    exact hold h0

theorem grew (h : Patched s s' s'' n i i' k r block) : Grew s s'' n i i' where
  touch := h.placed.touch.trans h.touch
  core := h.core_trees.1
  inside := h.inside_after
  mono := fun τ hτ => by rw [h.self, h.placed.keeps.mono τ hτ]
  other := fun _ => h.other
  others := fun m hm hmn => content_eq_of_tree (h.other hm hmn) fun τ hptr h0 =>
    h.kept hm h0 hptr fun hc => hmn (by simpa using congrArg Prod.fst hc)
  log := by
    have hown := h.placed.core.own h.still_alloc (σ := slotOf k) (by rw [h.placed.target]; exact h.ne_zero)
    rw [h.placed.target, own_iff h.placed.touch.frame h.placed.keeps.other] at hown
    refine h.placed.keeps.log.trans ?_
    rw [h.after]
    exact Logs.write hown

/-- the file in the block that was written -/
theorem content_at (h : Patched s s' s'' n i i' k r block) {o : ℕ} (ho : o / 8192 = k) :
    s''.content n o = block (o % 8192) := by
  have hphys : s''.phys n (o / 8192) = r := by
    unfold State.phys
    rw [ho, if_pos h.below, h.self, h.placed.target]
  rw [content_eq, hphys, blockAt, if_neg h.ne_zero, h.written]

/-- the file in its other blocks -/
theorem content_off (h : Patched s s' s'' n i i' k r block) {o : ℕ} (ho : o / 8192 ≠ k) :
    s''.content n o = s.content n o := by
  have hphys : s''.phys n (o / 8192) = s.phys n (o / 8192) := by
    unfold State.phys
    split_ifs with hlt
    · refine h.slots fun hmem => ho (slotOf_inj hlt h.below ?_)
      exact eq_of_mem_path hmem (slotOf_not_isPtr _)
    · rfl
  rw [content_eq, content_eq, hphys, blockAt, blockAt]
  split_ifs with h0
  · rfl
  · unfold State.phys at h0 ⊢
    split_ifs at h0 ⊢ with hlt
    · have hslot : (n, slotOf (o / 8192)) ≠ (n, slotOf k) := fun hc =>
        ho (slotOf_inj hlt h.below (by simpa using congrArg Prod.snd hc))
      rw [h.kept h.was h0 (slotOf_not_isPtr _) hslot]
    · exact absurd rfl h0

end Patched

/-- a block is placed and stored to -/
theorem Placed.store {blk buf : Lib.Mem} {k ix tot len : ℕ} (h : Placed s s' n i i' (slotOf k) r) (hs : Core s n ∅)
    (hn : s.alloc n) (hins : Inside s fun _ => False) (hk : k < maxBlockNr) (hlen : ix + len ≤ 8192)
    (hblk : blk = blockAt s.dev.blocks (s.tree n (slotOf k)))
    (hw : s'' = { s' with dev := s'.dev.write r (copy blk ix buf tot len) }) :
    Wrote s s'' n i i' (fun b => b = k) (copy (s.content n) (k * 8192 + ix) buf tot len) := by
  have hst : Patched s s' s'' n i i' k r (copy blk ix buf tot len) := ⟨h, hs, hn, hins, hk, hw⟩
  refine ⟨hst.grew, h.size, fun τ hτ => ?_, fun b hb => hb ▸ hst.mapped, funext fun o => ?_, fun b hb => hb ▸ hk,
    fun hall => h.same (hall k rfl)⟩
  · by_contra hcon
    exact hτ (hst.slots fun hmem => hcon ⟨k, rfl, hmem⟩)
  · by_cases ho : o / 8192 = k
    · have hold : s.content n o = blk (o % 8192) := by rw [content_eq, State.phys, ho, if_pos hk, hblk]
      rw [hst.content_at ho]
      unfold copy
      by_cases hin : ix ≤ o % 8192 ∧ o % 8192 < ix + len
      · rw [if_pos hin, if_pos ⟨by omega, by omega⟩]
        congr 1
        omega
      · rw [if_neg hin, if_neg (by omega), hold]
    · rw [hst.content_off ho, copy, if_neg (by omega)]

/-! ## The loop -/

/-- all `rest` bytes are in the file, from position `p` on -/
def Finished (s s' : State) (n : ℤ) (i : Inode) (buf : Lib.Mem) (start : ℤ) (size p tot rest : ℕ) (r : ℤ) : Prop :=
  ∃ s1 i1, Wrote s s1 n i i1 (fun b => p / 8192 ≤ b ∧ b ≤ (p + max rest 1 - 1) / 8192)
    (copy (s.content n) p buf tot rest) ∧
    (p + max rest 1 - 1) / 8192 < maxBlockNr ∧ r = toInt32 size ∧
    s' = (if 0 < size then growTo s1 n (start + size) else s1).setDirty n

/-- the first `k` bytes are in the file; the block behind them could not be had -/
def BrokenAt (s s' : State) (n : ℤ) (i : Inode) (buf : Lib.Mem) (start : ℤ) (p tot rest : ℕ) (r : ℤ) (k : ℕ) : Prop :=
  ∃ s1 i1, Wrote s s1 n i i1 (fun b => p / 8192 ≤ b ∧ b < (p + k) / 8192) (copy (s.content n) p buf tot k) ∧
    k ≤ rest ∧ (k = 0 ∨ k < rest ∧ (p + k) % 8192 = 0) ∧
    ((r = -EFBIG ∧ maxBlockNr ≤ (p + k) / 8192 ∧ s' = growTo s1 n (start + (tot + k : ℕ))) ∨
      (r = -ENOSPC ∧ (p + k) / 8192 < maxBlockNr ∧ ∃ s2 i2, Failed s1 s2 n i1 i2 (slotOf ((p + k) / 8192)) ∧
        s' = if (p + k) % 8192 + (rest - k) ≤ 8192 then growTo s2 n (start + (tot + k : ℕ)) else s2))

def Broken (s s' : State) (n : ℤ) (i : Inode) (buf : Lib.Mem) (start : ℤ) (p tot rest : ℕ) (r : ℤ) : Prop :=
  ∃ k, BrokenAt s s' n i buf start p tot rest r k

/-- `total_written_size` when the loop of `testfs_write_data` and what follows it return -/
def totalLoop (nr : ℤ) (buf : Lib.Mem) : ℕ → State → ℤ → ℕ → ℕ → ℕ → ℕ
  | 0, _, _, _, total, _ => total
  | fuel + 1, s, blockNr, blockIx, total, rest =>
    match allocateBlock s nr (toInt32 blockNr) with
    | .error _ => total
    | .ok (ret, block, s) =>
      if ret < 0 then total
      else if 8192 < blockIx + rest then
        match writeBlocks s (copy block blockIx buf total (8192 - blockIx)) ret with
        | .error _ => total
        | .ok s => totalLoop nr buf fuel s (blockNr + 1) 0 (total + (8192 - blockIx)) (rest - (8192 - blockIx))
      else total + rest

def totalWritten (s : State) (nr : ℤ) (buf : Lib.Mem) (start : ℤ) (size : ℕ) : ℕ :=
  totalLoop nr buf (size % 2 ^ 32 + 1) s (start / 8192) (start % 8192).toNat 0 (size % 2 ^ 32)

theorem toInt32_succ {z : ℤ} (h0 : 0 ≤ toInt32 z) (h1 : toInt32 z < 2 ^ 31 - 1) : toInt32 (z + 1) = toInt32 z + 1 := by
  simp only [toInt32, signed] at *
  split_ifs at * <;> omega

/-- the first block of a write -/
theorem allocate_and_store {buf blk : Lib.Mem} {blockNr : ℤ} {ix tot len : ℕ} {s1 s2 : State} (h : Core s n ∅)
    (hn : s.alloc n) (hi : s.find n = some i) (hins : Inside s fun _ => False) (hlen : ix + len ≤ 8192)
    (ha : allocateBlock s n (toInt32 blockNr) = .ok (r, blk, s1)) (hr : ¬r < 0)
    (hw : writeBlocks s1 (copy blk ix buf tot len) r = .ok s2) :
    0 ≤ toInt32 blockNr ∧ (toInt32 blockNr).toNat < maxBlockNr ∧ ∃ i1, Wrote s s2 n i i1
      (fun b => b = (toInt32 blockNr).toNat)
      (copy (s.content n) ((toInt32 blockNr).toNat * 8192 + ix) buf tot len) := by
  have hne : r ≠ -ENOSPC := by
    rintro rfl
    exact hr (by decide)
  obtain ⟨hpos, ⟨-, hr1, -⟩ | ⟨-, hr1, -⟩ | ⟨hlt, hblk, i1, hplaced⟩⟩ :=
    allocateBlock_spec h hn hi hins (fun hc => absurd hc hne) ha
  · rw [hr1] at hr
    exact absurd (by decide) hr
  · exact absurd hr1 hne
  · exact ⟨hpos, by omega, i1, hplaced.store h hn hins (by omega) hlen hblk (writeBlocks_spec hw).2⟩

/-- nothing is written -/
theorem Wrote.none (h : Core s n ∅) (hins : Inside s fun _ => False) (hi : s.find n = some i)
    (buf : Lib.Mem) (p tot : ℕ) :
    Wrote s s n i i (fun b => p / 8192 ≤ b ∧ b < (p + 0) / 8192) (copy (s.content n) p buf tot 0) :=
  (Wrote.refl h hins hi).congr (fun _ => ⟨fun hc => absurd hc id, fun hc => by omega⟩) (copy_zero ..).symm

/-- the last turn of a write -/
theorem writeLast_spec {buf : Lib.Mem} {start blockNr : ℤ} {size ix tot rest : ℕ} (fuel : ℕ)
    (h : Core s n ∅) (hn : s.alloc n) (hi : s.find n = some i) (hins : Inside s fun _ => False)
    (hstack : r = -ENOSPC → 10 ≤ ((toInt32 blockNr).toNat * 8192 + ix + max rest 1 - 1) / 8192 → ∀ j, s.stack j = 0)
    (hix : ix < 8192) (hrest : ix + rest ≤ 8192)
    (hr : writeLast s n buf start size blockNr ix tot rest = .ok (r, s')) :
    0 ≤ toInt32 blockNr ∧
      ((Finished s s' n i buf start size ((toInt32 blockNr).toNat * 8192 + ix) tot rest r ∧
          totalLoop n buf (fuel + 1) s blockNr ix tot rest = tot + rest) ∨
        (BrokenAt s s' n i buf start ((toInt32 blockNr).toNat * 8192 + ix) tot rest r 0 ∧
          totalLoop n buf (fuel + 1) s blockNr ix tot rest = tot)) := by
  unfold writeLast at hr
  rw [bind_eq_ok] at hr
  obtain ⟨⟨r1, blk, s1⟩, ha, hr⟩ := hr
  rw [totalLoop, ha]
  dsimp only at hr ⊢
  rw [if_neg (not_lt.2 hrest)]
  by_cases hneg : r1 < 0
  · simp only [hneg, if_true] at hr
    cases hr
    obtain ⟨hpos, hcases⟩ := allocateBlock_spec h hn hi hins (fun hc hk => hstack hc (by omega)) ha
    refine ⟨hpos, Or.inr ⟨⟨s, i, Wrote.none h hins hi .., by omega, Or.inl rfl, ?_⟩, if_pos hneg⟩⟩
    · have hq : ((toInt32 blockNr).toNat * 8192 + ix + 0) / 8192 = (toInt32 blockNr).toNat := by omega
      rw [hq]
      rcases hcases with ⟨hmax, hr1, hs1⟩ | ⟨hlt, hr1, i1, hfail⟩ | ⟨hlt, -, i1, hplaced⟩
      · subst hs1
        exact Or.inl ⟨hr1, by omega, rfl⟩
      · exact Or.inr ⟨hr1, by omega, s1, i1, hfail, by rw [if_pos (by omega), Nat.add_zero]⟩
      · have hp := hplaced.pos
        omega
  · simp only [hneg, if_false] at hr
    rw [bind_eq_ok] at hr
    obtain ⟨s2, hw, hr⟩ := hr
    cases hr
    obtain ⟨hpos, hlt, i1, hwrote⟩ := allocate_and_store h hn hi hins hrest ha hneg hw
    exact ⟨hpos, Or.inl ⟨⟨s2, i1, hwrote.congr (fun b => by omega) rfl, by omega, rfl, rfl⟩, if_neg hneg⟩⟩

/-- **The loop of `testfs_write_data`.** -/
theorem writeLoop_spec {buf : Lib.Mem} {start : ℤ} {size : ℕ} (fuel : ℕ) {blockNr : ℤ} {ix tot rest : ℕ}
    (h : Core s n ∅) (hn : s.alloc n) (hi : s.find n = some i) (hins : Inside s fun _ => False)
    (hstack : r = -ENOSPC → 10 ≤ ((toInt32 blockNr).toNat * 8192 + ix + max rest 1 - 1) / 8192 → ∀ j, s.stack j = 0)
    (hix : ix < 8192) (hr : writeLoop n buf start size fuel s blockNr ix tot rest = .ok (r, s')) :
    0 ≤ toInt32 blockNr ∧
      ((Finished s s' n i buf start size ((toInt32 blockNr).toNat * 8192 + ix) tot rest r ∧
          totalLoop n buf fuel s blockNr ix tot rest = tot + rest) ∨
        ∃ k, BrokenAt s s' n i buf start ((toInt32 blockNr).toNat * 8192 + ix) tot rest r k ∧
          totalLoop n buf fuel s blockNr ix tot rest = tot + k) := by
  induction fuel generalizing s i blockNr ix tot rest with
  | zero => cases hr
  | succ fuel ih =>
    rw [writeLoop] at hr
    split_ifs at hr with hmore
    swap
    · obtain ⟨hpos, hend⟩ := writeLast_spec fuel h hn hi hins hstack hix (by omega) hr
      exact ⟨hpos, hend.imp_right fun hbroken => ⟨0, hbroken⟩⟩
    rw [bind_eq_ok] at hr
    obtain ⟨⟨r1, blk, s1⟩, ha, hr⟩ := hr
    rw [totalLoop, ha]
    dsimp only at hr ⊢
    rw [if_pos hmore]
    by_cases hneg : r1 < 0
    · -- the block is refused
      have hr1 : r = r1 := by
        simp only [hneg, if_true] at hr
        split_ifs at hr <;> cases hr <;> rfl
      subst hr1
      obtain ⟨hpos, hcases⟩ := allocateBlock_spec h hn hi hins (fun hc hk => hstack hc (by omega)) ha
      refine ⟨hpos, Or.inr ⟨0, ⟨s, i, Wrote.none h hins hi .., by omega, Or.inl rfl, ?_⟩, if_pos hneg⟩⟩
      · have hq : ((toInt32 blockNr).toNat * 8192 + ix + 0) / 8192 = (toInt32 blockNr).toNat := by omega
        rw [hq]
        simp only [hneg, if_true] at hr
        rcases hcases with ⟨hmax, hr1, hs1⟩ | ⟨hlt, hr1, i1, hfail⟩ | ⟨hlt, -, i1, hplaced⟩
        · rw [if_pos hr1] at hr
          cases hr
          subst hs1
          exact Or.inl ⟨hr1, by omega, rfl⟩
        · rw [if_neg (by rw [hr1]; decide)] at hr
          cases hr
          exact Or.inr ⟨hr1, by omega, s', i1, hfail, by rw [if_neg (by omega)]⟩
        · have hp := hplaced.pos
          omega
    · -- the block is filled to its end, and the loop goes on
      simp only [hneg, if_false] at hr
      rw [bind_eq_ok] at hr
      obtain ⟨s2, hw, hr⟩ := hr
      obtain ⟨hpos, hlt, i1, hwrote⟩ := allocate_and_store h hn hi hins (by omega) ha hneg hw
      rw [if_neg hneg, hw]
      dsimp only
      refine ⟨hpos, ?_⟩
      have htouch := hwrote.grew.touch
      rw [maxBlockNr_eq] at hlt
      have hnext : toInt32 (blockNr + 1) = toInt32 blockNr + 1 := toInt32_succ hpos (by omega)
      have hstack2 : r = -ENOSPC →
          10 ≤ ((toInt32 (blockNr + 1)).toNat * 8192 + 0 + max (rest - (8192 - ix)) 1 - 1) / 8192 →
          ∀ j, s2.stack j = 0 := by
        intro hc hfar
        have hlast : (toInt32 (blockNr + 1)).toNat * 8192 + 0 + max (rest - (8192 - ix)) 1 =
            (toInt32 blockNr).toNat * 8192 + ix + max rest 1 := by omega
        rw [htouch.frame.stack]
        exact hstack hc (hlast ▸ hfar)
      have hp : (toInt32 (blockNr + 1)).toNat * 8192 + 0 = (toInt32 blockNr).toNat * 8192 + ix + (8192 - ix) := by
        rw [hnext]
        omega
      obtain ⟨-, hrest⟩ := ih hwrote.grew.core (htouch.alloc.2 hn) htouch.new hwrote.grew.inside hstack2 (by omega) hr
      obtain ⟨p, hP⟩ : ∃ p, (toInt32 blockNr).toNat * 8192 + ix = p := ⟨_, rfl⟩
      rw [hp, hP] at hrest
      rw [hP] at hwrote ⊢
      have hPd : p / 8192 = (toInt32 blockNr).toNat := by omega
      rcases hrest with ⟨⟨t1, j1, hdone, hmax, hr1, hs'⟩, htotal⟩ | ⟨k, ⟨t1, j1, hpart, hk, hkm, hend⟩, htotal⟩
      · left
        refine ⟨⟨t1, j1, (hwrote.trans hdone).congr (fun b => by omega) ?_, by omega, hr1, hs'⟩, by omega⟩
        rw [hwrote.content, copy_append]
        congr 1
        omega
      · right
        have hsum : p + (8192 - ix) + k = p + (8192 - ix + k) := by omega
        have htot : tot + (8192 - ix) + k = tot + (8192 - ix + k) := by omega
        rw [hsum] at hend hkm
        rw [htot] at hend
        refine ⟨8192 - ix + k, ⟨t1, j1, (hwrote.trans hpart).congr (fun b => by omega) ?_, by omega, ?_, ?_⟩, by omega⟩
        · rw [hwrote.content, copy_append]
        · exact Or.inr ⟨by omega, by omega⟩
        · rcases hend with hefbig | ⟨hr1, hq, t2, j2, hfail, hs'⟩
          · exact Or.inl hefbig
          · refine Or.inr ⟨hr1, hq, t2, j2, hfail, ?_⟩
            rw [hs', show rest - (8192 - ix) - k = rest - (8192 - ix + k) by omega]

/-! ## The size -/

/-- a change of inode `n` in memory that is not about its blocks -/
theorem Core.adjust {f : Inode → Inode} (h : Core s n ∅) (hn : s.alloc n) (hins : Inside s fun _ => False)
    (htouch : Touch s (s.modify n f) n i i') (hptrs : SamePtrs i.dinode i'.dinode)
    (hcount : i'.dinode.blockCount = i.dinode.blockCount) (hmem : Mem (s.modify n f)) :
    Grew s (s.modify n f) n i i' ∧ (s.modify n f).tree n = s.tree n ∧ (s.modify n f).content n = s.content n := by
  have htrees : ∀ m, s.alloc m → (s.modify n f).tree m = s.tree m := htouch.trees h hptrs fun _ _ _ _ _ => rfl
  have hcounts : ∀ m, s.alloc m → ((s.modify n f).dinode m).blockCount = (s.dinode m).blockCount := by
    intro m hm
    by_cases hmn : m = n
    · rw [hmn, dinode_of_find htouch.new, dinode_of_find htouch.old, hcount]
    · rw [htouch.dinode_of_ne (h.mem.allocRange m hm) hmn]
  have hacc : Acc (s.modify n f) n ∅ := by
    refine ⟨h.acc.exact.congr (ptr_congr (fun m => htouch.alloc) htrees) fun x => Iff.rfl, h.acc.float, ?_, h.acc.used,
      h.acc.limit, h.acc.zero, h.acc.eof⟩
    intro m hm
    rw [hcounts m hm, htrees m hm]
    exact h.acc.count m hm
  refine ⟨⟨htouch, ⟨htouch.frame.geo h.geo, h.disk.modify _, hmem, hacc⟩, ?_, ?_, ?_, ?_, Logs.of_eq rfl⟩,
    htrees n hn, ?_⟩
  · intro m τ hm hd _ h0
    rw [htrees m hm] at h0 ⊢
    exact hins m τ hm hd id h0
  · exact fun τ _ => by rw [htrees n hn]
  · exact fun m hm _ => htrees m hm
  · exact fun m hm _ => content_eq_of_tree (htrees m hm) fun _ _ _ => rfl
  · exact content_eq_of_tree (htrees n hn) fun _ _ _ => rfl

/-- the end of a file moves; for a directory only with its dirty flag set -/
theorem Core.growTo {fin : ℤ} (h : Core s n ∅) (hn : s.alloc n) (hi : s.find n = some i)
    (hins : Inside s fun _ => False) (hfin : fin < 2 ^ 63)
    (hdir : i.dirty = false → i.dinode.iType = iDir → fin ≤ i.dinode.iSize) :
    Grew s (growTo s n fin) n i { i with dinode := { i.dinode with iSize := max i.dinode.iSize fin } } ∧
      (growTo s n fin).tree n = s.tree n ∧ (growTo s n fin).content n = s.content n := by
  have htouch :
    Touch s (Testfs.growTo s n fin) n i { i with dinode := { i.dinode with iSize := max i.dinode.iSize fin } } :=
    touch_setDinode hi rfl rfl fun _ => rfl
  have hsize := h.mem.size n hn
  rw [dinode_of_find hi] at hsize
  refine h.adjust hn hins htouch ⟨rfl, rfl, rfl⟩ rfl (htouch.mem h.mem hn ⟨?_, ?_⟩ fun hc hd => ?_)
  · exact hsize.1.trans (le_max_left ..)
  · exact max_lt hsize.2 hfin
  · exact max_eq_left (hdir hc hd)

/-- the dirty flag is set -/
theorem Core.setDirty (h : Core s n ∅) (hn : s.alloc n) (hi : s.find n = some i) (hins : Inside s fun _ => False) :
    Grew s (s.setDirty n) n i { i with dirty := true } ∧ (s.setDirty n).tree n = s.tree n ∧
      (s.setDirty n).content n = s.content n := by
  have htouch : Touch s (s.setDirty n) n i { i with dirty := true } := touch_setDirty hi
  exact h.adjust hn hins htouch ⟨rfl, rfl, rfl⟩ rfl (htouch.mem_of_size h.mem hn rfl)

/-- both, at the end of a write -/
theorem Core.close {fin : ℤ} (h : Core s n ∅) (hn : s.alloc n) (hi : s.find n = some i) (hins : Inside s fun _ => False)
    (hfin : fin < 2 ^ 63) :
    Grew s ((Testfs.growTo s n fin).setDirty n) n i
        { i with dinode := { i.dinode with iSize := max i.dinode.iSize fin }, dirty := true } ∧
      ((Testfs.growTo s n fin).setDirty n).tree n = s.tree n ∧
      ((Testfs.growTo s n fin).setDirty n).content n = s.content n := by
  have hmodify : (Testfs.growTo s n fin).setDirty n =
      s.modify n fun i => { i with dinode := { i.dinode with iSize := max i.dinode.iSize fin }, dirty := true } := by
    simp only [Testfs.growTo, State.setDinode, State.setDirty, State.modify, List.map_map]
    congr 1
    refine List.map_congr_left fun j _ => ?_
    by_cases hj : j.iNr = n <;> simp [hj]
  have htouch : Touch s ((Testfs.growTo s n fin).setDirty n) n i
      { i with dinode := { i.dinode with iSize := max i.dinode.iSize fin }, dirty := true } :=
    (touch_setDinode hi rfl rfl fun _ => rfl).trans (touch_setDirty (by rw [find_setDinode, if_pos rfl, hi]; rfl))
  have hsize := h.mem.size n hn
  rw [dinode_of_find hi] at hsize
  rw [hmodify] at htouch ⊢
  refine h.adjust hn hins htouch ⟨rfl, rfl, rfl⟩ rfl (htouch.mem h.mem hn ⟨?_, ?_⟩ fun hc _ => by cases hc)
  · exact hsize.1.trans (le_max_left ..)
  · exact max_lt hsize.2 hfin

/-! ## Space -/

/-- the empty slots on the ways to the blocks from `b0` on, below `b1` -/
def gaps (t : Slot → ℤ) (b0 b1 : ℕ) : Finset Slot :=
  ((Finset.Ico b0 b1).biUnion fun b => (path (slotOf b)).toFinset).filter fun τ => t τ = 0

/-- the number of blocks a write to these blocks has to be given -/
def need (t : Slot → ℤ) (b0 b1 : ℕ) : ℕ := (gaps t b0 b1).card

theorem mem_gaps {t : Slot → ℤ} {b0 b1 : ℕ} :
    τ ∈ gaps t b0 b1 ↔ (∃ b, (b0 ≤ b ∧ b < b1) ∧ τ ∈ path (slotOf b)) ∧ t τ = 0 := by
  simp only [gaps, Finset.mem_filter, Finset.mem_biUnion, Finset.mem_Ico, List.mem_toFinset]

theorem need_mono {t : Slot → ℤ} {b0 b1 b2 : ℕ} (h : b1 ≤ b2) : need t b0 b1 ≤ need t b0 b2 := by
  refine Finset.card_le_card fun τ hτ => ?_
  rw [mem_gaps] at hτ ⊢
  obtain ⟨⟨b, hb, hmem⟩, h0⟩ := hτ
  exact ⟨⟨b, ⟨hb.1, by omega⟩, hmem⟩, h0⟩

theorem path_nodup (σ : Slot) : (path σ).Nodup := by
  cases σ <;> simp [path]

theorem cost_eq (t : Slot → ℤ) (σ : Slot) : cost t σ = ((path σ).toFinset.filter fun τ => t τ = 0).card := by
  have hset : (path σ).toFinset.filter (fun τ => t τ = 0) = ((path σ).filter fun τ => t τ = 0).toFinset := by
    ext τ
    simp
  rw [hset, List.toFinset_card_of_nodup ((path_nodup σ).filter _), cost]

/-- the blocks used by a write are the gaps it filled -/
theorem Wrote.used {b0 q : ℕ} {c : Lib.Mem} (h : Wrote s s' n i i' (fun b => b0 ≤ b ∧ b < q) c) (hs : Core s n ∅)
    (hn : s.alloc n) : s'.sb.usedBlockCount = s.sb.usedBlockCount + need (s.tree n) b0 q := by
  have hcount := hs.acc.count_self hn
  have hcount' := h.grew.core.acc.count_self (h.grew.touch.alloc.2 hn)
  rw [dinode_of_find h.grew.touch.old, Finset.card_empty] at hcount
  rw [dinode_of_find h.grew.touch.new, Finset.card_empty] at hcount'
  have hfilled : (Finset.univ.filter fun τ => s.tree n τ = 0 ∧ s'.tree n τ ≠ 0) = gaps (s.tree n) b0 q := by
    ext τ
    simp only [Finset.mem_filter, Finset.mem_univ, true_and, mem_gaps]
    constructor
    · rintro ⟨h0, h1⟩
      exact ⟨h.way τ (by rw [h0]; exact h1), h0⟩
    · rintro ⟨⟨b, hb, hmem⟩, h0⟩
      exact ⟨h0, (h.full b hb τ hmem).1⟩
  have hheld : held (s'.tree n) = held (s.tree n) + need (s.tree n) b0 q := by
    rw [held_grow (p := s.tree n) fun k hk => by rw [h.grew.mono k hk]; exact hk, hfilled, need]
  have hused := h.grew.touch.used
  rw [hcount, hcount', hheld] at hused
  push_cast at hused
  omega

/-- one more block -/
theorem Wrote.need_succ {b0 q : ℕ} {c : Lib.Mem} (h : Wrote s s' n i i' (fun b => b0 ≤ b ∧ b < q) c) (hq : b0 ≤ q) :
    need (s.tree n) b0 (q + 1) = need (s.tree n) b0 q + cost (s'.tree n) (slotOf q) := by
  have hempty : ∀ τ, s'.tree n τ = 0 ↔ s.tree n τ = 0 ∧ τ ∉ gaps (s.tree n) b0 q := by
    intro τ
    rw [mem_gaps]
    constructor
    · intro h0
      have hold : s.tree n τ = 0 := by
        by_contra hne
        rw [h.grew.mono τ hne] at h0
        exact hne h0
      refine ⟨hold, ?_⟩
      rintro ⟨⟨b, hb, hmem⟩, -⟩
      exact (h.full b hb τ hmem).1 h0
    · rintro ⟨h0, hnot⟩
      by_contra hne
      exact hnot ⟨h.way τ (by rw [h0]; exact hne), h0⟩
  have hsplit : gaps (s.tree n) b0 (q + 1) =
      gaps (s.tree n) b0 q ∪ (path (slotOf q)).toFinset.filter fun τ => s'.tree n τ = 0 := by
    ext τ
    rw [Finset.mem_union, Finset.mem_filter, List.mem_toFinset, hempty]
    constructor
    · intro hτ
      by_cases hin : τ ∈ gaps (s.tree n) b0 q
      · exact Or.inl hin
      · obtain ⟨⟨b, hb, hmem⟩, h0⟩ := mem_gaps.1 hτ
        have hbq : b = q := by
          by_contra hne
          exact hin (mem_gaps.2 ⟨⟨b, ⟨hb.1, by omega⟩, hmem⟩, h0⟩)
        exact Or.inr ⟨hbq ▸ hmem, h0, hin⟩
    · rintro (hτ | ⟨hmem, h0, -⟩)
      · obtain ⟨⟨b, hb, hmem⟩, h0⟩ := mem_gaps.1 hτ
        exact mem_gaps.2 ⟨⟨b, ⟨hb.1, by omega⟩, hmem⟩, h0⟩
      · exact mem_gaps.2 ⟨⟨q, ⟨hq, by omega⟩, hmem⟩, h0⟩
  rw [need, hsplit, Finset.card_union_of_disjoint, cost_eq, need]
  rw [Finset.disjoint_left]
  intro τ h1 h2
  exact ((hempty τ).1 (Finset.mem_filter.1 h2).2).2 h1

/-- a write that the maximum and the free space admit -/
def Fits (s : State) (n : ℤ) (p len : ℕ) : Prop :=
  (p + max len 1 - 1) / 8192 < maxBlockNr ∧
    s.sb.usedBlockCount + need (s.tree n) (p / 8192) ((p + max len 1 - 1) / 8192 + 1) ≤ s.sb.maxFsBlocks

/-- a write that ends early has met the maximum or a lack of space -/
theorem Broken.not_fits {buf : Lib.Mem} {start : ℤ} {p tot rest : ℕ} (hb : Broken s s' n i buf start p tot rest r)
    (h : Core s n ∅) (hn : s.alloc n) : ¬Fits s n p rest := by
  rintro ⟨hmax, hfits⟩
  obtain ⟨k, s1, i1, hw, hk, hkm, hend⟩ := hb
  rcases hend with ⟨-, hq, -⟩ | ⟨-, -, s2, i2, hfail, -⟩
  · omega
  · have hshort := hfail.short
    rw [hw.grew.touch.frame.max, hw.used h hn] at hshort
    have hsucc := hw.need_succ (by omega)
    have hmono : need (s.tree n) (p / 8192) ((p + k) / 8192 + 1) ≤
        need (s.tree n) (p / 8192) ((p + max rest 1 - 1) / 8192 + 1) := need_mono (by omega)
    omega

/-! ## `testfs_write_data` -/

/-- the position in the file at which a write begins: the block number goes through an `int` -/
def writePos (start : ℤ) : ℕ := (toInt32 (start / 8192)).toNat * 8192 + (start % 8192).toNat

theorem writePos_eq {start : ℤ} (h0 : 0 ≤ start) (h1 : start < maxBlockNr * 8192 + 8192) :
    writePos start = start.toNat := by
  rw [maxBlockNr_eq] at h1
  unfold writePos
  rw [toInt32_of_mem ⟨by omega, by omega⟩]
  omega

theorem writeData_spec {buf : Lib.Mem} {start : ℤ} {size : ℕ} (h : Core s n ∅) (hn : s.alloc n) (hi : s.find n = some i)
    (hins : Inside s fun _ => False)
    (hstack : r = -ENOSPC → 10 ≤ (writePos start + max (size % 2 ^ 32) 1 - 1) / 8192 → ∀ j, s.stack j = 0)
    (hr : writeData s n buf start size = .ok (r, s')) :
    (0 ≤ start ∧ start + size < 2 ^ 63) ∧
      ((Finished s s' n i buf start size (writePos start) 0 (size % 2 ^ 32) r ∧
          totalWritten s n buf start size = size % 2 ^ 32) ∨
        BrokenAt s s' n i buf start (writePos start) 0 (size % 2 ^ 32) r (totalWritten s n buf start size)) := by
  unfold writeData at hr
  split_ifs at hr with hbad
  refine ⟨by omega, ?_⟩
  rcases (writeLoop_spec _ h hn hi hins hstack (by omega) hr).2 with ⟨hdone, htotal⟩ | ⟨k, hbroken, htotal⟩
  · exact Or.inl ⟨hdone, htotal.trans (Nat.zero_add _)⟩
  · refine Or.inr ?_
    rw [totalWritten, htotal, Nat.zero_add]
    exact hbroken

/-- a write that the maximum and the free space admit does not fail -/
theorem writeData_fits {buf : Lib.Mem} {start : ℤ} {size : ℕ} (h : Core s n ∅) (hn : s.alloc n) (hi : s.find n = some i)
    (hins : Inside s fun _ => False)
    (hstack : r = -ENOSPC → 10 ≤ (writePos start + max (size % 2 ^ 32) 1 - 1) / 8192 → ∀ j, s.stack j = 0)
    (hsize : size < 2 ^ 31) (hfits : Fits s n (writePos start) size) (hr : writeData s n buf start size = .ok (r, s')) :
    0 ≤ r := by
  obtain ⟨-, hend⟩ := writeData_spec h hn hi hins hstack hr
  rw [Nat.mod_eq_of_lt (by omega)] at hend
  rcases hend with ⟨⟨s1, i1, -, -, hr1, -⟩, -⟩ | hbroken
  · rw [hr1, toInt32_of_mem ⟨by omega, by omega⟩]
    omega
  · exact absurd hfits (Broken.not_fits ⟨_, hbroken⟩ h hn)

/-- `len` bytes were written at `start` -/
structure Stored (s s' : State) (n : ℤ) (i i' : Inode) (buf : Lib.Mem) (start len : ℕ) : Prop where
  grew : Grew s s' n i i'
  size : i'.dinode.iSize = max i.dinode.iSize (start + len : ℕ)
  dirty : i'.dirty = true
  content : s'.content n = copy (s.content n) start buf 0 len
  way : ∀ τ, s'.tree n τ ≠ s.tree n τ → ∃ b, (start / 8192 ≤ b ∧ b * 8192 < start + len) ∧ τ ∈ path (slotOf b)
  full : ∀ b, start / 8192 ≤ b → b * 8192 < start + len → Mapped s' n b

/-- **A write that succeeds.** -/
theorem writeData_ok {buf : Lib.Mem} {start : ℤ} {size : ℕ} (h : Core s n ∅) (hn : s.alloc n) (hi : s.find n = some i)
    (hins : Inside s fun _ => False) (h0 : 0 < size) (h31 : size < 2 ^ 31) (hpos : start < 2 ^ 43) (hr0 : 0 ≤ r)
    (hr : writeData s n buf start size = .ok (r, s')) :
    0 ≤ start ∧ r = size ∧ ∃ i', Stored s s' n i i' buf start.toNat size := by
  have hstack : r = -ENOSPC → ∀ j, s.stack j = 0 := fun hc => by
    rw [hc] at hr0
    exact absurd hr0 (by decide)
  obtain ⟨⟨hs0, h63⟩, hend⟩ := writeData_spec h hn hi hins (fun hc _ => hstack hc) hr
  have hp : writePos start = start.toNat := by
    unfold writePos
    rw [toInt32_of_mem ⟨by omega, by omega⟩]
    omega
  have hmod : size % 2 ^ 32 = size := Nat.mod_eq_of_lt (by omega)
  rw [hp, hmod] at hend
  rcases hend with ⟨⟨s1, i1, hw, -, hr1, hs'⟩, -⟩ | ⟨s1, i1, -, -, -, hend⟩
  · have hn1 := hw.grew.touch.alloc.2 hn
    rw [if_pos h0] at hs'
    subst hs'
    obtain ⟨hgrew, htree, hcontent⟩ := hw.grew.core.close hn1 hw.grew.touch.new hw.grew.inside h63
    rw [toInt32_of_mem ⟨by omega, by omega⟩] at hr1
    refine ⟨hs0, hr1, _, hw.grew.trans hgrew, ?_, rfl, ?_, ?_, ?_⟩
    · simp only [hw.size]
      congr 1
      omega
    · rw [hcontent, hw.content]
    · intro τ hτ
      rw [htree] at hτ
      obtain ⟨b, hb, hmem⟩ := hw.way τ hτ
      exact ⟨b, by omega, hmem⟩
    · intro b h1 h2
      refine (hw.full b ⟨h1, by omega⟩).mono (fun τ _ => by rw [htree]) hgrew.touch.frame.grows
  · rcases hend with ⟨hr1, -⟩ | ⟨hr1, -⟩
    · rw [hr1] at hr0
      exact absurd hr0 (by decide)
    · rw [hr1] at hr0
      exact absurd hr0 (by decide)

/-- what every write to a file does, whatever it returns -/
theorem writeData_grew {buf : Lib.Mem} {start : ℤ} {size : ℕ} (h : Core s n ∅) (hn : s.alloc n) (hi : s.find n = some i)
    (hins : Inside s fun _ => False) (hstack : r = -ENOSPC → ∀ j, s.stack j = 0)
    (hdir : r < 0 → i.dinode.iType = iDir → (s'.dinode n).iSize = i.dinode.iSize)
    (hr : writeData s n buf start size = .ok (r, s')) : ∃ i', Grew s s' n i i' := by
  obtain ⟨⟨h0, h63⟩, hend⟩ := writeData_spec h hn hi hins (fun hc _ => hstack hc) hr
  rcases hend with ⟨⟨s1, i1, hw, -, -, hs'⟩, -⟩ | ⟨s1, i1, hw, hk, -, hend⟩
  · have hn1 := hw.grew.touch.alloc.2 hn
    by_cases hsize : 0 < size
    · rw [if_pos hsize] at hs'
      subst hs'
      exact ⟨_, hw.grew.trans (hw.grew.core.close hn1 hw.grew.touch.new hw.grew.inside h63).1⟩
    · rw [if_neg hsize] at hs'
      subst hs'
      exact ⟨_, hw.grew.trans (hw.grew.core.setDirty hn1 hw.grew.touch.new hw.grew.inside).1⟩
  · -- the end moves to the bytes written, unless it is a directory's
    generalize totalWritten s n buf start size = k at hw hk hend
    have hfin : start + ((0 + k : ℕ) : ℤ) < 2 ^ 63 := by
      have hle : size % 2 ^ 32 ≤ size := Nat.mod_le ..
      omega
    have hmove : ∀ t j, Grew s t n i j → j.dinode.iSize = i.dinode.iSize → r < 0 →
        s' = growTo t n (start + ((0 + k : ℕ) : ℤ)) → ∃ i', Grew s s' n i i' := by
      intro t j hgrew hsame hneg hst
      subst hst
      have hn1 := hgrew.touch.alloc.2 hn
      have hfind : (Testfs.growTo t n (start + ((0 + k : ℕ) : ℤ))).find n =
          some { j with dinode := { j.dinode with iSize := max j.dinode.iSize (start + ((0 + k : ℕ) : ℤ)) } } := by
        rw [Testfs.growTo, find_setDinode, if_pos rfl, hgrew.touch.new]
        rfl
      refine ⟨_, hgrew.trans (hgrew.core.growTo hn1 hgrew.touch.new hgrew.inside hfin fun _ hd => ?_).1⟩
      rw [hgrew.touch.type] at hd
      have heq := hdir hneg hd
      rw [dinode_of_find hfind] at heq
      simp only at heq
      rw [← hsame] at heq
      exact max_eq_left_iff.1 heq
    rcases hend with ⟨hr1, -, hs'⟩ | ⟨hr1, -, s2, i2, hfail, hs'⟩
    · exact hmove s1 i1 hw.grew hw.size (by rw [hr1]; decide) hs'
    · have hn1 := hw.grew.touch.alloc.2 hn
      have hgrew := hw.grew.trans (hfail.grew hw.grew.inside hn1)
      split_ifs at hs' with hlast
      · exact hmove s2 i2 hgrew (hfail.size.trans hw.size) (by rw [hr1]; decide) hs'
      · subst hs'
        exact ⟨_, hgrew⟩

end OsLab.Testfs
