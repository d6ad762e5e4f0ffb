/-
`testfs_read_data` on the contents of a file.

A read returns the bytes of the file exactly if every block it touches can be reached: the block is below the maximum
and the pointer blocks on the way to it lie inside the device (`readData_iff`). The one pointer block that may lie
outside is a double indirect block that was allocated and never written (`reach_iff`).
-/
import Mathlib.Tactic
import OsLab.Testfs.Data

namespace OsLab.Testfs

open OsLab.Lib Function State

variable {s s' : State} {n m r : ℤ} {F : Finset ℤ} {i : Inode} {σ τ : Slot} {k : ℕ}

/-- nothing on the way to block `b` lies outside the device -/
def Reach (s : State) (n : ℤ) (b : ℕ) : Prop := ∀ τ ∈ path (slotOf b), s.tree n τ ≠ 0 → s.tree n τ < s.dev.nblocks

theorem Mapped.reach (h : Mapped s n k) : Reach s n k := fun τ hτ _ => (h τ hτ).2

/-! ## One block -/

theorem readBlocks_ok {b : ℤ} (h0 : 0 ≤ b) (h1 : b < s.dev.nblocks) : readBlocks s b = .ok (s.dev.blocks b) :=
  if_pos ⟨h0, h1⟩

theorem physBlock_ok (hk : k < maxBlockNr) (hpos : ∀ σ, 0 ≤ s.tree n σ)
    (hreach : Reach s n k) : physBlock s (s.dinode n) k = .ok (s.tree n (slotOf k)) := by
  unfold physBlock
  have hind := hpos .ind
  have hdind := hpos .dind
  by_cases h1 : k < 10
  · rw [dif_pos h1, slotOf_direct h1]
    rfl
  rw [dif_neg h1]
  by_cases h2 : k - 10 < 2048
  · rw [if_pos h2, slotOf_indE h1 h2]
    by_cases h3 : 0 < (s.dinode n).iIndirect
    · have hlt : (s.dinode n).iIndirect < s.dev.nblocks :=
        hreach .ind (by rw [slotOf_indE h1 h2]; simp [path]) (by simp only [State.tree, tree]; omega)
      rw [if_pos h3, readBlocks_ok (by omega) hlt, ok_bind]
      simp only [State.tree, tree, pure_eq_ok]
      rw [entryOf_of_ne (by omega)]
    · have hz : (s.dinode n).iIndirect = 0 := by
        simp only [State.tree, tree] at hind
        omega
      rw [if_neg h3]
      simp only [State.tree, tree, pure_eq_ok, hz, entryOf_zero]
  · rw [if_neg h2]
    obtain ⟨a, c, ha, hc, hslot⟩ := slotOf_leaf h1 h2 hk
    rw [hslot]
    dsimp only
    by_cases h3 : 0 < (s.dinode n).iDindirect
    · have hlt : (s.dinode n).iDindirect < s.dev.nblocks :=
        hreach .dind (by rw [hslot]; simp [path]) (by simp only [State.tree, tree]; omega)
      have hentry :
          s.tree n (.dindE a) = s32At (s.dev.blocks (s.dinode n).iDindirect) (4 * ((k - (10 + 2048)) / 2048)) := by
        simp only [State.tree, tree]
        rw [entryOf_of_ne (by omega), ha]
      rw [if_pos h3, readBlocks_ok (by omega) hlt, ok_bind, ← hentry]
      have hE := hpos (.dindE a)
      by_cases h4 : 0 < s.tree n (.dindE a)
      · have hltE : s.tree n (.dindE a) < s.dev.nblocks := hreach (.dindE a) (by rw [hslot]; simp [path]) (by omega)
        rw [if_pos h4, readBlocks_ok hE hltE, ok_bind]
        have hleaf : s.tree n (.leaf a c) = s32At (s.dev.blocks (s.tree n (.dindE a))) (4 * c) := by
          show entryOf s.dev.blocks (s.tree n (.dindE a)) c = _
          exact entryOf_of_ne (by omega) _
        rw [hleaf, hc]
        rfl
      · rw [if_neg h4]
        have hleaf : s.tree n (.leaf a c) = entryOf s.dev.blocks (s.tree n (.dindE a)) c := rfl
        rw [hleaf, show s.tree n (.dindE a) = 0 by omega, entryOf_zero]
        rfl
    · have hz : (s.dinode n).iDindirect = 0 := by
        simp only [State.tree, tree] at hdind
        omega
      rw [if_neg h3]
      simp only [State.tree, tree, pure_eq_ok, hz, entryOf_zero]

theorem phys_nonneg (hpos : ∀ σ, 0 ≤ s.tree n σ) (b : ℕ) : 0 ≤ s.phys n b := by
  unfold State.phys
  split_ifs
  · exact hpos _
  · exact le_refl _

theorem readBlock_ok (hk : k < maxBlockNr) (hpos : ∀ σ, 0 ≤ s.tree n σ) (hreach : Reach s n k) :
    readBlock s (s.dinode n) k = .ok (s.phys n k, blockAt s.dev.blocks (s.phys n k)) := by
  have hneg : ¬((k : ℤ) < 0) := by omega
  have hmax : ¬((maxBlockNr : ℤ) ≤ k) := by omega
  have hslot := hpos (slotOf k)
  unfold readBlock State.phys
  simp only [hneg, if_false, hmax, if_pos hk, Int.toNat_natCast, physBlock_ok hk hpos hreach, ok_bind, pure_eq_ok]
  by_cases h0 : 0 < s.tree n (slotOf k)
  · have hlt : s.tree n (slotOf k) < s.dev.nblocks := hreach _ (slotOf_mem_path k) (by omega)
    rw [if_pos h0, readBlocks_ok hslot hlt, ok_bind, blockAt, if_neg (by omega)]
  · rw [if_neg h0, blockAt, if_pos (by omega)]

/-- a block that is read can be reached -/
theorem reach_of_readBlock {blk : Lib.Mem} (hk : k < maxBlockNr) (hpos : ∀ σ, 0 ≤ s.tree n σ)
    (h : readBlock s (s.dinode n) k = .ok (r, blk)) : Reach s n k := by
  have hspec := readBlock_spec hpos h
  have hr : r = s.tree n (slotOf k) := by
    obtain ⟨-, ⟨hc, -⟩ | ⟨-, hr, -⟩⟩ := hspec
    · omega
    · rw [hr, Int.toNat_natCast]
      rfl
  unfold readBlock at h
  have hneg : ¬((k : ℤ) < 0) := by omega
  have hmax : ¬((maxBlockNr : ℤ) ≤ k) := by omega
  simp only [hneg, if_false, hmax, Int.toNat_natCast, bind_eq_ok] at h
  obtain ⟨p, hp, h⟩ := h
  have hphys : p = s.tree n (slotOf k) := physBlock_spec hk hpos hp
  have hlast : s.tree n (slotOf k) ≠ 0 → s.tree n (slotOf k) < s.dev.nblocks := by
    intro h0
    have hnn := hpos (slotOf k)
    rw [hphys, if_pos (by omega), bind_eq_ok] at h
    obtain ⟨b, hb, -⟩ := h
    exact (readBlocks_eq_ok.1 hb).1.2
  unfold physBlock at hp
  intro τ hτ h0
  by_cases hτk : τ = slotOf k
  · rw [hτk] at h0 ⊢
    exact hlast h0
  have hnn := hpos τ
  by_cases h1 : k < 10
  · rw [slotOf_direct h1] at hτ hτk
    exact absurd (by simpa [path] using hτ) hτk
  rw [dif_neg h1] at hp
  by_cases h2 : k - 10 < 2048
  · rw [slotOf_indE h1 h2] at hτ hτk
    obtain rfl : τ = .ind := by simpa [path, hτk] using hτ
    have hind : 0 < (s.dinode n).iIndirect := by
      simp only [State.tree, tree] at h0 hnn
      omega
    rw [if_pos h2, if_pos hind, bind_eq_ok] at hp
    obtain ⟨b, hb, -⟩ := hp
    exact (readBlocks_eq_ok.1 hb).1.2
  · obtain ⟨a, c, ha, hc, hslot⟩ := slotOf_leaf h1 h2 hk
    rw [hslot] at hτ hτk
    have hdind0 : s.tree n .dind ≠ 0 := by
      intro hz
      obtain rfl | rfl : τ = .dind ∨ τ = .dindE a := by simpa [path, hτk] using hτ
      · exact h0 hz
      · apply h0
        simp only [State.tree, tree] at hz ⊢
        rw [hz, entryOf_zero]
    have hdpos := hpos .dind
    have hdind : 0 < (s.dinode n).iDindirect := by
      simp only [State.tree, tree] at hdind0 hdpos
      omega
    rw [if_neg h2, if_pos hdind, bind_eq_ok] at hp
    obtain ⟨b, hb, hp⟩ := hp
    obtain rfl | rfl : τ = .dind ∨ τ = .dindE a := by simpa [path, hτk] using hτ
    · exact (readBlocks_eq_ok.1 hb).1.2
    · have hentry : s.tree n (.dindE a) = s32At b (4 * ((k - (10 + 2048)) / 2048)) := by
        simp only [State.tree, tree]
        rw [entryOf_of_ne (by omega), (readBlocks_eq_ok.1 hb).2, ha]
      rw [← hentry, if_pos (by omega), bind_eq_ok] at hp
      obtain ⟨b', hb', -⟩ := hp
      exact (readBlocks_eq_ok.1 hb').1.2

/-- in a file system with all slots inside the device but one -/
theorem reach_iff (hins : Inside s fun _ => False) (hn : s.alloc n) :
    Reach s n k ↔ (.dind ∈ path (slotOf k) → s.tree n .dind ≠ 0 → s.tree n .dind < s.dev.nblocks) := by
  constructor
  · intro h hmem h0
    exact h .dind hmem h0
  · intro h τ hτ h0
    by_cases hd : τ = .dind
    · subst hd
      exact h hτ h0
    · exact hins n τ hn hd id h0

theorem dind_mem_path (hk : k < maxBlockNr) : Slot.dind ∈ path (slotOf k) ↔ 2058 ≤ k := by
  by_cases h1 : k < 10
  · rw [slotOf_direct h1]
    simp only [path, List.mem_singleton, reduceCtorEq, false_iff]
    omega
  by_cases h2 : k - 10 < 2048
  · rw [slotOf_indE h1 h2]
    simp only [path, List.mem_cons, List.not_mem_nil, or_false, reduceCtorEq, false_iff]
    omega
  · obtain ⟨a, c, -, -, hslot⟩ := slotOf_leaf h1 h2 hk
    rw [hslot]
    simp only [path, List.mem_cons, true_or, true_iff]
    omega

/-! ## The loop -/

theorem slice_append (c : Lib.Mem) (o a b : ℕ) : slice c o (a + b) = slice c o a ++ slice c (o + a) b := by
  unfold slice
  rw [List.range_add, List.map_append, List.map_map]
  congr 1
  refine List.map_congr_left fun x _ => ?_
  simp only [comp_apply, Nat.add_assoc]

@[simp] theorem slice_zero (c : Lib.Mem) (o : ℕ) : slice c o 0 = [] := rfl

@[simp] theorem slice_length (c : Lib.Mem) (o len : ℕ) : (slice c o len).length = len := by simp [slice]

/-- a part of a block is a part of the file -/
theorem slice_block {o len : ℕ} (h : o % 8192 + len ≤ 8192) :
    slice (blockAt s.dev.blocks (s.phys n (o / 8192))) (o % 8192) len = slice (s.content n) o len := by
  unfold slice
  refine List.map_congr_left fun x hx => ?_
  have hx' := List.mem_range.1 hx
  rw [content_eq, show (o + x) / 8192 = o / 8192 by omega, show (o + x) % 8192 = o % 8192 + x by omega]

/-- the blocks a read of `len` bytes touches: one at least -/
def Touched (o len b : ℕ) : Prop := o / 8192 ≤ b ∧ b ≤ (o + max len 1 - 1) / 8192

theorem readLoop_ok {start size fuel total : ℕ} {buf : List UInt8} (hpos : ∀ σ, 0 ≤ s.tree n σ)
    (hsize : size < 2 ^ 31) (htotal : total ≤ size) (hfuel : size - total < fuel)
    (hblocks : ∀ b, Touched (start + total) (size - total) b → total < size → b < maxBlockNr ∧ Reach s n b) :
    readLoop s (s.dinode n) start size fuel total buf =
      .ok ((size : ℤ), buf ++ slice (s.content n) (start + total) (size - total)) := by
  induction fuel generalizing total buf with
  | zero => omega
  | succ fuel ih =>
    rw [readLoop]
    by_cases hmore : total < size
    · have hk : (start + total) / 8192 < maxBlockNr ∧ Reach s n ((start + total) / 8192) :=
        hblocks _ ⟨le_refl _, by omega⟩ hmore
      have hlt := hk.1
      rw [maxBlockNr_eq] at hlt
      have hnr : toInt32 (((start : ℤ) + (total : ℤ)) / 8192) = (((start + total) / 8192 : ℕ) : ℤ) := by
        rw [toInt32_of_mem ⟨by omega, by omega⟩]
        push_cast
        rfl
      have hix : (((start : ℤ) + (total : ℤ)) % 8192).toNat = (start + total) % 8192 := by omega
      have hphys : 0 ≤ s.phys n ((start + total) / 8192) := phys_nonneg hpos _
      simp only [hmore, if_true, hnr, hix, readBlock_ok hk.1 hpos hk.2, ok_bind, not_lt.2 hphys, if_false]
      have hcur : total + min (size - total) (8192 - (start + total) % 8192) ≤ size := by omega
      rw [slice_block (by omega), ih hcur (by omega), List.append_assoc, ← Nat.add_assoc, ← slice_append]
      · congr 4
        omega
      · intro b hb hlt
        obtain ⟨h1, h2⟩ := hb
        exact hblocks b ⟨by omega, by omega⟩ hmore
    · simp only [hmore, if_false, pure_eq_ok]
      rw [show total = size by omega, toInt32_of_mem ⟨by omega, by omega⟩, Nat.sub_self, slice_zero, List.append_nil]

/-- a read that comes to its end has reached every block -/
theorem reach_of_readLoop {start size fuel total : ℕ} {buf l : List UInt8} (hpos : ∀ σ, 0 ≤ s.tree n σ)
    (hstart : start + size < 2 ^ 43) (hr0 : 0 ≤ r)
    (h : readLoop s (s.dinode n) start size fuel total buf = .ok (r, l)) (hmore : total < size) (b : ℕ)
    (hb : Touched (start + total) (size - total) b) : b < maxBlockNr ∧ Reach s n b := by
  induction fuel generalizing total buf with
  | zero => cases h
  | succ fuel ih =>
    rw [readLoop] at h
    have hnr : toInt32 (((start : ℤ) + (total : ℤ)) / 8192) = (((start + total) / 8192 : ℕ) : ℤ) := by
      rw [toInt32_of_mem ⟨by omega, by omega⟩]
      push_cast
      rfl
    have hix : (((start : ℤ) + (total : ℤ)) % 8192).toNat = (start + total) % 8192 := by omega
    simp only [hmore, if_true, hnr, hix] at h
    rw [bind_eq_ok] at h
    obtain ⟨⟨r1, blk⟩, hread, h⟩ := h
    dsimp only at h
    split_ifs at h with hneg
    · cases h
      omega
    have hk : (start + total) / 8192 < maxBlockNr := by
      obtain ⟨-, ⟨-, hr⟩ | ⟨hlt, -⟩⟩ := readBlock_spec hpos hread
      · rw [hr] at hneg
        exact absurd (by decide) hneg
      · omega
    have hreach := reach_of_readBlock hk hpos hread
    obtain ⟨h1, h2⟩ := hb
    by_cases hbk : b = (start + total) / 8192
    · rw [hbk]
      exact ⟨hk, hreach⟩
    · refine ih h (by omega) ⟨by omega, by omega⟩

/-! ## `testfs_read_data` -/

/-- the number of bytes a read returns -/
def readLen (s : State) (n : ℤ) (start size : ℕ) : ℕ := min size ((s.dinode n).iSize - start).toNat

theorem readData_ok {start size : ℕ} (hpos : ∀ σ, 0 ≤ s.tree n σ) (hstart : start ≤ (s.dinode n).iSize)
    (hsize : size < 2 ^ 31)
    (hblocks : ∀ b, Touched start (readLen s n start size) b → b < maxBlockNr ∧ Reach s n b) :
    readData s (s.dinode n) start size =
      .ok ((readLen s n start size : ℤ), slice (s.content n) start (readLen s n start size)) := by
  have hbad : ¬((start : ℤ) < 0 ∨ (s.dinode n).iSize < start ∨ 2 ^ 63 ≤ size) := by omega
  have hlen : (if (s.dinode n).iSize < start + size then ((s.dinode n).iSize - start).toNat else size) =
      readLen s n start size := by
    unfold readLen
    split_ifs <;> omega
  have hle : readLen s n start size ≤ size := min_le_left ..
  have hix : ((start : ℤ) % 8192).toNat = start % 8192 := by omega
  unfold readData
  simp only [hbad, if_false, hlen, hix]
  by_cases hlong : 8192 < start % 8192 + readLen s n start size
  · rw [if_pos hlong, if_neg (by omega)]
    have hloop : readLoop s (s.dinode n) start (readLen s n start size) (readLen s n start size + 1) 0 [] =
        .ok ((readLen s n start size : ℤ), [] ++ slice (s.content n) (start + 0) (readLen s n start size - 0)) :=
      readLoop_ok hpos (by omega) (by omega) (by omega) fun b hb _ => hblocks b (by simpa using hb)
    simpa using hloop
  · rw [if_neg hlong]
    obtain ⟨hk, hreach⟩ := hblocks (start / 8192) ⟨le_refl _, by omega⟩
    have hlt := hk
    rw [maxBlockNr_eq] at hlt
    have hnr : toInt32 ((start : ℤ) / 8192) = ((start / 8192 : ℕ) : ℤ) := by
      rw [toInt32_of_mem ⟨by omega, by omega⟩]
      norm_cast
    have hphys : 0 ≤ s.phys n (start / 8192) := phys_nonneg hpos _
    rw [hnr, readBlock_ok hk hpos hreach, ok_bind]
    dsimp only
    rw [if_neg (not_lt.2 hphys), slice_block (by omega)]
    rfl

/-- **A read returns the bytes of the file exactly if it can reach them.** -/
theorem readData_iff {start size : ℕ} (hpos : ∀ σ, 0 ≤ s.tree n σ) (hstart : start ≤ (s.dinode n).iSize)
    (hsize : size < 2 ^ 31) (hend : start + readLen s n start size < 2 ^ 43) :
    readData s (s.dinode n) start size =
        .ok ((readLen s n start size : ℤ), slice (s.content n) start (readLen s n start size)) ↔
      ∀ b, Touched start (readLen s n start size) b → b < maxBlockNr ∧ Reach s n b := by
  refine ⟨fun h b hb => ?_, readData_ok hpos hstart hsize⟩
  have hbad : ¬((start : ℤ) < 0 ∨ (s.dinode n).iSize < start ∨ 2 ^ 63 ≤ size) := by omega
  have hlen : (if (s.dinode n).iSize < start + size then ((s.dinode n).iSize - start).toNat else size) =
      readLen s n start size := by
    unfold readLen
    split_ifs <;> omega
  have hle : readLen s n start size ≤ size := min_le_left ..
  have hix : ((start : ℤ) % 8192).toNat = start % 8192 := by omega
  unfold readData at h
  simp only [hbad, if_false, hlen, hix] at h
  by_cases hlong : 8192 < start % 8192 + readLen s n start size
  · rw [if_pos hlong, if_neg (by omega)] at h
    have hb' : Touched (start + 0) (readLen s n start size - 0) b := by simpa using hb
    exact reach_of_readLoop hpos hend (by omega) h (by omega) b hb'
  · rw [if_neg hlong] at h
    have hnr : toInt32 ((start : ℤ) / 8192) = ((start / 8192 : ℕ) : ℤ) := by
      rw [toInt32_of_mem ⟨by omega, by omega⟩]
      push_cast
      rfl
    rw [hnr, bind_eq_ok] at h
    obtain ⟨⟨r1, blk⟩, hread, h⟩ := h
    dsimp only at h
    split_ifs at h with hneg
    · simp only [pure_eq_ok, Except.ok.injEq, Prod.mk.injEq] at h
      omega
    have hk : start / 8192 < maxBlockNr := by
      obtain ⟨-, ⟨-, hr⟩ | ⟨hlt, -⟩⟩ := readBlock_spec hpos hread
      · rw [hr] at hneg
        exact absurd (by decide) hneg
      · omega
    have hbk : b = start / 8192 := by
      obtain ⟨h1, h2⟩ := hb
      omega
    rw [hbk]
    exact ⟨hk, reach_of_readBlock hk hpos hread⟩

end OsLab.Testfs
