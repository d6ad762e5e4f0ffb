/-
The block allocator on its own: `testfs_alloc_block` and `testfs_free_block` on a new file system, in any order.

The limit is a number of blocks and the freemap gives out numbers. They fit because the freemap gives out the smallest
free number: with fewer than `max_fs_blocks` blocks in use it is below `max_fs_blocks` (`Bitmap.alloc_le_card`). Neither
call stops the process as long as only blocks in use are freed (`Metered.allocBlock_returns`,
`Metered.freeBlock_returns`).
-/
import Mathlib.Tactic
import OsLab.Testfs.Undo

namespace OsLab.Testfs

open OsLab.Lib Function State

variable {s s' t : State} {b r : ℤ} {k : ℕ} {stack : ℕ → ℤ}

/-! ## One call -/

/-- the smallest free number is at most the number of those in use -/
theorem Bitmap.alloc_le_card {bm bm' : Bitmap} {i : ℕ} (h : bm.alloc = .ok (some (i, bm'))) : i ≤ bm.bits.card := by
  obtain ⟨hlt, -, hlow, -, -⟩ := Bitmap.alloc_eq_some h
  have hsub : Finset.range i ⊆ bm.bits := by
    intro j hj
    have hji := Finset.mem_range.1 hj
    exact Bitmap.mem_bits.2 ⟨hji.trans hlt, hlow j hji⟩
  calc i = (Finset.range i).card := (Finset.card_range i).symm
    _ ≤ bm.bits.card := Finset.card_le_card hsub

/-- below the limit the freemap has a free block -/
theorem Metered.bitmap_alloc (h : Metered s) (hroom : s.sb.usedBlockCount < s.sb.maxFsBlocks) :
    ∃ idx bm, s.blockFreemap.alloc = .ok (some (idx, bm)) := by
  have hmax := h.geo.maxBlocks
  have hbits := h.geo.blockBits
  have hused := h.used
  exact Bitmap.alloc_of_card_lt (by rw [hbits]; norm_num) (by omega)

theorem Metered.allocBlock_returns (h : Metered s) : ∃ r t, Testfs.allocBlock s = .ok (r, t) := by
  unfold Testfs.allocBlock
  split
  · exact ⟨_, _, rfl⟩
  · next hroom =>
    obtain ⟨idx, bm, hbm⟩ := h.bitmap_alloc (not_le.1 hroom)
    have hpos : ¬((idx : ℤ) < 0) := by omega
    simp only [getBlockFreemap, hbm, ok_bind, pure_eq_ok, hpos, if_false]
    exact ⟨_, _, rfl⟩

theorem Metered.freeBlock_returns (h : Metered s) (hb : s.busy b) : ∃ t, Testfs.freeBlock s b = .ok t := by
  obtain ⟨h146, hmem⟩ := hb
  have hstart := h.geo.dataBlocksStart
  have hpos : 0 < s.sb.usedBlockCount := by
    rw [h.used]
    exact Finset.card_pos.2 ⟨_, hmem⟩
  obtain ⟨hlt, hset⟩ := Bitmap.mem_bits.1 hmem
  obtain ⟨bm, hbm⟩ := Bitmap.unmark_returns hlt hset
  have hneg : ¬(b - 146 < 0) := by omega
  have hwrite : (0 : ℤ) ≤ b := by omega
  simp only [Testfs.freeBlock, zeroBlocks, writeBlocks, hwrite, if_true, ok_bind, hstart, hneg,
    if_false, putBlockFreemap, Nat.cast_ofNat, hbm, pure_eq_ok]
  exact ⟨_, if_pos hpos⟩

/-! ## Any order of calls -/

/-- a file system and the blocks that were allocated and not freed since -/
structure Allocator where
  fs : State
  taken : Finset ℤ

inductive BlockCall where
  | alloc
  | free (block : ℤ)
deriving DecidableEq

def Allocator.step (a : Allocator) : BlockCall → Except Stop Allocator
  | .alloc => do
    let (r, fs) ← allocBlock a.fs
    return ⟨fs, if 0 ≤ r then insert r a.taken else a.taken⟩
  | .free block => do
    let fs ← freeBlock a.fs block
    return ⟨fs, a.taken.erase block⟩

/-- only a block that is allocated is freed -/
def Allocator.names (a : Allocator) : BlockCall → Bool
  | .alloc => true
  | .free block => block ∈ a.taken

structure Allocator.Ok (a : Allocator) (k : ℕ) : Prop where
  metered : Metered a.fs
  disk : Disk a.fs
  max : a.fs.sb.maxFsBlocks = k
  taken : ∀ x, x ∈ a.taken ↔ a.fs.busy x

namespace Allocator

variable {a a' : Allocator}

/-- as many blocks are allocated as bits are set -/
theorem Ok.card (h : a.Ok k) : a.taken.card = a.fs.sb.usedBlockCount := by
  have himage : a.taken = a.fs.blockFreemap.bits.image fun i : ℕ => (146 + i : ℤ) := by
    ext x
    rw [h.taken, Finset.mem_image]
    constructor
    · rintro ⟨h146, hmem⟩
      exact ⟨_, hmem, by omega⟩
    · rintro ⟨i, hi, rfl⟩
      refine ⟨by omega, ?_⟩
      have hto : (146 + (i : ℤ) - 146).toNat = i := by omega
      rwa [hto]
  rw [himage, Finset.card_image_of_injective _ fun i j hij => by simpa using hij, h.metered.used]

/-- an allocation fails and changes nothing, or it gives out a block nobody has -/
theorem Ok.alloc (h : a.Ok k) (hr : allocBlock a.fs = .ok (r, t)) :
    (r = -ENOSPC ∧ t = a.fs ∧ k ≤ a.taken.card) ∨
      (146 ≤ r ∧ r < 146 + k ∧ a.taken.card < k ∧ r ∉ a.taken ∧ Ok ⟨t, insert r a.taken⟩ k) := by
  have hcard := h.card
  have hgeo := h.metered.geo
  rcases allocBlock_cases hr with ⟨hr0, ht, hfull⟩ | ⟨idx, bm, hbm, hroom, hr1, ht⟩
  · refine Or.inl ⟨hr0, ht, ?_⟩
    rw [hcard, ← h.max]
    exact hfull.elim id fun hnone => max_le_of_alloc_none hgeo h.metered.used hnone
  · obtain ⟨hlt, -, -, -, -⟩ := Bitmap.alloc_eq_some hbm
    obtain ⟨hins, hnot⟩ := Bitmap.bits_of_alloc hbm
    have hle := Bitmap.alloc_le_card hbm
    have hused := h.metered.used
    have hmax := h.max
    have hidx := hlt
    rw [hgeo.blockBits] at hidx
    rw [hgeo.dataBlocksStart] at hr1
    push_cast at hr1
    have hto : (r - 146).toNat = idx := by omega
    refine Or.inr ⟨by omega, by omega, by omega, ?_, ⟨h.metered.allocBlock hr, ?_, ?_, fun x => ?_⟩⟩
    · rw [h.taken]
      rintro ⟨-, hmem⟩
      exact hnot (hto ▸ hmem)
    · exact disk_of_writes hgeo h.disk hidx (fun w hw => Bitmap.alloc_word hbm hw) ht
    · rw [ht]; exact hmax
    · have hfm : t.blockFreemap = bm := by rw [ht]; rfl
      simp only [Finset.mem_insert, h.taken, State.busy, hfm, hins]
      by_cases hx : 146 ≤ x
      · have hiff : (x - 146).toNat = idx ↔ x = r := by omega
        simp only [hx, true_and, hiff]
      · have hne : x ≠ r := by omega
        simp [hx, hne]

/-- freeing an allocated block -/
theorem Ok.free (h : a.Ok k) (hf : freeBlock a.fs b = .ok t) : Ok ⟨t, a.taken.erase b⟩ k := by
  have hgeo := h.metered.geo
  obtain ⟨h146, bm, hbm, -, ht⟩ := freeBlock_cases hgeo hf
  obtain ⟨hlt, -, -, -⟩ := Bitmap.unmark_eq_ok hbm
  obtain ⟨hdel, -⟩ := Bitmap.bits_of_unmark hbm
  rw [hgeo.blockBits] at hlt
  have hwrite : Frame a.fs { a.fs with dev := a.fs.dev.write b zeroMem } := frame_write h146
  have hgeo' := hwrite.geo hgeo
  refine ⟨h.metered.freeBlock hf, ?_, ?_, fun x => ?_⟩
  · exact disk_of_writes hgeo' (h.disk.write h146) hlt (fun w hw => Bitmap.unmark_word hbm hw) ht
  · rw [ht]; exact h.max
  · have hfm : t.blockFreemap = bm := by rw [ht]; rfl
    simp only [Finset.mem_erase, h.taken, State.busy, hfm, hdel]
    by_cases hx : 146 ≤ x
    · have hiff : (x - 146).toNat = (b - 146).toNat ↔ x = b := by omega
      simp only [hx, true_and, ne_eq, hiff]
    · simp [hx]

theorem Ok.step (h : a.Ok k) {c : BlockCall} (hs : a.step c = .ok a') : a'.Ok k := by
  cases c with
  | alloc =>
    obtain ⟨⟨r, t⟩, hr, hs⟩ := bind_eq_ok.1 hs
    cases hs
    rcases h.alloc hr with ⟨rfl, rfl, -⟩ | ⟨hpos, -, -, -, hok⟩
    · have hneg : ¬(0 ≤ -ENOSPC) := by decide
      rw [if_neg hneg]
      exact ⟨h.metered, h.disk, h.max, h.taken⟩
    · rw [if_pos (by omega)]
      exact hok
  | free block =>
    obtain ⟨t, hf, hs⟩ := bind_eq_ok.1 hs
    cases hs
    exact h.free hf

end Allocator

/-- a new device can be opened -/
theorem initSuperBlock_makeDev (hk : k ≤ 1048576) (stack : ℕ → ℤ) :
    ∃ s, initSuperBlock (makeDev k) stack = .ok s ∧ Allocator.Ok ⟨s, ∅⟩ k := by
  obtain ⟨s, hs⟩ : ∃ s, initSuperBlock (makeDev k) stack = .ok s := by
    unfold initSuperBlock
    rw [if_neg (by simp [makeDev])]
    dsimp only
    rw [decode_makeDev hk, if_neg (by simp [makeDev])]
    exact ⟨_, rfl⟩
  have hblank := initSuperBlock_blank hk hs
  have hcore := hblank.sound.core
  refine ⟨s, hs, hcore.metered, hcore.disk, hblank.max, fun x => ?_⟩
  have hempty : s.blockFreemap.bits = ∅ := by
    rw [← Finset.card_eq_zero, ← hcore.acc.used, hblank.used]
  simp [State.busy, hempty]

/-- **Block allocation respects the size limit.** A new file system for at most 16 * 8192 * 8 blocks opens, and after
any calls in which only allocated blocks are freed: the counter is the number of set bits and of allocated blocks; the
freemap on disk is the one in memory; an allocation returns a new block of the first `maxFsBlocks` if there are fewer
allocated, else the error, and the freemap itself is never the one to be full; and a block that is allocated can be
freed. -/
theorem block_allocation (maxFsBlocks : ℕ) (hmax : maxFsBlocks ≤ 16 * 8192 * 8) (stack : ℕ → ℤ) :
    ∃ s0, initSuperBlock (makeDev maxFsBlocks) stack = .ok s0 ∧
      ∀ a, Run Allocator.step Allocator.names ⟨s0, ∅⟩ a →
        a.fs.sb.usedBlockCount = a.fs.blockFreemap.nrAllocated ∧ a.fs.sb.usedBlockCount = a.taken.card ∧
        (∀ j < 16, ∀ i < 8192,
          a.fs.dev.blocks (a.fs.sb.blockFreemapStart + j : ℕ) i = a.fs.blockFreemap.v (j * 8192 + i)) ∧
        (a.taken.card < maxFsBlocks → ∃ idx bm, a.fs.blockFreemap.alloc = .ok (some (idx, bm))) ∧
        (∃ r s, allocBlock a.fs = .ok (r, s) ∧ (0 ≤ r ↔ a.taken.card < maxFsBlocks) ∧
          (r < 0 → r = -ENOSPC ∧ s = a.fs) ∧
          (0 ≤ r → r ∉ a.taken ∧ a.fs.sb.dataBlocksStart ≤ r ∧ r < a.fs.sb.dataBlocksStart + maxFsBlocks)) ∧
        ∀ block ∈ a.taken, ∃ s, freeBlock a.fs block = .ok s := by
  obtain ⟨s0, hs0, h0⟩ := initSuperBlock_makeDev (by omega) stack
  refine ⟨s0, hs0, fun a hrun => ?_⟩
  have h : a.Ok maxFsBlocks := hrun.inv (fun a => a.Ok maxFsBlocks) (fun _ _ _ h _ hs => h.step hs) h0
  have hgeo := h.metered.geo
  have hcard := h.card
  refine ⟨?_, hcard.symm, ?_, fun hroom => ?_, ?_, fun block hmem => ?_⟩
  · rw [h.metered.used, Bitmap.nrAllocated_eq_card]
  · rw [hgeo.blockFreemapStart]
    exact h.disk.blocks
  · exact h.metered.bitmap_alloc (by rw [h.max, ← hcard]; exact hroom)
  · obtain ⟨r, s, hr⟩ := h.metered.allocBlock_returns
    have hstart := hgeo.dataBlocksStart
    refine ⟨r, s, hr, ?_⟩
    rcases h.alloc hr with ⟨rfl, rfl, hfull⟩ | ⟨hlow, hhigh, hroom, hnew, -⟩
    · have hneg : -ENOSPC < 0 := by decide
      exact ⟨⟨fun hpos => absurd hpos (not_le.2 hneg), fun hroom => absurd hroom (not_lt.2 hfull)⟩,
        fun _ => ⟨rfl, rfl⟩, fun hpos => absurd hpos (not_le.2 hneg)⟩
    · exact ⟨⟨fun _ => hroom, fun _ => by omega⟩, fun hneg => by omega, fun _ => ⟨hnew, by omega, by omega⟩⟩
  · exact h.metered.freeBlock_returns ((h.taken block).1 hmem)

/-- with a limit of one block: the first allocation succeeds and the second one does not -/
theorem block_allocation_one : ∃ s0 r s, initSuperBlock (makeDev 1) (fun _ => 0) = .ok s0 ∧
    allocBlock s0 = .ok (r, s) ∧ 0 ≤ r ∧ ∃ r', allocBlock s = .ok (r', s) ∧ r' < 0 := by
  obtain ⟨s0, hs0, hall⟩ := block_allocation 1 (by norm_num) fun _ => 0
  have hrun : Run Allocator.step Allocator.names ⟨s0, ∅⟩ ⟨s0, ∅⟩ := .refl _
  obtain ⟨-, -, -, -, ⟨r, s, hr, hiff, -, -⟩, -⟩ := hall ⟨s0, ∅⟩ hrun
  have hpos : 0 ≤ r := hiff.2 (by simp)
  have hstep : Allocator.step ⟨s0, ∅⟩ .alloc = .ok ⟨s, {r}⟩ := by
    dsimp only at hr
    simp only [Allocator.step, hr, ok_bind, pure_eq_ok, hpos, if_true]
    rfl
  obtain ⟨-, -, -, -, ⟨r', s', hr', hiff', hfail, -⟩, -⟩ := hall ⟨s, {r}⟩ (hrun.tail .alloc rfl hstep)
  have hneg : r' < 0 := not_le.1 fun h => absurd (hiff'.1 h) (by simp)
  obtain ⟨-, hsame⟩ := hfail hneg
  rw [hsame] at hr'
  exact ⟨s0, r, s, hs0, hr, hpos, r', hr', hneg⟩

end OsLab.Testfs
