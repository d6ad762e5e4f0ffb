/-
New inodes are fresh: `testfs_create_inode` between any two commands.

The number comes from the freemap, the dinode from the inode block or from a copy that is still in the hash table. Both
are zeros for a number that is not in use (`Remapped.load_fresh`). The freemap has 65536 bits and gives out the smallest
clear one; with the numbers below 16384 in use it gives out one that has no inode block, and that is undone.

The invariant behind the first half does not survive a failed write that reads `indirect_allocated` before it was set: a
second-level block that is still in use is freed, and what the next file stores there are block numbers for the first
one. A write through them can reach the inode blocks (`stale_dinode`).
-/
import Mathlib.Tactic
import OsLab.Testfs.Undo

namespace OsLab.Testfs

open OsLab.Lib Function State

variable {s s' s0 t : State} {n r : ℤ} {i : Inode} {k : Bool} {fsSizeMb : ℕ} {stack : ℕ → ℤ}

/-! ## The counter of the inodes -/

/-- both counters count the bits of their freemaps -/
structure Counted (s : State) : Prop where
  metered : Metered s
  inodes : s.sb.usedInodeCount = s.inodeFreemap.bits.card

namespace Counted

theorem congr (h : Counted s) (hm : Metered t) (hsb : t.sb.usedInodeCount = s.sb.usedInodeCount)
    (hmap : t.inodeFreemap = s.inodeFreemap) : Counted t := ⟨hm, by rw [hsb, hmap, h.inodes]⟩

theorem getInodeFreemap (h : Counted s) (hr : getInodeFreemap s = .ok (r, t)) : Counted t := by
  refine ⟨h.metered.getInodeFreemap hr, ?_⟩
  unfold Testfs.getInodeFreemap at hr
  obtain ⟨a, ha, hr⟩ := bind_eq_ok.1 hr
  cases a with
  | none =>
    cases hr
    exact h.inodes
  | some q =>
    obtain ⟨idx, bm⟩ := q
    cases hr
    obtain ⟨hins, hnot⟩ := Bitmap.bits_of_alloc ha
    change s.sb.usedInodeCount + 1 = bm.bits.card
    rw [hins, Finset.card_insert_of_notMem hnot, h.inodes]

theorem putInodeFreemap (h : Counted s) (hr : putInodeFreemap s n = .ok t) : Counted t := by
  refine ⟨h.metered.putInodeFreemap hr, ?_⟩
  unfold Testfs.putInodeFreemap at hr
  obtain ⟨bm, hbm, hr⟩ := bind_eq_ok.1 hr
  dsimp only at hr
  split_ifs at hr
  cases hr
  obtain ⟨hdel, hmem⟩ := Bitmap.bits_of_unmark hbm
  change s.sb.usedInodeCount - 1 = bm.bits.card
  rw [hdel, Finset.card_erase_of_mem hmem, h.inodes]

/-- every change keeps the counter -/
theorem prim (hp : Prim k s t) (h : Counted s) : Counted t := by
  have hm := h.metered.prim hp
  cases hp with
  | modify nr f hf => exact h.congr hm rfl rfl
  | write start block hpos => exact h.congr hm rfl rfl
  | allocBlock ha =>
    rcases allocBlock_cases ha with ⟨-, rfl, -⟩ | ⟨idx, bm, -, -, -, rfl⟩
    · exact h
    · exact h.congr hm rfl rfl
  | freeBlock hf =>
    obtain ⟨-, bm, -, -, rfl⟩ := freeBlock_cases h.metered.geo hf
    exact h.congr hm rfl rfl
  | getInodeFreemap hr => exact h.getInodeFreemap hr
  | putInodeFreemap hr => exact h.putInodeFreemap hr
  | stack f => exact h.congr hm rfl rfl
  | fails l => exact h.congr hm rfl rfl
  | print p => exact h.congr hm rfl rfl
  | curDir nr => exact h.congr hm rfl rfl
  | getInode hget =>
    unfold Testfs.getInode at hget
    split at hget
    · cases hget
      exact h.congr hm rfl rfl
    · obtain ⟨blk, -, hget⟩ := bind_eq_ok.1 hget
      cases hget
      exact h.congr hm rfl rfl
  | putInode hput =>
    unfold Testfs.putInode at hput
    obtain ⟨i, -, hput⟩ := bind_eq_ok.1 hput
    split_ifs at hput
    · cases hput
      exact h.congr hm rfl rfl
    · cases hput
      exact h.congr hm rfl rfl

end Counted

/-- on a new file system one inode is in use -/
theorem counted_start (hk : validSize fsSizeMb) (h0 : start fsSizeMb stack = .ok s) : Counted s := by
  obtain ⟨r1, s1, t, u, hinit, hroot, hsound, halloc, -, hu, -, -, hget⟩ := start_cases hk h0
  have hk' : fsSizeMb * 2 ^ 20 / 8192 ≤ 1048576 := by
    have h2 := hk.2
    omega
  have hblank := initSuperBlock_blank hk' hinit
  have hnone : s1.inodeFreemap.bits = ∅ := by
    refine Finset.eq_empty_of_forall_notMem fun j hj => ?_
    exact hblank.unused j ⟨Int.natCast_nonneg j, by simpa using hj⟩
  have h1 : Counted s1 := ⟨hblank.sound.core.metered, by rw [hnone, initSuperBlock_sb hk' hinit]; rfl⟩
  have ht : Counted t := (createFileOrDir_moves s1 none iDir [] _ hroot).inv (fun _ _ => Counted.prim) h1
  have hcard : t.inodeFreemap.bits.card ≤ 65536 := by
    rw [← ht.metered.geo.inodeBits]
    exact Bitmap.card_bits_le _
  have hsame : u.sb.usedInodeCount = t.sb.usedInodeCount := by
    have hi := ht.inodes
    rw [hu.sb]
    dsimp only
    omega
  exact (Prim.getInode hget).moves.inv (fun _ _ => Counted.prim)
    ⟨hu.sound.core.metered, by rw [hsame, ht.inodes, hu.inodeBits]⟩

/-- every state of a run, and every state a command passes through -/
theorem counted_of_run (hk : validSize fsSizeMb) (h0 : start fsSizeMb stack = .ok s0) (hrun : Run step anyStep s0 s)
    (hm : Moves true s t) : Counted t := by
  have hs : Counted s := run_inv (fun _ _ => Counted.prim) hrun (counted_start hk h0)
  exact hm.inv (fun _ _ => Counted.prim) hs

/-! ## `testfs_create_inode` -/

/-- the freemap has a number to give out -/
theorem Counted.getInodeFreemap_returns (h : Counted s) (hmem : Mem s) :
    ∃ idx bm t, s.inodeFreemap.alloc = .ok (some (idx, bm)) ∧ Testfs.getInodeFreemap s = .ok ((idx : ℤ), t) ∧
      Remapped s t bm ∧ Counted t := by
  have hbits := h.metered.geo.inodeBits
  have hcard : s.inodeFreemap.bits.card ≤ 16384 := by
    have hsub : s.inodeFreemap.bits ⊆ Finset.range 16384 := by
      intro j hj
      have hlt := hmem.allocRange j ⟨Int.natCast_nonneg j, by simpa using hj⟩
      exact Finset.mem_range.2 (by omega)
    simpa using Finset.card_le_card hsub
  obtain ⟨idx, bm, ha⟩ := Bitmap.alloc_of_card_lt (b := s.inodeFreemap) (by rw [hbits]; norm_num) (by omega)
  obtain ⟨t, hget⟩ : ∃ t, Testfs.getInodeFreemap s = .ok ((idx : ℤ), t) := by
    unfold Testfs.getInodeFreemap
    rw [ha]
    exact ⟨_, rfl⟩
  refine ⟨idx, bm, t, ha, hget, ?_, h.getInodeFreemap hget⟩
  rcases getInodeFreemap_cases h.metered.geo hget with ⟨hc, -⟩ | ⟨idx', bm', ha', -, -, hmap⟩
  · have hneg : -ENOSPC < 0 := by decide
    omega
  · rw [ha] at ha'
    cases ha'
    exact hmap

theorem Counted.putInodeFreemap_returns {m : ℕ} (h : Counted s) (hm : s.inodeFreemap.isset m = true)
    (hlt : m < s.inodeFreemap.nbits) : ∃ t, Testfs.putInodeFreemap s m = .ok t := by
  obtain ⟨bm, hbm⟩ := Bitmap.unmark_returns hlt hm
  have hpos : 0 < s.sb.usedInodeCount := by
    rw [h.inodes]
    exact Finset.card_pos.2 ⟨m, Bitmap.mem_bits.2 ⟨hlt, hm⟩⟩
  unfold Testfs.putInodeFreemap
  rw [Int.toNat_natCast, hbm, ok_bind]
  exact ⟨_, if_pos hpos⟩

theorem getInode_returns (hg : Geo s) (h0 : 0 ≤ n) (h1 : n < 16384) : ∃ t, getInode s n = .ok t := by
  unfold getInode
  cases s.find n with
  | some i => exact ⟨_, rfl⟩
  | none =>
    have hnr : 0 ≤ n ∧ n.toNat / inodesPerBlock < nrInodeBlocks := by
      unfold inodesPerBlock nrInodeBlocks
      omega
    have hblk : inodeToBlockNr n = .ok (n.toNat / inodesPerBlock) := if_pos hnr
    have hnb := hg.nblocks
    have hstart := hg.inodeBlocksStart
    have hread : ∃ blk, readInodeBlock s n = .ok blk := by
      unfold readInodeBlock
      rw [hblk, ok_bind]
      refine ⟨_, if_pos ⟨Int.natCast_nonneg _, ?_⟩⟩
      have hlt := hnr.2
      unfold nrInodeBlocks at hlt
      omega
    obtain ⟨blk, hblk⟩ := hread
    rw [hblk]
    exact ⟨_, rfl⟩

/-- a number that is not in use with a dinode of zeros, or all numbers with an inode block are in use -/
theorem createInode_returns (h : Sound s) (hc : Counted s) (type : ℤ) :
    (∃ n t j, createInode s type = .ok (0, n, t) ∧ 0 ≤ n ∧ n < 16384 ∧ ¬s.alloc n ∧ t.find n = some j ∧
        j.dinode = { Dinode.zero with iType := type }) ∨
      ∃ t, createInode s type = .ok (-ENOSPC, 0, t) ∧ (∀ n, 0 ≤ n → n < 16384 → s.alloc n) ∧
        t.inodeFreemap = s.inodeFreemap ∧ t.sb.usedInodeCount = s.sb.usedInodeCount := by
  have hmem := h.core.mem
  obtain ⟨idx, bm, s1, ha, hget, hmap, hc1⟩ := hc.getInodeFreemap_returns hmem
  obtain ⟨hlt, hclear, hlow, hnbits, hset⟩ := Bitmap.alloc_eq_some ha
  have hgeo1 := hmap.geo h.core.geo hnbits
  have hneg : ¬((idx : ℤ) < 0) := by omega
  have hunfold : ∀ type, createInode s type = if nrInodeBlocks ≤ idx / inodesPerBlock then do
        let s ← putInodeFreemap s1 idx
        return (-ENOSPC, 0, s)
      else do
        let s ← getInode s1 idx
        return (0, (idx : ℤ), (s.setDinode idx fun d => { d with iType := type }).setDirty idx) := by
    intro type
    unfold createInode
    rw [hget, ok_bind]
    dsimp only
    rw [if_neg hneg, Int.toNat_natCast]
  by_cases hbig : nrInodeBlocks ≤ idx / inodesPerBlock
  · right
    rw [hunfold, if_pos hbig]
    unfold nrInodeBlocks inodesPerBlock at hbig
    have hbit : s1.inodeFreemap.isset idx = true := by
      rw [hmap.map, hset]
      simp
    obtain ⟨t, hput⟩ := hc1.putInodeFreemap_returns hbit (by rw [hmap.map, hnbits]; exact hlt)
    obtain ⟨bm', hbm', -, hmap'⟩ := putInodeFreemap_cases hgeo1 hput
    rw [Int.toNat_natCast, hmap.map] at hbm'
    obtain ⟨-, -, hnbits', hset'⟩ := Bitmap.unmark_eq_ok hbm'
    have hback : t.inodeFreemap = s.inodeFreemap := by
      have hv : bm'.v = s.inodeFreemap.v := by
        refine Bitmap.v_eq_of_isset fun j => ?_
        rw [hset', hset]
        by_cases hj : j = idx
        · subst hj
          simp [hclear]
        · simp [hj]
      rw [hmap'.map, Bitmap.mk.injEq]
      exact ⟨hnbits'.trans hnbits, hv⟩
    refine ⟨t, by rw [hput]; rfl, fun n h0 h1 => ⟨h0, Bitmap.mem_bits.2 ⟨by omega, hlow _ (by omega)⟩⟩, hback, ?_⟩
    rw [(hc1.putInodeFreemap hput).inodes, hback, hc.inodes]
  · left
    rw [hunfold, if_neg hbig]
    unfold nrInodeBlocks inodesPerBlock at hbig
    have hfresh : ¬s.alloc idx := fun hc => (Bitmap.bits_of_alloc ha).2 (by simpa [State.alloc] using hc.2)
    obtain ⟨s2, hinode⟩ := getInode_returns (n := idx) hgeo1 (by omega) (by omega)
    obtain ⟨-, -, i, hi0, hfind⟩ := hmap.load_fresh hmem hgeo1 (by omega) hfresh hinode
    rw [hinode]
    refine ⟨idx, _, { i with dinode := { i.dinode with iType := type }, dirty := true }, rfl, by omega,
      by omega, hfresh, ?_, by rw [hi0]⟩
    rw [find_setDinode_setDirty, hfind, if_pos rfl, if_pos rfl]
    rfl

/-- the new inode `n`: no entry of a directory is in use for it, and it is empty -/
structure Fresh (s t : State) (n type : ℤ) : Prop where
  range : 0 ≤ n ∧ n < nrInodeBlocks * inodesPerBlock
  unnamed : ∀ d es, s.isDir d → Directory s d es → ∀ e ∈ es, e.live → e.dInodeNr ≠ n
  inode : ∃ i, t.find n = some i ∧ i.dinode = { Dinode.zero with iType := type }

/-- `testfs_create_inode` makes a fresh inode, or it fails because all inode numbers are in use and changes neither the
freemap nor the counter; the counter is the number of the bits that are set. -/
def CreatesFresh (s : State) (type : ℤ) : Prop :=
  s.sb.usedInodeCount = s.inodeFreemap.nrAllocated ∧
    ∃ r n t, createInode s type = .ok (r, n, t) ∧ t.sb.usedInodeCount = t.inodeFreemap.nrAllocated ∧
      (r = 0 ∧ Fresh s t n type ∨
        r = -ENOSPC ∧ t.inodeFreemap = s.inodeFreemap ∧ t.sb.usedInodeCount = s.sb.usedInodeCount) ∧
      (r = -ENOSPC ↔ ∀ m : ℕ, m < nrInodeBlocks * inodesPerBlock → s.inodeFreemap.isset m = true)

/-- **New inodes are fresh.** -/
theorem new_inodes_fresh (hk : validSize fsSizeMb) (hstack : ∀ j, stack j = 0) (h0 : start fsSizeMb stack = .ok s0)
    (hrun : Run step dirsWritten s0 s) (type : ℤ) : CreatesFresh s type := by
  obtain ⟨⟨D, hg⟩, -⟩ := run_graph hk hstack h0 hrun
  have hc : Counted s := counted_of_run hk h0 (hrun.mono fun _ _ _ => rfl) (Moves.refl s)
  have hset : ∀ m : ℕ, s.inodeFreemap.isset m = true ∧ m < 65536 ↔ s.alloc m := by
    intro m
    simp only [State.alloc, Int.toNat_natCast, Bitmap.mem_bits, hg.sound.core.geo.inodeBits]
    exact ⟨fun h => ⟨Int.natCast_nonneg m, h.2, h.1⟩, fun h => ⟨h.2.2, h.2.1⟩⟩
  have hused : ∀ {t : State}, Counted t → t.sb.usedInodeCount = t.inodeFreemap.nrAllocated := fun ht => by
    rw [ht.inodes, Bitmap.nrAllocated_eq_card]
  have hcounted : ∀ {r n t}, createInode s type = .ok (r, n, t) → Counted t := fun hr =>
    (createInode_moves s type _ hr).inv (fun _ _ => Counted.prim) hc
  refine ⟨hused hc, ?_⟩
  rcases createInode_returns hg.sound hc type with ⟨n, t, i, hr, hn0, hn1, hnew, hi, hzero⟩ | ⟨t, hr, hall, hback⟩
  · refine ⟨0, n, t, hr, hused (hcounted hr),
      Or.inl ⟨rfl, ⟨hn0, hn1⟩, fun d es hd hdir e he hlive heq => hnew ?_, i, hi, hzero⟩,
      ⟨fun hc => absurd hc (by decide), fun hall => absurd ((hset n.toNat).1 ⟨hall _ ?_, by omega⟩) ?_⟩⟩
    · rw [← heq]
      exact hg.alloc_of_live hd ((hdir.unique (hg.directory hd)) ▸ he) hlive
    · unfold nrInodeBlocks inodesPerBlock
      omega
    · rwa [Int.toNat_of_nonneg hn0]
  · refine ⟨-ENOSPC, 0, t, hr, hused (hcounted hr), Or.inr ⟨rfl, hback⟩, fun _ m hm => ?_, fun _ => rfl⟩
    unfold nrInodeBlocks inodesPerBlock at hm
    exact ((hset m).2 (hall m (by omega) (by omega))).1

/-- beside a file with data -/
theorem new_inodes_fresh_second :
    ∃ s0 s, start 1 (fun _ => 0) = .ok s0 ∧ Run step dirsWritten s0 s ∧ s.sb.usedInodeCount = 2 ∧
    CreatesFresh s iFile := by
  have h : after (start 1 fun _ => 0) (fun s0 => passes step dirsWritten (fun s => decide (s.sb.usedInodeCount = 2)) s0
      [.create tokenF, .write tokenF 0 tokenF]) = true := by decide +kernel
  obtain ⟨s0, h0, hpass⟩ := exists_of_after h
  obtain ⟨s, hrun, hused⟩ := run_of_passes _ hpass
  exact ⟨s0, s, h0, hrun, of_decide_eq_true hused, new_inodes_fresh ⟨le_rfl, by norm_num⟩ (fun _ => rfl) h0 hrun iFile⟩

/-- a token with the byte 18, the number of the first inode block -/
def tokenBlock : Token := ⟨[18], by decide, by decide⟩

/-- With 128 blocks in use, a write to `f` behind its last indirect block fails, and a stale 1 in `indirect_allocated`
frees the second-level block that is there. It becomes the data block of `g`, which stores the number 18 at its
beginning. A write to `f` then goes to block 18, the first inode block, at the size of inode 3. -/
theorem stale_dinode :
    ¬ ∀ (fsSizeMb : ℕ) (stack : ℕ → ℤ) (s0 s : State) (type : ℤ), validSize fsSizeMb → start fsSizeMb stack = .ok s0 →
      Run step dirsWritten s0 s → CreatesFresh s type := by
  intro hall
  have h : after (start 1 fun _ => 1) (fun s0 => after (step s0 (.create tokenF)) fun s1 => decide (s1.dirFails = []) &&
      after (step s1 (.write tokenF 16859136 tokenF)) fun s2 => decide (s2.dirFails = []) &&
      after (step s2 (.create tokenG)) fun s3 => decide (s3.dirFails = []) &&
      after (fillStep s3 tokenF.chars 0 (123 * 8192 - 1)) fun s4 => decide (s4.dirFails = []) &&
      after (step s4 (.write tokenF 16867328 tokenF)) fun s5 => decide (s5.dirFails = []) &&
      after (step s5 (.write tokenG 0 tokenBlock)) fun s6 => decide (s6.dirFails = []) &&
      after (step s6 (.write tokenF 16859384 tokenF)) fun s7 => decide (s7.dirFails = []) &&
      after (createInode s7 iFile) fun x => decide (x.1 = 0) && (x.2.2.find x.2.1).any fun i =>
        decide (i.dinode.iSize ≠ 0)) =
        true := by decide +kernel
  obtain ⟨s0, h0, h⟩ := exists_of_after h
  obtain ⟨s1, h1, h⟩ := exists_of_after h
  rw [Bool.and_eq_true, decide_eq_true_eq] at h
  obtain ⟨hf1, h⟩ := h
  obtain ⟨s2, h2, h⟩ := exists_of_after h
  rw [Bool.and_eq_true, decide_eq_true_eq] at h
  obtain ⟨hf2, h⟩ := h
  obtain ⟨s3, h3, h⟩ := exists_of_after h
  rw [Bool.and_eq_true, decide_eq_true_eq] at h
  obtain ⟨hf3, h⟩ := h
  obtain ⟨s4, h4, h⟩ := exists_of_after h
  rw [Bool.and_eq_true, decide_eq_true_eq] at h
  obtain ⟨hf4, h⟩ := h
  obtain ⟨s5, h5, h⟩ := exists_of_after h
  rw [Bool.and_eq_true, decide_eq_true_eq] at h
  obtain ⟨hf5, h⟩ := h
  obtain ⟨s6, h6, h⟩ := exists_of_after h
  rw [Bool.and_eq_true, decide_eq_true_eq] at h
  obtain ⟨hf6, h⟩ := h
  obtain ⟨s7, h7, h⟩ := exists_of_after h
  rw [Bool.and_eq_true, decide_eq_true_eq] at h
  obtain ⟨hf7, h⟩ := h
  obtain ⟨⟨r, n, t⟩, hr, h⟩ := exists_of_after h
  rw [Bool.and_eq_true, decide_eq_true_eq, Option.any_eq_true] at h
  obtain ⟨rfl, i, hi, hsize⟩ := h
  rw [← step_fill] at h4
  have hrun : Run step dirsWritten s0 s7 := run_step (run_step (run_step (run_step (run_step (run_step (run_step
    (.refl s0) h1 hf1) h2 hf2) h3 hf3) h4 hf4) h5 hf5) h6 hf6) h7 hf7
  obtain ⟨-, r', n', t', hr', -, hend, -⟩ := hall 1 _ s0 s7 iFile ⟨le_rfl, by norm_num⟩ h0 hrun
  rw [hr] at hr'
  cases hr'
  rcases hend with ⟨-, hfresh⟩ | ⟨hc, -⟩
  · obtain ⟨i', hi', hzero⟩ := hfresh.inode
    rw [hi] at hi'
    cases hi'
    rw [hzero] at hsize
    exact absurd hsize (by decide)
  · exact absurd hc (by decide)

end OsLab.Testfs
