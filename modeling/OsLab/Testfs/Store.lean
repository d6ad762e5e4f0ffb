/-
What the operations on the freemap, the super block and the hash table do.

`alloc n` and `busy b` say that an inode number and a block are in use, `dinode n` is the dinode of a number: the one in
memory if the inode is in the hash table, else the one on disk. `Geo` is the layout every file system of `mktestfs` has,
`Disk` says that the super block and the freemaps on disk are those in memory. `Took` and `Gave` describe the allocation
and the release of one block for an inode; `Frame` is what all operations on the blocks of an inode leave alone.
-/
import Mathlib.Tactic
import OsLab.Testfs.Bitmap
import OsLab.Testfs.Model

namespace OsLab.Testfs

open OsLab.Lib Function

/-! ## Views of the state -/

namespace State

/-- inode number `n` is in use -/
def alloc (s : State) (n : ℤ) : Prop := 0 ≤ n ∧ n.toNat ∈ s.inodeFreemap.bits

/-- block `b` is in use -/
def busy (s : State) (b : ℤ) : Prop := 146 ≤ b ∧ (b - 146).toNat ∈ s.blockFreemap.bits

/-- the dinode in the inode blocks -/
def diskDinode (s : State) (n : ℤ) : Dinode :=
  Dinode.get (s.dev.blocks (18 + n.toNat / 128 : ℕ)) (n.toNat % 128 * 64)

/-- the dinode in memory if the inode is in the hash table, else the one on disk -/
def dinode (s : State) (n : ℤ) : Dinode :=
  match s.find n with
  | some i => i.dinode
  | none => s.diskDinode n

end State

open State

variable {s s' s'' t : State} {n m b : ℤ} {i : Inode}

theorem dinode_of_find (h : s.find n = some i) : s.dinode n = i.dinode := by simp [dinode, h]

theorem dinode_of_none (h : s.find n = none) : s.dinode n = s.diskDinode n := by simp [dinode, h]

structure Geo (s : State) : Prop where
  inodeFreemapStart : s.sb.inodeFreemapStart = 1
  blockFreemapStart : s.sb.blockFreemapStart = 2
  inodeBlocksStart : s.sb.inodeBlocksStart = 18
  dataBlocksStart : s.sb.dataBlocksStart = 146
  maxBlocks : s.sb.maxFsBlocks ≤ 1048576
  nblocks : 146 ≤ s.dev.nblocks
  inodeBits : s.inodeFreemap.nbits = 65536
  blockBits : s.blockFreemap.nbits = 1048576

/-- the super block and the freemaps on disk are those in memory -/
structure Disk (s : State) : Prop where
  super : s.dev.blocks 0 = s.sb.encode
  inodes : ∀ j < 8192, s.dev.blocks 1 j = s.inodeFreemap.v j
  blocks : ∀ k < 16, ∀ j < 8192, s.dev.blocks (2 + k : ℕ) j = s.blockFreemap.v (k * 8192 + j)

theorem lt_of_busy (hg : Geo s) (h : s.busy b) : b < 146 + 1048576 := by
  have hlt := (Bitmap.mem_bits.1 h.2).1
  rw [hg.blockBits] at hlt
  have hpos := h.1
  omega

/-! ## The hash table -/

theorem find_modify {f : Inode → Inode} (hf : ∀ i, (f i).iNr = i.iNr) (m : ℤ) :
    (s.modify n f).find m = if m = n then (s.find n).map f else s.find m := by
  have hlist : ∀ l : List Inode, (l.map fun i => if i.iNr = n then f i else i).find? (fun i => i.iNr = m) =
      if m = n then (l.find? fun i => i.iNr = n).map f else l.find? fun i => i.iNr = m := by
    intro l
    induction l with
    | nil => simp
    | cons a l ih =>
      by_cases ha : a.iNr = n
      · by_cases hm : m = n
        · subst hm
          simp [ha, hf]
        · have hne : ¬n = m := fun h => hm h.symm
          simp only [List.map_cons, List.find?_cons, ha, hf, if_true, hne, decide_false, ih, hm, if_false]
      · by_cases hm : m = n
        · subst hm
          simp only [List.map_cons, List.find?_cons, ha, if_false, decide_false, ih, if_true]
        · by_cases ham : a.iNr = m
          · simp [ham, hm]
          · simp only [List.map_cons, List.find?_cons, ha, ham, if_false, decide_false, ih, hm]
  exact hlist s.hash

theorem keys_modify {f : Inode → Inode} (hf : ∀ i, (f i).iNr = i.iNr) :
    (s.modify n f).hash.map Inode.iNr = s.hash.map Inode.iNr := by
  simp only [State.modify, List.map_map]
  refine List.map_congr_left fun i _ => ?_
  simp only [comp_apply]
  split_ifs
  · exact hf i
  · rfl

theorem find_setDinode (f : Dinode → Dinode) (m : ℤ) :
    (s.setDinode n f).find m = if m = n then (s.find n).map fun i => { i with dinode := f i.dinode } else s.find m := by
  unfold State.setDinode
  rw [find_modify]
  intro i
  rfl

theorem find_setDirty (m : ℤ) :
    (s.setDirty n).find m = if m = n then (s.find n).map fun i => { i with dirty := true } else s.find m := by
  unfold State.setDirty
  rw [find_modify]
  intro i
  rfl

theorem find_eq_none : s.find n = none ↔ n ∉ s.hash.map Inode.iNr := by
  simp [State.find]

theorem deref_eq_ok : s.deref n = .ok i ↔ s.find n = some i := by
  unfold State.deref
  cases s.find n <;> simp

/-! ## What stays -/

/-- what the operations on the blocks of an inode leave alone -/
structure Frame (s s' : State) : Prop where
  sb : s'.sb = { s.sb with usedBlockCount := s'.sb.usedBlockCount }
  inodeFreemap : s'.inodeFreemap = s.inodeFreemap
  blockBits : s'.blockFreemap.nbits = s.blockFreemap.nbits
  curDir : s'.curDir = s.curDir
  out : s'.out = s.out
  stack : s'.stack = s.stack
  dirFails : s'.dirFails = s.dirFails
  inodeBlocks : ∀ b, 18 ≤ b → b < 146 → s'.dev.blocks b = s.dev.blocks b
  grows : s.dev.nblocks ≤ s'.dev.nblocks
  keys : s'.hash.map Inode.iNr = s.hash.map Inode.iNr

namespace Frame

theorem refl (s : State) : Frame s s :=
  ⟨rfl, rfl, rfl, rfl, rfl, rfl, rfl, fun _ _ _ => rfl, le_refl _, rfl⟩

theorem trans (h : Frame s s') (h' : Frame s' s'') : Frame s s'' where
  sb := by rw [h'.sb, h.sb]
  inodeFreemap := h'.inodeFreemap.trans h.inodeFreemap
  blockBits := h'.blockBits.trans h.blockBits
  curDir := h'.curDir.trans h.curDir
  out := h'.out.trans h.out
  stack := h'.stack.trans h.stack
  dirFails := h'.dirFails.trans h.dirFails
  inodeBlocks := fun b h1 h2 => (h'.inodeBlocks b h1 h2).trans (h.inodeBlocks b h1 h2)
  grows := h.grows.trans h'.grows
  keys := h'.keys.trans h.keys

theorem modify {f : Inode → Inode} (hf : ∀ i, (f i).iNr = i.iNr) : Frame s (s.modify n f) :=
  ⟨rfl, rfl, rfl, rfl, rfl, rfl, rfl, fun _ _ _ => rfl, le_refl _, keys_modify hf⟩

theorem setDinode (f : Dinode → Dinode) : Frame s (s.setDinode n f) := by
  unfold State.setDinode
  apply modify
  intro i
  rfl

theorem setDirty : Frame s (s.setDirty n) := by
  unfold State.setDirty
  apply modify
  intro i
  rfl

theorem geo (h : Frame s s') (hg : Geo s) : Geo s' where
  inodeFreemapStart := by rw [h.sb]; exact hg.inodeFreemapStart
  blockFreemapStart := by rw [h.sb]; exact hg.blockFreemapStart
  inodeBlocksStart := by rw [h.sb]; exact hg.inodeBlocksStart
  dataBlocksStart := by rw [h.sb]; exact hg.dataBlocksStart
  maxBlocks := by rw [h.sb]; exact hg.maxBlocks
  nblocks := hg.nblocks.trans h.grows
  inodeBits := by rw [h.inodeFreemap]; exact hg.inodeBits
  blockBits := h.blockBits.trans hg.blockBits

theorem alloc (h : Frame s s') : s'.alloc n ↔ s.alloc n := by simp only [State.alloc, h.inodeFreemap]

theorem max (h : Frame s s') : s'.sb.maxFsBlocks = s.sb.maxFsBlocks := by rw [h.sb]

/-- the inode blocks hold the dinodes of the numbers below 16384 -/
theorem diskDinode (h : Frame s s') (hn : n < 16384) : s'.diskDinode n = s.diskDinode n := by
  unfold State.diskDinode
  rw [h.inodeBlocks _ (by omega) (by omega)]

end Frame

/-! ## Writes to the device -/

/-- every block written between the two states is in `W` -/
def Logs (W : ℤ → Prop) (s s' : State) : Prop := ∃ l, s'.dev.log = l ++ s.dev.log ∧ ∀ x ∈ l, W x

/-- the super block and the blocks of the block freemap -/
def Accounts (x : ℤ) : Prop := x = 0 ∨ (2 ≤ x ∧ x < 18)

namespace Logs

variable {W W' : ℤ → Prop}

theorem of_eq (h : s'.dev.log = s.dev.log) : Logs W s s' := ⟨[], by rw [h]; rfl, fun _ hx => absurd hx List.not_mem_nil⟩

theorem trans (h : Logs W s s') (h' : Logs W s' s'') : Logs W s s'' := by
  obtain ⟨l, hl, hW⟩ := h
  obtain ⟨l', hl', hW'⟩ := h'
  refine ⟨l' ++ l, by rw [hl', hl, List.append_assoc], fun x hx => ?_⟩
  rcases List.mem_append.1 hx with hx | hx
  · exact hW' x hx
  · exact hW x hx

theorem mono (h : Logs W s s') (hW : ∀ x, W x → W' x) : Logs W' s s' := by
  obtain ⟨l, hl, hin⟩ := h
  exact ⟨l, hl, fun x hx => hW x (hin x hx)⟩

/-- a write to one block -/
theorem write {blk : Mem} (hb : W b) : Logs W s { s with dev := s.dev.write b blk } :=
  ⟨[b], rfl, fun x hx => by rw [List.mem_singleton.1 hx]; exact hb⟩

end Logs

theorem Disk.modify (h : Disk s) (f : Inode → Inode) : Disk (s.modify n f) := ⟨h.super, h.inodes, h.blocks⟩

/-- a write to a data block -/
theorem writeBlocks_spec {blk : Mem} (h : writeBlocks s blk b = .ok s') :
    0 ≤ b ∧ s' = { s with dev := s.dev.write b blk } := by
  unfold writeBlocks at h
  split_ifs at h with hb
  cases h
  exact ⟨hb, rfl⟩

theorem frame_write {blk : Mem} (hb : 146 ≤ b) : Frame s { s with dev := s.dev.write b blk } where
  sb := rfl
  inodeFreemap := rfl
  blockBits := rfl
  curDir := rfl
  out := rfl
  stack := rfl
  dirFails := rfl
  inodeBlocks := fun x _ h2 => update_of_ne (by omega) ..
  grows := le_max_left ..
  keys := rfl

theorem Disk.write {blk : Mem} (h : Disk s) (hb : 146 ≤ b) : Disk { s with dev := s.dev.write b blk } where
  super := (update_of_ne (by omega) ..).trans h.super
  inodes := fun j hj => by
    simpa only [Dev.write, update_of_ne (show (1 : ℤ) ≠ b by omega)] using h.inodes j hj
  blocks := fun k hk j hj => by
    simpa only [Dev.write, update_of_ne (show ((2 + k : ℕ) : ℤ) ≠ b by omega)] using h.blocks k hk j hj

/-- a write of a freemap block and then of the super block -/
theorem disk_of_writes {bm : Bitmap} {sb : DsuperBlock} {idx : ℕ} (hg : Geo s) (h : Disk s) (hidx : idx < 1048576)
    (hwords : ∀ w, w ≠ idx / 8 → bm.v w = s.blockFreemap.v w)
    (hs' : s' = writeSuperBlock { writeBlockFreemap { s with blockFreemap := bm } idx with sb := sb }) :
    Disk s' where
  super := by
    subst hs'
    simp [writeSuperBlock, writeMeta, Dev.write]
  inodes := fun j hj => by
    subst hs'
    simp only [writeSuperBlock, writeBlockFreemap, writeMeta, Dev.write, hg.blockFreemapStart]
    rw [update_of_ne (by norm_num), update_of_ne (by omega)]
    exact h.inodes j hj
  blocks := fun k hk j hj => by
    subst hs'
    simp only [writeSuperBlock, writeBlockFreemap, writeMeta, Dev.write, hg.blockFreemapStart]
    rw [update_of_ne (by omega)]
    by_cases hkk : k = idx / 65536
    · subst hkk
      rw [update_self]
      rfl
    · rw [update_of_ne (by omega), h.blocks k hk j hj, hwords _ (by omega)]

theorem logs_of_writes {bm : Bitmap} {sb : DsuperBlock} {idx : ℕ} (hg : Geo s) (hidx : idx < 1048576)
    (hs' : s' = writeSuperBlock { writeBlockFreemap { s with blockFreemap := bm } idx with sb := sb }) :
    Logs Accounts s s' := by
  subst hs'
  refine ⟨[0, ((2 + idx / 65536 : ℕ) : ℤ)], ?_, fun x hx => ?_⟩
  · simp [writeSuperBlock, writeBlockFreemap, writeMeta, Dev.write, hg.blockFreemapStart]
  · simp only [List.mem_cons, List.not_mem_nil, or_false] at hx
    rcases hx with rfl | rfl
    · exact Or.inl rfl
    · exact Or.inr ⟨by omega, by omega⟩

/-- the blocks behind the super block and the freemaps -/
theorem blocks_of_writes {bm : Bitmap} {sb : DsuperBlock} {idx : ℕ} (hg : Geo s) (hidx : idx < 1048576)
    (hs' : s' = writeSuperBlock { writeBlockFreemap { s with blockFreemap := bm } idx with sb := sb }) :
    (∀ x, 18 ≤ x → s'.dev.blocks x = s.dev.blocks x) ∧ s'.dev.nblocks = s.dev.nblocks := by
  subst hs'
  have hn := hg.nblocks
  simp only [writeSuperBlock, writeBlockFreemap, writeMeta, Dev.write, hg.blockFreemapStart]
  refine ⟨fun x hx => ?_, ?_⟩
  · rw [update_of_ne (by omega), update_of_ne (by omega)]
  · omega

/-! ## One block -/

/-- block `b` was allocated to inode `n` -/
structure Took (s s' : State) (n b : ℤ) : Prop where
  frame : Frame s s'
  disk : Disk s → Disk s'
  room : s.sb.usedBlockCount < s.sb.maxFsBlocks
  pos : 146 ≤ b
  fresh : ¬s.busy b
  busy : ∀ x, s'.busy x ↔ s.busy x ∨ x = b
  card : s'.blockFreemap.bits.card = s.blockFreemap.bits.card + 1
  used : s'.sb.usedBlockCount = s.sb.usedBlockCount + 1
  blocks : ∀ x, 18 ≤ x → s'.dev.blocks x = s.dev.blocks x
  nblocks : s'.dev.nblocks = s.dev.nblocks
  log : Logs Accounts s s'
  find : ∀ m, s'.find m = if m = n then
    (s.find n).map fun i => { i with dinode := { i.dinode with blockCount := i.dinode.blockCount + 1 }, dirty := true }
    else s.find m

/-- block `b` of inode `n` was released -/
structure Gave (s s' : State) (n b : ℤ) : Prop where
  frame : Frame s s'
  disk : Disk s → Disk s'
  owned : s.busy b
  busy : ∀ x, s'.busy x ↔ s.busy x ∧ x ≠ b
  card : s'.blockFreemap.bits.card + 1 = s.blockFreemap.bits.card
  used : s'.sb.usedBlockCount + 1 = s.sb.usedBlockCount
  zeroed : s'.dev.blocks b = zeroMem
  blocks : ∀ x, 18 ≤ x → x ≠ b → s'.dev.blocks x = s.dev.blocks x
  nblocks : s'.dev.nblocks = max s.dev.nblocks (b + 1)
  log : Logs (fun x => Accounts x ∨ x = b) s s'
  find : ∀ m, s'.find m = if m = n then
    (s.find n).map fun i => { i with dinode := { i.dinode with blockCount := i.dinode.blockCount - 1 }, dirty := true }
    else s.find m

theorem find_setDinode_setDirty (f : Dinode → Dinode) (m : ℤ) :
    ((s.setDinode n f).setDirty n).find m =
      if m = n then (s.find n).map fun i => { i with dinode := f i.dinode, dirty := true } else s.find m := by
  rw [find_setDirty, find_setDinode, find_setDinode]
  split_ifs with h1 h2
  · simp [Function.comp_def]
  · exact absurd rfl h2
  · rfl

/-- `testfs_alloc_block` takes the first free block, or changes nothing -/
theorem allocBlock_cases {r : ℤ} (h : allocBlock s = .ok (r, s')) :
    (r = -ENOSPC ∧ s' = s ∧ (s.sb.maxFsBlocks ≤ s.sb.usedBlockCount ∨ s.blockFreemap.alloc = .ok none)) ∨
      ∃ idx bm, s.blockFreemap.alloc = .ok (some (idx, bm)) ∧ s.sb.usedBlockCount < s.sb.maxFsBlocks ∧
        r = s.sb.dataBlocksStart + idx ∧
        s' = writeSuperBlock { writeBlockFreemap { s with blockFreemap := bm } idx with
          sb := { s.sb with usedBlockCount := s.sb.usedBlockCount + 1 } } := by
  unfold allocBlock at h
  split_ifs at h with hmax
  · cases h
    exact Or.inl ⟨rfl, rfl, Or.inl hmax⟩
  · obtain ⟨⟨phy, s1⟩, h1, h2⟩ := bind_eq_ok.1 h
    unfold getBlockFreemap at h1
    obtain ⟨a, ha, h1⟩ := bind_eq_ok.1 h1
    cases a with
    | none =>
      cases h1
      cases h2
      exact Or.inl ⟨rfl, rfl, Or.inr ha⟩
    | some q =>
      obtain ⟨idx, bm⟩ := q
      cases h1
      have hpos : ¬((idx : ℤ) < 0) := by omega
      simp only [hpos, if_false] at h2
      cases h2
      exact Or.inr ⟨idx, bm, ha, by omega, rfl, rfl⟩

/-- a freemap without a free bit counts more blocks than the file system may have -/
theorem max_le_of_alloc_none (hg : Geo s) (hused : s.sb.usedBlockCount = s.blockFreemap.bits.card)
    (hnone : s.blockFreemap.alloc = .ok none) : s.sb.maxFsBlocks ≤ s.sb.usedBlockCount := by
  have hall : s.blockFreemap.bits = Finset.range s.blockFreemap.nbits := by
    ext k
    simp only [Bitmap.mem_bits, Finset.mem_range, and_iff_left_iff_imp]
    exact fun hk => Bitmap.alloc_eq_none hnone hk
  rw [hused, hall, Finset.card_range, hg.blockBits]
  exact hg.maxBlocks

/-- `testfs_alloc_block_for_inode` fails for lack of space and changes nothing, or it takes a block -/
theorem allocBlockForInode_cases (hg : Geo s) {r : ℤ} (h : allocBlockForInode s n = .ok (r, s')) :
    (r = -ENOSPC ∧ s' = s ∧ (s.sb.maxFsBlocks ≤ s.sb.usedBlockCount ∨ s.blockFreemap.alloc = .ok none)) ∨
      Took s s' n r := by
  unfold allocBlockForInode at h
  obtain ⟨⟨r1, s1⟩, h1, h2⟩ := bind_eq_ok.1 h
  rcases allocBlock_cases h1 with ⟨hr, hs, hfull⟩ | ⟨idx, bm, ha, hroom, hr, hs⟩
  · left
    subst hr hs
    cases h2
    exact ⟨rfl, rfl, hfull⟩
  · right
    rw [hg.dataBlocksStart] at hr
    have hpos : 0 ≤ r1 := by rw [hr]; positivity
    simp only [hpos, if_true] at h2
    cases h2
    obtain ⟨hlt, hclear, -, hbits, -⟩ := Bitmap.alloc_eq_some ha
    rw [hg.blockBits] at hlt
    obtain ⟨hins, hnot⟩ := Bitmap.bits_of_alloc ha
    obtain ⟨hblocks, hnb⟩ := blocks_of_writes hg hlt hs
    have hfm : s1.blockFreemap = bm := by rw [hs]; rfl
    have hto : (r - 146).toNat = idx := by rw [hr]; omega
    have hlog : Logs Accounts s s1 := logs_of_writes hg hlt hs
    refine ⟨?_, ?_, hroom, ?_, ?_, ?_, ?_, ?_, hblocks, hnb, hlog, ?_⟩
    · refine Frame.trans ?_ ((Frame.setDinode _).trans Frame.setDirty)
      have hsb : s1.sb = { s.sb with usedBlockCount := s1.sb.usedBlockCount } := by rw [hs]; rfl
      exact ⟨hsb, by rw [hs]; rfl, by rw [hfm, hbits], by rw [hs]; rfl, by rw [hs]; rfl,
        by rw [hs]; rfl, by rw [hs]; rfl, fun b h1 _ => hblocks b h1, le_of_eq hnb.symm, by rw [hs]; rfl⟩
    · intro hd
      have hd1 : Disk s1 := disk_of_writes hg hd hlt (fun w hw => Bitmap.alloc_word ha hw) hs
      exact (hd1.modify _).modify _
    · rw [hr]; push_cast; omega
    · rintro ⟨-, hmem⟩
      rw [hto] at hmem
      exact hnot hmem
    · intro x
      simp only [State.busy, setDirty, setDinode, State.modify, hfm, hins, Finset.mem_insert]
      by_cases hx : 146 ≤ x
      · have hiff : (x - 146).toNat = idx ↔ x = r := by rw [hr]; omega
        simp only [hx, true_and, hiff, or_comm]
      · have hne : x ≠ r := by rw [hr]; omega
        simp [hx, hne]
    · simp only [setDirty, setDinode, State.modify, hfm, hins]
      exact Finset.card_insert_of_notMem hnot
    · rw [hs]; rfl
    · intro m
      rw [find_setDinode_setDirty]
      have hfind : ∀ m, s1.find m = s.find m := fun m => by rw [hs]; rfl
      rw [hfind, hfind]

/-- `testfs_free_block` clears a block of the data area that is in use -/
theorem freeBlock_cases (hg : Geo s) {p : ℤ} (h : freeBlock s p = .ok s') :
    146 ≤ p ∧ ∃ bm, s.blockFreemap.unmark (p - 146).toNat = .ok bm ∧ 0 < s.sb.usedBlockCount ∧
      s' = writeSuperBlock { writeBlockFreemap { { s with dev := s.dev.write p zeroMem } with blockFreemap := bm }
          (p - 146).toNat with sb := { s.sb with usedBlockCount := s.sb.usedBlockCount - 1 } } := by
  unfold freeBlock at h
  obtain ⟨s1, h1, h⟩ := bind_eq_ok.1 h
  obtain ⟨-, rfl⟩ := writeBlocks_spec h1
  dsimp only at h
  rw [hg.dataBlocksStart] at h
  split_ifs at h with hneg
  obtain ⟨s2, h2, h⟩ := bind_eq_ok.1 h
  unfold putBlockFreemap at h2
  obtain ⟨bm, hbm, h2⟩ := bind_eq_ok.1 h2
  cases h2
  split_ifs at h with hused
  cases h
  push_cast at hneg hbm
  exact ⟨by omega, bm, hbm, hused, rfl⟩

/-- `testfs_free_block_from_inode` releases a block in use -/
theorem freeBlockFromInode_cases (hg : Geo s) {p : ℤ} (h : freeBlockFromInode s n p = .ok s') :
    (p = 0 ∧ s' = s) ∨ (p ≠ 0 ∧ Gave s s' n p) := by
  unfold freeBlockFromInode at h
  split_ifs at h with hp
  · cases h
    exact Or.inl ⟨hp, rfl⟩
  right
  refine ⟨hp, ?_⟩
  obtain ⟨s3, h3, h⟩ := bind_eq_ok.1 h
  cases h
  obtain ⟨h146, bm, hbm, hused, hs⟩ := freeBlock_cases hg h3
  have hframe : Frame s { s with dev := s.dev.write p zeroMem } := frame_write h146
  have hg1 := hframe.geo hg
  obtain ⟨hlt, -, hbits, -⟩ := Bitmap.unmark_eq_ok hbm
  rw [hg.blockBits] at hlt
  obtain ⟨hdel, hmem⟩ := Bitmap.bits_of_unmark hbm
  obtain ⟨hblocks, hnb⟩ := blocks_of_writes hg1 hlt hs
  have hfm : s3.blockFreemap = bm := by rw [hs]; rfl
  have hlog : Logs (fun x => Accounts x ∨ x = p) s s3 :=
    (Logs.write (Or.inr rfl)).trans ((logs_of_writes hg1 hlt hs).mono fun _ hx => Or.inl hx)
  refine ⟨?_, ?_, ⟨h146, hmem⟩, ?_, ?_, ?_, ?_, ?_, hnb, hlog, ?_⟩
  · refine Frame.trans ?_ ((Frame.setDinode _).trans Frame.setDirty)
    refine hframe.trans ⟨?_, ?_, ?_, ?_, ?_, ?_, ?_, fun b h1 _ => hblocks b h1, le_of_eq hnb.symm, ?_⟩
    · rw [hs]; rfl
    · rw [hs]; rfl
    · rw [hfm]; exact hbits
    · rw [hs]; rfl
    · rw [hs]; rfl
    · rw [hs]; rfl
    · rw [hs]; rfl
    · rw [hs]; rfl
  · intro hd
    have hd3 : Disk s3 := disk_of_writes hg1 (hd.write h146) hlt (fun w hw => Bitmap.unmark_word hbm hw) hs
    exact (hd3.modify _).modify _
  · intro x
    simp only [State.busy, setDirty, setDinode, State.modify, hfm, hdel, Finset.mem_erase]
    by_cases hx : 146 ≤ x
    · have hiff : (x - 146).toNat = (p - 146).toNat ↔ x = p := by omega
      simp only [hx, true_and, ne_eq, hiff, and_comm]
    · simp [hx]
  · simp only [setDirty, setDinode, State.modify, hfm, hdel]
    exact Finset.card_erase_add_one hmem
  · have h1 : s3.sb.usedBlockCount = s.sb.usedBlockCount - 1 := by rw [hs]; rfl
    simp only [setDirty, setDinode, State.modify, h1]
    omega
  · refine (hblocks p (by omega)).trans ?_
    simp [Dev.write]
  · intro x hx hxp
    refine (hblocks x hx).trans ?_
    simp [Dev.write, update_of_ne hxp]
  · intro m
    rw [find_setDinode_setDirty]
    have hfind : ∀ m, s3.find m = s.find m := fun m => by rw [hs]; rfl
    rw [hfind, hfind]

end OsLab.Testfs
