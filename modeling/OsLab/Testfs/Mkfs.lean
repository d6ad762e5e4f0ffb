/-
Making and opening a file system (`mktestfs.c`, `testfs_init_super_block`, `testfs_close_super_block`).

`Sound.reopen`: what `testfs_init_super_block` reads from a device with the super block, the freemaps and the inodes of
a file system is that file system. `start_graph`: a new file system is a root directory with nothing in it.
-/
import Mathlib.Tactic
import OsLab.Testfs.Commands

namespace OsLab.Testfs

open OsLab.Lib Function State

variable {s s' s'' t u : State} {n m r d : ℤ} {i : Inode} {D : ℤ → List Dirent} {dev : Dev} {stack : ℕ → ℤ}

/-! ## The super block on disk -/

theorem DsuperBlock.decode_word (d : DsuperBlock) {k : ℕ} (hk : k < 6) :
    leAt d.encode (4 * k) 4 = (d.word k % 2 ^ 32).toNat := by
  unfold DsuperBlock.encode
  rw [leAt_putLE_of_disjoint (by omega)]
  simpa using leAt_put32s (m := zeroMem) (o := 0) (f := d.word) hk

/-- the count of inodes is the one field that nothing else bounds -/
theorem DsuperBlock.decode_encode {d : DsuperBlock} (h0 : d.inodeFreemapStart < 2 ^ 32)
    (h1 : d.blockFreemapStart < 2 ^ 32) (h2 : d.inodeBlocksStart < 2 ^ 32) (h3 : d.dataBlocksStart < 2 ^ 32)
    (h5 : d.usedBlockCount < 2 ^ 32) (h6 : d.maxFsBlocks < 2 ^ 64) :
    DsuperBlock.decode d.encode = { d with usedInodeCount := d.usedInodeCount % 2 ^ 32 } := by
  have hmax : leAt d.encode 24 8 = d.maxFsBlocks := by
    unfold DsuperBlock.encode
    rw [leAt_putLE_self]
    exact Nat.mod_eq_of_lt (by simpa using h6)
  have hword : ∀ k < 6, ∀ v : ℕ, d.word k = v → leAt d.encode (4 * k) 4 = v % 2 ^ 32 := by
    intro k hk v hv
    rw [decode_word d hk, hv]
    omega
  unfold DsuperBlock.decode
  rw [hword 0 (by omega) _ rfl, hword 1 (by omega) _ rfl, hword 2 (by omega) _ rfl, hword 3 (by omega) _ rfl,
    hword 4 (by omega) _ rfl, hword 5 (by omega) _ rfl, hmax, Nat.mod_eq_of_lt h0,
    Nat.mod_eq_of_lt h1, Nat.mod_eq_of_lt h2, Nat.mod_eq_of_lt h3, Nat.mod_eq_of_lt h5]

theorem DsuperBlock.encode_mod (d : DsuperBlock) :
    ({ d with usedInodeCount := d.usedInodeCount % 2 ^ 32 } : DsuperBlock).encode = d.encode := by
  unfold DsuperBlock.encode
  rw [put32s_congr fun k _ => ?_]
  unfold DsuperBlock.word
  split <;> simp

/-- two bitmaps with the same words -/
theorem Bitmap.bits_congr {b b' : Bitmap} (hn : b'.nbits = b.nbits) (hv : ∀ ix, ix * 8 < b.nbits → b'.v ix = b.v ix) :
    b'.bits = b.bits := by
  ext j
  simp only [Bitmap.mem_bits, hn]
  refine and_congr_right fun hj => ?_
  unfold Bitmap.isset
  rw [hv (j / 8) (by omega)]

/-! ## `testfs_init_super_block` -/

/-- the device holds the file system of `t` -/
structure Image (t : State) (dev : Dev) : Prop where
  super : dev.blocks 0 = t.sb.encode
  inodes : ∀ j < 8192, dev.blocks 1 j = t.inodeFreemap.v j
  bitmap : ∀ k < 16, ∀ j < 8192, dev.blocks (2 + k : ℕ) j = t.blockFreemap.v (k * 8192 + j)
  blocks : ∀ x, 18 ≤ x → dev.blocks x = t.dev.blocks x
  nblocks : dev.nblocks = t.dev.nblocks

/-- what is read back: the files of `t`, none of them in memory -/
structure Reopened (t u : State) : Prop where
  sound : Sound u
  sb : u.sb = { t.sb with usedInodeCount := t.sb.usedInodeCount % 2 ^ 32 }
  inodeBits : u.inodeFreemap.bits = t.inodeFreemap.bits
  blockBits : u.blockFreemap.bits = t.blockFreemap.bits
  still : ∀ m, t.alloc m → Still t u m
  dinode : ∀ m, u.dinode m = t.diskDinode m
  hash : u.hash = []
  curDir : u.curDir = 0
  dirFails : u.dirFails = []

theorem Reopened.alloc (h : Reopened t u) (m : ℤ) : u.alloc m ↔ t.alloc m := by simp only [State.alloc, h.inodeBits]

theorem Sound.used_lt (h : Sound s) : s.sb.usedBlockCount ≤ 1048576 := h.core.acc.limit.trans h.core.geo.maxBlocks

/-- the super block that is read -/
theorem Sound.decode (h : Sound t) (himg : Image t dev) :
    DsuperBlock.decode (dev.blocks 0) = { t.sb with usedInodeCount := t.sb.usedInodeCount % 2 ^ 32 } := by
  have hgeo := h.core.geo
  have hused := h.used_lt
  have hmax := hgeo.maxBlocks
  rw [himg.super]
  refine DsuperBlock.decode_encode ?_ ?_ ?_ ?_ (by omega) (by omega)
  · rw [hgeo.inodeFreemapStart]; norm_num
  · rw [hgeo.blockFreemapStart]; norm_num
  · rw [hgeo.inodeBlocksStart]; norm_num
  · rw [hgeo.dataBlocksStart]; norm_num

theorem Sound.initSuperBlock_ok (h : Sound t) (himg : Image t dev) (stack : ℕ → ℤ) :
    ∃ u, initSuperBlock dev stack = .ok u := by
  have hgeo := h.core.geo
  have hnb := hgeo.nblocks
  rw [← himg.nblocks] at hnb
  unfold initSuperBlock
  dsimp only
  rw [h.decode himg, if_neg (by omega), hgeo.inodeFreemapStart, hgeo.blockFreemapStart, if_neg (by omega)]
  exact ⟨_, rfl⟩

/-- **Reading a file system back.** -/
theorem Sound.reopen (h : Sound t) (himg : Image t dev) (hclean : ∀ m i, t.find m = some i → i.dirty = false)
    (hr : initSuperBlock dev stack = .ok u) : Reopened t u ∧ u.dev = dev ∧ u.stack = stack := by
  have hgeo := h.core.geo
  unfold initSuperBlock at hr
  dsimp only at hr
  rw [h.decode himg] at hr
  split_ifs at hr with h1 h2
  obtain rfl := Except.ok.inj hr
  refine ⟨?_, rfl, rfl⟩
  set u : State := {
    sb := { t.sb with usedInodeCount := t.sb.usedInodeCount % 2 ^ 32 }
    dev := dev
    inodeFreemap := ⟨65536, fun i => dev.blocks (t.sb.inodeFreemapStart + (i / 8192 : ℕ)) (i % 8192)⟩
    blockFreemap := ⟨1048576, fun i => dev.blocks (t.sb.blockFreemapStart + (i / 8192 : ℕ)) (i % 8192)⟩
    hash := []
    curDir := 0
    out := []
    stack := stack
    dirFails := []
    loads := [] } with hu
  have hmem := h.core.mem
  have hib : u.inodeFreemap.bits = t.inodeFreemap.bits := by
    refine Bitmap.bits_congr (by rw [hgeo.inodeBits]) fun ix hix => ?_
    rw [hgeo.inodeBits] at hix
    simp only [hu, hgeo.inodeFreemapStart]
    rw [show ix / 8192 = 0 by omega, show ix % 8192 = ix by omega]
    exact himg.inodes ix (by omega)
  have hbb : u.blockFreemap.bits = t.blockFreemap.bits := by
    refine Bitmap.bits_congr (by rw [hgeo.blockBits]) fun ix hix => ?_
    rw [hgeo.blockBits] at hix
    simp only [hu, hgeo.blockFreemapStart]
    have hread := himg.bitmap (ix / 8192) (by omega) (ix % 8192) (by omega)
    rw [show ix / 8192 * 8192 + ix % 8192 = ix by omega] at hread
    rw [← hread]
    push_cast
    rfl
  have halloc : ∀ m, u.alloc m ↔ t.alloc m := fun m => by simp only [State.alloc, hib]
  have hbusy : ∀ x, u.busy x ↔ t.busy x := fun x => by simp only [State.busy, hbb]
  have hdisk : ∀ m, u.diskDinode m = t.diskDinode m := fun m => by
    unfold State.diskDinode
    rw [himg.blocks _ (by omega)]
  have hdinode : ∀ m, u.dinode m = t.diskDinode m := fun m => by
    rw [dinode_of_none (s := u) rfl, hdisk]
  have hagree : ∀ m, t.alloc m → Agree (u.dinode m) (t.dinode m) := by
    intro m hm
    rw [hdinode]
    cases hf : t.find m with
    | none =>
      rw [dinode_of_none hf]
      exact agree_refl _
    | some i =>
      have ha := hmem.clean m i hf (hclean m i hf)
      rw [dinode_of_find hf]
      exact ⟨ha.type.symm, ⟨ha.ptrs.1.symm, ha.ptrs.2.1.symm, ha.ptrs.2.2.symm⟩, ha.count.symm,
        fun hd => (ha.size (ha.type.trans hd)).symm⟩
  have hno : ∀ m i, u.find m ≠ some i := by
    intro m i hi
    cases hi
  have hmemU : Mem u := by
    refine ⟨List.nodup_nil, fun m i hi => absurd hi (hno m i), fun m i hi => absurd hi (hno m i),
      fun m hm => hmem.allocRange m ((halloc m).1 hm), fun m hm => ?_, fun m hm => ?_, fun m hm => ?_,
      fun m h0 h1 hm => ?_⟩
    · rw [(hagree m ((halloc m).1 hm)).type]
      exact hmem.typed m ((halloc m).1 hm)
    · rw [hdinode]
      exact ⟨hmem.diskSize m ((halloc m).1 hm), diskDinode_size_lt t m⟩
    · rw [hdisk]
      exact hmem.diskSize m ((halloc m).1 hm)
    · refine ⟨?_, fun i hi => absurd hi (hno m i)⟩
      rw [hdisk]
      exact (hmem.fresh m h0 h1 fun hc => hm ((halloc m).2 hc)).1
  have hgeoU : Geo u := ⟨hgeo.1, hgeo.2, hgeo.3, hgeo.4, hgeo.5, himg.nblocks ▸ hgeo.6, rfl, rfl⟩
  have hdiskU : Disk u := by
    refine ⟨?_, fun j hj => ?_, fun k hk j hj => ?_⟩
    · show dev.blocks 0 = _
      rw [himg.super]
      exact (DsuperBlock.encode_mod t.sb).symm
    · simp only [hu, hgeo.inodeFreemapStart]
      rw [show j / 8192 = 0 by omega, show j % 8192 = j by omega]
      rfl
    · simp only [hu, hgeo.blockFreemapStart]
      rw [show (k * 8192 + j) / 8192 = k by omega, show (k * 8192 + j) % 8192 = j by omega]
      push_cast
      rfl
  obtain ⟨hsound, hstill⟩ := h.transfer hgeoU hdiskU hmemU halloc hbusy (by rw [hbb]) rfl rfl
    (fun x hx => himg.blocks x (by omega)) himg.nblocks hagree
  exact ⟨hsound, rfl, hib, hbb, hstill, hdinode, rfl, rfl, rfl⟩

/-! ## `testfs_close_super_block` -/

/-- one turn of the loop over the blocks of the block freemap -/
def writeFreemapBlock (s : State) (k : ℕ) : State :=
  s.writeMeta (s.sb.blockFreemapStart + k) (s.blockFreemap.blockOf (k * 65536))

theorem writeFreemap_spec (hg : Geo t) {k : ℕ} (hk : k ≤ 16) :
    let u := (List.range k).foldl writeFreemapBlock t
    u.sb = t.sb ∧ u.blockFreemap = t.blockFreemap ∧ u.dev.nblocks = t.dev.nblocks ∧
      (∀ j < k, u.dev.blocks (2 + j : ℕ) = t.blockFreemap.blockOf (j * 65536)) ∧
      ∀ x, x < 2 ∨ 18 ≤ x → u.dev.blocks x = t.dev.blocks x := by
  have hnb := hg.nblocks
  induction k with
  | zero => exact ⟨rfl, rfl, rfl, fun j hj => by omega, fun _ _ => rfl⟩
  | succ k ih =>
    obtain ⟨h1, h2, h3, h4, h5⟩ := ih (by omega)
    rw [List.range_succ, List.foldl_append]
    generalize (List.range k).foldl writeFreemapBlock t = u at h1 h2 h3 h4 h5
    simp only [List.foldl_cons, List.foldl_nil, writeFreemapBlock, State.writeMeta, Dev.write]
    rw [h1, h2, h3, hg.blockFreemapStart]
    refine ⟨rfl, rfl, by omega, fun j hj => ?_, fun x hx => ?_⟩
    · by_cases hjk : j = k
      · rw [hjk]
        push_cast
        rw [update_self]
      · rw [update_of_ne (by omega)]
        exact h4 j (by omega)
    · rw [update_of_ne (by omega)]
      exact h5 x hx

theorem closeSuperBlock_image (hg : Geo t) (hr : closeSuperBlock t = .ok dev) : t.hash = [] ∧ Image t dev := by
  unfold closeSuperBlock at hr
  dsimp only at hr
  split_ifs at hr with hhash
  have hempty : t.hash = [] := not_not.1 hhash
  refine ⟨hempty, ?_⟩
  obtain rfl := Except.ok.inj hr
  have hnb := hg.nblocks
  set t1 : State := (writeSuperBlock t).writeMeta (writeSuperBlock t).sb.inodeFreemapStart
    ((writeSuperBlock t).inodeFreemap.blockOf 0) with ht1
  have hnb1 : t1.dev.nblocks = t.dev.nblocks := by
    simp only [ht1, writeSuperBlock, State.writeMeta, Dev.write, hg.inodeFreemapStart]
    omega
  have hg1 : Geo t1 := ⟨hg.1, hg.2, hg.3, hg.4, hg.5, by rw [hnb1]; exact hg.6, hg.7, hg.8⟩
  have hblocks1 : ∀ x, x ≠ 0 → x ≠ 1 → t1.dev.blocks x = t.dev.blocks x := by
    intro x h0 h1
    simp only [ht1, writeSuperBlock, State.writeMeta, Dev.write, hg.inodeFreemapStart]
    rw [update_of_ne (by simpa using h1), update_of_ne (by simpa using h0)]
  change Image t ((List.range 16).foldl writeFreemapBlock t1).dev
  obtain ⟨-, -, h3, h4, h5⟩ := writeFreemap_spec hg1 (le_refl 16)
  refine ⟨?_, fun j hj => ?_, fun k hk j hj => ?_, fun x hx => ?_, ?_⟩
  · rw [h5 0 (by omega)]
    simp [ht1, writeSuperBlock, State.writeMeta, Dev.write, hg.inodeFreemapStart]
  · rw [h5 1 (by omega)]
    simp [ht1, writeSuperBlock, State.writeMeta, Dev.write, hg.inodeFreemapStart, Bitmap.blockOf]
  · rw [h4 k hk]
    simp only [Bitmap.blockOf, Nat.mul_div_cancel k (show 0 < 65536 by norm_num)]
    rfl
  · rw [h5 x (by omega), hblocks1 x (by omega) (by omega)]
  · rw [h3, hnb1]

/-! ## `mktestfs` -/

/-- a device with an empty file system -/
structure Blank (s : State) (blocks : ℕ) : Prop where
  sound : Sound s
  unused : ∀ m, ¬s.alloc m
  first : s.inodeFreemap.v 0 = 0
  used : s.sb.usedBlockCount = 0
  max : s.sb.maxFsBlocks = blocks
  dirFails : s.dirFails = []

theorem bits_eq_empty {b : Bitmap} (h : ∀ ix, b.v ix = 0) : b.bits = ∅ := by
  rw [Finset.eq_empty_iff_forall_notMem]
  intro j hj
  have hset := (Bitmap.mem_bits.1 hj).2
  unfold Bitmap.isset at hset
  simp [h] at hset

theorem decode_makeDev {k : ℕ} (hk : k ≤ 1048576) :
    DsuperBlock.decode ((makeDev k).blocks 0) = ⟨1, 2, 18, 146, 0, 0, k⟩ := by
  change DsuperBlock.decode (DsuperBlock.encode _) = _
  rw [DsuperBlock.decode_encode (by norm_num) (by norm_num) (by norm_num) (by norm_num) (by norm_num)
    (by simp only; omega)]
  rfl

theorem initSuperBlock_sb {k : ℕ} (hk : k ≤ 1048576) (hr : initSuperBlock (makeDev k) stack = .ok s) :
    s.sb = ⟨1, 2, 18, 146, 0, 0, k⟩ := by
  unfold initSuperBlock at hr
  dsimp only at hr
  rw [decode_makeDev hk] at hr
  split_ifs at hr
  obtain rfl := Except.ok.inj hr
  rfl

theorem initSuperBlock_blank {k : ℕ} (hk : k ≤ 1048576) (hr : initSuperBlock (makeDev k) stack = .ok s) :
    Blank s k := by
  have hblk : ∀ x : ℤ, x ≠ 0 → (makeDev k).blocks x = zeroMem := fun x hx => if_neg hx
  unfold initSuperBlock at hr
  dsimp only at hr
  rw [decode_makeDev hk] at hr
  split_ifs at hr with h1 h2
  obtain rfl := Except.ok.inj hr
  set u : State := {
    sb := ⟨1, 2, 18, 146, 0, 0, k⟩
    dev := makeDev k
    inodeFreemap := ⟨65536, fun i => (makeDev k).blocks ((1 : ℕ) + (i / 8192 : ℕ)) (i % 8192)⟩
    blockFreemap := ⟨1048576, fun i => (makeDev k).blocks ((2 : ℕ) + (i / 8192 : ℕ)) (i % 8192)⟩
    hash := []
    curDir := 0
    out := []
    stack := stack
    dirFails := []
    loads := [] } with hu
  have hif : ∀ ix, u.inodeFreemap.v ix = 0 := fun ix => by
    show (makeDev k).blocks ((1 : ℕ) + (ix / 8192 : ℕ)) (ix % 8192) = 0
    rw [hblk _ (by omega)]
    rfl
  have hbf : ∀ ix, u.blockFreemap.v ix = 0 := fun ix => by
    show (makeDev k).blocks ((2 : ℕ) + (ix / 8192 : ℕ)) (ix % 8192) = 0
    rw [hblk _ (by omega)]
    rfl
  have hib := bits_eq_empty hif
  have hbb := bits_eq_empty hbf
  have halloc : ∀ m, ¬u.alloc m := fun m hm => by
    have hmem := hm.2
    rw [hib] at hmem
    exact absurd hmem (Finset.notMem_empty _)
  have hbusy : ∀ x, ¬u.busy x := fun x hx => by
    have hmem := hx.2
    rw [hbb] at hmem
    exact absurd hmem (Finset.notMem_empty _)
  have hptr : ∀ q, u.ptr q = 0 := fun q => if_neg (halloc q.1)
  have hno : ∀ m i, u.find m ≠ some i := by
    intro m i hi
    cases hi
  have hmem : Mem u := by
    refine ⟨List.nodup_nil, fun m i hi => absurd hi (hno m i), fun m i hi => absurd hi (hno m i),
      fun m hm => absurd hm (halloc m), fun m hm => absurd hm (halloc m), fun m hm => absurd hm (halloc m),
      fun m hm => absurd hm (halloc m), fun m h0 h1 _ => ⟨?_, fun i hi => absurd hi (hno m i)⟩⟩
    have hzero : u.dev.blocks (18 + m.toNat / 128 : ℕ) = zeroMem := hblk _ (by omega)
    rw [State.diskDinode, hzero, Dinode.get_zeroMem]
  have hacc : Acc u 0 ∅ := by
    refine ⟨⟨fun q q' h0 => absurd (hptr q) h0, fun q h0 => absurd (hptr q) h0, fun x hx => absurd hx.1 (hbusy x),
      fun hx => hbusy 0 hx.1⟩, fun x hx => absurd hx (Finset.notMem_empty x), fun m hm => absurd hm (halloc m), ?_,
      Nat.zero_le _, fun x hx _ => hblk x (by omega), fun x hx => hblk x ?_⟩
    · rw [hbb]
      rfl
    · have hnb : u.dev.nblocks = 146 := rfl
      omega
  have hdisk : Disk u := by
    refine ⟨rfl, fun j hj => ?_, fun b hb j hj => ?_⟩
    · rw [hif]
      show (makeDev k).blocks 1 j = 0
      rw [hblk 1 (by norm_num)]
      rfl
    · rw [hbf]
      show (makeDev k).blocks ((2 + b : ℕ) : ℤ) j = 0
      rw [hblk _ (by omega)]
      rfl
  have hgeo : Geo u := ⟨rfl, rfl, rfl, rfl, hk, le_refl _, rfl, rfl⟩
  exact ⟨⟨⟨hgeo, hdisk, hmem, hacc⟩, fun m _ hm => absurd hm (halloc m)⟩, halloc, hif 0, rfl, rfl, rfl⟩

/-- the first inode made is inode 0 -/
theorem createInode_first {type : ℤ} (hb : s.inodeFreemap.nbits = 65536) (h0 : s.inodeFreemap.v 0 = 0)
    (hr : createInode s type = .ok (r, n, s')) : r = 0 ∧ n = 0 := by
  have halloc : ∃ bm, s.inodeFreemap.alloc = .ok (some (0, bm)) := by
    unfold Bitmap.alloc
    have hscan : Bitmap.scan s.inodeFreemap.v (Bitmap.words s.inodeFreemap.nbits) 0 = some 0 := by
      rw [hb, show Bitmap.words 65536 = 8191 + 1 from rfl, Bitmap.scan, if_pos (by rw [h0]; decide)]
    have hbit : (List.range 8).find? (fun offset => s.inodeFreemap.v 0 &&& Bitmap.mask offset = 0) = some 0 := by
      rw [h0]
      decide
    rw [hscan]
    dsimp only
    rw [hbit]
    dsimp only
    rw [if_pos (by omega)]
    exact ⟨_, rfl⟩
  obtain ⟨bm, halloc⟩ := halloc
  unfold createInode getInodeFreemap at hr
  rw [halloc, ok_bind] at hr
  dsimp only at hr
  rw [pure_eq_ok, ok_bind] at hr
  dsimp only at hr
  rw [if_neg (by decide), if_neg (by decide), bind_eq_ok] at hr
  obtain ⟨s1, -, hr⟩ := hr
  cases hr
  exact ⟨rfl, rfl⟩

/-- what `mktestfs` does for the root directory: inode 0 is made, with its two entries, and synchronized -/
theorem createRoot_cases {k : ℕ} (h : Blank s k) (hk : 1 ≤ k) (hr : createFileOrDir s none iDir [] = .ok (r, t)) :
    ∃ s1 s2 s3, Born s s1 0 iDir ∧ createEmptyDir s1 0 0 = .ok (0, s2) ∧ Edited s1 s2 0 ∧ Directory s2 0 (newDir 0 0) ∧
      syncInode s2 0 = .ok s3 ∧ putInode s3 0 = .ok t := by
  unfold createFileOrDir at hr
  dsimp only at hr
  rw [pure_eq_ok, ok_bind, if_neg (by decide), bind_eq_ok] at hr
  obtain ⟨⟨r1, n, s1⟩, hcreate, hr⟩ := hr
  obtain ⟨rfl, rfl⟩ := createInode_first h.sound.core.geo.inodeBits h.first hcreate
  dsimp only at hr
  rw [if_neg (lt_irrefl 0)] at hr
  rcases createInode_spec h.sound (Or.inr rfl) hcreate with ⟨hc, -⟩ | ⟨-, hborn⟩
  · exact absurd hc (by decide)
  have h0 : s1.alloc 0 := (hborn.alloc 0).2 (Or.inr rfl)
  unfold linkInode at hr
  rw [if_pos rfl, bind_eq_ok] at hr
  obtain ⟨⟨r2, s2⟩, hempty, hr⟩ := hr
  dsimp only [Option.getD_none] at hempty hr
  have hroom : s1.sb.usedBlockCount + 1 ≤ s1.sb.maxFsBlocks := by
    rw [hborn.used, hborn.max, h.used, h.max]
    omega
  have hr2 := createEmptyDir_fits hborn.sound h0 hborn.directory hroom hempty
  obtain ⟨hedit, ⟨rfl, -, hdir⟩ | ⟨hneg, -⟩⟩ := createEmptyDir_spec hborn.sound h0 hborn.directory h0
    (fun hc => absurd hr2 (not_le.2 hc)) hempty
  swap
  · exact absurd hr2 (not_le.2 hneg)
  rw [if_neg (lt_irrefl 0), bind_eq_ok] at hr
  obtain ⟨s3, hsync, hr⟩ := hr
  rw [bind_eq_ok] at hr
  obtain ⟨s4, hput, hr⟩ := hr
  cases hr
  exact ⟨s1, s2, s3, hborn, hempty, hedit, hdir, hsync, hput⟩

/-- **`mktestfs` makes a root directory.** -/
theorem createRoot_spec {k : ℕ} (h : Blank s k) (hk : 1 ≤ k) (hr : createFileOrDir s none iDir [] = .ok (r, t)) :
    Sound t ∧ (∀ m, t.alloc m ↔ m = 0) ∧ Directory t 0 (newDir 0 0) := by
  obtain ⟨s1, s2, s3, hborn, -, hedit, hdir, hsync, hput⟩ := createRoot_cases h hk hr
  have h2 : s2.alloc 0 := (hedit.alloc 0).2 ((hborn.alloc 0).2 (Or.inr rfl))
  obtain ⟨hsame3, -⟩ := syncInode_same hedit.sound h2 hsync
  have hsame := hsame3.trans (putInode_same hsame3.sound hput)
  refine ⟨hsame.sound, fun m => ?_, hsame.directory h2 hdir⟩
  rw [hsame.alloc, hedit.alloc, hborn.alloc]
  exact or_iff_right (h.unused m)

/-- what `mktestfs` made, and what is read back of it -/
theorem start_cases {k : ℕ} (hk : validSize k) (hr : start k stack = .ok s) :
    ∃ r1 s1 t u, initSuperBlock (makeDev (k * 2 ^ 20 / 8192)) stack = .ok s1 ∧
    createFileOrDir s1 none iDir [] = .ok (r1, t) ∧
      Sound t ∧ (∀ m, t.alloc m ↔ m = 0) ∧ Directory t 0 (newDir 0 0) ∧ Reopened t u ∧ u.dev.nblocks = t.dev.nblocks ∧
      u.stack = stack ∧ getInode u 0 = .ok s := by
  unfold start mktestfs at hr
  rw [bind_eq_ok] at hr
  obtain ⟨dev, hmk, hr⟩ := hr
  rw [bind_eq_ok] at hmk hr
  obtain ⟨s1, hinit, hmk⟩ := hmk
  rw [bind_eq_ok] at hmk
  obtain ⟨⟨r1, t⟩, hroot, hclose⟩ := hmk
  obtain ⟨u, hreopen, hget⟩ := hr
  obtain ⟨hk1, hk2⟩ := hk
  have hblank := initSuperBlock_blank (by omega) hinit
  obtain ⟨hsound, halloc, hdir⟩ := createRoot_spec hblank (by omega) hroot
  obtain ⟨hhash, himage⟩ := closeSuperBlock_image hsound.core.geo hclose
  have hnone : ∀ m i, t.find m = some i → i.dirty = false := by
    intro m i hi
    simp [State.find, hhash] at hi
  obtain ⟨hu, hdev, hstack⟩ := hsound.reopen himage hnone hreopen
  exact ⟨r1, s1, t, u, hinit, hroot, hsound, halloc, hdir, hu, by rw [hdev, himage.nblocks], hstack, hget⟩

/-- the only inode of a new file system is its root directory -/
theorem start_root {k : ℕ} (hk : validSize k) (hr : start k stack = .ok s) :
    Sound s ∧ (∀ m, s.alloc m ↔ m = 0) ∧ (∀ m, s.isDir m ↔ m = 0) ∧ Directory s 0 (newDir 0 0) ∧ s.curDir = 0 ∧
      s.stack = stack ∧ s.dirFails = [] := by
  obtain ⟨r1, s1, t, u, -, -, hsound, halloc, hdir, hu, hnblocks, hstack, hget⟩ := start_cases hk hr
  have h0 : t.alloc 0 := (halloc 0).2 rfl
  have hdirU : Directory u 0 (newDir 0 0) := hdir.still (hu.still 0 h0) (le_of_eq hnblocks.symm)
  obtain ⟨hsame, -⟩ := getInode_same hu.sound (by decide) (by decide) hget
  have hu0 : u.alloc 0 := (hu.alloc 0).2 h0
  have halloc' : ∀ m, s.alloc m ↔ m = 0 := fun m => by rw [hsame.alloc, hu.alloc, halloc]
  have hroot' : Directory s 0 (newDir 0 0) := hsame.directory hu0 hdirU
  have hisDir : ∀ m, s.isDir m ↔ m = 0 := by
    intro m
    unfold State.isDir
    rw [halloc']
    exact and_iff_left_of_imp fun hm => by rw [hm, hroot'.type]
  refine ⟨hsame.sound, halloc', hisDir, hroot', ?_, ?_, ?_⟩
  · rw [hsame.curDir, hu.curDir]
  · rw [hsame.stack, hstack]
  · rw [hsame.dirFails, hu.dirFails]

/-- **A new file system is a root directory with nothing in it.** -/
theorem start_graph {k : ℕ} (hk : validSize k) (hr : start k stack = .ok s) :
    Graph s (fun _ => newDir 0 0) ∧ s.stack = stack ∧ s.dirFails = [] := by
  obtain ⟨hsound, halloc, hisDir, hroot, hcur, hstack, hfails⟩ := start_root hk hr
  refine ⟨⟨⟨hsound, fun m hm => ?_⟩, fun m _ => distinct_newDir, ?_, ?_⟩, hstack, hfails⟩
  · rw [(hisDir m).1 hm]
    exact hroot
  · refine NameTree.init halloc hisDir fun a b c => ?_
    unfold State.entry
    rw [hisDir, names_newDir (le_refl 0) (le_refl 0), ← or_and_right]
  · rw [hcur]
    exact (hisDir 0).2 rfl

end OsLab.Testfs
