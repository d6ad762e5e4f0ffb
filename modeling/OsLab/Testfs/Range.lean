/-
`cmd_read` and the range of a read.

The test of `cmd_read` adds an `off_t` and a `size_t` that was converted to `off_t`; the loop of `testfs_read_data`
counts in `unsigned`, gives block numbers to an `int` parameter and returns an `int`. `InRange` is what the test is for:
a read that passes it lies inside the file, ends, and returns its size. It is so for the reads that `Fetches` describes
and for no others (`reads_in_range`). The others, all of which pass the test:
- a size with a minus sign or a sum above 2^63: the sum wraps round, and the read lies outside of the file;
- a size of 2^31 bytes or more: the `int` that is returned is negative, and from 2^32 on the loop does not end;
- no bytes at the very end of a file of the maximum size, where a block is asked for all the same;
- bytes behind a double indirect block that was never written.
-/
import Mathlib.Tactic
import OsLab.Testfs.Returns

namespace OsLab.Testfs

open OsLab.Lib Function State

variable {s s' s0 t : State} {n r z : ℤ} {i : Inode} {name o l : List UInt8} {offset : Int64}
  {size : UInt64} {start : ℤ} {fsSizeMb : ℕ} {stack : ℕ → ℤ}

/-! ## The call -/

/-- `cmd_read` with the arguments `name`, `o` and `l` calls `testfs_read_data` on inode `n` -/
structure ReadCall (s : State) (name o l : List UInt8) (offset : Int64) (size : UInt64) (n : ℤ)
    (t : State) (i : Inode) :
    Prop where
  off : strToOffset o = .ok offset
  len : strToSize l = .ok size
  nonneg : 0 ≤ offset.toInt
  found : getFileInode s s.curDir name = .ok (0, n, t)
  find : t.find n = some i
  test : (offset + size.toInt64).toInt ≤ i.dinode.iSize
  buffer : (size + 1).toNat < 2 ^ 63

theorem ReadCall.cmdRead (h : ReadCall s name o l offset size n t i) : cmdRead s name offset size = do
    let (ret, buf) ← readData t i.dinode offset.toInt size.toNat
    let u ← putInode (if 0 ≤ ret then t.print (.data (buf.takeWhile fun c => c ≠ 0)) else t) n
    return (ret, u) := by
  unfold Testfs.cmdRead
  rw [if_neg (not_lt.2 h.nonneg), h.found, ok_bind]
  dsimp only
  rw [if_neg (lt_irrefl 0), deref_eq_ok.2 h.find, ok_bind, if_neg (not_lt.2 h.test), if_neg (not_le.2 h.buffer)]

/-- the read lies inside the file, and it ends and returns its size with no more bytes than that copied -/
structure InRange (t : State) (d : Dinode) (offset : Int64) (size : UInt64) : Prop where
  inside : offset.toInt + size.toNat ≤ d.iSize
  returns : ∃ buf, readData t d offset.toInt size.toNat = .ok ((size.toNat : ℤ), buf) ∧ buf.length ≤ size.toNat

/-- `size` fits into an `int` and the end of the read into an `off_t`; the numbers of the blocks that are asked for, one
at least, are numbers of blocks as an `int`; and the double indirect block, if it is needed, lies on the device -/
def Fetches (t : State) (n : ℤ) (offset : Int64) (size : UInt64) : Prop :=
  size.toNat < 2 ^ 31 ∧ offset.toInt + size.toNat < 2 ^ 63 ∧
    ∀ z, offset.toInt / 8192 ≤ z → z ≤ (offset.toInt + max size.toNat 1 - 1) / 8192 →
      0 ≤ toInt32 z ∧ toInt32 z < maxBlockNr ∧ (2058 ≤ toInt32 z → DindOn t n)

/-! ## One block -/

/-- `testfs_read_block` finds a block at the number `z` -/
def Found (t : State) (d : Dinode) (z : ℤ) : Prop := ∃ r blk, readBlock t d (toInt32 z) = .ok (r, blk) ∧ 0 ≤ r

theorem found_iff (h : Sound t) (hn : t.alloc n) :
    Found t (t.dinode n) z ↔ 0 ≤ toInt32 z ∧ toInt32 z < maxBlockNr ∧ (2058 ≤ toInt32 z → DindOn t n) := by
  have hpos := h.core.acc.nonneg_of_tree hn
  have hreach : ∀ k, k < maxBlockNr → (Reach t n k ↔ (2058 ≤ k → t.tree n .dind ≠ 0 → DindOn t n)) := by
    intro k hk
    rw [reach_iff h.inside hn, dind_mem_path hk]
    rfl
  constructor
  · rintro ⟨r, blk, hr, h0⟩
    obtain ⟨hz, ⟨-, hr1⟩ | ⟨hlt, -⟩⟩ := readBlock_spec hpos hr
    · rw [hr1] at h0
      exact absurd h0 (by decide)
    · obtain ⟨k, hk⟩ := Int.eq_ofNat_of_zero_le hz
      rw [hk] at hr hlt ⊢
      have hlt' : k < maxBlockNr := by omega
      refine ⟨by omega, hlt, fun hle => ?_⟩
      by_cases hd : t.tree n .dind = 0
      · have hnb := h.core.geo.nblocks
        change t.tree n .dind < _
        omega
      · exact (hreach k hlt').1 (reach_of_readBlock hlt' hpos hr) (by omega) hd
  · rintro ⟨hz, hlt, hdind⟩
    obtain ⟨k, hk⟩ := Int.eq_ofNat_of_zero_le hz
    unfold Found
    rw [hk] at hlt hdind ⊢
    have hlt' : k < maxBlockNr := by omega
    have hreach' : Reach t n k := (hreach k hlt').2 fun hle _ => hdind (by omega)
    exact ⟨_, _, readBlock_ok hlt' hpos hreach', phys_nonneg hpos k⟩

/-! ## The loop -/

/-- a loop that ends has found every block, or it returns an error -/
theorem readLoop_spec {d : Dinode} {size fuel total : ℕ} {buf buf' : List UInt8} (htotal : total ≤ size)
    (h : readLoop t d start size fuel total buf = .ok (r, buf')) :
    r < 0 ∨ (r = toInt32 size ∧ buf'.length = buf.length + (size - total) ∧
      ∀ z, total < size → (start + total) / 8192 ≤ z → z ≤ (start + size - 1) / 8192 → Found t d z) := by
  induction fuel generalizing total buf with
  | zero => cases h
  | succ fuel ih =>
    rw [readLoop] at h
    by_cases hmore : total < size
    · rw [if_pos hmore, bind_eq_ok] at h
      obtain ⟨⟨ret, blk⟩, hread, h⟩ := h
      dsimp only at h
      by_cases hneg : ret < 0
      · rw [if_pos hneg] at h
        cases h
        exact Or.inl hneg
      rw [if_neg hneg] at h
      have hfirst : Found t d ((start + total) / 8192) := ⟨ret, blk, hread, not_lt.1 hneg⟩
      set cur := min (size - total) (8192 - ((start + total) % 8192).toNat) with hcur
      rcases ih (by omega) h with hbad | ⟨hr, hlen, hfound⟩
      · exact Or.inl hbad
      · refine Or.inr ⟨hr, ?_, fun z _ hz hz' => ?_⟩
        · rw [hlen, List.length_append, slice_length]
          omega
        · by_cases hzero : z = (start + total) / 8192
          · rw [hzero]
            exact hfirst
          · exact hfound z (by omega) (by omega) hz'
    · rw [if_neg hmore] at h
      cases h
      have hend : total = size := by omega
      exact Or.inr ⟨by rw [hend], by omega, fun z hlt => absurd hlt hmore⟩

/-- a loop that finds every block ends -/
theorem readLoop_returns {d : Dinode} {size fuel total : ℕ} {buf : List UInt8} (htotal : total ≤ size)
    (hfuel : size - total < fuel)
    (hfound : ∀ z, total < size → (start + total) / 8192 ≤ z → z ≤ (start + size - 1) / 8192 → Found t d z) :
    ∃ buf', readLoop t d start size fuel total buf = .ok (toInt32 size, buf') := by
  induction fuel generalizing total buf with
  | zero => omega
  | succ fuel ih =>
    rw [readLoop]
    by_cases hmore : total < size
    · obtain ⟨ret, blk, hread, h0⟩ := hfound _ hmore le_rfl (by omega)
      rw [if_pos hmore]
      dsimp only
      rw [hread, ok_bind]
      dsimp only
      rw [if_neg (not_lt.2 h0)]
      exact ih (by omega) (by omega) fun z hlt hz hz' => hfound z hmore (by omega) hz'
    · have hend : total = size := by omega
      rw [if_neg hmore, hend]
      exact ⟨buf, rfl⟩

/-! ## `testfs_read_data` -/

/-- a read inside the file -/
theorem readData_inside {d : Dinode} {size : ℕ} (h0 : 0 ≤ start) (hin : start + size ≤ d.iSize) (h63 : size < 2 ^ 63) :
    readData t d start size =
      if 8192 < (start % 8192).toNat + size then
        if 2 ^ 32 ≤ size then throw .hang else readLoop t d start size (size + 1) 0 []
      else do
        let (ret, block) ← readBlock t d (toInt32 (start / 8192))
        if ret < 0 then return (ret, [])
        else return ((size : ℤ), slice block (start % 8192).toNat size) := by
  have hbad : ¬(start < 0 ∨ d.iSize < start ∨ 2 ^ 63 ≤ size) := by omega
  unfold readData
  rw [if_neg hbad, if_neg (not_lt.2 hin)]

theorem toInt32_lt (z : ℤ) : toInt32 z < 2 ^ 31 := by
  simp only [toInt32, signed]
  split_ifs <;> omega

/-- a read inside the file ends with its size exactly if it finds every block -/
theorem readData_ends {d : Dinode} {size : ℕ} (h0 : 0 ≤ start) (hin : start + size ≤ d.iSize) (h63 : size < 2 ^ 63) :
    (∃ buf, readData t d start size = .ok ((size : ℤ), buf) ∧ buf.length ≤ size) ↔
      size < 2 ^ 31 ∧ ∀ z, start / 8192 ≤ z → z ≤ (start + max size 1 - 1) / 8192 → Found t d z := by
  rw [readData_inside h0 hin h63]
  by_cases hlong : 8192 < (start % 8192).toNat + size
  · rw [if_pos hlong]
    have hmax : max size 1 = size := by omega
    rw [hmax]
    constructor
    · rintro ⟨buf, hread, -⟩
      split_ifs at hread
      rcases readLoop_spec (Nat.zero_le size) hread with hneg | ⟨hr, -, hfound⟩
      · omega
      · refine ⟨?_, fun z hz hz' => hfound z (by omega) (by simpa using hz) hz'⟩
        have hlt := toInt32_lt (size : ℤ)
        omega
    · rintro ⟨hsize, hfound⟩
      obtain ⟨buf, hread⟩ : ∃ buf, readLoop t d start size (size + 1) 0 [] = .ok (toInt32 size, buf) :=
        readLoop_returns (Nat.zero_le size) (by omega) fun z _ hz hz' => hfound z (by simpa using hz) hz'
      have hint : toInt32 (size : ℤ) = size := toInt32_of_mem ⟨by omega, by omega⟩
      rw [if_neg (by omega), hread, hint]
      refine ⟨buf, rfl, ?_⟩
      rcases readLoop_spec (Nat.zero_le size) hread with hneg | ⟨-, hlen, -⟩
      · omega
      · rw [hlen]
        simp
  · rw [if_neg hlong]
    constructor
    · rintro ⟨buf, hread, -⟩
      rw [bind_eq_ok] at hread
      obtain ⟨⟨ret, blk⟩, hblock, hread⟩ := hread
      dsimp only at hread
      have hret : 0 ≤ ret := by
        by_contra hneg
        rw [if_pos (not_le.1 hneg)] at hread
        cases hread
        omega
      refine ⟨by omega, fun z hz hz' => ?_⟩
      have hone : z = start / 8192 := by omega
      rw [hone]
      exact ⟨ret, blk, hblock, hret⟩
    · rintro ⟨-, hfound⟩
      obtain ⟨ret, blk, hblock, hret⟩ := hfound (start / 8192) le_rfl (by omega)
      rw [hblock, ok_bind]
      dsimp only
      rw [if_neg (not_lt.2 hret)]
      exact ⟨_, rfl, (slice_length ..).le⟩

/-! ## The test of `cmd_read` -/

theorem toInt_toInt64 (u : UInt64) : u.toInt64.toInt = (u.toNat : ℤ).bmod (2 ^ 64) := by
  change u.toBitVec.toInt = _
  rw [BitVec.toInt_eq_toNat_bmod]
  rfl

/-- where it is below 2^63, the sum is the sum of the numbers -/
theorem toInt_sum (h0 : 0 ≤ offset.toInt) (hsum : offset.toInt + size.toNat < 2 ^ 63) :
    (offset + size.toInt64).toInt = offset.toInt + size.toNat := by
  rw [Int64.toInt_add, toInt_toInt64, Int.add_bmod_bmod]
  exact Int.bmod_eq_of_le (by omega) (by omega)

theorem ReadCall.inRange_iff (h : ReadCall s name o l offset size n t i) (hs : Sound t) (hn : t.alloc n) :
    InRange t i.dinode offset size ↔ Fetches t n offset size := by
  have hsize := hs.core.mem.size n hn
  rw [dinode_of_find h.find] at hsize
  have hfound : ∀ z, Found t i.dinode z ↔ 0 ≤ toInt32 z ∧ toInt32 z < maxBlockNr ∧ (2058 ≤ toInt32 z → DindOn t n) := by
    intro z
    rw [← dinode_of_find h.find]
    exact found_iff hs hn
  have h0 := h.nonneg
  constructor
  · rintro ⟨hin, hret⟩
    obtain ⟨hlt, hall⟩ := (readData_ends h0 hin (by omega)).1 hret
    exact ⟨hlt, by omega, fun z hz hz' => (hfound z).1 (hall z hz hz')⟩
  · rintro ⟨hlt, hsum, hall⟩
    have hin : offset.toInt + size.toNat ≤ i.dinode.iSize := by
      rw [← toInt_sum h0 hsum]
      exact h.test
    exact ⟨hin, (readData_ends h0 hin (by omega)).2 ⟨hlt, fun z hz hz' => (hfound z).2 (hall z hz hz')⟩⟩

/-! ## Runs -/

/-- **The reads that stay in range.** -/
theorem reads_in_range (hk : validSize fsSizeMb) (hstack : ∀ j, stack j = 0) (h0 : Testfs.start fsSizeMb stack = .ok s0)
    (hrun : Run step dirsWhole s0 s) (h : ReadCall s name o l offset size n t i) :
    InRange t i.dinode offset size ↔ Fetches t n offset size := by
  obtain ⟨⟨D, hg⟩, -⟩ := run_graph_whole hk hstack h0 hrun
  rcases getFileInode_spec hg _ h.found with ⟨hneg, -⟩ | ⟨-, -, hsame, hentry, -⟩
  · exact absurd hneg (lt_irrefl 0)
  · exact h.inRange_iff hsame.sound ((hsame.alloc n).2 (hg.tree.target _ _ _ hentry))

/-- what a check of the file `f` of size `k` in the current directory says -/
def holdsFile (k : ℤ) (s : State) : Bool :=
  after (getFileInode s s.curDir tokenF.chars) fun p =>
    decide (p.1 = 0 ∧ p.2.1 = 1) && (p.2.2.find 1).any fun i => decide (i.dinode.iSize = k)

theorem exists_of_holdsFile {k : ℤ} (h : holdsFile k s = true) : ∃ t i,
    getFileInode s s.curDir tokenF.chars = .ok (0, 1, t) ∧ t.find 1 = some i ∧ i.dinode.iSize = k := by
  obtain ⟨⟨ret, nr, t⟩, hfile, h⟩ := exists_of_after h
  rw [Bool.and_eq_true, decide_eq_true_eq, Option.any_eq_true] at h
  obtain ⟨⟨rfl, rfl⟩, i, hi, hk⟩ := h
  exact ⟨t, i, hfile, hi, of_decide_eq_true hk⟩

/-- `read f 0 1` of a file of one byte -/
theorem reads_in_range_of_byte : ∃ s0 s t i, Testfs.start 1 (fun _ => 0) = .ok s0 ∧ Run step dirsWhole s0 s ∧
    ReadCall s tokenF.chars (str "0") (str "1") 0 1 1 t i ∧ InRange t i.dinode 0 1 := by
  have h : after (Testfs.start 1 fun _ => 0) (fun s0 => passes step dirsWhole (holdsFile 1) s0
      [.create tokenF, .write tokenF 0 tokenF]) = true := by decide +kernel
  obtain ⟨s0, h0, hpass⟩ := exists_of_after h
  obtain ⟨s, hrun, hs⟩ := run_of_passes _ hpass
  obtain ⟨t, i, hfile, hi, hsize⟩ := exists_of_holdsFile hs
  have hcall : ReadCall s tokenF.chars (str "0") (str "1") 0 1 1 t i :=
    ⟨by decide +kernel, by decide +kernel, by decide, hfile, hi, by rw [hsize]; decide, by decide⟩
  refine ⟨s0, s, t, i, h0, hrun, hcall, (reads_in_range ⟨le_rfl, by norm_num⟩ (fun _ => rfl) h0 hrun hcall).2 ?_⟩
  refine ⟨by decide, by decide, fun z hz hz' => ?_⟩
  have hz0 : z = 0 := by
    have hlow : (0 : ℤ) ≤ z := hz
    have hhigh : z ≤ 0 := hz'
    omega
  rw [hz0]
  exact ⟨by decide, by decide, fun hc => absurd hc (by decide)⟩

/-- `read f 0 -1` of an empty file: the size is 2^64 - 1, the sum -1, and the buffer has no bytes -/
theorem read_negative_size :
    ¬ ∀ (fsSizeMb : ℕ) (stack : ℕ → ℤ) (s0 s t : State) (name o l : List UInt8) (offset : Int64) (size : UInt64) (n : ℤ)
      (i : Inode), validSize fsSizeMb → (∀ j, stack j = 0) → Testfs.start fsSizeMb stack = .ok s0 →
      Run step dirsWhole s0 s → ReadCall s name o l offset size n t i → InRange t i.dinode offset size := by
  intro hall
  have h : after (Testfs.start 1 fun _ => 0) (fun s0 => passes step dirsWhole (holdsFile 0) s0 [.create tokenF]) =
      true := by
    decide +kernel
  obtain ⟨s0, h0, hpass⟩ := exists_of_after h
  obtain ⟨s, hrun, hs⟩ := run_of_passes _ hpass
  obtain ⟨t, i, hfile, hi, hsize⟩ := exists_of_holdsFile hs
  have hcall : ReadCall s tokenF.chars (str "0") (str "-1") 0 (-1) 1 t i :=
    ⟨by decide +kernel, by decide +kernel, by decide, hfile, hi, by rw [hsize]; decide, by decide⟩
  obtain ⟨hin, -⟩ := hall 1 _ s0 s t _ _ _ _ _ 1 i ⟨le_rfl, by norm_num⟩ (fun _ => rfl) h0 hrun hcall
  rw [hsize] at hin
  exact absurd hin (by decide)

end OsLab.Testfs
