/-
Appending to a directory.

A new entry goes behind the last one of the directory if no removed entry of its length is there to be used again. It
may begin in the last block of the directory and end in a new one. If the write fails, the blocks in front of the one
that was refused hold the front of the entry, and if that one is the last block of the entry, `testfs_write_data` moves
the end of the directory to it: a torn entry, which no command can read past. In every other case the directory ends
where it ended. `untorn` is the test on the state before `create` and `mkdir` that this does not happen: then every
directory stays a sequence of entries (`directories_well_formed`). On a full file system it does happen
(`create_tears_entry`).
-/
import Mathlib.Tactic
import OsLab.Testfs.Prefix

namespace OsLab.Testfs

open OsLab.Lib Function State

variable {s s' s0 s1 t : State} {n m d r nr : ℤ} {i i' : Inode} {es pre post : List Dirent} {name : List UInt8}
  {D : ℤ → List Dirent} {c : Cmd} {p q k : ℕ} {fsSizeMb : ℕ} {stack : ℕ → ℤ}

/-! ## A write to a directory -/

/-- a failed write to a directory has met a block it was refused -/
theorem writeDir_broken {buf : List UInt8} (hs : Sound s) (hn : s.alloc n) (hstack : ∀ j, s.stack j = 0)
    (hlen : buf.length < 2 ^ 31) (hp : p < 2 ^ 31) (hr : writeDir s n buf p = .ok (r, s')) (hneg : r < 0) :
    ∃ i i' t k, s.find n = some i ∧ t.find n = some i' ∧ BrokenAt s t n i (bytes buf) p p 0 buf.length r k ∧
      s' = { t with dirFails := t.dirFails ++ [i'.dinode.iSize - i.dinode.iSize] } := by
  obtain ⟨i, t, hi, hw, ⟨h0, -⟩ | ⟨-, i', hi', hs'⟩⟩ := writeDir_cases hr
  · omega
  have hwp : writePos (p : ℤ) = p := by rw [writePos_eq (by omega) (by rw [maxBlockNr_eq]; omega), Int.toNat_natCast]
  obtain ⟨-, hend⟩ := writeData_spec (hs.core.change n) hn hi hs.inside (fun _ _ => hstack) hw
  rw [hwp, Nat.mod_eq_of_lt (by omega)] at hend
  rcases hend with ⟨⟨s1, i1, -, -, hr1, -⟩, -⟩ | hbroken
  · rw [hr1, toInt32_of_mem ⟨by omega, by omega⟩] at hneg
    omega
  · exact ⟨i, i', t, _, hi, hi', hbroken, hs'⟩

/-- a write to a directory that succeeds -/
theorem writeDir_finished {buf : List UInt8} (hs : Sound s) (hn : s.alloc n)
    (hlen : buf.length < 2 ^ 31) (hp : p < 2 ^ 32) (hr : writeDir s n buf p = .ok (r, s')) (h0 : 0 ≤ r) :
    ∃ i, s.find n = some i ∧ Finished s s' n i (bytes buf) p buf.length p 0 buf.length r := by
  obtain ⟨i, t, hi, hw, ⟨-, rfl⟩ | ⟨hneg, -⟩⟩ := writeDir_cases hr
  · have hwp : writePos (p : ℤ) = p := by rw [writePos_eq (by omega) (by rw [maxBlockNr_eq]; omega), Int.toNat_natCast]
    obtain ⟨-, hend⟩ :=
      writeData_spec (hs.core.change n) hn hi hs.inside (fun hc => absurd h0 (by rw [hc]; decide)) hw
    rw [hwp, Nat.mod_eq_of_lt (by omega)] at hend
    rcases hend with ⟨hfin, -⟩ | ⟨s1, i1, -, -, -, ⟨hr1, -⟩ | ⟨hr1, -⟩⟩
    · exact ⟨i, hi, hfin⟩
    · exact absurd h0 (by rw [hr1]; decide)
    · exact absurd h0 (by rw [hr1]; decide)
  · omega

/-- the blocks a write took -/
theorem Finished.used {buf : Lib.Mem} {start : ℤ} {size rest : ℕ} (h : Finished s s' n i buf start size p 0 rest r)
    (hs : Core s n ∅) (hn : s.alloc n) :
    s'.sb.usedBlockCount = s.sb.usedBlockCount + need (s.tree n) (p / 8192) (lastBlock p rest + 1) := by
  obtain ⟨s1, i1, hw, -, -, hs'⟩ := h
  have hblocks : ∀ b, (p / 8192 ≤ b ∧ b ≤ (p + max rest 1 - 1) / 8192) ↔ (p / 8192 ≤ b ∧ b < lastBlock p rest + 1) :=
    fun b => by unfold lastBlock; omega
  have hused := (hw.congr hblocks rfl).used hs hn
  rw [hs', ← hused]
  split_ifs <;> rfl

theorem BrokenAt.frame {buf : Lib.Mem} {start : ℤ} {rest : ℕ} (h : BrokenAt s t n i buf start p 0 rest r k) :
    Frame s t := by
  obtain ⟨s1, i1, hw, -, -, ⟨-, -, rfl⟩ | ⟨-, -, s2, i2, hfail, rfl⟩⟩ := h
  · exact hw.grew.touch.frame.trans (.setDinode _)
  · split_ifs
    · exact (hw.grew.touch.frame.trans hfail.touch.frame).trans (.setDinode _)
    · exact hw.grew.touch.frame.trans hfail.touch.frame

/-- the end of the directory moves only if the block that is refused is the last one -/
theorem BrokenAt.end_eq {buf : Lib.Mem} {rest : ℕ} (h : BrokenAt s t n i buf p p 0 rest r k) (hs : Core s n ∅)
    (hn : s.alloc n) (hi' : t.find n = some i') (hsize : i.dinode.iSize = p)
    (hwhole : ∀ q ≤ lastBlock p rest, Stops s n p q → Moving q (lastBlock p rest) → q * 8192 ≤ p) :
    i'.dinode.iSize = i.dinode.iSize := by
  obtain ⟨hstops, hle, hk⟩ := h.stops hs hn
  obtain ⟨-, i1, hleft⟩ := h.left hs hn
  obtain rfl : i' = i1 := Option.some.inj (hi'.symm.trans hleft.find)
  by_cases hmoving : Moving ((p + k) / 8192) (lastBlock p rest)
  · have hq := hwhole _ hle hstops hmoving
    rw [hleft.moves hmoving, hsize]
    have hk0 : k = 0 := by omega
    rw [hk0]
    simp
  · exact hleft.stays hmoving

/-! ## `testfs_add_dirent` -/

theorem entryOfName_bytes (name : List UInt8) (nr : ℤ) : (entryOfName name nr).bytes.length = name.length + 9 := by
  rw [Dirent.bytes_length, entryOfName_length]
  omega

/-- the length of a new entry is an `int`, or there is no memory for it -/
def entryFits (name : List UInt8) : Prop := name.length + 9 < 2 ^ 31 ∨ 2 ^ 31 ≤ name.length + 1

/-- a new entry behind the entries `es` of a directory with the block tree `T` is not cut off: where it begins and ends
in different blocks, the last one can be had if the others can -/
def Whole (T : Slot → ℤ) (used max : ℕ) (es : List Dirent) (name : List UInt8) : Prop :=
  es.findSome? (addHere name (name.length + 1)) = none → entryFits name ∧
    ((listing es).length / 8192 < lastBlock (listing es).length (name.length + 9) →
      used + need T ((listing es).length / 8192) (lastBlock (listing es).length (name.length + 9)) ≤ max →
        used + need T ((listing es).length / 8192) (lastBlock (listing es).length (name.length + 9) + 1) ≤ max)

theorem whole_of_short {T : Slot → ℤ} {used max : ℕ} (h : (listing es).length + name.length + 9 ≤ 8192) :
    Whole T used max es name := by
  intro _
  refine ⟨Or.inl (by omega), fun hlt => ?_⟩
  unfold lastBlock at hlt
  omega

/-- the block that is refused is the last one only if it is the first one too -/
theorem Whole.stops (h : Whole (s.tree n) s.sb.usedBlockCount s.sb.maxFsBlocks es name)
    (hnone : es.findSome? (addHere name (name.length + 1)) = none) (hsmall : (listing es).length < 2 ^ 32)
    (hlen : name.length + 9 < 2 ^ 31) (hq : q ≤ lastBlock (listing es).length (name.length + 9))
    (hstops : Stops s n (listing es).length q) (hmoving : Moving q (lastBlock (listing es).length (name.length + 9))) :
    q * 8192 ≤ (listing es).length := by
  by_contra hlt
  have hlast : lastBlock (listing es).length (name.length + 9) < maxBlockNr := by
    rw [maxBlockNr_eq]
    unfold lastBlock
    omega
  obtain rfl : q = lastBlock (listing es).length (name.length + 9) := by
    unfold Moving at hmoving
    omega
  have hfirst : (listing es).length / 8192 < lastBlock (listing es).length (name.length + 9) := by omega
  obtain ⟨-, hhad⟩ := hstops.before (lastBlock (listing es).length (name.length + 9) - 1) (by omega) (by omega)
  rw [Nat.sub_add_cancel (by omega)] at hhad
  exact hstops.refused ⟨hlast, (h hnone).2 hfirst hhad⟩

/-- no entry is torn -/
theorem addDirent_calm (hs : Sound s) (hn : s.alloc n) (h : Directory s n es) (hname : 0 ∉ name) (hnr : InInt32 nr)
    (hstack : ∀ j, s.stack j = 0) (hwhole : Whole (s.tree n) s.sb.usedBlockCount s.sb.maxFsBlocks es name)
    (hr : addDirent s n name nr = .ok (r, s')) : ∀ x ∈ s'.dirFails, x ∈ s.dirFails ∨ x = 0 := by
  have hbytes := entryOfName_bytes name nr
  rcases addDirent_cases (hs.core.acc.nonneg_of_tree hn) h hr with
    ⟨rfl, -⟩ | ⟨hlt, ⟨hnone, hend, hw⟩ | ⟨pre, e, post, rfl, -, hsame, hw⟩⟩
  · exact fun x hx => Or.inl hx
  · have hlen : name.length + 9 < 2 ^ 31 := (hwhole hnone).1.resolve_right (by omega)
    by_cases hneg : r < 0
    · obtain ⟨i, i', t, k, hi, hi', hbroken, hs'⟩ := writeDir_broken hs hn hstack (by omega) hend hw hneg
      rw [hbytes] at hbroken
      have hsize := h.size
      rw [dinode_of_find hi] at hsize
      have heq := hbroken.end_eq (hs.core.change n) hn hi' hsize fun q hq hstops hmoving =>
        hwhole.stops hnone h.small hlen hq hstops hmoving
      rw [hs', hbroken.frame.dirFails, heq, sub_self]
      intro x hx
      rcases List.mem_append.1 hx with hx | hx
      · exact Or.inl hx
      · exact Or.inr (List.mem_singleton.1 hx)
    · obtain ⟨-, ⟨-, -, hf⟩ | ⟨hneg', -⟩⟩ := append_entry hs hn h (entryOfName_wf hname hnr)
        (by rw [entryOfName_length]; exact hlt) hend (fun hc => absurd hc hneg) hw
      · exact fun x hx => Or.inl (hf ▸ hx)
      · exact absurd hneg' hneg
  · have heq : (entryOfName name nr).name.length = e.name.length := by rw [entryOfName_length, hsame]
    obtain ⟨-, -, -, hf⟩ := replace_entry hs hn h
      (entryOfName_wf hname hnr (by rw [heq]; exact (h.wf e (by simp)).short)) heq (fun _ => Or.inl hstack) hw
    exact fun x hx => Or.inl (hf ▸ hx)

/-- the blocks that an entry of a new directory takes -/
theorem addDirent_used (hs : Sound s) (hn : s.alloc n) (h : Directory s n es) (hes : ∀ e ∈ es, e.live)
    (hlen : name.length + 9 < 2 ^ 31) (hr : addDirent s n name nr = .ok (r, s')) (h0 : 0 ≤ r) :
    s'.sb.usedBlockCount = s.sb.usedBlockCount +
        need (s.tree n) ((listing es).length / 8192) (lastBlock (listing es).length (name.length + 9) + 1) ∧
      s'.sb.maxFsBlocks = s.sb.maxFsBlocks := by
  have hbytes := entryOfName_bytes name nr
  rcases addDirent_cases (hs.core.acc.nonneg_of_tree hn) h hr with
    ⟨-, ⟨rfl, -⟩ | ⟨rfl, -⟩⟩ | ⟨-, ⟨-, hend, hw⟩ | ⟨pre, e, post, rfl, hdead, -⟩⟩
  · exact absurd h0 (by decide)
  · exact absurd h0 (by decide)
  · obtain ⟨i, -, hfin⟩ := writeDir_finished hs hn (by omega) (by omega) hw h0
    refine ⟨hbytes ▸ hfin.used (hs.core.change n) hn, ?_⟩
    obtain ⟨s1, i1, hwrote, -, -, rfl⟩ := hfin
    have hmax := hwrote.grew.touch.frame.max
    split_ifs <;> exact hmax
  · exact absurd (hes e (by simp)) hdead

/-- a new directory takes one block, and nothing in it is torn -/
theorem createEmptyDir_calm (hs : Sound s) (hn : s.alloc n) (h : Directory s n []) (hfirst : s.tree n (.direct 0) = 0)
    (hd : s.alloc d) (hstack : ∀ j, s.stack j = 0) (hr : createEmptyDir s d n = .ok (r, s')) :
    (∀ x ∈ s'.dirFails, x ∈ s.dirFails ∨ x = 0) ∧ (0 ≤ r → s'.sb.usedBlockCount = s.sb.usedBlockCount + 1 ∧
      s'.sb.maxFsBlocks = s.sb.maxFsBlocks) := by
  have hnone : ∀ e ∈ ([] : List Dirent), e.live := fun e he => absurd he List.not_mem_nil
  have hcalm : ∀ {r1 s1}, addDirent s n dot n = .ok (r1, s1) → ∀ x ∈ s1.dirFails, x ∈ s.dirFails ∨ x = 0 := fun hadd =>
    addDirent_calm hs hn h zero_notMem_dot (inInt32_of_alloc hs hn) hstack (whole_of_short (by decide)) hadd
  rcases createEmptyDir_cases hr with ⟨hneg, hadd⟩ | ⟨r1, s1, h1, hadd, hrest⟩
  · exact ⟨hcalm hadd, fun h0 => absurd hneg (not_lt.2 h0)⟩
  -- `.` takes the first block
  obtain ⟨hused1, hmax1⟩ := addDirent_used hs hn h hnone (by decide) hadd h1
  change s1.sb.usedBlockCount = s.sb.usedBlockCount + need (s.tree n) 0 1 at hused1
  rw [need_first, if_pos hfirst] at hused1
  obtain ⟨hedit, ⟨-, -, hd1⟩ | ⟨hneg, -⟩⟩ := addDirent_new hs hn h hnone zero_notMem_dot (by decide)
    (fun e he => absurd he List.not_mem_nil) hn (fun hc => absurd hc (not_lt.2 h1)) hadd
  swap
  · exact absurd hneg (not_lt.2 h1)
  rw [List.nil_append] at hd1
  have hn1 := (hedit.alloc n).2 hn
  -- `..` lies in it
  have hthere : s1.tree n (.direct 0) ≠ 0 := (hd1.solid 0 (by rw [listing_dot]; omega) _ (slotOf_mem_path 0)).1
  have hcalm2 : ∀ {r2 s2}, addDirent s1 n dotdot d = .ok (r2, s2) → ∀ x ∈ s2.dirFails, x ∈ s.dirFails ∨ x = 0 := by
    intro r2 s2 hadd2 x hx
    rcases addDirent_calm hedit.sound hn1 hd1 zero_notMem_dotdot (inInt32_of_alloc hs hd)
      (by rw [hedit.stack]; exact hstack)
      (whole_of_short (by rw [listing_dot]; decide)) hadd2 x hx with hold | hz
    · exact hcalm hadd x hold
    · exact Or.inr hz
  rcases hrest with ⟨hneg, hadd2⟩ | ⟨r2, h2, rfl, hadd2⟩
  · exact ⟨hcalm2 hadd2, fun h0 => absurd hneg (not_lt.2 h0)⟩
  · obtain ⟨hused2, hmax2⟩ := addDirent_used hedit.sound hn1 hd1 (live_dot hn.1) (by decide) hadd2 h2
    rw [listing_dot] at hused2
    change s'.sb.usedBlockCount = s1.sb.usedBlockCount + need (s1.tree n) 0 1 at hused2
    rw [need_first, if_neg hthere] at hused2
    exact ⟨hcalm2 hadd2, fun _ => ⟨by omega, hmax2.trans hmax1⟩⟩

/-- the inode itself: a new directory gets its two entries -/
theorem made_calm {type r1 : ℤ} (hs : Sound s) (hn : s.alloc n) (hd : s.alloc d) (hnew : type = iDir → Directory s n [])
    (hfirst : s.tree n (.direct 0) = 0) (hstack : ∀ j, s.stack j = 0)
    (hmake : (type = iDir ∧ createEmptyDir s d n = .ok (r1, t)) ∨ (type ≠ iDir ∧ r1 = 0 ∧ t = s)) :
    (∀ x ∈ t.dirFails, x ∈ s.dirFails ∨ x = 0) ∧ (0 ≤ r1 → Edited s t n ∧
      t.sb.usedBlockCount = s.sb.usedBlockCount + (if type = iDir then 1 else 0) ∧
      t.sb.maxFsBlocks = s.sb.maxFsBlocks) := by
  rcases hmake with ⟨htype, hempty⟩ | ⟨htype, rfl, rfl⟩
  · obtain ⟨hcalm, hused⟩ := createEmptyDir_calm hs hn (hnew htype) hfirst hd hstack hempty
    refine ⟨hcalm, fun h0 => ⟨?_, by rw [if_pos htype]; exact (hused h0).1, (hused h0).2⟩⟩
    exact (createEmptyDir_spec hs hn (hnew htype) hd (fun hc => absurd hc (not_lt.2 h0)) hempty).1
  · exact ⟨fun x hx => Or.inl hx, fun _ => ⟨Edited.refl hs n, by rw [if_neg htype, add_zero], rfl⟩⟩

/-- `testfs_create_file_or_dir` after the inode was made tears no entry -/
theorem linkInode_calm {type : ℤ} (hs : Sound s) (hn : s.alloc n) (hd : s.alloc d) (hdn : d ≠ n)
    (hnew : type = iDir → Directory s n []) (hfirst : s.tree n (.direct 0) = 0) (hdir : Directory s d es)
    (hname : 0 ∉ name) (hstack : ∀ j, s.stack j = 0)
    (hwhole : Whole (s.tree d) (s.sb.usedBlockCount + if type = iDir then 1 else 0) s.sb.maxFsBlocks es name)
    (hr : linkInode s (some d) type name n = .ok (r, s')) : ∀ x ∈ s'.dirFails, x ∈ s.dirFails ∨ x = 0 := by
  obtain ⟨r1, s1, hmake, hrest⟩ := linkInode_cases hr
  obtain ⟨hcalm1, hmade⟩ := made_calm hs hn hd hnew hfirst hstack hmake
  rcases hrest with ⟨-, -, hremove⟩ | ⟨h1, r2, s2, hadd, hrest⟩
  · rw [show s'.dirFails = s1.dirFails from removeInode_fails s1 n _ hremove]
    exact hcalm1
  obtain ⟨hedit, hused, hmax⟩ := hmade h1
  have hdir1 : Directory s1 d es := hdir.still (hedit.still d hd hdn) hedit.grows
  have hwhole1 : Whole (s1.tree d) s1.sb.usedBlockCount s1.sb.maxFsBlocks es name := by
    rw [hused, hmax, (hedit.still d hd hdn).tree]
    exact hwhole
  -- the entry in the directory
  have hcalm2 : ∀ x ∈ s2.dirFails, x ∈ s.dirFails ∨ x = 0 := by
    intro x hx
    have hold := addDirent_calm hedit.sound ((hedit.alloc d).2 hd) hdir1 hname (inInt32_of_alloc hs hn)
      (by rw [hedit.stack]; exact hstack) hwhole1 hadd x hx
    exact hold.elim (hcalm1 x) Or.inr
  rcases hrest with ⟨-, -, hremove⟩ | ⟨-, -, s3, s4, hsync, hsync2, hput⟩
  · rw [show s'.dirFails = s2.dirFails from removeInode_fails s2 n _ hremove]
    exact hcalm2
  · have h3 : s3.dirFails = s2.dirFails := syncInode_fails s2 d _ hsync
    have h4 : s4.dirFails = s3.dirFails := syncInode_fails s3 n _ hsync2
    have h5 : s'.dirFails = s4.dirFails := putInode_fails s4 n _ hput
    rw [h5, h4, h3]
    exact hcalm2

/-! ## The test on the state before a command -/

/-- `testfs_add_dirent` puts a new entry behind the last one of the current directory -/
def appends (s : State) (name : List UInt8) : Bool :=
  match scan s s.curDir (addHere name (name.length + 1)) with
  | .ok (none, _) => true
  | _ => false

/-- there is an inode number for `testfs_create_inode` -/
def inodeLeft (s : State) : Bool := (List.range 16384).any fun k => !s.inodeFreemap.isset k

instance (name : List UInt8) : Decidable (entryFits name) := inferInstanceAs (Decidable (_ ∨ _))

/-- A new entry of the current directory, before which `k` blocks are taken, is cut off: it ends in another block than
it begins in, and the blocks up to the one it ends in can be had, but not that one. An entry of 2^31 bytes is counted
in. -/
def torn (s : State) (name : List UInt8) (k : ℕ) : Bool :=
  let size := (s.dinode s.curDir).iSize.toNat
  let last := lastBlock size (name.length + 9)
  let wanted := fun b => s.sb.usedBlockCount + k + need (s.tree s.curDir) (size / 8192) b
  appends s name && inodeLeft s && (!decide (entryFits name) ||
    decide (size / 8192 < last ∧ wanted last ≤ s.sb.maxFsBlocks ∧ s.sb.maxFsBlocks < wanted (last + 1)))

/-- no entry is torn -/
def untorn (s : State) : Cmd → Bool
  | .create name => !torn s name.chars 0
  | .mkdir name => !torn s name.chars 1
  | _ => true

theorem appends_of_none (h : Directory s s.curDir es) (hpos : ∀ σ, 0 ≤ s.tree s.curDir σ)
    (hi : s.find s.curDir = some i) (hnone : es.findSome? (addHere name (name.length + 1)) = none) :
    appends s name = true := by
  simp only [appends, scan_ok h hpos hi, hnone]

theorem Born.inodeLeft {type : ℤ} (h : Born s s1 n type) (hs : Sound s) : inodeLeft s = true := by
  rw [Testfs.inodeLeft, List.any_eq_true]
  obtain ⟨h0, hlt⟩ := mem_range h.sound.core.mem ((h.alloc n).2 (Or.inr rfl))
  refine ⟨n.toNat, List.mem_range.2 (by omega), ?_⟩
  rw [Bool.not_eq_true', ← Bool.not_eq_true]
  exact fun hset => h.fresh ⟨h0, Bitmap.mem_bits.2 ⟨by rw [hs.core.geo.inodeBits]; omega, hset⟩⟩

/-- a new inode has no blocks -/
theorem Born.first {type : ℤ} (h : Born s s1 n type) : s1.tree n (.direct 0) = 0 := by
  obtain ⟨j, hj, hdj, -⟩ := h.find
  rw [tree_of_find hj, hdj]
  rfl

/-- where there is a number for a new inode, the test says that a new entry is not cut off -/
theorem Born.whole {type : ℤ} (h : Born s s1 n type) (hg : Graph s D) (hi : s.find s.curDir = some i)
    (htorn : torn s name k = false) :
    Whole (s.tree s.curDir) (s.sb.usedBlockCount + k) s.sb.maxFsBlocks (D s.curDir) name := by
  have hdir := hg.directory hg.cur
  have hsize : (s.dinode s.curDir).iSize.toNat = (listing (D s.curDir)).length := by rw [hdir.size, Int.toNat_natCast]
  intro hnone
  simp only [torn, appends_of_none hdir (hg.pos hg.cur.1) hi hnone, h.inodeLeft hg.sound, hsize, Bool.true_and,
    Bool.or_eq_false_iff, Bool.not_eq_false', decide_eq_true_eq, decide_eq_false_iff_not, not_and, not_lt] at htorn
  exact htorn

theorem createFileOrDir_calm {type : ℤ} (hg : Graph s D) (hstack : ∀ j, s.stack j = 0)
    (htype : type = iFile ∨ type = iDir) (hname : 0 ∉ name) (htorn : torn s name (if type = iDir then 1 else 0) = false)
    (hr : createFileOrDir s (some s.curDir) type name = .ok (r, s')) : ∀ x ∈ s'.dirFails, x ∈ s.dirFails ∨ x = 0 := by
  have hdir := hg.directory hg.cur
  have hpos := hg.pos hg.cur.1
  obtain ⟨nr, hlookup, ⟨-, -, rfl⟩ | ⟨hneg, r1, n, s1, hmake, hrest⟩⟩ := createFileOrDir_cases hr
  · exact fun x hx => Or.inl hx
  obtain ⟨⟨i, hi⟩, hnr⟩ := dirNameToInodeNr_eq hdir hpos hlookup
  rcases createInode_spec hg.sound htype hmake with ⟨rfl, hsame⟩ | ⟨rfl, hborn⟩
  · rcases hrest with ⟨-, -, rfl⟩ | ⟨hc, -⟩
    · exact fun x hx => Or.inl (hsame.dirFails ▸ hx)
    · exact absurd hc (by decide)
  rcases hrest with ⟨hc, rfl, -⟩ | ⟨-, hlink⟩
  · exact absurd hc (by decide)
  obtain ⟨hn1, hd1, hdn, hnew, hdir1⟩ := hborn.around hg hg.cur
  have hwhole : Whole (s1.tree s.curDir) (s1.sb.usedBlockCount + if type = iDir then 1 else 0) s1.sb.maxFsBlocks
      (D s.curDir) name := by
    rw [(hborn.still s.curDir hg.cur.1).tree, hborn.used, hborn.max]
    exact hborn.whole hg hi htorn
  have hstack1 : ∀ j, s1.stack j = 0 := by
    rw [hborn.stack]
    exact hstack
  intro x hx
  rw [← hborn.dirFails]
  exact linkInode_calm hborn.sound hn1 hd1 hdn hnew hborn.first hdir1 hname hstack1 hwhole hlink x hx

theorem torn_of_makes {type : ℤ} {name : Token} (hmakes : c.makes = some (type, name)) (hgood : untorn s c = true) :
    torn s name.chars (if type = iDir then 1 else 0) = false := by
  rcases makes_eq hmakes with ⟨rfl, rfl⟩ | ⟨rfl, rfl⟩
  · rw [if_neg (by decide)]
    simpa [untorn] using hgood
  · rw [if_pos rfl]
    simpa [untorn] using hgood

/-- what fails to be written to a directory leaves its end where it was -/
theorem exec_calm (hg : Graph s D) (hstack : ∀ j, s.stack j = 0) (hgood : untorn s c = true)
    (hr : exec s c = .ok (r, s')) : ∀ x ∈ s'.dirFails, x ∈ s.dirFails ∨ x = 0 := by
  rcases exec_cases hg hr with ⟨-, hsame | ⟨n, -, hmoved⟩⟩ | ⟨type, name, hmakes, htype, hcreate⟩ | ⟨name, rfl, hrm⟩ |
      ⟨name, offset, data, rfl, hwrite⟩
  · exact fun x hx => Or.inl (hsame.dirFails ▸ hx)
  · exact fun x hx => Or.inl (hmoved.same.dirFails ▸ hx)
  · have htorn := torn_of_makes hmakes hgood
    exact createFileOrDir_calm hg hstack htype name.noNul htorn hcreate
  · rcases cmdRm_spec hg (fun _ => Or.inl hstack) hrm
      with ⟨-, rfl, -⟩ | ⟨-, ⟨-, rfl, -⟩ | ⟨n, -, ⟨-, hsame, -⟩ | ⟨-, D', hdel⟩⟩⟩
    · exact fun x hx => Or.inl hx
    · exact fun x hx => Or.inl hx
    · exact fun x hx => Or.inl (hsame.dirFails ▸ hx)
    · exact fun x hx => Or.inl (hdel.dirFails ▸ hx)
  · rcases writeFile_spec hg hstack _ hwrite with ⟨-, hsame⟩ | ⟨n, -, -, hmod⟩
    · exact fun x hx => Or.inl (hsame.dirFails ▸ hx)
    · exact fun x hx => Or.inl (hmod.dirFails ▸ hx)

/-! ## Runs -/

/-- the data of inode `n`, up to its end, are the entries `es` -/
structure Entries (s : State) (n : ℤ) (es : List Dirent) : Prop where
  wf : ∀ e ∈ es, e.Wf
  size : (s.dinode n).iSize = (listing es).length
  bytes : At (s.content n) 0 (listing es)

theorem Directory.entries (h : Directory s n es) : Entries s n es := ⟨h.wf, h.size, h.bytes⟩

theorem Entries.unique {fs : List Dirent} (h : Entries s n es) (h' : Entries s n fs) : es = fs := by
  have hlen : (listing es).length = (listing fs).length := by
    have h1 := h.size
    have h2 := h'.size
    omega
  refine listing_inj h.wf h'.wf ?_
  rw [← h.bytes, hlen]
  exact h'.bytes

/-- what every step in which no entry is torn keeps -/
theorem run_untorn (hk : validSize fsSizeMb) (hstack : ∀ j, stack j = 0) (h0 : start fsSizeMb stack = .ok s0)
    (hrun : Run step untorn s0 s) : (∃ D, Graph s D) ∧ (∀ j, s.stack j = 0) ∧ ∀ x ∈ s.dirFails, x = 0 := by
  obtain ⟨hg, hst, hf⟩ := start_graph hk h0
  refine hrun.inv (fun t => (∃ D, Graph t D) ∧ (∀ j, t.stack j = 0) ∧ ∀ x ∈ t.dirFails, x = 0) ?_
    ⟨⟨_, hg⟩, by rw [hst]; exact hstack, by rw [hf]; exact fun x hx => absurd hx List.not_mem_nil⟩
  rintro t c t' ⟨⟨D, hg⟩, hz, hf⟩ hgood hstep
  obtain ⟨r, hexec⟩ := step_eq_ok.1 hstep
  have hf' : ∀ x ∈ t'.dirFails, x = 0 := fun x hx => (exec_calm hg hz hgood hexec x hx).elim (hf x) id
  obtain ⟨hg', hst'⟩ := exec_graph hg ⟨hf', Or.inl hz⟩ (fun _ => hz) hexec
  exact ⟨hg', by rw [hst']; exact hz, hf'⟩

/-- **Directories stay well formed.** In every run in which no entry is torn, every directory is a sequence of entries
up to its end, and a `create` or `mkdir` that fails leaves the entries of the current directory as they are. -/
theorem directories_well_formed (hk : validSize fsSizeMb) (hstack : ∀ j, stack j = 0)
    (h0 : start fsSizeMb stack = .ok s0) (hrun : Run step untorn s0 s) :
    (∀ n, s.isDir n → ∃ es, Entries s n es) ∧
    ∀ c r s', c.makes ≠ none → untorn s c = true → exec s c = .ok (r, s') → r < 0 →
      ∀ es, Entries s s.curDir es → Entries s' s.curDir es := by
  obtain ⟨⟨D, hg⟩, hz, hf⟩ := run_untorn hk hstack h0 hrun
  refine ⟨fun n hn => ⟨D n, (hg.directory hn).entries⟩, ?_⟩
  intro c r s' hmakes hgood hexec hneg es hes
  obtain rfl := hes.unique (hg.directory hg.cur).entries
  have hcalm : Calm s s' := ⟨fun x hx => (exec_calm hg hz hgood hexec x hx).elim (hf x) id, Or.inl hz⟩
  rcases exec_cases hg hexec
    with ⟨⟨hnone, -⟩, -⟩ | ⟨type, name, -, htype, hcreate⟩ | ⟨name, rfl, -⟩ | ⟨name, _, _, rfl, -⟩
  · exact absurd hnone hmakes
  · rcases createFileOrDir_spec hg hg.cur htype name.noNul (fun _ => hcalm) hcreate with
      ⟨-, rfl, -⟩ | ⟨-, ⟨-, hg', halike, -⟩ | ⟨rfl, -⟩⟩
    · exact hes
    · exact (hg'.directory ((halike.isDir s.curDir).2 hg.cur)).entries
    · exact absurd hneg (by decide)
  · exact absurd rfl hmakes
  · exact absurd rfl hmakes

/-- a second file is made in the root directory, with a first one in it that has its name -/
theorem directories_well_formed_of_create :
    ∃ s0 s, start 1 (fun _ => 0) = .ok s0 ∧ Run step untorn s0 s ∧ s.sb.usedInodeCount = 2 ∧ (∃ es, Entries s 0 es) ∧
      ∃ r s', exec s (.create tokenF) = .ok (r, s') ∧ r < 0 ∧ ∀ es, Entries s s.curDir es → Entries s' s.curDir es := by
  have h : after (start 1 fun _ => 0) (fun s0 => passes step untorn (fun s =>
      decide (s.sb.usedInodeCount = 2 ∧ s.alloc 0 ∧ (s.dinode 0).iType = iDir) && untorn s (.create tokenF) &&
        after (exec s (.create tokenF)) fun x => decide (x.1 < 0)) s0 [.create tokenF]) = true := by decide +kernel
  obtain ⟨s0, h0, hpass⟩ := exists_of_after h
  obtain ⟨s, hrun, hs⟩ := run_of_passes _ hpass
  simp only [Bool.and_eq_true, decide_eq_true_eq] at hs
  obtain ⟨⟨⟨hused, hroot⟩, hgood⟩, hs⟩ := hs
  obtain ⟨⟨r, s'⟩, hexec, hneg⟩ := exists_of_after hs
  have hneg : r < 0 := of_decide_eq_true hneg
  obtain ⟨hdirs, hfails⟩ := directories_well_formed ⟨le_rfl, by norm_num⟩ (fun _ => rfl) h0 hrun
  exact ⟨s0, s, h0, hrun, hused, hdirs 0 hroot, r, s', hexec, hneg, hfails _ r s' (by decide) hgood hexec hneg⟩

/-- without indirect blocks no block number is negative -/
theorem tree_nonneg_of_direct {blocks : ℤ → Lib.Mem} {d : Dinode} (hi : d.iIndirect = 0) (hd : d.iDindirect = 0)
    (hdirect : ∀ k, 0 ≤ d.iBlockNr k) (σ : Slot) : 0 ≤ Testfs.tree blocks d σ := by
  cases σ with
  | direct k => exact hdirect k
  | _ => simp [Testfs.tree, hi, hd, entryOf_zero]

/-- A file with a name of 8150 bytes leaves 2 bytes in the only block of the root directory. On a full file system, a
third file is given these 2 bytes. -/
theorem create_tears_entry :
    ¬ ∀ (fsSizeMb : ℕ) (stack : ℕ → ℤ) (s0 s : State) (n : ℤ), validSize fsSizeMb → (∀ j, stack j = 0) →
      start fsSizeMb stack = .ok s0 → Run step anyStep s0 s → s.isDir n → ∃ es, Entries s n es := by
  intro hall
  have h : after (start 1 fun _ => 0) (fun s0 => after (step s0 (.create tokenF)) fun s1 =>
      after (step s1 (.create (fill 8149))) fun s2 => after (fillStep s2 tokenF.chars 0 (126 * 8192 - 1)) fun s3 =>
        after (step s3 (.create tokenG)) fun s => decide (s.alloc 0 ∧ (s.dinode 0).iType = iDir) && (s.find 0).isSome &&
          decide ((s.dinode 0).iSize = 8192 ∧ (s.dinode 0).iIndirect = 0 ∧ (s.dinode 0).iDindirect = 0 ∧
            (∀ k, 0 ≤ (s.dinode 0).iBlockNr k) ∧ (s.dinode 0).iBlockNr 0 ≠ 0 ∧
            (s.dinode 0).iBlockNr 0 < s.dev.nblocks) &&
          !after (dirNameToInodeNr s 0 tokenG.chars) fun _ => true) = true := by decide +kernel
  obtain ⟨s0, h0, h⟩ := exists_of_after h
  obtain ⟨s1, h1, h⟩ := exists_of_after h
  obtain ⟨s2, h2, h⟩ := exists_of_after h
  obtain ⟨s3, h3, h⟩ := exists_of_after h
  obtain ⟨s, h4, h⟩ := exists_of_after h
  rw [← step_fill] at h3
  have hrun : Run step anyStep s0 s := ((((Run.refl s0).tail _ rfl h1).tail _ rfl h2).tail _ rfl h3).tail _ rfl h4
  simp only [Bool.and_eq_true, decide_eq_true_eq, Bool.not_eq_true'] at h
  obtain ⟨⟨⟨hdir, hfind⟩, hsize, hind, hdind, hdirect, hne, hlt⟩, hstop⟩ := h
  obtain ⟨i, hi⟩ := Option.isSome_iff_exists.1 hfind
  obtain ⟨es, hes⟩ := hall 1 _ s0 s 0 ⟨le_rfl, by norm_num⟩ (fun _ => rfl) h0 hrun hdir
  have hlen : (listing es).length = 8192 := by
    have := hes.size
    omega
  -- every directory of this kind can be searched
  have hd : Directory s 0 es := by
    refine ⟨hdir.2, hes.wf, hes.size, hes.bytes, fun b hb => ?_, by omega⟩
    obtain rfl : b = 0 := by omega
    intro τ hτ
    obtain rfl : τ = .direct 0 := by simpa [slotOf, path] using hτ
    exact ⟨hne, hlt⟩
  rw [dirNameToInodeNr_ok hd (tree_nonneg_of_direct hind hdind hdirect) hi] at hstop
  cases hstop

end OsLab.Testfs
