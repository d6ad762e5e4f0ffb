/-
Writes at the maximum size of a file.

A file has at most `maxBlockNr` blocks. `Bounded` is what a write owes to that: every byte goes where it belongs, below
the maximum; the end of the file does not pass the maximum; and a write that gets past the last block returns `-EFBIG`.
A write that ends below the maximum is so, and one that begins there and ends above it. It is not so (`Admits`):
- where it begins above the maximum: the end of the file moves to the offset, and from block 2^31 on the number of the
  block is negative as an `int`, which fails an assertion;
- where its length as an `int` is another one and the shorter write succeeds.
`i_size` keeps to the maximum in every run without such writes (`write_stops_at_maximum`).
-/
import Mathlib.Tactic
import OsLab.Testfs.Returns

namespace OsLab.Testfs

open OsLab.Lib Function State

variable {s s' s0 s1 t : State} {n r : ℤ} {i : Inode} {D : ℤ → List Dirent} {buf : Lib.Mem} {start : ℤ}
  {size p rest b0 b q : ℕ} {c : Cmd} {fsSizeMb : ℕ} {stack : ℕ → ℤ}

/-! ## One write -/

/-- the maximum size of a file -/
def maxSize : ℤ := maxBlockNr * 8192

theorem maxSize_eq : maxSize = 34376597504 := rfl

/-- the write ends above the maximum, and every block it needs below can be had -/
def Reaches (s : State) (n start : ℤ) (size : ℕ) : Prop :=
  maxSize < start + size ∧ (start < maxSize → Had s n (start.toNat / 8192) (maxBlockNr - 1))

/-- what a write owes to the maximum -/
structure Bounded (s : State) (n : ℤ) (buf : Lib.Mem) (start : ℤ) (size : ℕ) : Prop where
  stored : ∀ r s', writeData s n buf start size = .ok (r, s') → ∃ k ≤ size, (k = 0 ∨ start + k ≤ maxSize) ∧
    s'.content n = copy (s.content n) start.toNat buf 0 k
  iSize : ∀ r s', writeData s n buf start size = .ok (r, s') → (s'.dinode n).iSize ≤ maxSize
  refused : Reaches s n start size → ∃ s', writeData s n buf start size = .ok (-EFBIG, s')

/-- A write that ends above the maximum must not begin there. It must not succeed with fewer bytes than it was given,
which takes 2^32 of them. Where it reaches the maximum, its end is an `off_t` and the double indirect block is on the
device. -/
def Admits (s : State) (n start : ℤ) (size : ℕ) : Prop :=
  maxSize < start + size → start ≤ maxSize ∧
    (start + size < 2 ^ 63 →
      size < 2 ^ 32 ∨ ¬Had s n (start.toNat / 8192) (lastBlock start.toNat (size % 2 ^ 32))) ∧
    (Reaches s n start size → start + size < 2 ^ 63 ∧ (start < maxSize → DindOn s n))

instance : Decidable (Had s n b0 b) := inferInstanceAs (Decidable (_ ∧ _))

instance : Decidable (Reaches s n start size) := inferInstanceAs (Decidable (_ ∧ (_ → _)))

instance : Decidable (Admits s n start size) :=
  inferInstanceAs (Decidable (_ → _ ∧ (_ → _ ∨ ¬_) ∧ (_ → _ ∧ (_ → _))))

theorem Had.mono (h : Had s n b0 b) (hq : q ≤ b) : Had s n b0 q := by
  have hneed : need (s.tree n) b0 (q + 1) ≤ need (s.tree n) b0 (b + 1) := need_mono (by omega)
  exact ⟨lt_of_le_of_lt hq h.1, (Nat.add_le_add_left hneed _).trans h.2⟩

/-- all blocks of a write that succeeds could be had -/
theorem Finished.last (h : Finished s s' n i buf start size p 0 rest r) (hcore : Core s n ∅) (hn : s.alloc n) :
    Had s n (p / 8192) (lastBlock p rest) := by
  obtain ⟨t, i1, hw, -⟩ := h
  refine hw.had (q := lastBlock p rest + 1) (fun b => ?_) hcore hn ?_ (Nat.lt_succ_self _)
  · unfold lastBlock
    omega
  · unfold lastBlock
    omega

/-- the file after a write that succeeds -/
theorem Finished.left (h : Finished s s' n i buf start size p 0 rest r) (hn : s.alloc n) (h63 : start + size < 2 ^ 63) :
    s'.content n = copy (s.content n) p buf 0 rest ∧
      (s'.dinode n).iSize = if 0 < size then max i.dinode.iSize (start + size) else i.dinode.iSize := by
  obtain ⟨t, i1, hw, -, -, hs'⟩ := h
  have hn1 := hw.grew.touch.alloc.2 hn
  rw [← hw.size]
  split_ifs at hs' ⊢
  · obtain ⟨hgrew, -, hcontent⟩ := hw.grew.core.close hn1 hw.grew.touch.new hw.grew.inside h63
    rw [hs', hcontent, hw.content, dinode_of_find hgrew.touch.new]
    exact ⟨rfl, rfl⟩
  · obtain ⟨hgrew, -, hcontent⟩ := hw.grew.core.setDirty hn1 hw.grew.touch.new hw.grew.inside
    rw [hs', hcontent, hw.content, dinode_of_find hgrew.touch.new]
    exact ⟨rfl, rfl⟩

/-- the size of the file after a write that does not succeed -/
theorem BrokenAt.iSize {k : ℕ} (h : BrokenAt s s' n i buf start p 0 rest r k) (hcore : Core s n ∅) (hn : s.alloc n) :
    (s'.dinode n).iSize = i.dinode.iSize ∨ (s'.dinode n).iSize = max i.dinode.iSize (start + k) := by
  obtain ⟨-, i', hleft⟩ := h.left hcore hn
  rw [dinode_of_find hleft.find]
  by_cases hmove : Moving ((p + k) / 8192) (lastBlock p rest)
  · exact Or.inr (hleft.moves hmove)
  · exact Or.inl (hleft.stays hmove)

/-- the bytes in front of the block that was refused lie below the maximum -/
theorem BrokenAt.below {k : ℕ} (h : BrokenAt s s' n i buf start p 0 rest r k) (hcore : Core s n ∅) (hn : s.alloc n) :
    k = 0 ∨ p + k ≤ maxBlockNr * 8192 := by
  obtain ⟨hstop, -, hk⟩ := h.stops hcore hn
  rcases Nat.eq_zero_or_pos k with h0 | hpos
  · exact Or.inl h0
  · have hbefore := hstop.before ((p + k) / 8192 - 1) (by omega) (by omega)
    have hlt := hbefore.1
    omega

/-- a write that reaches the maximum is refused no block below it -/
theorem Reaches.not_stops (h : Reaches s n start size) (h0 : 0 ≤ start) (hq : q < maxBlockNr) :
    ¬Stops s n start.toNat q := by
  intro hstop
  have hle := hstop.le
  have hlt : start < maxSize := by
    unfold maxSize
    omega
  exact hstop.refused ((h.2 hlt).mono (by omega))

theorem bounded_of_admits (hcore : Core s n ∅) (hn : s.alloc n) (hi : s.find n = some i)
    (hins : Inside s fun _ => False) (hstack : ∀ j, s.stack j = 0) (hsize : (s.dinode n).iSize ≤ maxSize)
    (h0 : 0 ≤ start) (hallow : Admits s n start size) :
    Bounded s n buf start size := by
  rw [dinode_of_find hi] at hsize
  have hmax : start ≤ maxSize := by
    by_contra hc
    exact hc (hallow (by omega)).1
  rw [maxSize_eq] at hmax
  have hpos : writePos start = start.toNat := writePos_eq h0 (by rw [maxBlockNr_eq]; omega)
  have hmod : size % 2 ^ 32 ≤ size := Nat.mod_le _ _
  -- a write that succeeds ends below the maximum
  have hend : ∀ r s', Finished s s' n i buf start size start.toNat 0 (size % 2 ^ 32) r → start + size < 2 ^ 63 →
      start + size ≤ maxSize := by
    intro r s' hdone h63
    by_contra hc
    obtain ⟨-, hshort, -⟩ := hallow (not_le.1 hc)
    have hlast := hdone.last hcore hn
    rcases hshort h63 with hlt | hnot
    · have hblock := hlast.1
      rw [Nat.mod_eq_of_lt hlt, lastBlock, maxBlockNr_eq] at hblock
      rw [maxSize_eq] at hc
      omega
    · exact hnot hlast
  -- what a write leaves
  have hspec : ∀ r s', writeData s n buf start size = .ok (r, s') → start + size < 2 ^ 63 ∧
      (Finished s s' n i buf start size start.toNat 0 (size % 2 ^ 32) r ∨
        ∃ k, BrokenAt s s' n i buf start start.toNat 0 (size % 2 ^ 32) r k) := by
    intro r s' hr
    obtain ⟨⟨-, h63⟩, hcases⟩ := writeData_spec hcore hn hi hins (fun _ _ => hstack) hr
    rw [hpos] at hcases
    exact ⟨h63, hcases.imp And.left fun h => ⟨_, h⟩⟩
  refine ⟨fun r s' hr => ?_, fun r s' hr => ?_, fun hreach => ?_⟩
  · obtain ⟨h63, hdone | ⟨k, hbroken⟩⟩ := hspec r s' hr
    · have hle := hend r s' hdone h63
      exact ⟨size % 2 ^ 32, hmod, Or.inr (by omega), (hdone.left hn h63).1⟩
    · have hrest : k ≤ size % 2 ^ 32 := by
        obtain ⟨t, i1, -, hk, -⟩ := hbroken
        exact hk
      refine ⟨k, hrest.trans hmod, (hbroken.below hcore hn).imp id fun hle => ?_, (hbroken.left hcore hn).1⟩
      unfold maxSize
      omega
  · obtain ⟨h63, hdone | ⟨k, hbroken⟩⟩ := hspec r s' hr
    · have hle := hend r s' hdone h63
      rw [(hdone.left hn h63).2]
      split_ifs
      · exact max_le hsize hle
      · exact hsize
    · have hle : start + k ≤ maxSize := by
        rw [maxSize_eq]
        rcases hbroken.below hcore hn with rfl | hle
        · simpa using hmax
        · rw [maxBlockNr_eq] at hle
          omega
      rcases hbroken.iSize hcore hn with heq | heq
      · rw [heq]
        exact hsize
      · rw [heq]
        exact max_le hsize hle
  · obtain ⟨-, -, hgo⟩ := hallow hreach.1
    obtain ⟨h63, hdind⟩ := hgo hreach
    obtain ⟨r, s', hr⟩ : ∃ r s', writeData s n buf start size = .ok (r, s') :=
      writeData_returns hcore hn hi hins hstack h0 (by rw [maxBlockNr_eq]; omega) h63 hdind
    obtain ⟨-, hdone | ⟨k, hbroken⟩⟩ := hspec r s' hr
    · exact absurd hreach.1 (not_lt.2 (hend r s' hdone h63))
    · obtain ⟨hstop, -⟩ := hbroken.stops hcore hn
      obtain ⟨t, i1, -, -, -, ⟨hr1, -⟩ | ⟨-, hlt, -⟩⟩ := hbroken
      · exact ⟨s', by rw [← hr1]; exact hr⟩
      · exact absurd hstop (hreach.not_stops h0 hlt)

theorem admits_of_bounded (hcore : Core s n ∅) (hn : s.alloc n) (hi : s.find n = some i)
    (hins : Inside s fun _ => False) (hstack : ∀ j, s.stack j = 0) (h0 : 0 ≤ start) (hdind : DindOn s n)
    (hbound : Bounded s n buf start size) :
    Admits s n start size := by
  intro hover
  have hspec : ∀ r s', writeData s n buf start size = .ok (r, s') → start + size < 2 ^ 63 ∧
      (Finished s s' n i buf start size (writePos start) 0 (size % 2 ^ 32) r ∨
        ∃ k, BrokenAt s s' n i buf start (writePos start) 0 (size % 2 ^ 32) r k) := by
    intro r s' hr
    obtain ⟨⟨-, h63⟩, hcases⟩ := writeData_spec hcore hn hi hins (fun _ _ => hstack) hr
    exact ⟨h63, hcases.imp And.left fun h => ⟨_, h⟩⟩
  -- a write that succeeds moves the end of the file above the maximum
  have hno : ∀ r s', writeData s n buf start size = .ok (r, s') → 0 < size →
      ¬Finished s s' n i buf start size (writePos start) 0 (size % 2 ^ 32) r := by
    intro r s' hr hpos hdone
    have hle := hbound.iSize r s' hr
    rw [(hdone.left hn (hspec r s' hr).1).2, if_pos hpos] at hle
    exact absurd hover (not_lt.2 ((le_max_right ..).trans hle))
  have hmax : start ≤ maxSize := by
    by_contra hc
    obtain ⟨s', hr⟩ := hbound.refused ⟨hover, fun hlt => absurd hlt (by omega)⟩
    obtain ⟨-, hdone | ⟨k, hbroken⟩⟩ := hspec _ s' hr
    · rcases Nat.eq_zero_or_pos size with hzero | hpos
      · obtain ⟨t, i1, -, -, hret, -⟩ := hdone
        rw [hzero] at hret
        exact absurd hret (by decide)
      · exact hno _ s' hr hpos hdone
    · have hle := hbound.iSize _ s' hr
      obtain ⟨t, i1, hw, -, -, ⟨-, -, hs'⟩ | ⟨hret, -⟩⟩ := hbroken
      · rw [hs', growTo, dinode_of_find (by rw [find_setDinode, if_pos rfl, hw.grew.touch.new]; rfl)] at hle
        have hright := (le_max_right i1.dinode.iSize (start + (0 + k : ℕ))).trans hle
        omega
      · exact absurd hret (by decide)
  refine ⟨hmax, fun h63 => ?_, fun hreach => ?_⟩
  · by_contra hc
    rw [not_or, not_not] at hc
    obtain ⟨hlong, hhad⟩ := hc
    rw [maxSize_eq] at hmax
    have hpos : writePos start = start.toNat := writePos_eq h0 (by rw [maxBlockNr_eq]; omega)
    obtain ⟨r, s', hr⟩ : ∃ r s', writeData s n buf start size = .ok (r, s') :=
      writeData_returns hcore hn hi hins hstack h0 (by rw [maxBlockNr_eq]; omega) h63 fun _ => hdind
    obtain ⟨-, hdone | ⟨k, hbroken⟩⟩ := hspec r s' hr
    · exact hno r s' hr (by omega) hdone
    · obtain ⟨hstop, hle, -⟩ := hbroken.stops hcore hn
      rw [hpos] at hstop hle
      exact hstop.refused (hhad.mono hle)
  · obtain ⟨s', hr⟩ := hbound.refused hreach
    exact ⟨(hspec _ s' hr).1, fun _ => hdind⟩

/-! ## Commands -/

/-- the sizes of the regular files, in memory and on disk, keep to the maximum -/
def Small (s : State) : Prop :=
  ∀ n, s.alloc n → ¬s.isDir n → (s.dinode n).iSize ≤ maxSize ∧ (s.diskDinode n).iSize ≤ maxSize

theorem Small.of_carries (h : Small s)
    (hfile : ∀ m, s'.alloc m → ¬s'.isDir m → (s.alloc m ∧ ¬s.isDir m ∧ Carries s s' m) ∨
    ((s'.dinode m).iSize ≤ maxSize ∧ (s'.diskDinode m).iSize ≤ maxSize)) : Small s' := by
  intro m hm hd
  rcases hfile m hm hd with ⟨hm0, hd0, hcarries⟩ | hsmall
  · obtain ⟨h1, h2⟩ := h m hm0 hd0
    exact hcarries.keep (P := fun e => e.iSize ≤ maxSize) h1 h2
  · exact hsmall

theorem Small.same (h : Small s) (hsame : Same s s') : Small s' := by
  refine h.of_carries fun m hm hd => Or.inl ?_
  have hm0 := (hsame.alloc m).1 hm
  exact ⟨hm0, fun hc => hd ((hsame.isDir m).2 hc), hsame.carries m hm0⟩

/-- only the directory `d` may have changed -/
theorem Small.alike {d : ℤ} (h : Small s) (halike : Alike s s' {d}) (hdir : s.isDir d) : Small s' := by
  refine h.of_carries fun m hm hd => Or.inl ?_
  have hm0 := (halike.alloc m).1 hm
  have hd0 : ¬s.isDir m := fun hc => hd ((halike.isDir m).2 hc)
  refine ⟨hm0, hd0, halike.carries m hm0 fun hc => hd0 ?_⟩
  rw [Set.mem_singleton_iff.1 hc]
  exact hdir

theorem Small.created {D' : ℤ → List Dirent} {d type : ℤ} {name : List UInt8} (h : Small s)
    (hnew : Created s s' D D' d n type name) (hdir : s.isDir d) : Small s' := by
  refine h.of_carries fun m hm hd => ?_
  rcases (hnew.alloc m).1 hm with hm0 | rfl
  · have hd0 : ¬s.isDir m := fun hc => hd ((hnew.isDir m).2 (Or.inl hc))
    exact Or.inl ⟨hm0, hd0, hnew.carries m hm0 fun hc => hd0 (hc ▸ hdir)⟩
  · obtain ⟨h1, h2⟩ := hnew.size fun ht => hd ((hnew.isDir m).2 (Or.inr ⟨ht, rfl⟩))
    rw [h1, h2]
    exact Or.inr ⟨by decide, by decide⟩

theorem Small.deleted {D' : ℤ → List Dirent} {d : ℤ} {name : List UInt8} (h : Small s)
    (hgone : Deleted s s' D D' d n name) (hdir : s.isDir d) : Small s' := by
  refine h.of_carries fun m hm hd => Or.inl ?_
  obtain ⟨hm0, hmn⟩ := (hgone.alloc m).1 hm
  have hd0 : ¬s.isDir m := fun hc => hd ((hgone.isDir m).2 ⟨hc, hmn⟩)
  exact ⟨hm0, hd0, hgone.carries m hm0 (fun hc => hd0 (hc ▸ hdir)) hmn⟩

/-- the writes of a command are admitted -/
def writesAdmitted (s : State) : Cmd → Bool
  | .write name offset data =>
    decide (offset.toInt < 0) || match getFileInode s s.curDir name.chars with
      | .ok (ret, n, t) => decide (ret < 0 ∨ Admits t n offset.toInt data.chars.length)
      | .error _ => true
  | _ => true

theorem Small.write {name : List UInt8} {s2 s3 : State} (h : Small s) (hg : Graph s D) (hz : ∀ j, s.stack j = 0)
    (hcall : WriteCall s s' D name buf start size r n s1 s2 s3) (hallow : Admits s1 n start size) :
    Small s' := by
  obtain ⟨i, hi, -⟩ := hcall.find hg
  obtain ⟨i', hgrew⟩ := hcall.grew hg hz hi
  have hsame := hcall.same
  have h1 := h.same hsame
  have hn1 : s1.alloc n := (hsame.alloc n).2 (hcall.alloc hg)
  have hd1 : ¬s1.isDir n := fun hc => hcall.file ((hsame.isDir n).1 hc)
  have hcore : Core s1 n ∅ := hsame.sound.core.change n
  have hbound : Bounded s1 n buf start size :=
    bounded_of_admits hcore hn1 hi hsame.sound.inside (by rw [hsame.stack]; exact hz)
      (h1 n hn1 hd1).1 hcall.nonneg hallow
  have hedit := hgrew.edited hsame.sound.core.mem
  have hn2 := (hedit.alloc n).2 hn1
  have h2 : Small s2 := by
    refine h1.of_carries fun m hm hd => ?_
    have hm1 := (hedit.alloc m).1 hm
    by_cases hmn : m = n
    · right
      rw [hmn]
      refine ⟨hbound.iSize r s2 hcall.write, ?_⟩
      rw [hedit.disk n (hcore.mem.allocRange n hn1)]
      exact (h1 n hn1 hd1).2
    · exact Or.inl ⟨hm1, fun hc => hd (((hedit.alike (Set.mem_singleton n)).isDir m).2 hc), hedit.carries hm1 hmn⟩
  obtain ⟨hsync, -⟩ := syncInode_same hedit.sound hn2 hcall.sync
  exact (h2.same hsync).same (putInode_same hsync.sound hcall.put)

theorem exec_small (h : Small s) (hg : Graph s D) (hcalm : Calm s s') (hz : ∀ j, s.stack j = 0)
    (hallow : writesAdmitted s c = true) (hr : exec s c = .ok (r, s')) : Small s' := by
  rcases exec_cases hg hr with ⟨-, hsame | ⟨d, -, hmoved⟩⟩ | ⟨type, name, -, htype, hr⟩ | ⟨name, rfl, hr⟩ |
    ⟨name, offset, data, rfl, hr⟩
  · exact h.same hsame
  · exact fun m hm hd => h.same hmoved.same m hm hd
  · rcases createFileOrDir_spec hg hg.cur htype name.noNul (fun _ => hcalm) hr with
      ⟨-, rfl, -⟩ | ⟨-, ⟨-, -, halike, -⟩ | ⟨-, n, D', hcreated⟩⟩
    · exact h
    · exact h.alike halike hg.cur
    · exact h.created hcreated hg.cur
  · rcases cmdRm_spec hg (fun _ => hcalm.junk) hr with
      ⟨-, rfl, -⟩ | ⟨-, ⟨-, rfl, -⟩ | ⟨n, -, ⟨-, hsame, -⟩ | ⟨-, D', hdel⟩⟩⟩
    · exact h
    · exact h
    · exact h.same hsame
    · exact h.deleted hdel hg.cur
  · rcases writeFile_cases hg hr with ⟨-, hsame⟩ | ⟨n, s1, s2, s3, hcall⟩
    · exact h.same hsame
    · have h0 : ¬offset.toInt < 0 := not_lt.2 hcall.nonneg
      simp only [writesAdmitted, hcall.found, h0, decide_false, Bool.false_or, decide_eq_true_eq] at hallow
      exact h.write hg hz hcall (hallow.resolve_left (lt_irrefl 0))

/-! ## Runs -/

/-- no write to a directory fails in the middle, and no write to a file is one of those that pass the maximum -/
def withinMaximum (s : State) (c : Cmd) : Bool := dirsWhole s c && writesAdmitted s c

theorem run_small (hk : validSize fsSizeMb) (hstack : ∀ j, stack j = 0) (h0 : Testfs.start fsSizeMb stack = .ok s0)
    (hrun : Run step withinMaximum s0 s) : (∃ D, Graph s D) ∧ (∀ j, s.stack j = 0) ∧ Small s := by
  obtain ⟨hg, hst, -⟩ := start_graph hk h0
  have hsmall0 : Small s0 := by
    obtain ⟨-, halloc, hisDir, -⟩ := start_root hk h0
    exact fun n hn hd => absurd ((hisDir n).2 ((halloc n).1 hn)) hd
  refine hrun.inv (fun t => (∃ D, Graph t D) ∧ (∀ j, t.stack j = 0) ∧ Small t) ?_ ⟨⟨_, hg⟩,
    by rw [hst]; exact hstack, hsmall0⟩
  rintro t c t' ⟨⟨D, hg⟩, hz, hsmall⟩ hgood hnext
  rw [withinMaximum, Bool.and_eq_true] at hgood
  have hcalm : Calm t t' := calm_of_whole hgood.1 hnext hz
  obtain ⟨r, hexec⟩ := step_eq_ok.1 hnext
  obtain ⟨hg', hst'⟩ := exec_graph hg hcalm (fun _ => hz) hexec
  exact ⟨hg', by rw [hst']; exact hz, exec_small hsmall hg hcalm hz hgood.2 hexec⟩

/-- **The maximum size of a file is kept.** -/
theorem write_stops_at_maximum (hk : validSize fsSizeMb) (hstack : ∀ j, stack j = 0)
    (h0 : Testfs.start fsSizeMb stack = .ok s0) (hrun : Run step withinMaximum s0 s) :
    (∀ n, s.alloc n → ¬s.isDir n → (s.dinode n).iSize ≤ maxSize ∧ (s.diskDinode n).iSize ≤ maxSize) ∧
      ∀ n s1, s.alloc n → ¬s.isDir n → getInode s n = .ok s1 → ∀ (buf : Lib.Mem) (start : ℤ) (size : ℕ), 0 ≤ start →
        (Admits s1 n start size → Bounded s1 n buf start size) ∧
          (DindOn s1 n → Bounded s1 n buf start size → Admits s1 n start size) := by
  obtain ⟨⟨D, hg⟩, hz, hsmall⟩ := run_small hk hstack h0 hrun
  refine ⟨hsmall, fun n s1 hn hd hget buf start size hstart => ?_⟩
  obtain ⟨hg1, hn1, ⟨i, hi⟩, hst⟩ := hg.loaded hn hget
  obtain ⟨hsame, -⟩ := hg.get hn s1 hget
  have hd1 : ¬s1.isDir n := fun hc => hd ((hsame.isDir n).1 hc)
  have hcore : Core s1 n ∅ := hg1.sound.core.change n
  have hz1 : ∀ j, s1.stack j = 0 := by rw [hst]; exact hz
  exact ⟨bounded_of_admits hcore hn1 hi hg1.sound.inside hz1 ((hsmall.same hsame) n hn1 hd1).1 hstart,
    admits_of_bounded hcore hn1 hi hg1.sound.inside hz1 hstart⟩

/-- two bytes at the last byte of the last block: the first one is stored -/
theorem write_stops_at_maximum_of_last :
    ∃ s0 s s1 s', Testfs.start 1 (fun _ => 0) = .ok s0 ∧ Run step withinMaximum s0 s ∧ getInode s 1 = .ok s1 ∧
      Reaches s1 1 34376597503 2 ∧ writeData s1 1 (fun _ => 120) 34376597503 2 = .ok (-EFBIG, s') := by
  have h : after (Testfs.start 1 fun _ => 0) (fun s0 => passes step withinMaximum (fun s => decide (s.alloc 1) &&
      (decide ((s.dinode 1).iType ≠ iDir) && after (getInode s 1) fun s1 =>
        decide (Reaches s1 1 34376597503 2) && decide (Admits s1 1 34376597503 2))) s0
      [.create tokenF, .write tokenF 0 tokenF]) = true := by decide +kernel
  obtain ⟨s0, h0, hpass⟩ := exists_of_after h
  obtain ⟨s, hrun, hs⟩ := run_of_passes _ hpass
  simp only [Bool.and_eq_true, decide_eq_true_eq] at hs
  obtain ⟨hn, hfile, hs⟩ := hs
  obtain ⟨s1, hget, hs⟩ := exists_of_after hs
  simp only [Bool.and_eq_true, decide_eq_true_eq] at hs
  obtain ⟨hreach, hallow⟩ := hs
  have hall := (write_stops_at_maximum ⟨le_rfl, by norm_num⟩ (fun _ => rfl) h0 hrun).2 1 s1 hn
    (fun hc => hfile hc.2) hget
    (fun _ => 120) 34376597503 2 (by norm_num)
  obtain ⟨s', hr⟩ := (hall.1 hallow).refused hreach
  exact ⟨s0, s, s1, s', h0, hrun, hget, hreach, hr⟩

/-- the number of a block from 2^31 on is negative as an `int` -/
theorem write_far_aborts :
    ¬ ∀ (fsSizeMb : ℕ) (stack : ℕ → ℤ) (s0 s s1 : State) (n start : ℤ) (buf : Lib.Mem) (size : ℕ), validSize fsSizeMb →
      (∀ j, stack j = 0) → Testfs.start fsSizeMb stack = .ok s0 → Run step dirsWritten s0 s → s.alloc n → ¬s.isDir n →
      getInode s n = .ok s1 → 0 ≤ start → start < 2 ^ 63 → 0 < size → Bounded s1 n buf start size := by
  intro hall
  have h : after (Testfs.start 1 fun _ => 0) (fun s0 => passes step dirsWritten (fun s => decide (s.alloc 1) &&
      (decide ((s.dinode 1).iType ≠ iDir) && after (getInode s 1) fun s1 =>
        !after (writeData s1 1 (fun _ => 120) 17592186044416 1) fun _ => true)) s0 [.create tokenF]) = true := by
    decide +kernel
  obtain ⟨s0, h0, hpass⟩ := exists_of_after h
  obtain ⟨s, hrun, hs⟩ := run_of_passes _ hpass
  simp only [Bool.and_eq_true, decide_eq_true_eq] at hs
  obtain ⟨hn, hfile, hs⟩ := hs
  obtain ⟨s1, hget, hs⟩ := exists_of_after hs
  have hbound := hall 1 _ s0 s s1 1 17592186044416 (fun _ => 120) 1 ⟨le_rfl, by norm_num⟩ (fun _ => rfl) h0 hrun hn
    (fun hc => hfile hc.2) hget (by norm_num) (by norm_num) (by norm_num)
  obtain ⟨s', hr⟩ := hbound.refused ⟨by decide, fun hc => absurd hc (by decide)⟩
  rw [hr] at hs
  exact Bool.false_ne_true hs

end OsLab.Testfs
