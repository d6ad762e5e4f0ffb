/-
The size of a file and its blocks.

`testfs_free_blocks` finds the blocks of a file from `i_size`, so `i_size` has to cover them (`Covers`): every block
that is mapped lies below the end, and there is a double indirect block exactly if the end is behind the single indirect
ones. The exits of `testfs_write_data` treat the two differently. A block that is refused in front of the last one
leaves the end where it was, with the blocks up to it mapped; a last block that is refused, or one past the maximum,
moves the end also where nothing was written. `Spans` is the test, on the block tree, the free space and the arguments
of a write, that the new end covers the blocks (`writeData_covers`). Here one write is followed, to a file or to a
directory.
-/
import Mathlib.Tactic
import OsLab.Testfs.Append
import OsLab.Testfs.Reclaim
import OsLab.Testfs.Settle

namespace OsLab.Testfs

open OsLab.Lib Function State

variable {s s' s1 : State} {n d r nr : ℤ} {i i' i1 : Inode} {es pre post : List Dirent} {e : Dirent} {name : List UInt8}
  {T : Slot → ℤ} {buf cont : Lib.Mem} {start size fin : ℤ} {p q k b b0 last len rest used limit : ℕ}

/-! ## Sizes and block trees -/

/-- the number of blocks up to a size -/
def blocksOf (size : ℤ) : ℤ := (size + 8191) / 8192

/-- the size covers the blocks of a file with the block tree `T` -/
structure Covers (T : Slot → ℤ) (size : ℤ) : Prop where
  mapped : ∀ b < maxBlockNr, T (slotOf b) ≠ 0 → (b : ℤ) < blocksOf size
  ind : T .ind ≠ 0 → 10 < blocksOf size
  dind : T .dind ≠ 0 ↔ 10 + 2048 < blocksOf size

theorem blocksOf_mono {a b : ℤ} (h : a ≤ b) : blocksOf a ≤ blocksOf b := by
  unfold blocksOf
  omega

theorem slotOf_ne_dind (b : ℕ) : slotOf b ≠ .dind := fun hc => slotOf_not_isPtr b (hc ▸ trivial)

theorem ind_mem_path (h : Slot.ind ∈ path (slotOf b)) : 10 ≤ b := by
  by_contra hlt
  rw [slotOf_direct (not_le.1 hlt)] at h
  simp [path] at h

/-! ## Blocks that were written -/

/-- a slot that was filled lies on the way to one of the blocks -/
theorem Wrote.filled {τ : Slot} (h : Wrote s s1 n i i1 (fun b => b0 ≤ b ∧ b < q) cont)
    (hτ : s1.tree n τ ≠ 0) : s.tree n τ ≠ 0 ∨ ∃ b, (b0 ≤ b ∧ b < q) ∧ τ ∈ path (slotOf b) := by
  by_cases h0 : s.tree n τ = 0
  · exact Or.inr (h.way τ fun hc => hτ (hc.trans h0))
  · exact Or.inl h0

theorem Wrote.dind_iff (h : Wrote s s1 n i i1 (fun b => b0 ≤ b ∧ b < q) cont) :
    s1.tree n .dind ≠ 0 ↔ s.tree n .dind ≠ 0 ∨ (b0 < q ∧ 2058 < q) := by
  constructor
  · intro hne
    rcases h.filled hne with hold | ⟨b, ⟨hb0, hbq⟩, hmem⟩
    · exact Or.inl hold
    · have hle := (dind_mem_path (h.below b ⟨hb0, hbq⟩)).1 hmem
      exact Or.inr ⟨by omega, by omega⟩
  · rintro (hold | ⟨hb0, hq⟩)
    · rw [h.grew.mono _ hold]
      exact hold
    · have hlast : b0 ≤ q - 1 ∧ q - 1 < q := ⟨by omega, by omega⟩
      exact (h.full (q - 1) hlast _ ((dind_mem_path (h.below (q - 1) hlast)).2 (by omega))).1

/-- the blocks that were written lie below the new end -/
theorem Wrote.below_end (h : Wrote s s1 n i i1 (fun b => b0 ≤ b ∧ b < q) cont)
    (hcov : Covers (s.tree n) size) (hle : size ≤ fin) (hq : b0 < q → (q : ℤ) ≤ blocksOf fin) :
    (∀ b < maxBlockNr, s1.tree n (slotOf b) ≠ 0 → (b : ℤ) < blocksOf fin) ∧
    (s1.tree n .ind ≠ 0 → 10 < blocksOf fin) := by
  have hmono := blocksOf_mono hle
  constructor
  · intro b hb hne
    rcases h.filled hne with hold | ⟨b', ⟨hb0, hbq⟩, hmem⟩
    · have hlt := hcov.mapped b hb hold
      omega
    · have hslot := eq_of_mem_path hmem (slotOf_not_isPtr b)
      obtain rfl := slotOf_inj hb (h.below b' ⟨hb0, hbq⟩) hslot
      have hend := hq (by omega)
      omega
  · intro hne
    rcases h.filled hne with hold | ⟨b', ⟨hb0, hbq⟩, hmem⟩
    · have hlt := hcov.ind hold
      omega
    · have h10 := ind_mem_path hmem
      have hend := hq (by omega)
      omega

/-- where all blocks were there, the tree is what it was -/
theorem Wrote.tree_of_full (h : Wrote s s1 n i i1 (fun b => b0 ≤ b ∧ b < q) cont)
    (hfull : ∀ b, b0 ≤ b → b < q → ∀ τ ∈ path (slotOf b), s.tree n τ ≠ 0) : s1.tree n = s.tree n := by
  funext τ
  by_contra hne
  obtain ⟨b, ⟨hb0, hbq⟩, hmem⟩ := h.way τ hne
  exact hne (h.grew.mono τ (hfull b hb0 hbq τ hmem))

/-! ## What a write leaves -/

theorem tree_growTo (t : State) (n fin : ℤ) : (growTo t n fin).tree n = t.tree n := by
  unfold State.tree State.dinode growTo
  rw [find_setDinode, if_pos rfl]
  cases t.find n with
  | none => rfl
  | some i => exact tree_congr ⟨rfl, rfl, rfl⟩ fun _ _ _ => rfl

theorem tree_setDirty (t : State) (n : ℤ) : (t.setDirty n).tree n = t.tree n := by
  unfold State.tree State.dinode
  rw [find_setDirty, if_pos rfl]
  cases t.find n with
  | none => rfl
  | some i => rfl

/-- blocks that a file had stay where they are -/
theorem BrokenAt.mono (h : BrokenAt s s' n i buf start p 0 rest r k) (τ : Slot) (hne : s.tree n τ ≠ 0) :
    s'.tree n τ = s.tree n τ := by
  obtain ⟨s1, i1, hw, -, -, ⟨-, -, rfl⟩ | ⟨-, -, s2, i2, hfail, hs'⟩⟩ := h
  · rw [tree_growTo]
    exact hw.grew.mono τ hne
  · have hmono : s2.tree n τ = s.tree n τ := by
      rw [hfail.keeps.mono τ (by rwa [hw.grew.mono τ hne]), hw.grew.mono τ hne]
    rw [hs']
    split_ifs
    · rwa [tree_growTo]
    · exact hmono

/-- after a write that failed: the blocks in front of the one that was refused, and a double indirect block that was
taken when a single block was left -/
theorem BrokenAt.tree (h : BrokenAt s s' n i buf start p 0 rest r k) (hcore : Core s n ∅) (hn : s.alloc n) :
    ∃ s1 i1 cont, Wrote s s1 n i i1 (fun b => p / 8192 ≤ b ∧ b < (p + k) / 8192) cont ∧
      (∀ τ, τ ≠ .dind → s'.tree n τ = s1.tree n τ) ∧
      (s'.tree n .dind ≠ 0 ↔ s1.tree n .dind ≠ 0 ∨ (2058 ≤ (p + k) / 8192 ∧ (p + k) / 8192 < maxBlockNr ∧
        s.sb.usedBlockCount + need (s.tree n) (p / 8192) ((p + k) / 8192) + 1 = s.sb.maxFsBlocks)) := by
  obtain ⟨s1, i1, hw, -, -, ⟨-, hfar, rfl⟩ | ⟨-, hlt, s2, i2, hfail, hs'⟩⟩ := h
  · refine ⟨s1, i1, _, hw, fun τ _ => by rw [tree_growTo], ?_⟩
    rw [tree_growTo]
    exact (or_iff_left fun hc => absurd hc.2.1 (not_lt.2 hfar)).symm
  · have htree : s'.tree n = s2.tree n := by
      rw [hs']
      split_ifs
      · exact tree_growTo ..
      · rfl
    have hused := hw.used hcore hn
    have hmax := hw.grew.touch.frame.max
    refine ⟨s1, i1, _, hw, fun τ hτ => ?_, ?_⟩
    · rw [htree]
      by_contra hne
      exact hτ (hfail.leak τ hne).1
    · rw [htree, ← hused, ← hmax]
      constructor
      · intro hne
        by_cases h0 : s1.tree n .dind = 0
        · obtain ⟨-, hmem, hroom⟩ := hfail.leak .dind fun hc => hne (hc.trans h0)
          exact Or.inr ⟨(dind_mem_path hlt).1 hmem, hlt, hroom⟩
        · exact Or.inl h0
      · rintro (hold | ⟨hle, -, hroom⟩)
        · rw [hfail.keeps.mono _ hold]
          exact hold
        · by_cases h0 : s1.tree n .dind = 0
          · exact hfail.kept ((dind_mem_path hlt).2 hle) h0 hroom
          · rw [hfail.keeps.mono _ h0]
            exact h0

/-! ## The test -/

/-- the first block that a write cannot be given -/
def refused (T : Slot → ℤ) (used limit p last : ℕ) : Option ℕ :=
  (List.range' (p / 8192) (last + 1 - p / 8192)).find? fun q =>
    decide ¬(q < maxBlockNr ∧ used + need T (p / 8192) (q + 1) ≤ limit)

theorem refused_of_stops (h : Stops s n p q) (hq : q ≤ last) :
    refused (s.tree n) s.sb.usedBlockCount s.sb.maxFsBlocks p last = some q := by
  have hle := h.le
  have hno : ¬(q < maxBlockNr ∧ s.sb.usedBlockCount + need (s.tree n) (p / 8192) (q + 1) ≤ s.sb.maxFsBlocks) :=
    h.refused
  unfold refused
  rw [List.find?_range'_eq_some]
  refine ⟨decide_eq_true hno, List.mem_range'_1.2 ⟨hle, by omega⟩, fun b hb0 hbq => ?_⟩
  rw [Bool.not_eq_true', decide_eq_false_iff_not, not_not]
  exact h.before b hb0 hbq

theorem refused_eq_none (h : ∀ q ≤ last, ¬Stops s n p q) :
    refused (s.tree n) s.sb.usedBlockCount s.sb.maxFsBlocks p last = none := by
  rw [Option.eq_none_iff_forall_ne_some]
  intro q hq
  unfold refused at hq
  rw [List.find?_range'_eq_some] at hq
  obtain ⟨hrefused, hmem, hbefore⟩ := hq
  obtain ⟨hle, hlt⟩ := List.mem_range'_1.1 hmem
  have hno : ¬(q < maxBlockNr ∧ s.sb.usedBlockCount + need (s.tree n) (p / 8192) (q + 1) ≤ s.sb.maxFsBlocks) :=
    of_decide_eq_true hrefused
  refine h q (by omega) ⟨hle, hno, fun b hb0 hbq => ?_⟩
  have hhad := hbefore b hb0 hbq
  rw [Bool.not_eq_true', decide_eq_false_iff_not, not_not] at hhad
  exact hhad

/-- the end of a file of `size` bytes after a write of `len` bytes -/
def endAfter (size start : ℤ) (p last len : ℕ) : Option ℕ → ℤ
  | none => if 0 < len then max size (start + len) else size
  | some q => if q < maxBlockNr ∧ q < last then size else max size (start + (q * 8192 - p : ℕ))

/-- the blocks that a write has placed end here -/
def placedTo (last : ℕ) : Option ℕ → ℕ
  | none => last + 1
  | some q => q

/-- there is a double indirect block after a write -/
def dindAfter (T : Slot → ℤ) (used limit b0 last : ℕ) : Option ℕ → Prop
  | none => T .dind ≠ 0 ∨ 2058 ≤ last
  | some q => T .dind ≠ 0 ∨ (b0 < q ∧ 2058 < q) ∨ (2058 ≤ q ∧ q < maxBlockNr ∧ used + need T b0 q + 1 = limit)

instance (T : Slot → ℤ) (used limit b0 last : ℕ) : (o : Option ℕ) → Decidable (dindAfter T used limit b0 last o)
  | none => inferInstanceAs (Decidable (_ ∨ _))
  | some _ => inferInstanceAs (Decidable (_ ∨ _))

/-- After a write of `len` bytes from `start` on to a file of `size` bytes with the block tree `T`, the end covers the
blocks. -/
def Spans (T : Slot → ℤ) (used limit : ℕ) (size start : ℤ) (len : ℕ) : Prop :=
  let p := writePos start
  let last := lastBlock p (len % 2 ^ 32)
  let stop := refused T used limit p last
  let e := blocksOf (endAfter size start p last len stop)
  (p / 8192 < placedTo last stop → placedTo last stop ≤ e) ∧
    (10 + 2048 < e ↔ dindAfter T used limit (p / 8192) last stop)

instance (T : Slot → ℤ) (used limit : ℕ) (size start : ℤ) (len : ℕ) : Decidable (Spans T used limit size start len) :=
  inferInstanceAs (Decidable (_ ∧ _))

theorem Finished.covers {start : ℤ} {len : ℕ} (h : Finished s s' n i buf start len (writePos start) 0 (len % 2 ^ 32) r)
    (hcore : Core s n ∅) (hn : s.alloc n) (hcov : Covers (s.tree n) i.dinode.iSize)
    (hspan : Spans (s.tree n) s.sb.usedBlockCount s.sb.maxFsBlocks i.dinode.iSize start len) :
    ∃ i', s'.find n = some i' ∧ i'.dirty = true ∧ Covers (s'.tree n) i'.dinode.iSize := by
  have hstop := refused_eq_none fun q hq => h.had hcore hn hq
  unfold Spans at hspan
  dsimp only at hspan
  rw [hstop] at hspan
  obtain ⟨hplaced, hdind⟩ := hspan
  obtain ⟨s1, i1, hw, hlast, -, rfl⟩ := h
  have hblocks : ∀ b, (writePos start / 8192 ≤ b ∧ b ≤ (writePos start + max (len % 2 ^ 32) 1 - 1) / 8192) ↔
      (writePos start / 8192 ≤ b ∧ b < lastBlock (writePos start) (len % 2 ^ 32) + 1) :=
    fun b => by unfold lastBlock; omega
  have hw := hw.congr hblocks rfl
  have hfirst : writePos start / 8192 ≤ lastBlock (writePos start) (len % 2 ^ 32) := by
    unfold lastBlock
    omega
  set fin :=
    endAfter i.dinode.iSize start (writePos start) (lastBlock (writePos start) (len % 2 ^ 32)) len none with hfin
  have hle : i.dinode.iSize ≤ fin := by
    rw [hfin, endAfter]
    split_ifs
    · exact le_max_left _ _
    · exact le_refl _
  obtain ⟨hmapped, hind⟩ := hw.below_end hcov hle fun hlt => hplaced hlt
  have hcovers : Covers (s1.tree n) fin := by
    refine ⟨hmapped, hind, ?_⟩
    rw [hw.dind_iff, hdind, dindAfter]
    exact or_congr_right ⟨fun hc => by omega, fun hc => ⟨by omega, by omega⟩⟩
  have htree : ((if 0 < len then growTo s1 n (start + len) else s1).setDirty n).tree n = s1.tree n := by
    rw [tree_setDirty]
    split_ifs
    · exact tree_growTo ..
    · rfl
  rw [htree]
  refine ⟨{ i1 with dinode := { i1.dinode with iSize := fin }, dirty := true }, ?_, rfl, hcovers⟩
  rw [find_setDirty, if_pos rfl, hfin, endAfter]
  split_ifs
  · rw [growTo, find_setDinode, if_pos rfl, hw.grew.touch.new, ← hw.size]
    rfl
  · rw [hw.grew.touch.new, ← hw.size]
    rfl

theorem BrokenAt.covers {start : ℤ} {len : ℕ} (h : BrokenAt s s' n i buf start (writePos start) 0 (len % 2 ^ 32) r k)
    (hcore : Core s n ∅) (hn : s.alloc n) (hcov : Covers (s.tree n) i.dinode.iSize)
    (hspan : Spans (s.tree n) s.sb.usedBlockCount s.sb.maxFsBlocks i.dinode.iSize start len) :
    ∃ i', s'.find n = some i' ∧ Covers (s'.tree n) i'.dinode.iSize := by
  obtain ⟨hstops, hle, hk⟩ := h.stops hcore hn
  have hstop := refused_of_stops hstops hle
  unfold Spans at hspan
  dsimp only at hspan
  rw [hstop] at hspan
  obtain ⟨hplaced, hdind⟩ := hspan
  obtain ⟨-, i', hleft⟩ := h.left hcore hn
  obtain ⟨s1, i1, cont, hw, hrest, hlast⟩ := h.tree hcore hn
  generalize (writePos start + k) / 8192 = q at *
  have hend : endAfter i.dinode.iSize start (writePos start) (lastBlock (writePos start) (len % 2 ^ 32)) len (some q) =
      i'.dinode.iSize := by
    rw [endAfter]
    split_ifs with hmove
    · exact (hleft.stays (not_not.2 hmove)).symm
    · rw [hleft.moves hmove, hk]
  rw [hend] at hplaced hdind
  have hsize : i.dinode.iSize ≤ i'.dinode.iSize := by
    by_cases hmove : Moving q (lastBlock (writePos start) (len % 2 ^ 32))
    · rw [hleft.moves hmove]
      exact le_max_left _ _
    · exact le_of_eq (hleft.stays hmove).symm
  obtain ⟨hmapped, hind⟩ := hw.below_end hcov hsize fun hlt => hplaced hlt
  refine ⟨i', hleft.find, fun b hb hne => hmapped b hb ?_, fun hne => hind ?_, ?_⟩
  · rwa [hrest _ (slotOf_ne_dind b)] at hne
  · rwa [hrest _ (by simp)] at hne
  · rw [hlast, hw.dind_iff, or_assoc, hdind]
    rfl

/-- **After a write that passes the test, the end covers the blocks.** -/
theorem writeData_covers {start : ℤ} {len : ℕ} (hcore : Core s n ∅) (hn : s.alloc n) (hi : s.find n = some i)
    (hins : Inside s fun _ => False) (hstack : ∀ j, s.stack j = 0) (hr : writeData s n buf start len = .ok (r, s'))
    (hcov : Covers (s.tree n) i.dinode.iSize)
    (hspan : Spans (s.tree n) s.sb.usedBlockCount s.sb.maxFsBlocks i.dinode.iSize start len) :
    ∃ i', s'.find n = some i' ∧ Covers (s'.tree n) i'.dinode.iSize := by
  obtain ⟨-, ⟨hfin, -⟩ | hbroken⟩ := writeData_spec hcore hn hi hins (fun _ _ => hstack) hr
  · obtain ⟨i', hi', -, hcovers⟩ := hfin.covers hcore hn hcov hspan
    exact ⟨i', hi', hcovers⟩
  · exact hbroken.covers hcore hn hcov hspan

/-- a write of which all blocks can be had passes the test -/
theorem spans_of_none (hcov : Covers T size) (hlen : 0 < len) (hlt : len < 2 ^ 32) (hp : p < 2 ^ 32)
    (hnone : refused T used limit p (lastBlock p len) = none) : Spans T used limit size p len := by
  have hwp : writePos (p : ℤ) = p := by rw [writePos_eq (by omega) (by rw [maxBlockNr_eq]; omega), Int.toNat_natCast]
  have hmod : len % 2 ^ 32 = len := Nat.mod_eq_of_lt hlt
  unfold Spans
  dsimp only
  rw [hwp, hmod, hnone]
  have hend : blocksOf (endAfter size p p (lastBlock p len) len none) = max (blocksOf size) (lastBlock p len + 1) := by
    rw [endAfter, if_pos hlen]
    unfold blocksOf lastBlock
    omega
  have hdind := hcov.dind
  rw [hend]
  simp only [placedTo, dindAfter, hdind]
  omega

/-- the size of the inode in memory covers its blocks -/
def Held (n : ℤ) (s : State) : Prop := ∃ i, s.find n = some i ∧ Covers (s.tree n) i.dinode.iSize

theorem Held.covers (h : Held n s) : Covers (s.tree n) (s.dinode n).iSize := by
  obtain ⟨i, hi, hcov⟩ := h
  rwa [dinode_of_find hi]

theorem Held.of_eq (h : Held n s) (hfind : s'.find n = s.find n) (htree : s'.tree n = s.tree n) : Held n s' := by
  obtain ⟨i, hi, hcov⟩ := h
  exact ⟨i, hfind.trans hi, by rwa [htree]⟩

/-- **After a write to a directory that succeeds, the end covers the blocks.** -/
theorem writeDir_held {buf : List UInt8} (hs : Sound s) (hn : s.alloc n) (h0 : 0 < buf.length)
    (hlen : buf.length < 2 ^ 31) (hp : p < 2 ^ 32) (hcov : Covers (s.tree n) (s.dinode n).iSize)
    (hr : writeDir s n buf p = .ok (r, s')) (hpos : 0 ≤ r) :
    Held n s' := by
  have hcore := hs.core.change n
  obtain ⟨i, hi, hfin⟩ := writeDir_finished hs hn hlen hp hr hpos
  rw [dinode_of_find hi] at hcov
  have hwp : writePos (p : ℤ) = p := by rw [writePos_eq (by omega) (by rw [maxBlockNr_eq]; omega), Int.toNat_natCast]
  have hmod : buf.length % 2 ^ 32 = buf.length := Nat.mod_eq_of_lt (by omega)
  have hspan := spans_of_none hcov h0 (by omega) hp (refused_eq_none fun q hq => hfin.had hcore hn hq)
  have hfin' : Finished s s' n i (bytes buf) p buf.length (writePos (p : ℤ)) 0 (buf.length % 2 ^ 32) r := by
    rw [hwp, hmod]
    exact hfin
  obtain ⟨i', hi', -, hcovers⟩ := hfin'.covers hcore hn hcov hspan
  exact ⟨i', hi', hcovers⟩

/-! ## A write that takes no block -/

/-- blocks that were all there are not taken again -/
theorem BrokenAt.tree_eq (h : BrokenAt s s' n i buf start p 0 rest r k) (hcore : Core s n ∅) (hn : s.alloc n)
    (hthere : ∀ b, p / 8192 ≤ b → b < (p + k) / 8192 → ∀ τ ∈ path (slotOf b), s.tree n τ ≠ 0)
    (hdind : s'.tree n .dind ≠ 0 → s.tree n .dind ≠ 0) : s'.tree n = s.tree n := by
  obtain ⟨s1, i1, cont, hw, hrest, -⟩ := h.tree hcore hn
  have hsame := hw.tree_of_full hthere
  funext τ
  by_cases hτ : τ = .dind
  · subst hτ
    by_cases h0 : s'.tree n .dind = 0
    · by_contra hne
      exact hne (h.mono .dind fun hc => hne (h0.trans hc.symm))
    · exact h.mono _ (hdind h0)
  · rw [hrest τ hτ, hsame]

/-- a write that leaves the dirty flag alone has taken no block -/
theorem BrokenAt.tree_of_clean (h : BrokenAt s s' n i buf start p 0 rest r k) (hcore : Core s n ∅) (hn : s.alloc n)
    (hclean : ¬Dirties s n i p ((p + k) / 8192)) :
    s'.tree n = s.tree n := by
  unfold Dirties at hclean
  rw [not_or, not_or, not_not] at hclean
  obtain ⟨-, hneed, hfull⟩ := hclean
  obtain ⟨s1, i1, cont, hw, -, hlast⟩ := h.tree hcore hn
  have hthere : ∀ b, p / 8192 ≤ b → b < (p + k) / 8192 → ∀ τ ∈ path (slotOf b), s.tree n τ ≠ 0 := by
    intro b hb0 hbq τ hτ hz
    have hmem : τ ∈ gaps (s.tree n) (p / 8192) ((p + k) / 8192) := mem_gaps.2 ⟨⟨b, ⟨hb0, hbq⟩, hτ⟩, hz⟩
    rw [need, Finset.card_eq_zero] at hneed
    rw [hneed] at hmem
    exact Finset.notMem_empty _ hmem
  refine h.tree_eq hcore hn hthere fun hne => ?_
  rcases hlast.1 hne with hold | ⟨-, hlt, hroom⟩
  · rwa [hw.tree_of_full hthere] at hold
  · exact absurd ⟨hlt, by omega⟩ hfull

/-- where the blocks up to the end were there and the end did not move, no block was taken -/
theorem BrokenAt.tree_of_covers (h : BrokenAt s s' n i buf start p 0 rest r k) (hcore : Core s n ∅) (hn : s.alloc n)
    (hcov : Covers (s.tree n) size) (hcov' : Covers (s'.tree n) size)
    (hsolid : ∀ b : ℕ, (b : ℤ) < blocksOf size → ∀ τ ∈ path (slotOf b), s.tree n τ ≠ 0) : s'.tree n = s.tree n := by
  obtain ⟨s1, i1, cont, hw, hrest, -⟩ := h.tree hcore hn
  refine h.tree_eq hcore hn (fun b hb0 hbq => hsolid b (hcov'.mapped b (hw.below b ⟨hb0, hbq⟩) ?_)) fun hne => ?_
  · rw [hrest _ (slotOf_ne_dind b)]
    exact (hw.full b ⟨hb0, hbq⟩ _ (slotOf_mem_path b)).1
  · exact hcov.dind.2 (hcov'.dind.1 hne)

/-- a write takes no block, and it leaves the dirty flag alone -/
def Untouched (T : Slot → ℤ) (used limit : ℕ) (start : ℤ) (len : ℕ) : Prop :=
  ∃ q ∈ refused T used limit (writePos start) (lastBlock (writePos start) (len % 2 ^ 32)),
    need T (writePos start / 8192) q = 0 ∧ (q < maxBlockNr → limit ≤ used)

instance (T : Slot → ℤ) (used limit : ℕ) (start : ℤ) (len : ℕ) : Decidable (Untouched T used limit start len) :=
  inferInstanceAs (Decidable (∃ _ ∈ _, _))

/-- a write that does not set the dirty flag has taken no block -/
theorem writeData_kept {start : ℤ} {len : ℕ} (hcore : Core s n ∅) (hn : s.alloc n) (hi : s.find n = some i)
    (hins : Inside s fun _ => False) (hstack : ∀ j, s.stack j = 0) (hr : writeData s n buf start len = .ok (r, s'))
    (hi' : s'.find n = some i') (hclean : i'.dirty = false) : s'.tree n = s.tree n := by
  obtain ⟨-, ⟨⟨s1, i1, -, -, -, rfl⟩, -⟩ | hbroken⟩ := writeData_spec hcore hn hi hins (fun _ _ => hstack) hr
  · rw [flagged_setDirty _ _ i' hi'] at hclean
    cases hclean
  · obtain ⟨-, j, hleft⟩ := hbroken.left hcore hn
    obtain rfl : i' = j := Option.some.inj (hi'.symm.trans hleft.find)
    refine hbroken.tree_of_clean hcore hn fun hdirties => ?_
    rw [hleft.dirty.2 hdirties] at hclean
    cases hclean

theorem writeData_untouched {start : ℤ} {len : ℕ} (hcore : Core s n ∅) (hn : s.alloc n) (hi : s.find n = some i)
    (hins : Inside s fun _ => False) (hstack : ∀ j, s.stack j = 0) (hr : writeData s n buf start len = .ok (r, s'))
    (hun : Untouched (s.tree n) s.sb.usedBlockCount s.sb.maxFsBlocks start len) (hclean : i.dirty = false)
    (hi' : s'.find n = some i') : i'.dirty = false := by
  obtain ⟨q, hq, hneed, hfull⟩ := hun
  rw [Option.mem_def] at hq
  obtain ⟨-, ⟨hfin, -⟩ | hbroken⟩ := writeData_spec hcore hn hi hins (fun _ _ => hstack) hr
  · rw [refused_eq_none fun q hq => hfin.had hcore hn hq] at hq
    cases hq
  · obtain ⟨hstops, hle, -⟩ := hbroken.stops hcore hn
    obtain ⟨-, j, hleft⟩ := hbroken.left hcore hn
    obtain rfl : i' = j := Option.some.inj (hi'.symm.trans hleft.find)
    rw [refused_of_stops hstops hle, Option.some.injEq] at hq
    rw [← Bool.not_eq_true, hleft.dirty, hq]
    rintro (hdirty | hne | ⟨hlt, hroom⟩)
    · exact absurd hdirty (by rw [hclean]; decide)
    · exact hne hneed
    · exact absurd (hfull hlt) (not_le.2 hroom)

/-! ## `testfs_add_dirent` -/

/-- the test for a new entry behind the entries `es` -/
def Holds (T : Slot → ℤ) (used limit : ℕ) (es : List Dirent) (name : List UInt8) : Prop :=
  es.findSome? (addHere name (name.length + 1)) = none → entryFits name ∧
    (name.length + 9 < 2 ^ 31 → Spans T used limit (listing es).length (listing es).length (name.length + 9))

theorem Directory.blocks_there (h : Directory s n es) {b : ℕ} (hb : (b : ℤ) < blocksOf (s.dinode n).iSize) :
    ∀ τ ∈ path (slotOf b), s.tree n τ ≠ 0 := by
  rw [h.size] at hb
  unfold blocksOf at hb
  exact fun τ hτ => (h.solid b (by omega) τ hτ).1

/-- **An entry is added, and the end covers the blocks.** -/
theorem addDirent_held (hs : Sound s) (hd : s.alloc d) (h : Directory s d es)
    (hfits : es.findSome? (addHere name (name.length + 1)) = none → entryFits name)
    (hcov : Covers (s.tree d) (s.dinode d).iSize) (hr : addDirent s d name nr = .ok (r, s'))
    (h0 : 0 ≤ r) : Held d s' := by
  have hbytes := entryOfName_bytes name nr
  rcases addDirent_cases (hs.core.acc.nonneg_of_tree hd) h hr with
    ⟨-, ⟨rfl, -⟩ | ⟨rfl, -⟩⟩ | ⟨hlt, ⟨hnone, hend, hw⟩ | ⟨pre, e, post, rfl, -, hsame, hw⟩⟩
  · exact absurd h0 (by decide)
  · exact absurd h0 (by decide)
  · have hlen : name.length + 9 < 2 ^ 31 := (hfits hnone).resolve_right (by omega)
    exact writeDir_held hs hd (by omega) (by omega) (by omega) hcov hw h0
  · have hshort := (h.wf e (by simp)).short
    have hstart : (listing pre).length < 2 ^ 32 := by
      have hsmall := h.small
      rw [listing_append, List.length_append] at hsmall
      omega
    exact writeDir_held hs hd (by omega) (by omega) hstart hcov hw h0

/-- **An entry that is refused has taken no block.** -/
theorem addDirent_refused (hs : Sound s) (hd : s.alloc d) (h : Directory s d es) (hname : 0 ∉ name) (hnr : InInt32 nr)
    (hstack : ∀ j, s.stack j = 0) (hholds : Holds (s.tree d) s.sb.usedBlockCount s.sb.maxFsBlocks es name)
    (hcov : Covers (s.tree d) (s.dinode d).iSize) (hr : addDirent s d name nr = .ok (r, s')) (hneg : r < 0)
    (hsize : (s'.dinode d).iSize = (s.dinode d).iSize) : s'.tree d = s.tree d := by
  have hbytes := entryOfName_bytes name nr
  have hcore := hs.core.change d
  rcases addDirent_cases (hs.core.acc.nonneg_of_tree hd) h hr with
    ⟨rfl, -⟩ | ⟨hlt, ⟨hnone, hend, hw⟩ | ⟨pre, e, post, rfl, -, hsame, hw⟩⟩
  · rfl
  · obtain ⟨hfits, hspan⟩ := hholds hnone
    have hlen : name.length + 9 < 2 ^ 31 := hfits.resolve_right (by omega)
    obtain ⟨i, i', t, k, hi, hi', hbroken, rfl⟩ := writeDir_broken hs hd hstack (by omega) hend hw hneg
    have hdinode :
      ({ t with dirFails := t.dirFails ++ [i'.dinode.iSize - i.dinode.iSize] } : State).dinode d = i'.dinode :=
      dinode_of_find hi'
    rw [hdinode] at hsize
    have hwp : writePos ((listing es).length : ℤ) = (listing es).length := by
      rw [writePos_eq (by omega) (by rw [maxBlockNr_eq]; omega), Int.toNat_natCast]
    have hmod : (name.length + 9) % 2 ^ 32 = name.length + 9 := Nat.mod_eq_of_lt (by omega)
    rw [hbytes] at hbroken
    have hbroken' : BrokenAt s t d i (bytes (entryOfName name nr).bytes) (listing es).length
        (writePos ((listing es).length : ℤ)) 0 ((name.length + 9) % 2 ^ 32) r k := by
      rw [hwp, hmod]
      exact hbroken
    have hsolid := fun b => h.blocks_there (b := b)
    have hlisting := h.size
    rw [dinode_of_find hi] at hlisting hcov hsize hsolid
    obtain ⟨j, hj, hcovers⟩ := hbroken'.covers hcore hd hcov (by rw [hlisting]; exact hspan hlen)
    obtain rfl : i' = j := Option.some.inj (hi'.symm.trans hj)
    rw [hsize] at hcovers
    exact hbroken.tree_of_covers hcore hd hcov hcovers hsolid
  · have heq : (entryOfName name nr).name.length = e.name.length := by rw [entryOfName_length, hsame]
    obtain ⟨h0, -⟩ := replace_entry hs hd h (entryOfName_wf hname hnr (by rw [heq]; exact (h.wf e (by simp)).short)) heq
      (fun _ => Or.inl hstack) hw
    exact absurd hneg (not_lt.2 h0)

/-- a new directory -/
theorem createEmptyDir_held (hs : Sound s) (hn : s.alloc n) (h : Directory s n [])
    (hcov : Covers (s.tree n) (s.dinode n).iSize) (hr : createEmptyDir s d n = .ok (r, s'))
    (h0 : 0 ≤ r) : Held n s' := by
  have hnone : ∀ e ∈ ([] : List Dirent), e.live := fun e he => absurd he List.not_mem_nil
  rcases createEmptyDir_cases hr with ⟨hneg, -⟩ | ⟨r1, s1, h1, hadd, hrest⟩
  · exact absurd hneg (not_lt.2 h0)
  obtain ⟨r2, h2, -, hadd2⟩ := hrest.resolve_left fun hc => absurd hc.1 (not_lt.2 h0)
  have hheld1 := addDirent_held hs hn h (fun _ => Or.inl (by decide)) hcov hadd h1
  obtain ⟨hedit, ⟨-, -, hd1⟩ | ⟨hneg, -⟩⟩ := addDirent_new hs hn h hnone zero_notMem_dot (by decide)
    (fun e he => absurd he List.not_mem_nil) hn (fun hc => absurd hc (not_lt.2 h1)) hadd
  swap
  · exact absurd hneg (not_lt.2 h1)
  exact addDirent_held hedit.sound ((hedit.alloc n).2 hn) hd1 (fun _ => Or.inl (by decide)) hheld1.covers hadd2 h2

end OsLab.Testfs
