/-
What a failed write leaves behind.

`testfs_write_data` stops at the first block that it cannot be given (`Stops`). The bytes in front of that block are in
the file. `i_size` and the dirty flag follow on some of the exits only:
- a block that is refused with `-ENOSPC` in front of the last one: the end of the file does not move to the bytes
  written;
- the last block, or a block past the maximum: the end moves, also when no byte was written, and without the dirty flag.
`failed_write_kept` says for every write exactly when what is left is a clean prefix.
-/
import Mathlib.Tactic
import OsLab.Testfs.Runs

namespace OsLab.Testfs

open OsLab.Lib Function State

variable {s s' s0 s1 t : State} {n r : ℤ} {i : Inode} {buf : Lib.Mem} {start : ℤ} {size p q k rest : ℕ} {fsSizeMb : ℕ}
  {stack : ℕ → ℤ}

/-! ## The block that is refused -/

/-- a write that begins in block `b0` can be given the blocks up to `b` -/
def Had (s : State) (n : ℤ) (b0 b : ℕ) : Prop :=
  b < maxBlockNr ∧ s.sb.usedBlockCount + need (s.tree n) b0 (b + 1) ≤ s.sb.maxFsBlocks

/-- block `q` is the first one that a write from position `p` on cannot be given -/
structure Stops (s : State) (n : ℤ) (p q : ℕ) : Prop where
  le : p / 8192 ≤ q
  refused : ¬Had s n (p / 8192) q
  before : ∀ b, p / 8192 ≤ b → b < q → Had s n (p / 8192) b

theorem Stops.unique {q' : ℕ} (h : Stops s n p q) (h' : Stops s n p q') : q = q' := by
  rcases lt_trichotomy q q' with hlt | heq | hlt
  · exact absurd (h'.before q h.le hlt) h.refused
  · exact heq
  · exact absurd (h.before q' h'.le hlt) h'.refused

/-- the last block a write touches -/
def lastBlock (p rest : ℕ) : ℕ := (p + max rest 1 - 1) / 8192

/-- the blocks that were written could be had -/
theorem Wrote.had {i1 : Inode} {B : ℕ → Prop} {c : Lib.Mem} {b0 q b : ℕ} (h : Wrote s s1 n i i1 B c)
    (hB : ∀ b, B b ↔ b0 ≤ b ∧ b < q) (hcore : Core s n ∅) (hn : s.alloc n) (h0 : b0 ≤ b)
    (hq : b < q) : Had s n b0 b := by
  have hw := h.congr hB rfl
  refine ⟨hw.below b ⟨h0, hq⟩, ?_⟩
  calc s.sb.usedBlockCount + need (s.tree n) b0 (b + 1) ≤ s.sb.usedBlockCount + need (s.tree n) b0 q :=
        Nat.add_le_add_left (need_mono hq) _
    _ = s1.sb.usedBlockCount := (hw.used hcore hn).symm
    _ ≤ s1.sb.maxFsBlocks := hw.grew.core.acc.limit
    _ = s.sb.maxFsBlocks := hw.grew.touch.frame.max

theorem BrokenAt.stops (h : BrokenAt s s' n i buf start p 0 rest r k) (hcore : Core s n ∅) (hn : s.alloc n) :
    Stops s n p ((p + k) / 8192) ∧ (p + k) / 8192 ≤ lastBlock p rest ∧ k = (p + k) / 8192 * 8192 - p := by
  obtain ⟨s1, i1, hw, hk, hkm, hend⟩ := h
  refine ⟨⟨by omega, ?_, fun b h0 hq => hw.had (fun _ => Iff.rfl) hcore hn h0 hq⟩, by unfold lastBlock; omega, by omega⟩
  rintro ⟨hmax, hroom⟩
  rcases hend with ⟨-, hfar, -⟩ | ⟨-, -, s2, i2, hfail, -⟩
  · omega
  · have hshort := hfail.short
    rw [hw.grew.touch.frame.max, hw.used hcore hn, add_assoc, ← hw.need_succ (by omega)] at hshort
    omega

theorem Finished.had (h : Finished s s' n i buf start size p 0 rest r) (hcore : Core s n ∅) (hn : s.alloc n)
    (hq : q ≤ lastBlock p rest) : ¬Stops s n p q := by
  obtain ⟨s1, i1, hw, -⟩ := h
  intro hc
  exact hc.refused (hw.had (q := lastBlock p rest + 1) (fun b => by unfold lastBlock; omega) hcore hn hc.le (by omega))

/-! ## The inode after a failed write -/

/-- what sets the dirty flag: it was set, or a block was allocated, if only for a time -/
def Dirties (s : State) (n : ℤ) (i : Inode) (p q : ℕ) : Prop :=
  i.dirty = true ∨ need (s.tree n) (p / 8192) q ≠ 0 ∨ (q < maxBlockNr ∧ s.sb.usedBlockCount < s.sb.maxFsBlocks)

/-- the end moves on these exits -/
def Moving (q last : ℕ) : Prop := ¬(q < maxBlockNr ∧ q < last)

/-- no gap was filled, so every block was there -/
theorem tree_ne_of_need {b0 q b : ℕ} {T : Slot → ℤ} (h : need T b0 q = 0) (h0 : b0 ≤ b) (hq : b < q) :
    T (slotOf b) ≠ 0 := by
  intro hz
  have hmem : slotOf b ∈ gaps T b0 q := mem_gaps.2 ⟨⟨b, ⟨h0, hq⟩, slotOf_mem_path b⟩, hz⟩
  rw [need, Finset.card_eq_zero] at h
  rw [h] at hmem
  exact Finset.notMem_empty _ hmem

/-- blocks that were written without an allocation leave the inode alone -/
theorem Wrote.inode {i1 : Inode} {c : Lib.Mem} {b0 q : ℕ} (h : Wrote s s1 n i i1 (fun b => b0 ≤ b ∧ b < q) c)
    (hcore : Core s n ∅) (hn : s.alloc n) :
    (i.dirty = true ∨ need (s.tree n) b0 q ≠ 0 → i1.dirty = true) ∧ (need (s.tree n) b0 q = 0 → i1 = i) := by
  refine ⟨?_, fun hz => h.same fun b hb => tree_ne_of_need hz hb.1 hb.2⟩
  rintro (hd | hne)
  · exact h.grew.touch.dirty hd
  · by_contra hd
    have hclean := h.grew.touch.clean (Bool.eq_false_iff.2 hd)
    have hcount := h.grew.touch.used
    rw [h.used hcore hn, hclean] at hcount
    push_cast at hcount
    omega

/-- the inode after the exits of a failed write -/
structure Left (s s' : State) (n : ℤ) (i i' : Inode) (p q last : ℕ) (fin : ℤ) : Prop where
  find : s'.find n = some i'
  stays : ¬Moving q last → i'.dinode.iSize = i.dinode.iSize
  moves : Moving q last → i'.dinode.iSize = max i.dinode.iSize fin
  clean : i'.dirty = false → i'.dinode = { i.dinode with iSize := i'.dinode.iSize }
  dirty : i'.dirty = true ↔ Dirties s n i p q

theorem BrokenAt.left (h : BrokenAt s s' n i buf start p 0 rest r k) (hcore : Core s n ∅) (hn : s.alloc n) :
    s'.content n = copy (s.content n) p buf 0 k ∧
      ∃ i', Left s s' n i i' p ((p + k) / 8192) (lastBlock p rest) (start + k) := by
  obtain ⟨s1, i1, hw, hk, hkm, hend⟩ := h
  obtain ⟨hdirty, hsame⟩ := hw.inode hcore hn
  have hn1 := hw.grew.touch.alloc.2 hn
  rw [Nat.zero_add] at hend
  have hmoved : ∀ u j, u.find n = some j →
      (growTo u n (start + k)).find n =
      some { j with dinode := { j.dinode with iSize := max j.dinode.iSize (start + k) } } := by
    intro u j hu
    rw [growTo, find_setDinode, if_pos rfl, hu]
    rfl
  have hdirties : ∀ j : Inode, (i1.dirty = true → j.dirty = true) → ((p + k) / 8192 < maxBlockNr →
      (s1.sb.usedBlockCount < s1.sb.maxFsBlocks → j.dirty = true) ∧
      (s1.sb.maxFsBlocks ≤ s1.sb.usedBlockCount → j = i1)) →
      (maxBlockNr ≤ (p + k) / 8192 → j = i1) → (j.dirty = true ↔ Dirties s n i p ((p + k) / 8192)) := by
    intro j hkeep hfail hfar
    have hused := hw.used hcore hn
    rw [hused, hw.grew.touch.frame.max] at hfail
    constructor
    · intro hj
      by_contra hc
      simp only [Dirties, not_or, not_not, not_and, Bool.not_eq_true] at hc
      obtain ⟨hclean, hzero, hfull⟩ := hc
      have hi1 := hsame hzero
      by_cases hlt : (p + k) / 8192 < maxBlockNr
      · have hji := (hfail hlt).2 (by have := hfull hlt; omega)
        rw [hji, hi1, hclean] at hj
        cases hj
      · rw [hfar (by omega), hi1, hclean] at hj
        cases hj
    · rintro (hd | hne | ⟨hlt, hroom⟩)
      · exact hkeep (hdirty (Or.inl hd))
      · exact hkeep (hdirty (Or.inr hne))
      · by_cases hzero : need (s.tree n) (p / 8192) ((p + k) / 8192) = 0
        · exact (hfail hlt).1 (by omega)
        · exact hkeep (hdirty (Or.inr hzero))
  rcases hend with ⟨-, hfar, hs'⟩ | ⟨-, hlt, s2, i2, hfail, hs'⟩
  · subst hs'
    have htouch := hw.grew.touch.trans (touch_setDinode (f := fun d => { d with iSize := max d.iSize (start + k) })
      hw.grew.touch.new rfl rfl fun _ => rfl)
    refine ⟨by rw [content_growTo, hw.content], _, hmoved s1 i1 hw.grew.touch.new, fun hc => ?_,
      fun _ => ?_, htouch.clean, ?_⟩
    · exact absurd (not_not.1 hc).1 (by omega)
    · change max i1.dinode.iSize _ = _
      rw [hw.size]
    · exact hdirties i1 id (fun hc => by omega) fun _ => rfl
  · have htouch2 := hw.grew.touch.trans hfail.touch
    have hflags := hdirties i2 hfail.touch.dirty (fun _ => ⟨hfail.dirty, hfail.same⟩) fun hc => by omega
    have hcontent : s2.content n = copy (s.content n) p buf 0 k := by rw [hfail.content hn1, hw.content]
    have hsize : i2.dinode.iSize = i.dinode.iSize := hfail.size.trans hw.size
    split_ifs at hs' with hlast
    · subst hs'
      have htouch := htouch2.trans (touch_setDinode (f := fun d => { d with iSize := max d.iSize (start + k) })
        htouch2.new rfl rfl fun _ => rfl)
      refine ⟨by rw [content_growTo, hcontent], _, hmoved s2 i2 htouch2.new, fun hc => ?_, fun _ => ?_,
        htouch.clean, hflags⟩
      · exact absurd (not_not.1 hc).2 (by unfold lastBlock; omega)
      · change max i2.dinode.iSize _ = _
        rw [hsize]
    · subst hs'
      refine ⟨hcontent, _, htouch2.new, fun _ => hsize, fun hc => ?_, htouch2.clean, hflags⟩
      exact absurd ⟨hlt, by unfold lastBlock; omega⟩ hc

/-! ## Clean prefixes -/

/-- the first `k` bytes of a write are in the file, and the inode says so -/
structure PrefixWritten (s s' : State) (n : ℤ) (buf : Lib.Mem) (start : ℤ) (k : ℕ) : Prop where
  content : s'.content n = copy (s.content n) start.toNat buf 0 k
  size : (s'.dinode n).iSize = if 0 < k then max (s.dinode n).iSize (start + k) else (s.dinode n).iSize
  dirty : ∀ i', s'.find n = some i' → i'.dinode ≠ s.dinode n → i'.dirty = true

/-- The bytes are where they belong: the number of the first block is an `int`, or zeros were written over zeros. -/
def InPlace (s : State) (n : ℤ) (buf : Lib.Mem) (start : ℤ) (k : ℕ) : Prop :=
  (writePos start : ℤ) = start ∨ ∀ j < k, buf j = 0 ∧ s.content n (writePos start + j) = 0

/-- a write that fails, or whose length is negative as an `int`, leaves a clean prefix -/
def FailsCleanly (s : State) (n : ℤ) (i : Inode) (buf : Lib.Mem) (start : ℤ) (size : ℕ) : Prop :=
  let p := writePos start
  let last := lastBlock p (size % 2 ^ 32)
  (∀ q ≤ last, Stops s n p q → InPlace s n buf start (q * 8192 - p) ∧
    (¬Moving q last → q * 8192 ≤ p ∨ start + (q * 8192 - p : ℕ) ≤ i.dinode.iSize) ∧
    (Moving q last → (q * 8192 ≤ p → start ≤ i.dinode.iSize) ∧
      (start + (q * 8192 - p : ℕ) ≤ i.dinode.iSize ∨ Dirties s n i p q))) ∧
  ((∀ q ≤ last, ¬Stops s n p q) → InPlace s n buf start (size % 2 ^ 32) ∧
    (size < 2 ^ 32 ∨ start + size ≤ i.dinode.iSize))

/-- there is nothing behind the last block a file can have -/
theorem content_of_far {o : ℕ} (h : maxBlockNr * 8192 ≤ o) : s.content n o = 0 := by
  rw [content_eq, State.phys, if_neg (by omega), blockAt, if_pos rfl]
  rfl

theorem copy_eq_iff (h0 : 0 ≤ start) (hend : k = 0 ∨ writePos start + k ≤ maxBlockNr * 8192) :
    copy (s.content n) (writePos start) buf 0 k = copy (s.content n) start.toNat buf 0 k ↔ InPlace s n buf start k := by
  by_cases hp : (writePos start : ℤ) = start
  · refine iff_of_true ?_ (Or.inl hp)
    rw [show start.toNat = writePos start by omega]
  · rw [InPlace, or_iff_right hp]
    rcases hend with rfl | hend
    · exact iff_of_true (by simp) fun j hj => absurd hj (Nat.not_lt_zero j)
    -- the block number does not fit into an `int`, so the position asked for is behind every file
    have hfar : maxBlockNr * 8192 ≤ start.toNat := by
      by_contra hlt
      rw [maxBlockNr_eq] at hlt
      refine hp ?_
      rw [writePos_eq h0 (by rw [maxBlockNr_eq]; omega)]
      omega
    constructor
    · intro heq j hj
      have hthere := congrFun heq (start.toNat + j)
      rw [copy_of_ge (by omega), content_of_far (hfar.trans (Nat.le_add_right _ j)),
        copy_of_mem (by omega) (by omega)] at hthere
      rw [Nat.zero_add, Nat.add_sub_cancel_left] at hthere
      have hhere := congrFun heq (writePos start + j)
      rw [copy_of_mem (by omega) (by omega), copy_of_lt (by omega), Nat.zero_add, Nat.add_sub_cancel_left] at hhere
      exact ⟨hthere.symm, hhere.symm.trans hthere.symm⟩
    · intro hzero
      funext o
      have hleft : copy (s.content n) (writePos start) buf 0 k o = s.content n o := by
        by_cases ho : writePos start ≤ o ∧ o < writePos start + k
        · have hz := hzero (o - writePos start) (by omega)
          rw [Nat.add_sub_cancel' ho.1] at hz
          rw [copy_of_mem ho.1 ho.2, Nat.zero_add, hz.1, hz.2]
        · exact if_neg ho
      have hright : copy (s.content n) start.toNat buf 0 k o = s.content n o := by
        by_cases ho : start.toNat ≤ o ∧ o < start.toNat + k
        · rw [copy_of_mem ho.1 ho.2, Nat.zero_add, (hzero (o - start.toNat) (by omega)).1,
            content_of_far (hfar.trans ho.1)]
        · exact if_neg ho
      rw [hleft, hright]

/-- what the exits leave is a clean prefix under these conditions on the size and the flag -/
theorem Left.iff {i' : Inode} {last : ℕ} (h : Left s s' n i i' p q last (start + k)) (hi : s.find n = some i) :
    ((s'.dinode n).iSize = (if 0 < k then max (s.dinode n).iSize (start + k) else (s.dinode n).iSize) ∧
      ∀ j, s'.find n = some j → j.dinode ≠ s.dinode n → j.dirty = true) ↔
    (¬Moving q last → k = 0 ∨ start + k ≤ i.dinode.iSize) ∧
      (Moving q last → (k = 0 → start ≤ i.dinode.iSize) ∧ (start + k ≤ i.dinode.iSize ∨ Dirties s n i p q)) := by
  have hflag : (∀ j, s'.find n = some j → j.dinode ≠ s.dinode n → j.dirty = true) ↔
      (i'.dinode ≠ i.dinode → i'.dirty = true) := by
    rw [dinode_of_find hi]
    refine ⟨fun hall => hall i' h.find, fun hall j hj => ?_⟩
    rw [h.find] at hj
    cases hj
    exact hall
  rw [hflag, dinode_of_find h.find, dinode_of_find hi]
  -- a clean inode has changed in its size only
  have hclean : (i'.dinode ≠ i.dinode → i'.dirty = true) ↔ (i'.dinode.iSize = i.dinode.iSize ∨ i'.dirty = true) := by
    constructor
    · intro hall
      by_contra hc
      rw [not_or] at hc
      exact hc.2 (hall fun heq => hc.1 (by rw [heq]))
    · rintro (heq | hd) hne
      · by_contra hd
        have hsame := h.clean (Bool.eq_false_iff.2 hd)
        rw [heq] at hsame
        exact hne hsame
      · exact hd
  rw [hclean, h.dirty]
  by_cases hmove : Moving q last
  · rw [h.moves hmove]
    simp only [hmove, not_true_eq_false, false_implies, true_implies, true_and]
    refine and_congr ?_ (or_congr_left ?_)
    · rcases Nat.eq_zero_or_pos k with rfl | hk
      · simp only [lt_self_iff_false, if_false, Nat.cast_zero, add_zero, true_implies, max_eq_left_iff]
      · rw [if_pos hk]
        exact iff_of_true rfl fun hc => by omega
    · exact max_eq_left_iff
  · rw [h.stays hmove]
    simp only [hmove, not_false_eq_true, true_implies, false_implies, and_true, true_or]
    rcases Nat.eq_zero_or_pos k with rfl | hk
    · simp only [lt_self_iff_false, if_false, true_or]
    · rw [if_pos hk, or_iff_right (by omega), eq_comm, max_eq_left_iff]

theorem writeData_prefix (hcore : Core s n ∅) (hn : s.alloc n) (hi : s.find n = some i) (hins : Inside s fun _ => False)
    (hstack : ∀ j, s.stack j = 0) (hr : writeData s n buf start size = .ok (r, s')) (hneg : r < 0) :
    PrefixWritten s s' n buf start (totalWritten s n buf start size) ↔ FailsCleanly s n i buf start size := by
  obtain ⟨⟨h0, h63⟩, hend⟩ := writeData_spec hcore hn hi hins (fun _ _ => hstack) hr
  have hkept : ∀ k, PrefixWritten s s' n buf start k ↔ s'.content n = copy (s.content n) start.toNat buf 0 k ∧
      (s'.dinode n).iSize = (if 0 < k then max (s.dinode n).iSize (start + k) else (s.dinode n).iSize) ∧
      ∀ j, s'.find n = some j → j.dinode ≠ s.dinode n → j.dirty = true :=
    fun k => ⟨fun h => ⟨h.content, h.size, h.dirty⟩, fun h => ⟨h.1, h.2.1, h.2.2⟩⟩
  rw [hkept]
  unfold FailsCleanly
  rcases hend with ⟨hdone, htotal⟩ | hbroken
  · -- every byte was written, and the length is negative as an `int`
    have hnone : ∀ q ≤ lastBlock (writePos start) (size % 2 ^ 32), ¬Stops s n (writePos start) q :=
      fun q hq => hdone.had hcore hn hq
    obtain ⟨t, i1, hw, hlast, hr1, hs'⟩ := hdone
    have hrest : 2 ^ 31 ≤ size % 2 ^ 32 := by
      rw [hr1] at hneg
      simp only [toInt32, signed] at hneg
      split_ifs at hneg <;> omega
    rw [if_pos (by omega)] at hs'
    have hfind : s'.find n = some { i1 with
        dinode := { i1.dinode with iSize := max i1.dinode.iSize (start + size) }, dirty := true } := by
      rw [hs', find_setDirty, if_pos rfl, growTo, find_setDinode, if_pos rfl, hw.grew.touch.new]
      rfl
    have hcontent : s'.content n = copy (s.content n) (writePos start) buf 0 (size % 2 ^ 32) := by
      rw [← hw.content, hs']
      exact (hw.grew.core.close (hw.grew.touch.alloc.2 hn) hw.grew.touch.new hw.grew.inside h63).2.2
    rw [htotal, hcontent, copy_eq_iff h0 (Or.inr (by omega)), dinode_of_find hfind, dinode_of_find hi]
    dsimp only
    rw [hw.size, if_pos (by omega)]
    have hsize : max i.dinode.iSize (start + size) = max i.dinode.iSize (start + (size % 2 ^ 32 : ℕ)) ↔
        (size < 2 ^ 32 ∨ start + size ≤ i.dinode.iSize) := by
      have hle : size % 2 ^ 32 ≤ size := Nat.mod_le _ _
      constructor
      · intro heq
        by_contra hc
        omega
      · rintro (hlt | hle)
        · rw [Nat.mod_eq_of_lt hlt]
        · omega
    rw [hsize]
    constructor
    · rintro ⟨hplace, hfin, -⟩
      exact ⟨fun q hq hstop => absurd hstop (hnone q hq), fun _ => ⟨hplace, hfin⟩⟩
    · rintro ⟨-, hall⟩
      refine ⟨(hall hnone).1, (hall hnone).2, fun j hj _ => ?_⟩
      rw [hfind] at hj
      cases hj
      rfl
  · obtain ⟨hstop, hle, hk⟩ := hbroken.stops hcore hn
    obtain ⟨hcontent, i', hleft⟩ := hbroken.left hcore hn
    generalize totalWritten s n buf start size = k at *
    have hin : k = 0 ∨ writePos start + k ≤ maxBlockNr * 8192 := by
      rcases Nat.eq_zero_or_pos k with h0 | hpos
      · exact Or.inl h0
      · have hb := (hstop.before ((writePos start + k) / 8192 - 1) (by omega) (by omega)).1
        exact Or.inr (by omega)
    rw [hcontent, copy_eq_iff h0 hin, hleft.iff hi]
    have hzero : k = 0 ↔ (writePos start + k) / 8192 * 8192 ≤ writePos start := by omega
    generalize (writePos start + k) / 8192 = q at *
    constructor
    · rintro ⟨hplace, hall⟩
      refine ⟨fun q' hq' hstop' => ?_, fun hnone => absurd hstop (hnone q hle)⟩
      rw [← hstop.unique hstop', ← hk, ← hzero]
      exact ⟨hplace, hall⟩
    · rintro ⟨hall, -⟩
      have hq := hall q hle hstop
      rw [← hk, ← hzero] at hq
      exact hq

/-- **What a failed write leaves is a clean prefix exactly under `FailsCleanly`.** -/
theorem failed_write_kept (hk : validSize fsSizeMb) (hstack : ∀ j, stack j = 0)
    (h0 : Testfs.start fsSizeMb stack = .ok s0) (hrun : Run step dirsWhole s0 s) (hn : s.alloc n)
    (hget : getInode s n = .ok s1) (hi : s1.find n = some i) (hr : writeData s1 n buf start size = .ok (r, s'))
    (hneg : r < 0) :
    PrefixWritten s1 s' n buf start (totalWritten s1 n buf start size) ↔ FailsCleanly s1 n i buf start size := by
  obtain ⟨⟨D, hg⟩, hz⟩ := run_graph_whole hk hstack h0 hrun
  obtain ⟨hg1, hn1, -, hst⟩ := hg.loaded hn hget
  exact writeData_prefix (hg1.sound.core.change n) hn1 hi hg1.sound.inside (fun j => by rw [hst]; exact hz j) hr hneg

theorem need_one_le (T : Slot → ℤ) (b : ℕ) : need T b (b + 1) ≤ 3 := by
  have hsub : gaps T b (b + 1) ⊆ (path (slotOf b)).toFinset := by
    intro τ hτ
    obtain ⟨⟨b', hb', hmem⟩, -⟩ := mem_gaps.1 hτ
    obtain rfl : b' = b := by omega
    exact List.mem_toFinset.2 hmem
  have hlen : (path (slotOf b)).length ≤ 3 := by cases slotOf b <;> simp [path]
  exact (Finset.card_le_card hsub).trans ((List.toFinset_card_le _).trans hlen)

/-- two bytes across the maximum, to an empty file: three blocks are given for the first byte, and the file ends behind
it -/
theorem failed_write_kept_of_far :
    ∃ s0 s s1 s' i r, Testfs.start 1 (fun _ => 0) = .ok s0 ∧ Run step dirsWhole s0 s ∧ getInode s 1 = .ok s1 ∧
      s1.find 1 = some i ∧ writeData s1 1 (bytes (fill 1).chars) 34376597503 2 = .ok (r, s') ∧ r < 0 ∧
      totalWritten s1 1 (bytes (fill 1).chars) 34376597503 2 = 1 ∧
      PrefixWritten s1 s' 1 (bytes (fill 1).chars) 34376597503 1 := by
  have h : after (Testfs.start 1 fun _ => 0) (fun s0 => passes step dirsWhole (fun s => decide (s.alloc 1) &&
      after (getInode s 1) fun s1 => (s1.find 1).any (fun i => decide (i.dinode.iDindirect = 0)) &&
        decide (s1.sb.usedBlockCount + 3 ≤ s1.sb.maxFsBlocks ∧
          totalWritten s1 1 (bytes (fill 1).chars) 34376597503 2 = 1) &&
        after (writeData s1 1 (bytes (fill 1).chars) 34376597503 2) fun x =>
          decide (x.1 < 0)) s0 [.create tokenF]) = true := by
    decide +kernel
  obtain ⟨s0, h0, hpass⟩ := exists_of_after h
  obtain ⟨s, hrun, hs⟩ := run_of_passes _ hpass
  rw [Bool.and_eq_true, decide_eq_true_eq] at hs
  obtain ⟨hn, hs⟩ := hs
  obtain ⟨s1, hget, hs⟩ := exists_of_after hs
  simp only [Bool.and_eq_true, Option.any_eq_true, decide_eq_true_eq] at hs
  obtain ⟨⟨⟨i, hi, hzero⟩, hroom, htotal⟩, hs⟩ := hs
  obtain ⟨⟨r, s'⟩, hr, hs⟩ := exists_of_after hs
  have hneg : r < 0 := of_decide_eq_true hs
  refine ⟨s0, s, s1, s', i, r, h0, hrun, hget, hi, hr, hneg, htotal, ?_⟩
  suffices hclean : FailsCleanly s1 1 i (bytes (fill 1).chars) 34376597503 2 by
    have hkept := (failed_write_kept ⟨le_rfl, by norm_num⟩ (fun _ => rfl) h0 hrun hn hget hi hr hneg).2 hclean
    rwa [htotal] at hkept
  have hp : writePos 34376597503 = 34376597503 := by
    rw [writePos_eq (by norm_num) (by rw [maxBlockNr_eq]; norm_num)]; rfl
  have hstop : Stops s1 1 34376597503 4196362 := by
    refine ⟨by norm_num, fun hc => ?_, fun b hb hlt => ?_⟩
    · have hmax := hc.1
      rw [maxBlockNr_eq] at hmax
      omega
    · obtain rfl : b = 4196361 := by omega
      have hneed := need_one_le (s1.tree 1) 4196361
      exact ⟨by rw [maxBlockNr_eq]; norm_num, by norm_num at hneed ⊢; omega⟩
  -- the double indirect block is missing
  have hgap : need (s1.tree 1) 4196361 4196362 ≠ 0 := by
    refine Finset.card_ne_zero_of_mem (a := .dind) (mem_gaps.2 ⟨⟨4196361, by omega, by decide +kernel⟩, ?_⟩)
    rw [tree_of_find hi]
    exact hzero
  unfold FailsCleanly lastBlock
  rw [hp]
  refine ⟨fun q hq hq' => ?_, fun hnone => absurd hstop (hnone 4196362 (by norm_num))⟩
  rw [← hstop.unique hq']
  refine ⟨Or.inl (by rw [hp]; rfl), fun hc => absurd (fun hm => ?_) hc,
    fun _ => ⟨fun hc => absurd hc (by norm_num), Or.inr ?_⟩⟩
  · have hmax := hm.1
    rw [maxBlockNr_eq] at hmax
    omega
  · exact Or.inr (Or.inl hgap)

/-- A write behind the maximum stores nothing, and the file ends where the write would have begun. -/
theorem write_moves_end :
    ¬ ∀ (fsSizeMb : ℕ) (stack : ℕ → ℤ) (s0 s s1 s' : State) (n start r : ℤ) (buf : Lib.Mem)
    (size : ℕ), validSize fsSizeMb →
      (∀ j, stack j = 0) → Testfs.start fsSizeMb stack = .ok s0 → Run step dirsWhole s0 s → s.alloc n →
      getInode s n = .ok s1 → 0 < size → writeData s1 n buf start size = .ok (r, s') → r < 0 →
        PrefixWritten s1 s' n buf start (totalWritten s1 n buf start size) := by
  intro hall
  have h : after (Testfs.start 1 fun _ => 0) (fun s0 => passes step dirsWhole (fun s => decide (s.alloc 1) &&
      after (getInode s 1) fun s1 => after (writeData s1 1 (bytes tokenF.chars) 34376597504 1) fun x =>
        decide (x.1 < 0 ∧ totalWritten s1 1 (bytes tokenF.chars) 34376597504 1 = 0 ∧
          (x.2.dinode 1).iSize ≠ (s1.dinode 1).iSize)) s0 [.create tokenF]) = true := by decide +kernel
  obtain ⟨s0, h0, hpass⟩ := exists_of_after h
  obtain ⟨s, hrun, hs⟩ := run_of_passes _ hpass
  rw [Bool.and_eq_true, decide_eq_true_eq] at hs
  obtain ⟨hn, hs⟩ := hs
  obtain ⟨s1, hget, hs⟩ := exists_of_after hs
  obtain ⟨⟨r, s'⟩, hr, hs⟩ := exists_of_after hs
  obtain ⟨hneg, htotal, hne⟩ := of_decide_eq_true hs
  have hkept := hall 1 _ s0 s s1 s' 1 34376597504 r _ 1 ⟨le_rfl, by norm_num⟩ (fun _ => rfl) h0 hrun hn hget
    Nat.one_pos hr hneg
  have hsize := hkept.size
  rw [htotal, if_neg (lt_irrefl 0)] at hsize
  exact hne hsize

end OsLab.Testfs
