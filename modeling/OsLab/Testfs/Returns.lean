/-
`testfs_allocate_block` and `testfs_write_data` return.

Between two operations on blocks, and where `indirect_allocated` reads as 0 when it was not set, nothing on the way of a
write stops the process but one thing: the double indirect block is read, and it lies behind the end of the device. A
write below the maximum whose double indirect block is on the device therefore returns (`writeData_returns`). It is read
at the first block of the write behind the single indirect ones, and only if the blocks in front of that one can be had.
-/
import Mathlib.Tactic
import OsLab.Testfs.Prefix
import OsLab.Testfs.Reclaim

namespace OsLab.Testfs

open OsLab.Lib Function State

variable {s s1 t : State} {n r p q : ℤ} {i i1 : Inode} {buf blk : Lib.Mem} {start : ℤ} {size k : ℕ}

/-! ## Taking a block -/

theorem Metered.allocBlockForInode_returns (h : Metered s) : ∃ r t, Testfs.allocBlockForInode s n = .ok (r, t) ∧
    ((r = -ENOSPC ∧ t = s) ∨ Took s t n r) := by
  obtain ⟨r, t, hr⟩ := h.allocBlock_returns
  obtain ⟨q, u, hu⟩ : ∃ q u, Testfs.allocBlockForInode s n = .ok (q, u) := by
    simp only [Testfs.allocBlockForInode, hr, ok_bind, pure_eq_ok]
    split_ifs
    · exact ⟨_, _, rfl⟩
    · exact ⟨_, _, rfl⟩
  refine ⟨q, u, hu, ?_⟩
  rcases h.allocBlockForInode hu with ⟨hq, hs, -⟩ | htook
  · exact Or.inl ⟨hq, hs⟩
  · exact Or.inr htook

/-- the counter after an allocation -/
theorem Took.metered (ht : Took s t n p) (h : Metered s) (hi : s.find n = some i) : Metered t :=
  ((Lent.refl h hi).took ht).metered

/-- the inode after an allocation: its pointers are what they were -/
theorem Took.find_self (ht : Took s t n p) (hi : s.find n = some i) :
    t.find n = some { i with dinode := { i.dinode with blockCount := i.dinode.blockCount + 1 }, dirty := true } := by
  rw [ht.find, if_pos rfl, hi]
  rfl

theorem Took.nonneg (ht : Took s t n p) : 0 ≤ p ∧ ¬p < 0 := by
  have hpos := ht.pos
  omega

theorem not_nonneg_nospc : ¬(0 ≤ -ENOSPC) := by decide

theorem nospc_neg : -ENOSPC < 0 := by decide

theorem writeBlocks_ok (hp : 0 ≤ p) : writeBlocks s blk p = .ok { s with dev := s.dev.write p blk } := if_pos hp

/-! ## The branches of `testfs_allocate_block` -/

theorem allocateDirect_returns {b : Fin 10} (h : Metered s) (hi : s.find n = some i) (h0 : i.dinode.iBlockNr b = 0) :
    ∃ r t, allocateDirect s n b = .ok (r, t) := by
  obtain ⟨r, t, hr, -⟩ := h.allocBlockForInode_returns (n := n)
  have hne : ¬(i.dinode.iBlockNr b ≠ 0) := not_not.2 h0
  simp only [allocateDirect, deref_eq_ok.2 hi, ok_bind, hne, if_false, hr, pure_eq_ok]
  split_ifs
  · exact ⟨_, _, rfl⟩
  · exact ⟨_, _, rfl⟩

/-- after the indirect block was obtained; a fresh one is a block that is in use -/
theorem allocateInIndirect_returns {assigned : Bool} (h : Metered s) (hi : s.find n = some i)
    (hpos : 0 ≤ i.dinode.iIndirect) (hbusy : assigned = true → s.busy i.dinode.iIndirect)
    (hstack : ∀ j, s.stack j = 0) (h0 : s32At blk (4 * k) = 0) :
    ∃ r t, allocateInIndirect s n k blk assigned = .ok (r, t) := by
  obtain ⟨r, t, hr, ht⟩ := h.allocBlockForInode_returns (n := n)
  have hne : ¬(s32At blk (4 * k) ≠ 0) := not_not.2 h0
  unfold allocateInIndirect
  rw [if_neg hne, hr, ok_bind]
  rcases ht with ⟨rfl, rfl⟩ | ht
  · simp only [deref_eq_ok.2 hi, ok_bind, not_nonneg_nospc, if_false, indirectAllocated_eq hstack]
    cases assigned with
    | false => exact ⟨_, _, rfl⟩
    | true =>
      obtain ⟨u, hu⟩ := h.freeBlockFromInode_returns (n := n) (hbusy rfl)
      simp only [if_true, hu, ok_bind]
      exact ⟨_, _, rfl⟩
  · simp only [deref_eq_ok.2 (ht.find_self hi), ok_bind, ht.nonneg, if_true, writeBlocks_ok hpos]
    exact ⟨_, _, rfl⟩

theorem allocateIndirect_returns (h : Metered s) (hi : s.find n = some i) (hpos : 0 ≤ i.dinode.iIndirect)
    (hin : i.dinode.iIndirect < s.dev.nblocks) (hstack : ∀ j, s.stack j = 0)
    (h0 : i.dinode.iIndirect ≠ 0 → s32At (s.dev.blocks i.dinode.iIndirect) (4 * k) = 0) :
    ∃ r t, allocateIndirect s n k = .ok (r, t) := by
  unfold allocateIndirect
  rw [deref_eq_ok.2 hi, ok_bind]
  by_cases hind : i.dinode.iIndirect = 0
  · rw [if_pos hind]
    obtain ⟨p, t, hp, ⟨rfl, rfl⟩ | ht⟩ := h.allocBlockForInode_returns (n := n)
    · simp only [hp, ok_bind, nospc_neg, if_true]
      exact ⟨_, _, rfl⟩
    · simp only [hp, ok_bind, ht.nonneg, if_false]
      refine allocateInIndirect_returns (i := { i with
        dinode := { i.dinode with blockCount := i.dinode.blockCount + 1, iIndirect := p }
        dirty := true }) ?_ ?_ ht.nonneg.1 ?_ ?_ ?_
      · exact (ht.metered h hi).congr rfl rfl rfl le_rfl
      · rw [find_setDinode, if_pos rfl, ht.find_self hi]
        rfl
      · exact fun _ => (ht.busy p).2 (Or.inr rfl)
      · intro j
        exact (congrFun ht.frame.stack j).trans (hstack j)
      · exact s32At_zeroMem _
  · rw [if_neg hind, readBlocks_ok hpos hin, ok_bind]
    exact allocateInIndirect_returns h hi hpos (fun hc => absurd hc (by decide)) hstack (h0 hind)

/-- a fresh double indirect block goes back -/
theorem Metered.freeBlockFromInode (h : Metered s) (hb : s.busy p) (hstack : ∀ j, s.stack j = 0) :
    ∃ t, Testfs.freeBlockFromInode s n p = .ok t ∧ Metered t ∧ (∀ j, t.stack j = 0) ∧
      ∀ x, s.busy x → x ≠ p → t.busy x := by
  obtain ⟨t, ht⟩ := h.freeBlockFromInode_returns (n := n) hb
  have hgave : Gave s t n p := by
    rcases freeBlockFromInode_cases h.geo ht with ⟨hp, -⟩ | ⟨-, hgave⟩
    · have hpos := hb.1
      omega
    · exact hgave
  refine ⟨t, ht, ?_, fun j => ?_, fun x hx hne => (hgave.busy x).2 ⟨hx, hne⟩⟩
  · exact (freeBlockFromInode_moves false s n p t ht).inv (fun _ _ hprim hs => Metered.prim hprim hs) h
  · rw [hgave.frame.stack]
    exact hstack j

/-- a fresh second-level block goes back -/
theorem undoSecond_returns {assigned : Bool} (h : Metered s) (hbusy : assigned = true → s.busy q)
    (hstack : ∀ j, s.stack j = 0) :
    ∃ r' t, (if (indirectAllocated s assigned).1 then do
        let s ← Testfs.freeBlockFromInode (indirectAllocated s assigned).2 n q
        pure (r, s)
      else pure (r, (indirectAllocated s assigned).2) : Except Stop (ℤ × State)) = .ok (r', t) := by
  rw [indirectAllocated_eq hstack]
  cases assigned with
  | false => exact ⟨_, _, rfl⟩
  | true =>
    obtain ⟨v, hv⟩ := h.freeBlockFromInode_returns (n := n) (hbusy rfl)
    rw [if_pos rfl, hv, ok_bind]
    exact ⟨_, _, rfl⟩

/-- after the second-level block was obtained; what is fresh is in use -/
theorem allocateLeaf_returns {dindirect indirect : Lib.Mem} {dindirectAllocated assigned : Bool} (h : Metered s)
    (hi : s.find n = some i) (hpos : 0 ≤ i.dinode.iDindirect) (hpos' : 0 ≤ s32At dindirect (4 * (k / 2048)))
    (hbusy : dindirectAllocated = true → s.busy i.dinode.iDindirect)
    (hbusy' : assigned = true → s.busy (s32At dindirect (4 * (k / 2048))))
    (hne : dindirectAllocated = true → assigned = true → s32At dindirect (4 * (k / 2048)) ≠ i.dinode.iDindirect)
    (hstack : ∀ j, s.stack j = 0) :
    ∃ r t, allocateLeaf s n k dindirect indirect dindirectAllocated assigned = .ok (r, t) := by
  obtain ⟨r, t, hr, ⟨rfl, rfl⟩ | ht⟩ := h.allocBlockForInode_returns (n := n)
  · unfold allocateLeaf
    simp only [hr, ok_bind, deref_eq_ok.2 hi, not_nonneg_nospc, if_false]
    cases dindirectAllocated with
    | false => exact undoSecond_returns h hbusy' hstack
    | true =>
      obtain ⟨u, hu, hmeter, hstacku, hkept⟩ := h.freeBlockFromInode (n := n) (hbusy rfl) hstack
      rw [if_pos rfl, hu, ok_bind]
      refine undoSecond_returns (hmeter.congr rfl rfl rfl le_rfl) (fun ha => ?_) hstacku
      exact hkept _ (hbusy' ha) (hne rfl ha)
  · unfold allocateLeaf
    simp only [hr, ok_bind, deref_eq_ok.2 (ht.find_self hi), ht.nonneg, if_true, writeBlocks_ok hpos,
      writeBlocks_ok hpos']
    exact ⟨_, _, rfl⟩

/-- after the double indirect block was obtained; a fresh one is a block that is in use -/
theorem allocateInDindirect_returns {dindirectAllocated : Bool} (h : Metered s) (hi : s.find n = some i)
    (hpos : 0 ≤ i.dinode.iDindirect) (hbusy : dindirectAllocated = true → s.busy i.dinode.iDindirect)
    (hentry : 0 ≤ s32At blk (4 * (k / 2048)) ∧ s32At blk (4 * (k / 2048)) < s.dev.nblocks)
    (hstack : ∀ j, s.stack j = 0) : ∃ r t, allocateInDindirect s n k blk dindirectAllocated = .ok (r, t) := by
  unfold allocateInDindirect
  by_cases h0 : s32At blk (4 * (k / 2048)) = 0
  · rw [if_pos h0]
    obtain ⟨p, t, hp, ⟨rfl, rfl⟩ | ht⟩ := h.allocBlockForInode_returns (n := n)
    · simp only [hp, ok_bind, nospc_neg, if_true]
      exact ⟨_, _, rfl⟩
    · simp only [hp, ok_bind, ht.nonneg, if_false]
      have hbusyp : t.busy p := (ht.busy p).2 (Or.inr rfl)
      have hload : s32At (put32 blk (4 * (k / 2048)) p) (4 * (k / 2048)) = p :=
        s32At_put32_self (inInt32_of_busy (ht.frame.geo h.geo) hbusyp)
      refine allocateLeaf_returns (ht.metered h hi) (ht.find_self hi) hpos ?_ (fun hd => ?_)
        (fun _ => ?_) (fun hd _ => ?_)
        fun j => ?_
      · rw [hload]
        exact ht.nonneg.1
      · exact (ht.busy _).2 (Or.inl (hbusy hd))
      · rw [hload]
        exact hbusyp
      · rw [hload]
        rintro rfl
        exact ht.fresh (hbusy hd)
      · rw [ht.frame.stack]
        exact hstack j
  · rw [if_neg h0, readBlocks_ok hentry.1 hentry.2, ok_bind]
    exact allocateLeaf_returns h hi hpos hentry.1 hbusy (fun hc => absurd hc (by decide))
      (fun _ hc => absurd hc (by decide))
      hstack

theorem allocateDindirect_returns (h : Metered s) (hi : s.find n = some i) (hpos : 0 ≤ i.dinode.iDindirect)
    (hin : i.dinode.iDindirect < s.dev.nblocks)
    (hentry : i.dinode.iDindirect ≠ 0 → 0 ≤ s32At (s.dev.blocks i.dinode.iDindirect) (4 * (k / 2048)) ∧
      s32At (s.dev.blocks i.dinode.iDindirect) (4 * (k / 2048)) < s.dev.nblocks)
    (hstack : ∀ j, s.stack j = 0) : ∃ r t, allocateDindirect s n k = .ok (r, t) := by
  unfold allocateDindirect
  rw [deref_eq_ok.2 hi, ok_bind]
  by_cases hdind : i.dinode.iDindirect = 0
  · rw [if_pos hdind]
    obtain ⟨p, t, hp, ⟨rfl, rfl⟩ | ht⟩ := h.allocBlockForInode_returns (n := n)
    · simp only [hp, ok_bind, nospc_neg, if_true]
      exact ⟨_, _, rfl⟩
    · simp only [hp, ok_bind, ht.nonneg, if_false]
      have hnb := h.geo.nblocks
      refine allocateInDindirect_returns (i := { i with
        dinode := { i.dinode with blockCount := i.dinode.blockCount + 1, iDindirect := p }
        dirty := true }) ?_ ?_ ht.nonneg.1 (fun _ => (ht.busy p).2 (Or.inr rfl)) ?_ fun j => ?_
      · exact (ht.metered h hi).congr rfl rfl rfl le_rfl
      · rw [find_setDinode, if_pos rfl, ht.find_self hi]
        rfl
      · rw [s32At_zeroMem]
        refine ⟨le_rfl, ?_⟩
        change 0 < t.dev.nblocks
        rw [ht.nblocks]
        omega
      · exact (congrFun ht.frame.stack j).trans (hstack j)
  · rw [if_neg hdind, readBlocks_ok hpos hin, ok_bind]
    exact allocateInDindirect_returns h hi hpos (fun hc => absurd hc (by decide)) (hentry hdind) hstack

/-! ## One block -/

/-- the double indirect block of inode `n`, if there is one, lies on the device -/
def DindOn (s : State) (n : ℤ) : Prop := (s.dinode n).iDindirect < s.dev.nblocks

instance (s : State) (n : ℤ) : Decidable (DindOn s n) := inferInstanceAs (Decidable (_ < _))

theorem tree_on (hins : Inside s fun _ => False) (hg : Geo s) (hn : s.alloc n) {σ : Slot} (hσ : σ ≠ .dind) :
    s.tree n σ < s.dev.nblocks := by
  by_cases h0 : s.tree n σ = 0
  · have hnb := hg.nblocks
    omega
  · exact hins n σ hn hσ id h0

theorem allocateNew_returns (h : Core s n ∅) (hn : s.alloc n) (hi : s.find n = some i) (hins : Inside s fun _ => False)
    (hstack : ∀ j, s.stack j = 0) (hk : k < maxBlockNr) (hempty : s.tree n (slotOf k) = 0)
    (hdind : 2058 ≤ k → DindOn s n) :
    ∃ r t, allocateNew s n k = .ok (r, t) := by
  have hpos := h.acc.nonneg_of_tree hn
  unfold allocateNew
  split_ifs with h10 h2058
  · rw [slotOf_direct h10, tree_of_find hi] at hempty
    exact allocateDirect_returns h.metered hi hempty
  · rw [slotOf_indE h10 h2058, tree_of_find hi] at hempty
    have hind : s.tree n .ind = i.dinode.iIndirect := by rw [tree_of_find hi]; rfl
    refine allocateIndirect_returns h.metered hi (hind ▸ hpos .ind) ?_ hstack fun h0 => ?_
    · rw [← hind]
      exact tree_on hins h.geo hn (by simp)
    · simpa only [tree, entryOf, h0, if_false] using hempty
  · obtain ⟨a, c, ha, -, hslot⟩ := slotOf_leaf h10 h2058 hk
    have hD : s.tree n .dind = i.dinode.iDindirect := by rw [tree_of_find hi]; rfl
    have hon := hdind (by omega)
    unfold DindOn at hon
    rw [dinode_of_find hi] at hon
    refine allocateDindirect_returns h.metered hi (hD ▸ hpos .dind) hon (fun h0 => ?_) hstack
    have hentry : s.tree n (.dindE a) = s32At (s.dev.blocks i.dinode.iDindirect) (4 * ((k - (10 + 2048)) / 2048)) := by
      rw [tree_of_find hi, ← ha]
      simp only [tree, entryOf, h0, if_false]
    rw [← hentry]
    exact ⟨hpos _, tree_on hins h.geo hn (by simp)⟩

theorem allocateBlock_returns (h : Core s n ∅) (hn : s.alloc n) (hi : s.find n = some i)
    (hins : Inside s fun _ => False) (hstack : ∀ j, s.stack j = 0) (hdind : 2058 ≤ k → k < maxBlockNr → DindOn s n) :
    ∃ r blk t, allocateBlock s n k = .ok (r, blk, t) := by
  unfold allocateBlock
  by_cases hfar : (maxBlockNr : ℤ) ≤ k
  · rw [if_pos hfar]
    exact ⟨_, _, _, rfl⟩
  have hk : k < maxBlockNr := by omega
  have hpos := h.acc.nonneg_of_tree hn
  have hreach : Reach s n k := (reach_iff hins hn).2 fun hmem _ => hdind ((dind_mem_path hk).1 hmem) hk
  rw [if_neg hfar, deref_eq_ok.2 hi, ok_bind, ← dinode_of_find hi, readBlock_ok hk hpos hreach, ok_bind]
  dsimp only
  by_cases h0 : s.phys n k = 0
  · rw [State.phys, if_pos hk] at h0
    obtain ⟨r, t, hr⟩ := allocateNew_returns h hn hi hins hstack hk h0 fun hle => hdind hle hk
    rw [State.phys, if_pos hk, h0, if_neg (not_not.2 rfl), Int.toNat_natCast, hr, ok_bind]
    exact ⟨_, _, _, rfl⟩
  · rw [if_pos h0]
    exact ⟨_, _, _, rfl⟩

/-! ## `testfs_write_data` -/

/-- a write leaves the double indirect block on the device, or puts it there -/
theorem Wrote.dindOn {B : ℕ → Prop} {c : Lib.Mem} (h : Wrote s t n i i1 B c) (hon : DindOn s n) : DindOn t n := by
  by_cases hsame : t.tree n .dind = s.tree n .dind
  · have hgrows := h.grew.touch.frame.grows
    change t.tree n .dind < t.dev.nblocks
    rw [hsame]
    exact lt_of_lt_of_le hon hgrows
  · obtain ⟨b, hb, hmem⟩ := h.way .dind hsame
    exact (h.full b hb .dind hmem).2

theorem writeLast_returns {ix tot rest : ℕ} (h : Core s n ∅) (hn : s.alloc n) (hi : s.find n = some i)
    (hins : Inside s fun _ => False) (hstack : ∀ j, s.stack j = 0) (hk : k ≤ maxBlockNr)
    (hdind : k < maxBlockNr → DindOn s n) :
    ∃ r t, writeLast s n buf start size k ix tot rest = .ok (r, t) := by
  have hint : toInt32 (k : ℤ) = k := toInt32_of_mem ⟨by omega, by rw [maxBlockNr_eq] at hk; omega⟩
  obtain ⟨r, blk, t, hr⟩ := allocateBlock_returns h hn hi hins hstack fun _ => hdind
  unfold writeLast
  rw [hint, hr, ok_bind]
  dsimp only
  by_cases hneg : r < 0
  · rw [if_pos hneg]
    exact ⟨_, _, rfl⟩
  · rw [if_neg hneg, writeBlocks_ok (not_lt.1 hneg), ok_bind]
    exact ⟨_, _, rfl⟩

theorem writeLoop_returns (fuel : ℕ) {ix tot rest : ℕ} (h : Core s n ∅) (hn : s.alloc n) (hi : s.find n = some i)
    (hins : Inside s fun _ => False) (hstack : ∀ j, s.stack j = 0) (hk : k ≤ maxBlockNr)
    (hdind : k < maxBlockNr → DindOn s n) (hix : ix < 8192) (hfuel : rest < fuel) :
    ∃ r t, writeLoop n buf start size fuel s k ix tot rest = .ok (r, t) := by
  induction fuel generalizing s i k ix tot rest with
  | zero => exact absurd hfuel (Nat.not_lt_zero rest)
  | succ fuel ih =>
    rw [writeLoop]
    by_cases hmore : 8192 < ix + rest
    · have hint : toInt32 (k : ℤ) = k := toInt32_of_mem ⟨by omega, by rw [maxBlockNr_eq] at hk; omega⟩
      obtain ⟨r, blk, t, hr⟩ := allocateBlock_returns h hn hi hins hstack fun _ => hdind
      rw [if_pos hmore, hint, hr, ok_bind]
      dsimp only
      by_cases hneg : r < 0
      · rw [if_pos hneg]
        split_ifs
        · exact ⟨_, _, rfl⟩
        · exact ⟨_, _, rfl⟩
      · have hw : writeBlocks t (copy blk ix buf tot (8192 - ix)) r = .ok { t with dev := t.dev.write r _ } :=
          writeBlocks_ok (not_lt.1 hneg)
        rw [if_neg hneg, hw, ok_bind]
        obtain ⟨-, hlt, i1, hwrote⟩ := allocate_and_store h hn hi hins (by omega) (by rw [hint]; exact hr) hneg hw
        rw [hint, Int.toNat_natCast] at hlt
        have hgrew := hwrote.grew
        have hdind' := hwrote.dindOn (hdind hlt)
        refine ih hgrew.core (hgrew.touch.alloc.2 hn) hgrew.touch.new hgrew.inside (fun j => ?_) (k := k + 1) hlt
          (fun _ => hdind') (by norm_num) (by omega)
        rw [hgrew.touch.frame.stack]
        exact hstack j
    · rw [if_neg hmore]
      exact writeLast_returns h hn hi hins hstack hk hdind

/-- **`testfs_write_data` returns**, if it begins below the maximum only with the double indirect block on the
device. -/
theorem writeData_returns (h : Core s n ∅) (hn : s.alloc n) (hi : s.find n = some i) (hins : Inside s fun _ => False)
    (hstack : ∀ j, s.stack j = 0) (h0 : 0 ≤ start) (hmax : start ≤ maxBlockNr * 8192) (h63 : start + size < 2 ^ 63)
    (hdind : start < maxBlockNr * 8192 → DindOn s n) : ∃ r t, writeData s n buf start size = .ok (r, t) := by
  unfold writeData
  rw [if_neg (by omega)]
  have hblock : start / 8192 = ((start / 8192).toNat : ℤ) := by omega
  rw [hblock]
  refine writeLoop_returns _ h hn hi hins hstack ?_ (fun hlt => hdind ?_) ?_ (Nat.lt_succ_self _)
  · omega
  · omega
  · omega

end OsLab.Testfs
