/-
`testfs_free_blocks` gives back every block of a file, each once.

The walk visits the slots of the tree in an order of its own. `Visited s t n i j V l`: of the slots `V`, those in use
are `l`, and their blocks were given to `testfs_free_block`, one call each. A pointer block is read before its own slot
is visited, so what the walk reads in it is what the tree holds (`Visited.read`).

The double indirect block is the only one that may lie behind the end of the device: a write that took it and could get
no second-level block keeps it without having written it. Then the walk ends in a short read (`free_blocks_reclaims`).
-/
import Mathlib.Tactic
import OsLab.Testfs.Limit

namespace OsLab.Testfs

open OsLab.Lib Function State

variable {s t : State} {n p e : ℤ} {i j : Inode} {V W : Set Slot} {l : List Slot} {σ : Slot}

/-- the number of blocks up to the end of the file -/
def sizeBlocks (d : Dinode) : ℤ := (d.iSize + 8191) / 8192

/-- The inode is in memory, its blocks are in use and each stands in one slot. All of them but a double indirect block
lie on the device. -/
structure Planted (s : State) (n : ℤ) (i : Inode) : Prop where
  metered : Metered s
  find : s.find n = some i
  inj : TreeInj (s.tree n)
  busy : ∀ σ, s.tree n σ ≠ 0 → s.busy (s.tree n σ)
  inside : ∀ σ, σ ≠ .dind → s.tree n σ ≠ 0 → s.tree n σ < s.dev.nblocks

/-- the tree, the number of its blocks and the size of the file fit together -/
structure Sized (blocks : ℤ → Lib.Mem) (d : Dinode) : Prop where
  count : d.blockCount = held (tree blocks d)
  pos : 0 ≤ d.iSize
  max : sizeBlocks d ≤ maxBlockNr
  mapped : ∀ b : ℕ, phys blocks d b ≠ 0 → (b : ℤ) < sizeBlocks d
  ind : d.iIndirect ≠ 0 → 10 < sizeBlocks d
  dind : d.iDindirect ≠ 0 ↔ 10 + 2048 < sizeBlocks d

/-- The blocks given to `testfs_free_block` between the two states, the last one first: it clears its block, and nothing
else is written to the data area. -/
def Passed (s t : State) (calls : List ℤ) : Prop :=
  ∃ w, t.dev.log = w ++ s.dev.log ∧ w.filter (fun x => (s.sb.dataBlocksStart : ℤ) ≤ x) = calls

/-- every block of file `n` was passed to `testfs_free_block` once and no other block was, and the inode is empty -/
structure Reclaimed (s t : State) (n : ℤ) : Prop where
  calls : ∃ calls, Passed s t calls ∧ calls.Nodup ∧ ∀ b, b ∈ calls ↔ b ≠ 0 ∧ ∃ σ, s.tree n σ = b
  free : ∀ b, t.busy b ↔ s.busy b ∧ ∀ σ, s.tree n σ ≠ b
  inode : ∃ j, t.find n = some j ∧ j.dinode.blockCount = 0 ∧ (∀ k, j.dinode.iBlockNr k = 0) ∧ j.dinode.iIndirect = 0 ∧
    j.dinode.iDindirect = 0 ∧ j.dinode.iSize = 0

/-! ## One block -/

theorem Metered.freeBlockFromInode_returns (h : Metered s) (hb : s.busy p) : ∃ t, freeBlockFromInode s n p = .ok t := by
  have h0 : p ≠ 0 := by
    have h146 := hb.1
    omega
  obtain ⟨t, ht⟩ := h.freeBlock_returns hb
  unfold Testfs.freeBlockFromInode
  rw [if_neg h0, ht]
  exact ⟨_, rfl⟩

/-- what is written for one block: the block, its freemap block and the super block -/
theorem freeBlockFromInode_log (hg : Geo s) (h0 : p ≠ 0) (h : freeBlockFromInode s n p = .ok t) : Passed s t [p] := by
  unfold freeBlockFromInode at h
  rw [if_neg h0, bind_eq_ok] at h
  obtain ⟨u, hfree, h⟩ := h
  cases h
  obtain ⟨h146, bm, hbm, -, rfl⟩ := freeBlock_cases hg hfree
  obtain ⟨hlt, -, -, -⟩ := Bitmap.unmark_eq_ok hbm
  rw [hg.blockBits] at hlt
  refine ⟨[0, ((2 + (p - 146).toNat / 65536 : ℕ) : ℤ), p], ?_, ?_⟩
  · simp [writeSuperBlock, writeBlockFreemap, writeMeta, Dev.write, hg.blockFreemapStart, setDirty,
      setDinode, State.modify]
  · have hmap : ¬(146 ≤ ((2 + (p - 146).toNat / 65536 : ℕ) : ℤ)) := by omega
    rw [hg.dataBlocksStart]
    simp only [Nat.cast_ofNat, List.filter_cons, List.filter_nil, hmap, h146, decide_true, decide_false, if_true,
      Bool.false_eq_true, if_false]
    norm_num

/-- the slots in `V` were visited, and those in use among them are `l` -/
structure Visited (s t : State) (n : ℤ) (i j : Inode) (V : Set Slot) (l : List Slot) : Prop where
  metered : Metered t
  new : t.find n = some j
  start : t.sb.dataBlocksStart = s.sb.dataBlocksStart
  mem : ∀ σ, σ ∈ l ↔ σ ∈ V ∧ s.tree n σ ≠ 0
  nodup : l.Nodup
  busy : ∀ x, t.busy x ↔ s.busy x ∧ ∀ σ ∈ l, s.tree n σ ≠ x
  blocks : ∀ x, 146 ≤ x → (∀ σ ∈ l, s.tree n σ ≠ x) → t.dev.blocks x = s.dev.blocks x
  grows : s.dev.nblocks ≤ t.dev.nblocks
  nblocks : .dind ∉ V → t.dev.nblocks = s.dev.nblocks
  count : j.dinode.blockCount + l.length = i.dinode.blockCount
  calls : Passed s t (l.map (s.tree n))

namespace Visited

theorem refl (hp : Planted s n i) : Visited s s n i i ∅ [] where
  metered := hp.metered
  new := hp.find
  start := rfl
  mem := by simp
  nodup := List.nodup_nil
  busy := by simp
  blocks := fun _ _ _ => rfl
  grows := le_rfl
  nblocks := fun _ => rfl
  count := by simp
  calls := ⟨[], rfl, rfl⟩

/-- empty slots do not count -/
theorem widen (h : Visited s t n i j V l) (hVW : V ⊆ W) (hW : ∀ σ ∈ W, s.tree n σ ≠ 0 → σ ∈ V) :
    Visited s t n i j W l :=
  { h with
    mem := fun σ => by
      rw [h.mem]
      exact ⟨fun hσ => ⟨hVW hσ.1, hσ.2⟩, fun hσ => ⟨hW σ hσ.1 hσ.2, hσ.2⟩⟩
    nblocks := fun hd => h.nblocks fun hc => hd (hVW hc) }

/-- a change of the dinode -/
theorem set (h : Visited s t n i j V l) {f : Dinode → Dinode} (hf : (f j.dinode).blockCount = j.dinode.blockCount) :
    Visited s (t.setDinode n f) n i { j with dinode := f j.dinode } V l :=
  { h with
    metered := h.metered.congr rfl rfl rfl le_rfl
    new := by rw [find_setDinode, if_pos rfl, h.new]; rfl
    start := h.start
    busy := h.busy
    blocks := h.blocks
    grows := h.grows
    nblocks := h.nblocks
    count := by rw [hf]; exact h.count
    calls := h.calls }

/-- one call of `testfs_free_block_from_inode` -/
theorem visit (h : Visited s t n i j V l) (hp : Planted s n i) (hσ : σ ∉ V) :
    ∃ t' j' l', freeBlockFromInode t n (s.tree n σ) = .ok t' ∧ Visited s t' n i j' (insert σ V) l' ∧
      SamePtrs j.dinode j'.dinode := by
  by_cases h0 : s.tree n σ = 0
  · refine ⟨t, j, l, ?_, h.widen (Set.subset_insert σ V) ?_, rfl, rfl, rfl⟩
    · unfold freeBlockFromInode
      rw [if_pos h0]
      rfl
    · rintro τ (rfl | hτ) hτ0
      · exact absurd h0 hτ0
      · exact hτ
  have hnot : σ ∉ l := fun hc => hσ ((h.mem σ).1 hc).1
  have hother : ∀ τ ∈ l, s.tree n τ ≠ s.tree n σ := by
    intro τ hτ heq
    exact hnot (hp.inj τ σ ((h.mem τ).1 hτ).2 heq ▸ hτ)
  have hbusy : t.busy (s.tree n σ) := (h.busy _).2 ⟨hp.busy σ h0, hother⟩
  obtain ⟨t', ht'⟩ := h.metered.freeBlockFromInode_returns (n := n) hbusy
  have hgave : Gave t t' n (s.tree n σ) := by
    rcases freeBlockFromInode_cases h.metered.geo ht' with ⟨hc, -⟩ | ⟨-, hgave⟩
    · exact absurd hc h0
    · exact hgave
  obtain ⟨w, hw, hcalls⟩ := h.calls
  obtain ⟨w', hw', hcall⟩ := freeBlockFromInode_log h.metered.geo h0 ht'
  refine ⟨t', { j with dinode := { j.dinode with blockCount := j.dinode.blockCount - 1 }, dirty := true }, σ :: l,
    ht', ?_, rfl, rfl, rfl⟩
  constructor
  · refine ⟨hgave.frame.geo h.metered.geo, ?_, ?_⟩
    · have h1 := hgave.used
      have h2 := hgave.card
      have h3 := h.metered.used
      omega
    · have h1 := hgave.used
      have h2 := hgave.frame.max
      have h3 := h.metered.limit
      omega
  · rw [hgave.find, if_pos rfl, h.new]
    rfl
  · rw [← h.start, hgave.frame.sb]
  · intro τ
    simp only [List.mem_cons, Set.mem_insert_iff, h.mem]
    constructor
    · rintro (rfl | hτ)
      · exact ⟨Or.inl rfl, h0⟩
      · exact ⟨Or.inr hτ.1, hτ.2⟩
    · rintro ⟨rfl | hτ, hτ0⟩
      · exact Or.inl rfl
      · exact Or.inr ⟨hτ, hτ0⟩
  · exact List.nodup_cons.2 ⟨hnot, h.nodup⟩
  · intro x
    rw [hgave.busy, h.busy]
    simp only [List.mem_cons, forall_eq_or_imp]
    constructor
    · rintro ⟨⟨h1, h2⟩, h3⟩
      exact ⟨h1, fun hc => h3 hc.symm, h2⟩
    · rintro ⟨h1, h3, h2⟩
      exact ⟨⟨h1, h2⟩, fun hc => h3 hc.symm⟩
  · intro x hx hout
    rw [hgave.blocks x (by omega) fun hc => hout σ List.mem_cons_self hc.symm]
    exact h.blocks x hx fun τ hτ => hout τ (List.mem_cons_of_mem σ hτ)
  · exact h.grows.trans hgave.frame.grows
  · intro hd
    have hne : σ ≠ .dind := fun hc => hd (hc ▸ Set.mem_insert σ V)
    have hin := hp.inside σ hne h0
    rw [hgave.nblocks, h.nblocks fun hc => hd (Set.mem_insert_of_mem σ hc)]
    omega
  · have h1 := h.count
    simp only [List.length_cons]
    push_cast
    omega
  · refine ⟨w' ++ w, by rw [hw', hw, List.append_assoc], ?_⟩
    rw [h.start] at hcall
    rw [List.filter_append, hcall, hcalls]
    rfl

/-- a block whose slot was not visited is read as it was -/
theorem read (h : Visited s t n i j V l) (hp : Planted s n i) (hσ : σ ∉ V) (h0 : s.tree n σ ≠ 0)
    (hin : s.tree n σ < s.dev.nblocks) : readBlocks t (s.tree n σ) = .ok (s.dev.blocks (s.tree n σ)) := by
  have h146 := (hp.busy σ h0).1
  have hgrows := h.grows
  rw [readBlocks_eq_ok]
  refine ⟨⟨by omega, by omega⟩, h.blocks _ h146 fun τ hτ hc => hσ ?_⟩
  obtain ⟨hτV, hτ0⟩ := (h.mem τ).1 hτ
  exact hp.inj τ σ hτ0 hc ▸ hτV

end Visited

/-! ## The loops -/

/-- the entries of a pointer block, all of them below `e` -/
theorem Visited.entries {block : Lib.Mem} {f : Fin 2048 → Slot} (h : Visited s t n i j V l) (hp : Planted s n i)
    (hf : Injective f) (hV : ∀ k, f k ∉ V) (hblock : ∀ k : Fin 2048, s32At block (4 * k) = s.tree n (f k))
    (he : ∀ k : Fin 2048, s.tree n (f k) ≠ 0 → (k : ℤ) < e) :
    ∃ t' j' l', freeEntries t n block e = .ok t' ∧ Visited s t' n i j' (V ∪ Set.range f) l' ∧
    SamePtrs j.dinode j'.dinode := by
  have hend := foldlM_range (n := (min e 2048).toNat) (b := t)
    (f := fun t k => freeBlockFromInode t n (s32At block (4 * k)))
    (I := fun m u => ∃ j' l', Visited s u n i j' (V ∪ {τ | ∃ k : Fin 2048, (k : ℕ) < m ∧ f k = τ}) l' ∧
      SamePtrs j.dinode j'.dinode)
    ⟨j, l, by simpa using h, rfl, rfl, rfl⟩ ?_
  · obtain ⟨t', hloop, j', l', h', hsame⟩ := hend
    refine ⟨t', j', l', hloop, h'.widen ?_ ?_, hsame⟩
    · rintro τ (hτ | ⟨k, -, rfl⟩)
      · exact Or.inl hτ
      · exact Or.inr ⟨k, rfl⟩
    · rintro τ (hτ | ⟨k, rfl⟩) hτ0
      · exact Or.inl hτ
      · have hlt := he k hτ0
        have hk := k.isLt
        exact Or.inr ⟨k, by omega, rfl⟩
  · rintro m hm u ⟨j1, l1, h1, hsame1⟩
    have hlt : m < 2048 := by omega
    obtain ⟨u', j2, l2, hfree, h2, hsame2⟩ := h1.visit hp (σ := f ⟨m, hlt⟩) (by
      rintro (hc | ⟨k, hk, hkm⟩)
      · exact hV _ hc
      · rw [hf hkm] at hk
        exact lt_irrefl m hk)
    refine ⟨u', (hblock ⟨m, hlt⟩).symm ▸ hfree, j2, l2, ?_, hsame2.1.trans hsame1.1, hsame2.2.1.trans hsame1.2.1,
      hsame2.2.2.trans hsame1.2.2⟩
    have hset : insert (f ⟨m, hlt⟩) (V ∪ {τ | ∃ k : Fin 2048, (k : ℕ) < m ∧ f k = τ}) =
        V ∪ {τ | ∃ k : Fin 2048, (k : ℕ) < m + 1 ∧ f k = τ} := by
      ext τ
      simp only [Set.mem_insert_iff, Set.mem_union, Set.mem_ofPred_eq]
      constructor
      · rintro (rfl | hτ | ⟨k, hk, rfl⟩)
        · exact Or.inr ⟨⟨m, hlt⟩, Nat.lt_succ_self m, rfl⟩
        · exact Or.inl hτ
        · exact Or.inr ⟨k, by omega, rfl⟩
      · rintro (hτ | ⟨k, hk, rfl⟩)
        · exact Or.inr (Or.inl hτ)
        · by_cases hkm : (k : ℕ) = m
          · exact Or.inl (congrArg f (Fin.ext hkm))
          · exact Or.inr (Or.inr ⟨k, by omega, rfl⟩)
    rw [← hset]
    exact h2

/-- the direct blocks -/
theorem Planted.direct (hp : Planted s n i) (he : ∀ k : Fin 10, i.dinode.iBlockNr k ≠ 0 → (k : ℤ) < e) :
    ∃ t j l, (List.finRange 10).foldlM (freeDirect n e) s = .ok t ∧ Visited s t n i j (Set.range Slot.direct) l ∧
      (∀ k, j.dinode.iBlockNr k = 0) ∧ j.dinode.iIndirect = i.dinode.iIndirect ∧
      j.dinode.iDindirect = i.dinode.iDindirect := by
  have htree : ∀ k, s.tree n (.direct k) = i.dinode.iBlockNr k := fun k => by rw [tree_of_find hp.find]; rfl
  have hend := foldlM_finRange (n := 10) (f := freeDirect n e) (b := s)
    (I := fun m u => ∃ j l, Visited s u n i j {τ | ∃ k : Fin 10, (k : ℕ) < m ∧ .direct k = τ} l ∧
      (∀ k : Fin 10, j.dinode.iBlockNr k = if (k : ℕ) < m then 0 else i.dinode.iBlockNr k) ∧
      j.dinode.iIndirect = i.dinode.iIndirect ∧ j.dinode.iDindirect = i.dinode.iDindirect)
    ⟨i, [], by simpa using Visited.refl hp, by simp, rfl, rfl⟩ ?_
  · obtain ⟨t, hloop, j, l, h, hblock, hind, hdind⟩ := hend
    refine ⟨t, j, l, hloop, h.widen ?_ ?_, fun k => (hblock k).trans (if_pos k.isLt), hind, hdind⟩
    · rintro τ ⟨k, -, rfl⟩
      exact ⟨k, rfl⟩
    · rintro τ ⟨k, rfl⟩ -
      exact ⟨k, k.isLt, rfl⟩
  · rintro m u ⟨j1, l1, h1, hblock1, hind1, hdind1⟩
    have hset : insert (Slot.direct m) {τ | ∃ k : Fin 10, (k : ℕ) < m ∧ .direct k = τ} =
        {τ | ∃ k : Fin 10, (k : ℕ) < m + 1 ∧ .direct k = τ} := by
      ext τ
      simp only [Set.mem_insert_iff, Set.mem_ofPred_eq]
      constructor
      · rintro (rfl | ⟨k, hk, rfl⟩)
        · exact ⟨m, Nat.lt_succ_self m, rfl⟩
        · exact ⟨k, by omega, rfl⟩
      · rintro ⟨k, hk, rfl⟩
        by_cases hkm : k = m
        · exact Or.inl (congrArg Slot.direct hkm)
        · have hval : (k : ℕ) ≠ m := fun hc => hkm (Fin.ext hc)
          exact Or.inr ⟨k, by omega, rfl⟩
    have hnot : Slot.direct m ∉ {τ | ∃ k : Fin 10, (k : ℕ) < m ∧ Slot.direct k = τ} := by
      rintro ⟨k, hk, hkm⟩
      rw [Slot.direct.inj hkm] at hk
      exact lt_irrefl _ hk
    have hval : j1.dinode.iBlockNr m = s.tree n (.direct m) := by
      rw [hblock1, if_neg (lt_irrefl _), htree]
    by_cases h0 : s.tree n (.direct m) = 0
    · -- an empty slot, or one behind the end
      refine ⟨u, ?_, j1, l1, h1.widen ?_ ?_, fun k => ?_, hind1, hdind1⟩
      · unfold freeDirect
        rw [deref_eq_ok.2 h1.new, ok_bind, hval, if_pos h0]
        exact ite_self _
      · rw [← hset]
        exact Set.subset_insert ..
      · rw [← hset]
        rintro τ (rfl | hτ) hτ0
        · exact absurd h0 hτ0
        · exact hτ
      · rw [hblock1]
        by_cases hkm : k = m
        · subst hkm
          rw [if_neg (lt_irrefl _), if_pos (Nat.lt_succ_self _), ← htree, h0]
        · have hne : (k : ℕ) ≠ m := fun hc => hkm (Fin.ext hc)
          have hiff : (k : ℕ) < m + 1 ↔ (k : ℕ) < m := by omega
          simp only [hiff]
    · obtain ⟨u', j2, l2, hfree, h2, hsame⟩ := h1.visit hp hnot
      have hlt : (m : ℤ) < e := he m (by rw [← htree]; exact h0)
      rw [hset] at h2
      have h3 := h2.set (f := fun d => { d with iBlockNr := update d.iBlockNr m 0 }) rfl
      refine ⟨_, ?_, _, l2, h3, fun k => ?_, hsame.2.1.trans hind1, hsame.2.2.trans hdind1⟩
      · unfold freeDirect
        rw [if_pos hlt, deref_eq_ok.2 h1.new, ok_bind, hval, if_neg h0, hfree]
        rfl
      · change update j2.dinode.iBlockNr m 0 k = _
        by_cases hkm : k = m
        · subst hkm
          rw [update_self, if_pos (Nat.lt_succ_self _)]
        · have hne : (k : ℕ) ≠ m := fun hc => hkm (Fin.ext hc)
          have hiff : (k : ℕ) < m + 1 ↔ (k : ℕ) < m := by omega
          rw [update_of_ne hkm, hsame.1, hblock1]
          simp only [hiff]

/-- the indirect block -/
theorem Visited.indirect (h : Visited s t n i j V l) (hp : Planted s n i) (hV : .ind ∉ V) (hV' : ∀ k, .indE k ∉ V)
    (hind : j.dinode.iIndirect = i.dinode.iIndirect) (he0 : i.dinode.iIndirect ≠ 0 → 0 < e)
    (he : ∀ k : Fin 2048, s.tree n (.indE k) ≠ 0 → (k : ℤ) < e) :
    ∃ t' j' l', freeIndirect t n e = .ok t' ∧ Visited s t' n i j' (insert .ind (V ∪ Set.range Slot.indE)) l' ∧
      j'.dinode.iBlockNr = j.dinode.iBlockNr ∧ j'.dinode.iIndirect = 0 ∧
      j'.dinode.iDindirect = j.dinode.iDindirect := by
  have htree : s.tree n .ind = i.dinode.iIndirect := by rw [tree_of_find hp.find]; rfl
  have hentry : ∀ k : Fin 2048, s.tree n (.indE k) = entryOf s.dev.blocks i.dinode.iIndirect k := fun k => by
    rw [tree_of_find hp.find]; rfl
  unfold freeIndirect
  rw [deref_eq_ok.2 h.new, ok_bind, hind]
  by_cases h0 : i.dinode.iIndirect = 0
  · rw [if_neg (by omega)]
    refine ⟨t, j, l, rfl, h.widen ?_ ?_, rfl, hind.trans h0, rfl⟩
    · exact fun τ hτ => Or.inr (Or.inl hτ)
    · rintro τ (rfl | hτ | ⟨k, rfl⟩) hτ0
      · exact absurd (htree.trans h0) hτ0
      · exact hτ
      · rw [hentry, h0, entryOf_zero] at hτ0
        exact absurd rfl hτ0
  · have hbusy := (hp.busy .ind (by rw [htree]; exact h0)).1
    have hin := hp.inside .ind (by simp) (by rw [htree]; exact h0)
    have hread := h.read hp hV (by rw [htree]; exact h0) hin
    rw [htree] at hbusy hread
    rw [if_pos (by omega), if_neg (not_le.2 (he0 h0)), hread, ok_bind]
    obtain ⟨t1, j1, l1, hentries, h1, hsame1⟩ := h.entries hp (f := Slot.indE) (fun a b => Slot.indE.inj) hV'
      (fun k => by rw [hentry, entryOf_of_ne h0]) he
    obtain ⟨t2, j2, l2, hfree, h2, hsame2⟩ := h1.visit hp (σ := .ind) (by
      rintro (hc | ⟨k, hk⟩)
      · exact hV hc
      · cases hk)
    rw [htree] at hfree
    rw [hentries, ok_bind, hfree]
    exact ⟨_, _, l2, rfl, h2.set (f := fun d => { d with iIndirect := 0 }) rfl, hsame2.1.trans hsame1.1, rfl,
      hsame2.2.2.trans hsame1.2.2⟩

/-- one turn over the double indirect block: a second-level block after its entries -/
theorem Visited.second {block : Lib.Mem} (h : Visited s t n i j V l) (hp : Planted s n i)
    (k : Fin 2048) (hV : .dindE k ∉ V) (hV' : ∀ c, .leaf k c ∉ V) (hblock : s32At block (4 * k) = s.tree n (.dindE k))
    (he : ∀ c : Fin 2048, s.tree n (.leaf k c) ≠ 0 → (c : ℤ) < e - (k : ℕ) * 2048) :
    ∃ t' j' l', freeSecond n block e t k = .ok t' ∧
    Visited s t' n i j' (insert (.dindE k) (V ∪ Set.range (Slot.leaf k))) l' ∧
      SamePtrs j.dinode j'.dinode := by
  have hentry : ∀ c : Fin 2048, s.tree n (.leaf k c) = entryOf s.dev.blocks (s.tree n (.dindE k)) c := fun _ => rfl
  unfold freeSecond
  rw [hblock]
  by_cases h0 : s.tree n (.dindE k) = 0
  · rw [if_pos h0]
    refine ⟨t, j, l, rfl, h.widen (fun τ hτ => Or.inr (Or.inl hτ)) ?_, rfl, rfl, rfl⟩
    rintro τ (rfl | hτ | ⟨c, rfl⟩) hτ0
    · exact absurd h0 hτ0
    · exact hτ
    · rw [hentry, h0, entryOf_zero] at hτ0
      exact absurd rfl hτ0
  · rw [if_neg h0, h.read hp hV h0 (hp.inside _ (by simp) h0), ok_bind]
    obtain ⟨t1, j1, l1, hentries, h1, hsame1⟩ :=
      h.entries hp (f := Slot.leaf k) (fun a b hab => (Slot.leaf.inj hab).2) hV'
      (fun c => by rw [hentry, entryOf_of_ne h0]) he
    obtain ⟨t2, j2, l2, hfree, h2, hsame2⟩ := h1.visit hp (σ := .dindE k) (by
      rintro (hc | ⟨c, hc⟩)
      · exact hV hc
      · cases hc)
    rw [hentries, ok_bind, hfree]
    exact ⟨t2, j2, l2, rfl, h2, hsame2.1.trans hsame1.1, hsame2.2.1.trans hsame1.2.1, hsame2.2.2.trans hsame1.2.2⟩

/-- the slots behind the first `m` entries of the double indirect block -/
def behind (m : ℕ) : Set Slot := {τ | ∃ k : Fin 2048, (k : ℕ) < m ∧ (.dindE k = τ ∨ ∃ c, .leaf k c = τ)}

theorem behind_succ (k : Fin 2048) :
    insert (.dindE k) (V ∪ behind k ∪ Set.range (Slot.leaf k)) = V ∪ behind (k + 1) := by
  ext τ
  constructor
  · rintro (rfl | (hτ | ⟨k', hk', hτ⟩) | ⟨c, rfl⟩)
    · exact Or.inr ⟨k, Nat.lt_succ_self _, Or.inl rfl⟩
    · exact Or.inl hτ
    · exact Or.inr ⟨k', by omega, hτ⟩
    · exact Or.inr ⟨k, Nat.lt_succ_self _, Or.inr ⟨c, rfl⟩⟩
  · rintro (hτ | ⟨k', hk', hτ⟩)
    · exact Or.inr (Or.inl (Or.inl hτ))
    · by_cases hkk : k' = k
      · subst hkk
        rcases hτ with rfl | ⟨c, rfl⟩
        · exact Or.inl rfl
        · exact Or.inr (Or.inr ⟨c, rfl⟩)
      · have hval : (k' : ℕ) ≠ k := fun hc => hkk (Fin.ext hc)
        exact Or.inr (Or.inl (Or.inr ⟨k', by omega, hτ⟩))

/-- the loop over the double indirect block -/
theorem Visited.seconds {block : Lib.Mem} (h : Visited s t n i j V l) (hp : Planted s n i)
    (hV : ∀ τ ∈ behind 2048, τ ∉ V) (hblock : ∀ k : Fin 2048, s32At block (4 * k) = s.tree n (.dindE k))
    (he : ∀ k c : Fin 2048, s.tree n (.leaf k c) ≠ 0 → (c : ℤ) < e - (k : ℕ) * 2048) :
    ∃ t' j' l', (List.range 2048).foldlM (freeSecond n block e) t = .ok t' ∧ Visited s t' n i j' (V ∪ behind 2048) l' ∧
      SamePtrs j.dinode j'.dinode := by
  have hend := foldlM_range (n := 2048) (b := t) (f := freeSecond n block e)
    (I := fun m u => ∃ j' l', Visited s u n i j' (V ∪ behind m) l' ∧ SamePtrs j.dinode j'.dinode)
    ⟨j, l, by simpa [behind] using h, rfl, rfl, rfl⟩ ?_
  · obtain ⟨t', hloop, j', l', h', hsame⟩ := hend
    exact ⟨t', j', l', hloop, h', hsame⟩
  · rintro m hm u ⟨j1, l1, h1, hsame1⟩
    have hearlier : ∀ τ ∈ behind m, τ ≠ .dindE ⟨m, hm⟩ ∧ ∀ c, τ ≠ .leaf ⟨m, hm⟩ c := by
      rintro τ ⟨k, hk, rfl | ⟨c, rfl⟩⟩
      · refine ⟨fun hc => ?_, fun c hc => by cases hc⟩
        rw [Slot.dindE.inj hc] at hk
        exact lt_irrefl m hk
      · refine ⟨fun hc => (by cases hc), fun c hc => ?_⟩
        rw [(Slot.leaf.inj hc).1] at hk
        exact lt_irrefl m hk
    obtain ⟨u', j2, l2, hturn, h2, hsame2⟩ := h1.second (e := e) hp ⟨m, hm⟩
      (by
        rintro (hc | hc)
        · exact hV _ ⟨⟨m, hm⟩, hm, Or.inl rfl⟩ hc
        · exact (hearlier _ hc).1 rfl)
      (by
        rintro c (hc | hc)
        · exact hV _ ⟨⟨m, hm⟩, hm, Or.inr ⟨c, rfl⟩⟩ hc
        · exact (hearlier _ hc).2 c rfl)
      (hblock ⟨m, hm⟩) (he ⟨m, hm⟩)
    have hset := behind_succ (V := V) ⟨m, hm⟩
    rw [hset] at h2
    exact ⟨u', hturn, j2, l2, h2, hsame2.1.trans hsame1.1, hsame2.2.1.trans hsame1.2.1, hsame2.2.2.trans hsame1.2.2⟩

/-- the double indirect block -/
theorem Visited.dindirect (h : Visited s t n i j V l) (hp : Planted s n i) (hV : .dind ∉ V)
    (hV' : ∀ τ ∈ behind 2048, τ ∉ V) (hdind : j.dinode.iDindirect = i.dinode.iDindirect)
    (he0 : i.dinode.iDindirect ≠ 0 ↔ 0 < e)
    (he : ∀ k c : Fin 2048, s.tree n (.leaf k c) ≠ 0 → (c : ℤ) < e - (k : ℕ) * 2048)
    (hin : i.dinode.iDindirect < s.dev.nblocks) :
    ∃ t' j' l', freeDindirect t n e = .ok t' ∧ Visited s t' n i j' (insert .dind (V ∪ behind 2048)) l' ∧
      j'.dinode.iBlockNr = j.dinode.iBlockNr ∧ j'.dinode.iIndirect = j.dinode.iIndirect ∧ j'.dinode.iDindirect = 0 := by
  have htree : s.tree n .dind = i.dinode.iDindirect := by rw [tree_of_find hp.find]; rfl
  have hentry : ∀ k : Fin 2048, s.tree n (.dindE k) = entryOf s.dev.blocks i.dinode.iDindirect k := fun k => by
    rw [tree_of_find hp.find]; rfl
  unfold freeDindirect
  by_cases h0 : i.dinode.iDindirect = 0
  · have hneg : ¬0 < e := fun hc => he0.2 hc h0
    rw [if_neg hneg]
    refine ⟨t, j, l, rfl, h.widen (fun τ hτ => Or.inr (Or.inl hτ)) ?_, rfl, rfl, hdind.trans h0⟩
    have hnone : ∀ k : Fin 2048, s.tree n (.dindE k) = 0 := fun k => by rw [hentry, h0, entryOf_zero]
    rintro τ (rfl | hτ | ⟨k, -, rfl | ⟨c, rfl⟩⟩) hτ0
    · exact absurd (htree.trans h0) hτ0
    · exact hτ
    · exact absurd (hnone k) hτ0
    · refine absurd ?_ hτ0
      change entryOf s.dev.blocks (s.tree n (.dindE k)) c = 0
      rw [hnone k, entryOf_zero]
  · have hread := h.read hp hV (by rw [htree]; exact h0) (by rw [htree]; exact hin)
    rw [htree] at hread
    rw [if_pos (he0.1 h0), deref_eq_ok.2 h.new, ok_bind, hdind, hread, ok_bind]
    obtain ⟨t1, j1, l1, hloop, h1, hsame1⟩ := h.seconds hp hV' (fun k => by rw [hentry, entryOf_of_ne h0]) he
    obtain ⟨t2, j2, l2, hfree, h2, hsame2⟩ := h1.visit hp (σ := .dind) (by
      rintro (hc | ⟨k, -, hc | ⟨c, hc⟩⟩)
      · exact hV hc
      · cases hc
      · cases hc)
    rw [htree] at hfree
    rw [hloop, ok_bind, hfree]
    exact ⟨_, _, l2, rfl, h2.set (f := fun d => { d with iDindirect := 0 }) rfl, hsame2.1.trans hsame1.1,
      hsame2.2.1.trans hsame1.2.1, rfl⟩

/-- a double indirect block behind the end of the device -/
theorem Visited.dindirect_short (h : Visited s t n i j V l) (hV : .dind ∉ V)
    (hdind : j.dinode.iDindirect = i.dinode.iDindirect) (he : 0 < e) (hout : s.dev.nblocks ≤ i.dinode.iDindirect) :
    freeDindirect t n e = .error .exit := by
  have hshort : ¬(0 ≤ i.dinode.iDindirect ∧ i.dinode.iDindirect < t.dev.nblocks) := by
    rw [h.nblocks hV]
    omega
  unfold freeDindirect
  rw [if_pos he, deref_eq_ok.2 h.new, ok_bind, hdind, readBlocks, if_neg hshort, error_bind]

/-! ## The whole tree -/

/-- every slot of a block number is visited, the one of the double indirect block last -/
theorem visited_all :
    insert Slot.dind (insert .ind (Set.range .direct ∪ Set.range .indE) ∪ behind 2048) = Set.univ := by
  refine Set.eq_univ_of_forall fun σ => ?_
  cases σ with
  | direct k => exact Or.inr (Or.inl (Or.inr (Or.inl ⟨k, rfl⟩)))
  | ind => exact Or.inr (Or.inl (Or.inl rfl))
  | dind => exact Or.inl rfl
  | indE k => exact Or.inr (Or.inl (Or.inr (Or.inr ⟨k, rfl⟩)))
  | dindE k => exact Or.inr (Or.inr ⟨k, k.isLt, Or.inl rfl⟩)
  | leaf k c => exact Or.inr (Or.inr ⟨k, k.isLt, Or.inr ⟨c, rfl⟩⟩)

theorem Visited.length (h : Visited s t n i j Set.univ l) : l.length = held (s.tree n) := by
  have hset : l.toFinset = Finset.univ.filter fun σ => s.tree n σ ≠ 0 := by
    ext σ
    simp [h.mem]
  rw [held, ← hset, List.toFinset_card_of_nodup h.nodup]

section Blocks

variable {blocks : ℤ → Lib.Mem} {d : Dinode}

/-- the entries in use are below the number of blocks -/
theorem Sized.direct (h : Sized blocks d) (k : Fin 10) (hk : tree blocks d (.direct k) ≠ 0) :
    (k : ℤ) < sizeBlocks d := by
  have hlt := k.isLt
  refine h.mapped k ?_
  rw [phys, if_pos (by rw [maxBlockNr_eq]; omega), slotOf_direct hlt]
  exact hk

theorem Sized.indE (h : Sized blocks d) (k : Fin 2048) (hk : tree blocks d (.indE k) ≠ 0) :
    (k : ℤ) < sizeBlocks d - 10 := by
  have hlt := k.isLt
  have hb := h.mapped (10 + k) (by
    rw [phys, if_pos (by rw [maxBlockNr_eq]; omega), slotOf_indE (by omega) (by omega)]
    have hval : (⟨10 + k - 10, by omega⟩ : Fin 2048) = k := Fin.ext (by simp)
    rw [hval]
    exact hk)
  push_cast at hb
  omega

theorem Sized.leaf (h : Sized blocks d) (k c : Fin 2048) (hk : tree blocks d (.leaf k c) ≠ 0) :
    (c : ℤ) < sizeBlocks d - 10 - 2048 - (k : ℕ) * 2048 := by
  have hk' := k.isLt
  have hc' := c.isLt
  have hmax : 2058 + 2048 * (k : ℕ) + c < maxBlockNr := by
    rw [maxBlockNr_eq]
    omega
  have hb := h.mapped (2058 + 2048 * k + c) (by
    obtain ⟨a, b, ha, hb, hslot⟩ := slotOf_leaf (k := 2058 + 2048 * k + c) (by omega) (by omega) hmax
    obtain rfl : a = k := Fin.ext (by omega)
    obtain rfl : b = c := Fin.ext (by omega)
    rw [phys, if_pos hmax, hslot]
    exact hk)
  push_cast at hb
  omega

end Blocks

/-- between two operations on blocks, every inode in use that is in memory is so -/
theorem Sound.planted (h : Sound s) (hn : s.alloc n) (hi : s.find n = some i) : Planted s n i where
  metered := h.core.metered
  find := hi
  inj := h.core.acc.treeInj hn
  busy := fun _ hσ => (h.core.acc.busy_of_tree hn hσ).1
  inside := fun σ hd hσ => h.inside n σ hn hd id hσ

/-- the walk up to the double indirect block -/
theorem Planted.walk (hp : Planted s n i) (hd : Sized s.dev.blocks i.dinode) :
    ∃ t j l, Visited s t n i j (insert .ind (Set.range .direct ∪ Set.range .indE)) l ∧ (∀ k, j.dinode.iBlockNr k = 0) ∧
      j.dinode.iIndirect = 0 ∧ j.dinode.iDindirect = i.dinode.iDindirect ∧ freeBlocks s n = do
        let t ← freeDindirect t n (sizeBlocks i.dinode - 10 - 2048)
        return (t.setDinode n fun d => { d with iSize := 0 }).setDirty n := by
  have htree : s.tree n = tree s.dev.blocks i.dinode := tree_of_find hp.find
  have hmax := hd.max
  have hpos := hd.pos
  rw [maxBlockNr_eq] at hmax
  have he0 : 0 ≤ sizeBlocks i.dinode := by
    unfold sizeBlocks
    omega
  have h1 : toInt32 ((i.dinode.iSize + 8191) / 8192) = sizeBlocks i.dinode :=
    toInt32_of_mem (z := sizeBlocks i.dinode) ⟨by omega, by omega⟩
  have h2 : toInt32 (sizeBlocks i.dinode - 10) = sizeBlocks i.dinode - 10 := toInt32_of_mem ⟨by omega, by omega⟩
  have h3 : toInt32 (sizeBlocks i.dinode - 10 - 2048) = sizeBlocks i.dinode - 10 - 2048 :=
    toInt32_of_mem ⟨by omega, by omega⟩
  obtain ⟨t1, j1, l1, hrun1, hv1, hblock1, hind1, hdind1⟩ := hp.direct (e := sizeBlocks i.dinode) fun k hk =>
    hd.direct k hk
  have hind : i.dinode.iIndirect ≠ 0 → 0 < sizeBlocks i.dinode - 10 := fun h0 => by
    have h10 := hd.ind h0
    omega
  obtain ⟨t2, j2, l2, hrun2, hv2, hblock2, hind2, hdind2⟩ := hv1.indirect hp (by simp) (by simp) hind1 hind
    fun k hk => hd.indE k (by rwa [htree] at hk)
  refine ⟨t2, j2, l2, hv2, fun k => by rw [hblock2, hblock1], hind2, hdind2.trans hdind1, ?_⟩
  unfold freeBlocks
  rw [deref_eq_ok.2 hp.find, ok_bind]
  simp only [h1, h2, h3, hrun1, hrun2, ok_bind]

theorem Sized.dind_iff {blocks : ℤ → Lib.Mem} {d : Dinode} (h : Sized blocks d) :
    d.iDindirect ≠ 0 ↔ 0 < sizeBlocks d - 10 - 2048 := by
  rw [h.dind]
  omega

/-- the double indirect block lies behind the end of the device -/
theorem freeBlocks_short (hp : Planted s n i) (hd : Sized s.dev.blocks i.dinode)
    (hout : s.dev.nblocks ≤ i.dinode.iDindirect) :
    freeBlocks s n = .error .exit := by
  obtain ⟨t, j, l, hv, -, -, hdind, hwalk⟩ := hp.walk hd
  have h0 : i.dinode.iDindirect ≠ 0 := by
    have hnb := hp.metered.geo.nblocks
    omega
  rw [hwalk, hv.dindirect_short (by simp) hdind (hd.dind_iff.1 h0) hout, error_bind]

theorem freeBlocks_reclaimed (hp : Planted s n i) (hd : Sized s.dev.blocks i.dinode)
    (hin : i.dinode.iDindirect < s.dev.nblocks) :
    ∃ t, freeBlocks s n = .ok t ∧ Reclaimed s t n := by
  have htree : s.tree n = tree s.dev.blocks i.dinode := tree_of_find hp.find
  obtain ⟨t1, j1, l1, hv1, hblock1, hind1, hdind1, hwalk⟩ := hp.walk hd
  have hV : ∀ τ ∈ behind 2048, τ ∉ insert Slot.ind (Set.range Slot.direct ∪ Set.range Slot.indE) := by
    rintro τ ⟨k, -, rfl | ⟨c, rfl⟩⟩
    · simp
    · simp
  obtain ⟨t, j, l, hrun, hv, hblock, hind, hdind⟩ := hv1.dindirect hp (by simp) hV hdind1 hd.dind_iff
    (fun k c hk => hd.leaf k c (by rwa [htree] at hk)) hin
  rw [visited_all] at hv
  have hcount : j.dinode.blockCount = 0 := by
    have hc := hv.count
    rw [hv.length, htree, hd.count] at hc
    omega
  rw [hrun, ok_bind] at hwalk
  refine ⟨_, hwalk, ?_, ?_, ?_⟩
  · refine ⟨l.map (s.tree n), hv.calls, ?_, fun b => ?_⟩
    · rw [List.nodup_map_iff_inj_on hv.nodup]
      exact fun σ hσ τ _ heq => hp.inj σ τ ((hv.mem σ).1 hσ).2 heq
    · rw [List.mem_map]
      constructor
      · rintro ⟨σ, hσ, rfl⟩
        exact ⟨((hv.mem σ).1 hσ).2, σ, rfl⟩
      · rintro ⟨hb, σ, rfl⟩
        exact ⟨σ, (hv.mem σ).2 ⟨trivial, hb⟩, rfl⟩
  · intro b
    change t.busy b ↔ _
    rw [hv.busy]
    refine and_congr_right fun hb => ⟨fun hout σ hσ => ?_, fun hout σ _ => hout σ⟩
    have h146 := hb.1
    exact hout σ ((hv.mem σ).2 ⟨trivial, by omega⟩) hσ
  · have hnew : ((t.setDinode n fun d => { d with iSize := 0 }).setDirty n).find n =
        some { j with dinode := { j.dinode with iSize := 0 }, dirty := true } := by
      rw [find_setDirty, if_pos rfl, find_setDinode, if_pos rfl, hv.new]
      rfl
    exact ⟨_, hnew, hcount, fun k => (congrFun hblock k).trans (hblock1 k), hind.trans hind1, hdind, rfl⟩

/-- **`testfs_free_blocks` reclaims everything once**, if the double indirect block, where there is one, lies on the
device. -/
theorem free_blocks_reclaims (hp : Planted s n i) (hd : Sized s.dev.blocks i.dinode) :
    (∃ t, freeBlocks s n = .ok t ∧ Reclaimed s t n) ↔ i.dinode.iDindirect < s.dev.nblocks := by
  constructor
  · rintro ⟨t, hr, -⟩
    by_contra hout
    rw [freeBlocks_short hp hd (not_lt.1 hout)] at hr
    cases hr
  · exact freeBlocks_reclaimed hp hd

/-- a file with one byte behind its direct blocks: an indirect block and a data block -/
theorem free_blocks_reclaims_of_sparse :
    ∃ s0 s s1 t, start 1 (fun _ => 0) = .ok s0 ∧ Run step dirsWritten s0 s ∧ getInode s 1 = .ok s1 ∧
      (s1.dinode 1).iIndirect ≠ 0 ∧ (s1.dinode 1).blockCount = 2 ∧ freeBlocks s1 1 = .ok t ∧ Reclaimed s1 t 1 := by
  have h : after (start 1 fun _ => 0) (fun s0 => passes step dirsWritten (fun s => decide (s.alloc 1) &&
      after (getInode s 1) fun s1 => (s1.find 1).any fun i => decide (i.dinode.iSize = 81921 ∧ i.dinode.blockCount = 2 ∧
        s1.tree 1 .ind ≠ 0 ∧ s1.tree 1 (.indE 0) ≠ 0 ∧ i.dinode.iDindirect = 0)) s0
      [.create tokenF, .write tokenF 81920 tokenF]) = true := by decide +kernel
  obtain ⟨s0, h0, hpass⟩ := exists_of_after h
  obtain ⟨s, hrun, hs⟩ := run_of_passes _ hpass
  rw [Bool.and_eq_true, decide_eq_true_eq] at hs
  obtain ⟨hn, hs⟩ := hs
  obtain ⟨s1, hget, hs⟩ := exists_of_after hs
  rw [Option.any_eq_true] at hs
  obtain ⟨i, hi, hs⟩ := hs
  obtain ⟨hsize, hcount, hind, hentry, hdind⟩ := of_decide_eq_true hs
  obtain ⟨⟨D, hg⟩, -⟩ := run_graph ⟨le_rfl, by norm_num⟩ (fun _ => rfl) h0 hrun
  obtain ⟨hg1, hn1, -, -⟩ := hg.loaded hn hget
  have htree := tree_of_find hi
  have hheld : i.dinode.blockCount = held (s1.tree 1) := by
    have hcounted := hg1.sound.accounted.count 1 hn1
    rwa [dinode_of_find hi] at hcounted
  have hinj : TreeInj (s1.tree 1) := (hg1.sound.core.change 1).acc.treeInj hn1
  -- two blocks, so no other slot has one
  have hslots : ∀ σ, s1.tree 1 σ ≠ 0 → σ = .ind ∨ σ = .indE 0 := by
    intro σ hσ
    have hmem : s1.tree 1 σ ∈ [s1.tree 1 .ind, s1.tree 1 (.indE 0)] := by
      refine mem_of_length_eq_held ?_ ?_ ?_ hσ
      · have hne : s1.tree 1 .ind ≠ s1.tree 1 (.indE 0) := fun hc => by cases hinj _ _ hind hc
        simpa using hne
      · simp only [List.mem_cons, List.not_mem_nil, or_false, forall_eq_or_imp, forall_eq]
        exact ⟨⟨hind, _, rfl⟩, hentry, _, rfl⟩
      · rw [hcount] at hheld
        simpa using (show held (s1.tree 1) ≤ 2 by omega)
    rcases List.mem_cons.1 hmem with heq | hmem
    · exact Or.inl (hinj _ _ hσ heq)
    · exact Or.inr (hinj _ _ hσ (List.mem_singleton.1 hmem))
  have hblocks : sizeBlocks i.dinode = 11 := by
    unfold sizeBlocks
    rw [hsize]
    rfl
  have hd : Sized s1.dev.blocks i.dinode := by
    refine ⟨by rw [← htree]; exact hheld, by omega, ?_, fun b hb => ?_, fun _ => ?_, ?_⟩
    · rw [hblocks, maxBlockNr_eq]
      norm_num
    · unfold phys at hb
      rw [← htree] at hb
      split_ifs at hb with hmax
      · rcases hslots _ hb with hslot | hslot
        · exact absurd (hslot ▸ slotOf_not_isPtr b) (by simp [Slot.isPtr])
        · have hb10 : b = 10 := slotOf_inj hmax (by decide) (hslot.trans (by decide +kernel))
          rw [hblocks, hb10]
          norm_num
      · exact absurd rfl hb
    · rw [hblocks]
      norm_num
    · rw [hdind, hblocks]
      norm_num
  obtain ⟨t, ht, hre⟩ := (free_blocks_reclaims (hg1.sound.planted hn1 hi) hd).2 (by
    have hnb := hg1.sound.core.geo.nblocks
    omega)
  refine ⟨s0, s, s1, t, h0, hrun, hget, ?_, by rw [dinode_of_find hi, hcount], ht, hre⟩
  rw [dinode_of_find hi]
  rw [htree] at hind
  exact hind

/-- On 128 blocks: a write behind the last indirect block takes the last block for the double indirect block and fails,
and the end of the file moves. Removing the file then reads a block behind the end of the device. -/
theorem remove_ends_process :
    ¬ ∀ (fsSizeMb : ℕ) (stack : ℕ → ℤ) (s0 s s1 : State) (n : ℤ) (i : Inode), validSize fsSizeMb → (∀ j, stack j = 0) →
      start fsSizeMb stack = .ok s0 → Run step dirsWritten s0 s → s.alloc n → getInode s n = .ok s1 →
      s1.find n = some i → TreeInj (s1.tree n) → Sized s1.dev.blocks i.dinode → ∃ t, freeBlocks s1 n = .ok t ∧
      Reclaimed s1 t n := by
  intro hall
  obtain ⟨s0, s, s1, i, h0, hrun, hn, hget, hi, hsize, hout⟩ := dindirect_unwritten
  have hvalid : validSize 1 := ⟨le_rfl, by norm_num⟩
  obtain ⟨⟨D, hg⟩, -⟩ := run_graph hvalid (fun _ => rfl) h0 hrun
  obtain ⟨hg1, hn1, -, -⟩ := hg.loaded hn hget
  have hp := hg1.sound.planted hn1 hi
  have hnb := hp.metered.geo.nblocks
  have hblocks : sizeBlocks i.dinode = 2060 := by
    unfold sizeBlocks
    rw [hsize]
    rfl
  have hd : Sized s1.dev.blocks i.dinode := by
    refine ⟨?_, by omega, ?_, fun b hb => ?_, fun _ => by omega, ?_⟩
    · have hheld := hg1.sound.accounted.count 1 hn1
      rwa [dinode_of_find hi, tree_of_find hi] at hheld
    · rw [hblocks, maxBlockNr_eq]
      norm_num
    · by_contra hfar
      refine hb ?_
      unfold phys
      split_ifs with hmax
      · -- the double indirect block reads as zeros
        obtain ⟨a, c, -, -, hslot⟩ := slotOf_leaf (k := b) (by omega) (by omega) hmax
        have hzero := hg1.sound.core.acc.eof _ hout
        rw [hslot, tree, entryOf_zeroMem hzero, entryOf_zero]
      · rfl
    · rw [hblocks]
      exact ⟨fun _ => by norm_num, fun _ => by omega⟩
  obtain ⟨t, hr, -⟩ := hall 1 _ s0 s s1 1 i hvalid (fun _ => rfl) h0 hrun hn hget hi hp.inj hd
  rw [freeBlocks_short hp hd hout] at hr
  cases hr

end OsLab.Testfs
