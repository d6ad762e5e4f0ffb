/-
`testfs_free_blocks` and `testfs_remove_inode`.

`Freed s s' n S`: the blocks in the slots `S` of inode `n` were given back, one by one. What the loops read in a pointer
block is what the tree of the file holds there, because a block that was cleared had another slot. An inode with no
double indirect block whose size claims one reads block 0 in its place, and `testfs_free_block` of block 1 stops it
(`freeDindirect_zero`). The assertion `block_count == 0` says that no block was forgotten, so the removed inode leaves
no trace (`removeInode_spec`).
-/
import Mathlib.Tactic
import OsLab.Testfs.Inodes

namespace OsLab.Testfs

open OsLab.Lib Function State

variable {s s' s'' : State} {n m r p : ℤ} {i i' i'' : Inode} {S : Finset Slot} {σ τ : Slot}

/-- the blocks in the slots `S` of inode `n` were given back -/
structure Freed (s s' : State) (n : ℤ) (i i' : Inode) (S : Finset Slot) : Prop where
  frame : Frame s s'
  disk : Disk s'
  old : s.find n = some i
  new : s'.find n = some i'
  others : ∀ m, m ≠ n → s'.find m = s.find m
  slots : ∀ σ ∈ S, s.tree n σ ≠ 0
  busy : ∀ x, s'.busy x ↔ s.busy x ∧ ∀ σ ∈ S, s.tree n σ ≠ x
  card : s'.blockFreemap.bits.card + S.card = s.blockFreemap.bits.card
  used : s'.sb.usedBlockCount + S.card = s.sb.usedBlockCount
  zeroed : ∀ σ ∈ S, s'.dev.blocks (s.tree n σ) = zeroMem
  blocks : ∀ x, 18 ≤ x → (∀ σ ∈ S, s.tree n σ ≠ x) → s'.dev.blocks x = s.dev.blocks x
  count : i'.dinode.blockCount + S.card = i.dinode.blockCount
  refs : i'.iCount = i.iCount
  log : Logs (Own s n) s s'

namespace Freed

theorem refl (h : Core s n ∅) (hi : s.find n = some i) : Freed s s n i i ∅ where
  frame := Frame.refl s
  disk := h.disk
  old := hi
  new := hi
  others := fun _ _ => rfl
  slots := fun _ hσ => absurd hσ (Finset.notMem_empty _)
  busy := fun x => ⟨fun hx => ⟨hx, fun _ hσ => absurd hσ (Finset.notMem_empty _)⟩, fun hx => hx.1⟩
  card := rfl
  used := rfl
  zeroed := fun _ hσ => absurd hσ (Finset.notMem_empty _)
  blocks := fun _ _ _ => rfl
  count := by simp
  refs := rfl
  log := Logs.of_eq rfl

/-- one block more -/
theorem give (h : Freed s s' n i i' S) (hs : Core s n ∅) (hn : s.alloc n) (ht : Gave s' s'' n p)
    (hσ : s.tree n σ = p) :
    Freed s s'' n i { i' with dinode := { i'.dinode with blockCount := i'.dinode.blockCount - 1 }, dirty := true }
      (insert σ S) := by
  obtain ⟨hp, hout⟩ := (h.busy p).1 ht.owned
  have hp146 := hp.1
  have hnot : σ ∉ S := fun hc => hout σ hc hσ
  have hσ0 : s.tree n σ ≠ 0 := by omega
  have hcard := Finset.card_insert_of_notMem hnot
  refine ⟨h.frame.trans ht.frame, ht.disk h.disk, h.old, ?_, fun m hm => ?_, fun τ hτ => ?_, fun x => ?_, ?_, ?_,
    fun τ hτ => ?_, fun x hx hτ => ?_, ?_, h.refs, ?_⟩
  · rw [ht.find, if_pos rfl, h.new]
    rfl
  · rw [ht.find, if_neg hm, h.others m hm]
  · rcases Finset.mem_insert.1 hτ with rfl | hτ
    · exact hσ0
    · exact h.slots τ hτ
  · rw [ht.busy, h.busy]
    simp only [Finset.mem_insert, forall_eq_or_imp, hσ]
    constructor
    · rintro ⟨⟨h1, h2⟩, h3⟩
      exact ⟨h1, fun hc => h3 hc.symm, h2⟩
    · rintro ⟨h1, h3, h2⟩
      exact ⟨⟨h1, h2⟩, fun hc => h3 hc.symm⟩
  · have h1 := ht.card
    have h2 := h.card
    omega
  · have h1 := ht.used
    have h2 := h.used
    omega
  · rcases Finset.mem_insert.1 hτ with rfl | hτ
    · rw [hσ]
      exact ht.zeroed
    · have hne : s.tree n τ ≠ p := fun hc => hnot (hs.acc.treeInj hn τ σ (h.slots τ hτ) (hc.trans hσ.symm) ▸ hτ)
      have h146 := hs.acc.pos_of_tree hn (h.slots τ hτ)
      rw [ht.blocks _ (by omega) hne]
      exact h.zeroed τ hτ
  · have hxp : x ≠ p := fun hc => hτ σ (Finset.mem_insert_self σ S) (hσ.trans hc.symm)
    rw [ht.blocks x hx hxp]
    exact h.blocks x hx fun τ hmem => hτ τ (Finset.mem_insert_of_mem hmem)
  · have h1 := h.count
    rw [hcard]
    push_cast
    omega
  · have hown : Own s n p := by
      rw [← hσ]
      exact hs.own hn hσ0
    refine h.log.trans (ht.log.mono fun x hx => ?_)
    rcases hx with hx | rfl
    · exact Or.inl hx
    · exact hown

/-- a change of the dinode -/
theorem set (h : Freed s s' n i i' S) {f : Dinode → Dinode} (hf : (f i'.dinode).blockCount = i'.dinode.blockCount) :
    Freed s (s'.setDinode n f) n i { i' with dinode := f i'.dinode } S where
  frame := h.frame.trans (Frame.setDinode f)
  disk := h.disk.modify _
  old := h.old
  new := by rw [find_setDinode, if_pos rfl, h.new]; rfl
  others := fun m hm => by rw [find_setDinode, if_neg hm, h.others m hm]
  slots := h.slots
  busy := h.busy
  card := h.card
  used := h.used
  zeroed := h.zeroed
  blocks := h.blocks
  count := by
    simp only [hf]
    exact h.count
  refs := h.refs
  log := h.log

theorem dirty (h : Freed s s' n i i' S) : Freed s (s'.setDirty n) n i { i' with dirty := true } S where
  frame := h.frame.trans Frame.setDirty
  disk := h.disk.modify _
  old := h.old
  new := by rw [find_setDirty, if_pos rfl, h.new]; rfl
  others := fun m hm => by rw [find_setDirty, if_neg hm, h.others m hm]
  slots := h.slots
  busy := h.busy
  card := h.card
  used := h.used
  zeroed := h.zeroed
  blocks := h.blocks
  count := h.count
  refs := h.refs
  log := h.log

/-- a block whose slot is not in `S` is as it was -/
theorem kept (h : Freed s s' n i i' S) (hs : Core s n ∅) (hn : s.alloc n) (hσ : s.tree n σ ≠ 0) (hnot : σ ∉ S) :
    s'.dev.blocks (s.tree n σ) = s.dev.blocks (s.tree n σ) := by
  have h146 := hs.acc.pos_of_tree hn hσ
  refine h.blocks _ (by omega) fun τ hτ hc => hnot ?_
  rwa [← hs.acc.treeInj hn τ σ (h.slots τ hτ) hc]

/-- a block of another inode is as it was -/
theorem kept_other (h : Freed s s' n i i' S) (hs : Core s n ∅) (hn : s.alloc n) (hm : s.alloc m) (hmn : m ≠ n)
    (hσ : s.tree m σ ≠ 0) : s'.dev.blocks (s.tree m σ) = s.dev.blocks (s.tree m σ) := by
  have h146 := hs.acc.pos_of_tree hm hσ
  exact h.blocks _ (by omega) fun τ hτ hc => hmn (hs.acc.inj hn hm (h.slots τ hτ) hc).1.symm

/-- `testfs_free_block_from_inode` on what a slot holds -/
theorem step (h : Freed s s' n i i' S) (hs : Core s n ∅) (hn : s.alloc n)
    (hr : freeBlockFromInode s' n (s.tree n σ) = .ok s'') :
    ∃ i'' S', Freed s s'' n i i'' S' ∧ SamePtrs i'.dinode i''.dinode ∧ i''.dinode.iType = i'.dinode.iType ∧
      ∀ τ ∈ S', τ ∈ S ∨ τ = σ := by
  rcases freeBlockFromInode_cases (h.frame.geo hs.geo) hr with ⟨-, rfl⟩ | ⟨-, ht⟩
  · exact ⟨i', S, h, ⟨rfl, rfl, rfl⟩, rfl, fun τ hτ => Or.inl hτ⟩
  · refine ⟨_, _, h.give hs hn ht rfl, ⟨rfl, rfl, rfl⟩, rfl, fun τ hτ => ?_⟩
    rcases Finset.mem_insert.1 hτ with hτ | hτ
    · exact Or.inr hτ
    · exact Or.inl hτ

end Freed

/-! ## The loops -/

/-- the entries of a pointer block -/
theorem freeEntries_spec {block : Lib.Mem} {e : ℤ} {f : Fin 2048 → Slot} (h : Freed s s' n i i' S) (hs : Core s n ∅)
    (hn : s.alloc n) (hblock : ∀ k : Fin 2048, s32At block (4 * k) = s.tree n (f k))
    (hr : freeEntries s' n block e = .ok s'') :
    ∃ i'' S', Freed s s'' n i i'' S' ∧ SamePtrs i'.dinode i''.dinode ∧ i''.dinode.iType = i'.dinode.iType ∧
      ∀ τ ∈ S', τ ∈ S ∨ ∃ k, τ = f k := by
  have hlist : ∀ l : List ℕ, (∀ k ∈ l, k < 2048) → ∀ {s' i' S}, Freed s s' n i i' S →
      l.foldlM (fun t k => freeBlockFromInode t n (s32At block (4 * k))) s' = .ok s'' →
      ∃ i'' S', Freed s s'' n i i'' S' ∧ SamePtrs i'.dinode i''.dinode ∧ i''.dinode.iType = i'.dinode.iType ∧
        ∀ τ ∈ S', τ ∈ S ∨ ∃ k, τ = f k := by
    intro l
    induction l with
    | nil =>
      intro _ s' i' S h hr
      cases hr
      exact ⟨i', S, h, ⟨rfl, rfl, rfl⟩, rfl, fun τ hτ => Or.inl hτ⟩
    | cons k l ih =>
      intro hl s' i' S h hr
      rw [List.foldlM_cons, bind_eq_ok] at hr
      obtain ⟨t, hstep, hr⟩ := hr
      have hk : k < 2048 := hl k List.mem_cons_self
      rw [hblock ⟨k, hk⟩] at hstep
      obtain ⟨i1, S1, h1, hp1, ht1, hS1⟩ := h.step hs hn hstep
      obtain ⟨i2, S2, h2, hp2, ht2, hS2⟩ := ih (fun j hj => hl j (List.mem_cons_of_mem k hj)) h1 hr
      refine ⟨i2, S2, h2, ⟨hp2.1.trans hp1.1, hp2.2.1.trans hp1.2.1, hp2.2.2.trans hp1.2.2⟩,
        ht2.trans ht1, fun τ hτ => ?_⟩
      rcases hS2 τ hτ with hτ | hτ
      · rcases hS1 τ hτ with hτ | hτ
        · exact Or.inl hτ
        · exact Or.inr ⟨_, hτ⟩
      · exact Or.inr hτ
  refine hlist _ (fun k hk => ?_) h hr
  have hlt := List.mem_range.1 hk
  omega

/-- the loop over the direct blocks -/
theorem freeDirect_spec {e : ℤ} (l : List (Fin 10)) (hl : l.Nodup) (h : Freed s s' n i i' S) (hs : Core s n ∅)
    (hn : s.alloc n) (hsame : ∀ k ∈ l, i'.dinode.iBlockNr k = i.dinode.iBlockNr k)
    (hr : l.foldlM (freeDirect n e) s' = .ok s'') :
    ∃ i'' S', Freed s s'' n i i'' S' ∧ i''.dinode.iIndirect = i'.dinode.iIndirect ∧
      i''.dinode.iDindirect = i'.dinode.iDindirect ∧ i''.dinode.iType = i'.dinode.iType ∧
      ∀ τ ∈ S', τ ∈ S ∨ ∃ k, τ = .direct k := by
  induction l generalizing s' i' S with
  | nil =>
    cases hr
    exact ⟨i', S, h, rfl, rfl, rfl, fun τ hτ => Or.inl hτ⟩
  | cons k l ih =>
    rw [List.nodup_cons] at hl
    rw [List.foldlM_cons, bind_eq_ok] at hr
    obtain ⟨t, hstep, hr⟩ := hr
    have hrest : ∀ j ∈ l, i'.dinode.iBlockNr j = i.dinode.iBlockNr j := fun j hj => hsame j (List.mem_cons_of_mem k hj)
    unfold freeDirect at hstep
    split_ifs at hstep with hk
    swap
    · cases hstep
      exact ih hl.2 h hrest hr
    rw [deref_eq_ok.2 h.new, ok_bind] at hstep
    split_ifs at hstep with h0
    · cases hstep
      exact ih hl.2 h hrest hr
    rw [bind_eq_ok] at hstep
    obtain ⟨t1, hfree, hstep⟩ := hstep
    cases hstep
    have hval : i'.dinode.iBlockNr k = s.tree n (.direct k) := by
      rw [hsame k List.mem_cons_self, tree_of_find h.old]
      rfl
    rw [hval] at hfree
    obtain ⟨i1, S1, h1, hp1, ht1, hS1⟩ := h.step hs hn hfree
    have h2 := h1.set (f := fun d => { d with iBlockNr := update d.iBlockNr k 0 }) rfl
    have hsame2 : ∀ j ∈ l, update i1.dinode.iBlockNr k 0 j = i.dinode.iBlockNr j := by
      intro j hj
      have hne : j ≠ k := fun hc => hl.1 (hc ▸ hj)
      rw [update_of_ne hne, hp1.1]
      exact hrest j hj
    obtain ⟨i3, S3, h3, hi3, hd3, ht3, hS3⟩ := ih hl.2 h2 hsame2 hr
    refine ⟨i3, S3, h3, hi3.trans hp1.2.1, hd3.trans hp1.2.2, ht3.trans ht1, fun τ hτ => ?_⟩
    rcases hS3 τ hτ with hτ | hτ
    · rcases hS1 τ hτ with hτ | hτ
      · exact Or.inl hτ
      · exact Or.inr ⟨k, hτ⟩
    · exact Or.inr hτ

theorem freeIndirect_spec {e : ℤ} (h : Freed s s' n i i' S) (hs : Core s n ∅) (hn : s.alloc n)
    (hsame : i'.dinode.iIndirect = i.dinode.iIndirect) (hS : .ind ∉ S) (hr : freeIndirect s' n e = .ok s'') :
    ∃ i'' S', Freed s s'' n i i'' S' ∧ i''.dinode.iDindirect = i'.dinode.iDindirect ∧
      i''.dinode.iType = i'.dinode.iType ∧ ∀ τ ∈ S', τ ∈ S ∨ τ = .ind ∨ ∃ k, τ = .indE k := by
  have htree : s.tree n .ind = i.dinode.iIndirect := by rw [tree_of_find h.old]; rfl
  unfold freeIndirect at hr
  rw [deref_eq_ok.2 h.new, ok_bind] at hr
  split_ifs at hr with hpos he
  swap
  · cases hr
    exact ⟨i', S, h, rfl, rfl, fun τ hτ => Or.inl hτ⟩
  rw [bind_eq_ok] at hr
  obtain ⟨block, hread, hr⟩ := hr
  rw [bind_eq_ok] at hr
  obtain ⟨t1, hentries, hr⟩ := hr
  rw [bind_eq_ok] at hr
  obtain ⟨t2, hfree, hr⟩ := hr
  cases hr
  rw [hsame] at hpos hread hfree
  have hblock : ∀ k : Fin 2048, s32At block (4 * k) = s.tree n (.indE k) := by
    intro k
    have hkept := h.kept hs hn (σ := .ind) (by rw [htree]; omega) hS
    rw [htree] at hkept
    rw [← (readBlocks_eq_ok.1 hread).2, hkept, tree_of_find h.old]
    exact (entryOf_of_ne (by omega) _).symm
  obtain ⟨i1, S1, h1, hp1, ht1, hS1⟩ := freeEntries_spec h hs hn hblock hentries
  rw [← htree] at hfree
  obtain ⟨i2, S2, h2, hp2, ht2, hS2⟩ := h1.step hs hn hfree
  refine ⟨_, S2, h2.set (f := fun d => { d with iIndirect := 0 }) rfl, hp2.2.2.trans hp1.2.2,
    ht2.trans ht1, fun τ hτ => ?_⟩
  rcases hS2 τ hτ with hτ | hτ
  · rcases hS1 τ hτ with hτ | hτ
    · exact Or.inl hτ
    · exact Or.inr (Or.inr hτ)
  · exact Or.inr (Or.inl hτ)

/-- the loop over the second-level blocks -/
theorem freeSecond_spec {block : Lib.Mem} {e : ℤ} (l : List ℕ) (hl : l.Nodup) (hlt : ∀ k ∈ l, k < 2048)
    (h : Freed s s' n i i' S) (hs : Core s n ∅) (hn : s.alloc n)
    (hblock : ∀ k : Fin 2048, s32At block (4 * k) = s.tree n (.dindE k))
    (hS : ∀ k : Fin 2048, (k : ℕ) ∈ l → .dindE k ∉ S) (hr : l.foldlM (freeSecond n block e) s' = .ok s'') :
    ∃ i'' S', Freed s s'' n i i'' S' ∧ i''.dinode.iDindirect = i'.dinode.iDindirect ∧
      i''.dinode.iType = i'.dinode.iType := by
  induction l generalizing s' i' S with
  | nil =>
    cases hr
    exact ⟨i', S, h, rfl, rfl⟩
  | cons k l ih =>
    rw [List.nodup_cons] at hl
    rw [List.foldlM_cons, bind_eq_ok] at hr
    obtain ⟨t, hstep, hr⟩ := hr
    have hk : k < 2048 := hlt k List.mem_cons_self
    have hlt' : ∀ j ∈ l, j < 2048 := fun j hj => hlt j (List.mem_cons_of_mem k hj)
    have hentry := hblock ⟨k, hk⟩
    simp only at hentry
    unfold freeSecond at hstep
    rw [hentry] at hstep
    split_ifs at hstep with h0
    · cases hstep
      exact ih hl.2 hlt' h (fun j hj => hS j (List.mem_cons_of_mem k hj)) hr
    rw [bind_eq_ok] at hstep
    obtain ⟨indirectBlock, hread, hstep⟩ := hstep
    rw [bind_eq_ok] at hstep
    obtain ⟨t1, hentries, hfree⟩ := hstep
    have hleaf : ∀ j : Fin 2048, s32At indirectBlock (4 * j) = s.tree n (.leaf ⟨k, hk⟩ j) := by
      intro j
      rw [← (readBlocks_eq_ok.1 hread).2, h.kept hs hn h0 (hS ⟨k, hk⟩ List.mem_cons_self)]
      exact (@entryOf_of_ne s.dev.blocks _ h0 j).symm
    obtain ⟨i1, S1, h1, hp1, ht1, hS1⟩ := freeEntries_spec h hs hn hleaf hentries
    obtain ⟨i2, S2, h2, hp2, ht2, hS2⟩ := h1.step hs hn hfree
    have hrest : ∀ j : Fin 2048, (j : ℕ) ∈ l → .dindE j ∉ S2 := by
      intro j hj hmem
      rcases hS2 _ hmem with hmem | heq
      · rcases hS1 _ hmem with hmem | ⟨_, hc⟩
        · exact hS j (List.mem_cons_of_mem k hj) hmem
        · cases hc
      · simp only [Slot.dindE.injEq] at heq
        rw [heq] at hj
        exact hl.1 hj
    obtain ⟨i3, S3, h3, hd3, ht3⟩ := ih hl.2 hlt' h2 hrest hr
    exact ⟨i3, S3, h3, hd3.trans (hp2.2.2.trans hp1.2.2), ht3.trans (ht2.trans ht1)⟩

theorem freeEntries_geo {block : Lib.Mem} {e : ℤ} (hg : Geo s) : Post (freeEntries s n block e) Geo := by
  unfold freeEntries
  refine Post.foldlM _ s hg fun t k ht => ?_
  intro u hu
  rcases freeBlockFromInode_cases ht hu with ⟨-, rfl⟩ | ⟨-, hgave⟩
  · exact ht
  · exact hgave.frame.geo ht

/-- block 0 in the place of a double indirect block: its first entry is block 1, which is no data block -/
theorem freeDindirect_zero {e : ℤ} (hg : Geo s) (hd : Disk s) (hi : s.find n = some i) (h0 : i.dinode.iDindirect = 0)
    (he : 0 < e) : freeDindirect s n e ≠ .ok s' := by
  intro hr
  unfold freeDindirect at hr
  rw [if_pos he, deref_eq_ok.2 hi, ok_bind, h0, bind_eq_ok] at hr
  obtain ⟨block, hread, hr⟩ := hr
  have hfirst : s32At block (4 * 0) = 1 := by
    rw [← (readBlocks_eq_ok.1 hread).2, hd.super]
    have hcut : s32At s.sb.encode (4 * 0) = s32At (put32s zeroMem 0 s.sb.word 6) (4 * 0) :=
      s32At_congr fun j _ hj => putLE_of_lt (by omega)
    rw [hcut]
    have hw : s.sb.word 0 = 1 := by
      show (s.sb.inodeFreemapStart : ℤ) = 1
      rw [hg.inodeFreemapStart]
      rfl
    have h1 := s32At_put32s (m := zeroMem) (o := 0) (f := s.sb.word) (k := 6) (i := 0)
      (by rw [hw]; constructor <;> norm_num) (by omega)
    rw [hw] at h1
    exact h1
  rw [bind_eq_ok] at hr
  obtain ⟨t, hloop, -⟩ := hr
  rw [show (2048 : ℕ) = 2047 + 1 from rfl, List.range_succ_eq_map, List.foldlM_cons, bind_eq_ok] at hloop
  obtain ⟨t1, hsecond, -⟩ := hloop
  unfold freeSecond at hsecond
  rw [hfirst, if_neg one_ne_zero, bind_eq_ok] at hsecond
  obtain ⟨ib, -, hsecond⟩ := hsecond
  rw [bind_eq_ok] at hsecond
  obtain ⟨t2, hentries, hfree⟩ := hsecond
  rcases freeBlockFromInode_cases (freeEntries_geo hg t2 hentries) hfree with ⟨hc, -⟩ | ⟨-, hgave⟩
  · exact absurd hc one_ne_zero
  · have := hgave.owned.1
    omega

theorem freeDindirect_spec {e : ℤ} (h : Freed s s' n i i' S) (hs : Core s n ∅) (hn : s.alloc n)
    (hsame : i'.dinode.iDindirect = i.dinode.iDindirect) (hS : .dind ∉ S) (hS' : ∀ k, .dindE k ∉ S)
    (hr : freeDindirect s' n e = .ok s'') :
    ∃ i'' S', Freed s s'' n i i'' S' ∧ i''.dinode.iType = i'.dinode.iType := by
  have htree : s.tree n .dind = i.dinode.iDindirect := by rw [tree_of_find h.old]; rfl
  by_cases he : 0 < e
  swap
  · unfold freeDindirect at hr
    rw [if_neg he] at hr
    cases hr
    exact ⟨i', S, h, rfl⟩
  have h0 : i.dinode.iDindirect ≠ 0 := fun hc =>
    freeDindirect_zero (h.frame.geo hs.geo) h.disk h.new (hsame.trans hc) he hr
  unfold freeDindirect at hr
  rw [if_pos he, deref_eq_ok.2 h.new, ok_bind, hsame, bind_eq_ok] at hr
  obtain ⟨block, hread, hr⟩ := hr
  rw [bind_eq_ok] at hr
  obtain ⟨t1, hloop, hr⟩ := hr
  rw [bind_eq_ok] at hr
  obtain ⟨t2, hfree, hr⟩ := hr
  cases hr
  have hblock : ∀ k : Fin 2048, s32At block (4 * k) = s.tree n (.dindE k) := by
    intro k
    have hkept := h.kept hs hn (σ := .dind) (by rw [htree]; exact h0) hS
    rw [htree] at hkept
    rw [← (readBlocks_eq_ok.1 hread).2, hkept, tree_of_find h.old]
    exact (entryOf_of_ne h0 _).symm
  obtain ⟨i1, S1, h1, -, ht1⟩ := freeSecond_spec _ List.nodup_range (fun k hk => List.mem_range.1 hk) h hs hn hblock
    (fun k _ => hS' k) hloop
  rw [← htree] at hfree
  obtain ⟨i2, S2, h2, -, ht2, -⟩ := h1.step hs hn hfree
  exact ⟨_, S2, h2.set (f := fun d => { d with iDindirect := 0 }) rfl, ht2.trans ht1⟩

/-- **`testfs_free_blocks`.** -/
theorem freeBlocks_spec (hs : Core s n ∅) (hn : s.alloc n) (hi : s.find n = some i) (hr : freeBlocks s n = .ok s') :
    ∃ i' S, Freed s s' n i i' S ∧ i'.dirty = true := by
  unfold freeBlocks at hr
  rw [deref_eq_ok.2 hi, ok_bind, bind_eq_ok] at hr
  obtain ⟨s1, hdirect, hr⟩ := hr
  rw [bind_eq_ok] at hr
  obtain ⟨s2, hindirect, hr⟩ := hr
  rw [bind_eq_ok] at hr
  obtain ⟨s3, hdindirect, hr⟩ := hr
  cases hr
  obtain ⟨i1, S1, h1, hi1, hd1, ht1, hS1⟩ := freeDirect_spec _ (List.nodup_finRange 10) (Freed.refl hs hi) hs hn
    (fun _ _ => rfl) hdirect
  have hS1' : ∀ τ ∈ S1, ∃ k, τ = .direct k := fun τ hτ => by
    rcases hS1 τ hτ with hc | hτ
    · exact absurd hc (Finset.notMem_empty τ)
    · exact hτ
  obtain ⟨i2, S2, h2, hd2, ht2, hS2⟩ := freeIndirect_spec h1 hs hn hi1 (fun hc => by
    obtain ⟨k, hk⟩ := hS1' _ hc
    cases hk) hindirect
  have hS2' : ∀ τ ∈ S2, (∃ k, τ = .direct k) ∨ τ = .ind ∨ ∃ k, τ = .indE k := fun τ hτ => by
    rcases hS2 τ hτ with hτ | hτ
    · exact Or.inl (hS1' τ hτ)
    · exact Or.inr hτ
  obtain ⟨i3, S3, h3, ht3⟩ := freeDindirect_spec h2 hs hn (hd2.trans hd1)
    (fun hc => by
      rcases hS2' _ hc with ⟨k, hk⟩ | hk | ⟨k, hk⟩ <;> cases hk)
    (fun j hc => by
      rcases hS2' _ hc with ⟨k, hk⟩ | hk | ⟨k, hk⟩ <;> cases hk) hdindirect
  exact ⟨_, S3, (h3.set (f := fun d => { d with iSize := 0 }) rfl).dirty, rfl⟩

/-! ## `testfs_remove_inode` -/

/-- inode `n` is no more; the other files are the same -/
structure Gone (s s' : State) (n : ℤ) : Prop where
  sound : Sound s'
  alloc : ∀ m, s'.alloc m ↔ s.alloc m ∧ m ≠ n
  still : ∀ m, s.alloc m → m ≠ n → Still s s' m
  curDir : s'.curDir = s.curDir
  stack : s'.stack = s.stack
  dirFails : s'.dirFails = s.dirFails
  nblocks : s.dev.nblocks ≤ s'.dev.nblocks
  used : s'.sb.usedBlockCount + (s.dinode n).blockCount = s.sb.usedBlockCount
  max : s'.sb.maxFsBlocks = s.sb.maxFsBlocks
  others : ∀ m, m ≠ n → s'.find m = s.find m
  disk : ∀ m, 0 ≤ m → m < 16384 → m ≠ n → s'.diskDinode m = s.diskDinode m
  self : ∀ i, s'.find n = some i → i.dirty = false ∧ i.dinode = s'.diskDinode n

theorem Gone.settles (h : Gone s s' n) (X : Set ℤ) : Settles (insert n X) X s s' := by
  intro P hP hs m i hi hm
  by_cases hmn : m = n
  · rw [hmn] at hi ⊢
    obtain ⟨hclean, hd⟩ := h.self i hi
    rw [hd]
    exact ⟨hclean, hP _⟩
  · obtain ⟨h0, h1⟩ := h.sound.core.mem.range m i hi
    rw [h.others m hmn] at hi
    rw [h.disk m h0 h1 hmn]
    exact hs m i hi fun hc => hm (Set.mem_of_mem_insert_of_ne hc hmn)

theorem Gone.dinode (h : Gone s s' n) (h0 : 0 ≤ m) (h1 : m < 16384) (hm : m ≠ n) : s'.dinode m = s.dinode m := by
  unfold State.dinode
  rw [h.others m hm, h.disk m h0 h1 hm]

theorem Gone.carries (h : Gone s s' n) (hm : s.alloc m) (hmn : m ≠ n) : Carries s s' m := by
  obtain ⟨h0, h1⟩ := mem_range h.sound.core.mem ((h.alloc m).2 ⟨hm, hmn⟩)
  exact ⟨Or.inl (h.dinode h0 h1 hmn), Or.inr (h.disk m h0 h1 hmn)⟩

/-- no block was forgotten -/
theorem Freed.all (h : Freed s s' n i i' S) (hs : Core s n ∅) (hn : s.alloc n) (h0 : i'.dinode.blockCount = 0)
    (hσ : s.tree n σ ≠ 0) : σ ∈ S := by
  have hcount := hs.acc.count_self hn
  rw [dinode_of_find h.old, Finset.card_empty] at hcount
  have hS := h.count
  rw [h0, zero_add] at hS
  have hinj : ∀ τ ∈ S, ∀ ρ ∈ S, s.tree n τ = s.tree n ρ → τ = ρ := fun τ hτ ρ _ heq =>
    hs.acc.treeInj hn τ ρ (h.slots τ hτ) heq
  have hmem : s.tree n σ ∈ S.toList.map (s.tree n) := by
    refine mem_of_length_eq_held ?_ ?_ ?_ hσ
    · refine List.Nodup.map_on ?_ S.nodup_toList
      intro τ hτ ρ hρ
      exact hinj τ (Finset.mem_toList.1 hτ) ρ (Finset.mem_toList.1 hρ)
    · intro b hb
      obtain ⟨τ, hτ, rfl⟩ := List.mem_map.1 hb
      exact ⟨h.slots τ (Finset.mem_toList.1 hτ), τ, rfl⟩
    · rw [List.length_map, Finset.length_toList]
      push_cast at hcount
      omega
  obtain ⟨τ, hτ, heq⟩ := List.mem_map.1 hmem
  have hτS := Finset.mem_toList.1 hτ
  rwa [← hs.acc.treeInj hn τ σ (h.slots τ hτS) heq]

theorem dinode_zero_fits : Dinode.zero.Fits := by
  refine ⟨fun k _ => ?_, by constructor <;> norm_num [Dinode.zero]⟩
  have hw : Dinode.zero.word k = 0 := by
    unfold Dinode.word Dinode.zero
    split <;> simp
  rw [hw]
  constructor <;> norm_num

/-- the blocks `S` of inode `n` were freed (`s'`), its number is given back (`s3`), and its dinode is cleared in memory
and on disk (`s4`) -/
structure Erased (s s' s3 s4 : State) (n : ℤ) (i i' : Inode) (S : Finset Slot) (bm : Bitmap) : Prop where
  freed : Freed s s' n i i' S
  sound : Sound s
  was : s.alloc n
  zero : i'.dinode = Dinode.zero
  unmark : s'.inodeFreemap.unmark n.toNat = .ok bm
  map : Remapped s' s3 bm
  after : s4 = (s3.storeDinode n Dinode.zero).modify n fun i => { i with dirty := false }

namespace Erased

variable {s3 s4 : State} {bm : Bitmap}

theorem core (h : Erased s s' s3 s4 n i i' S bm) : Core s n ∅ := h.sound.core.change n

theorem range (h : Erased s s' s3 s4 n i i' S bm) : 0 ≤ n ∧ n < 16384 := h.core.mem.range n i h.freed.old

/-- every block of the inode was freed -/
theorem all (h : Erased s s' s3 s4 n i i' S bm) (hσ : s.tree n σ ≠ 0) : σ ∈ S :=
  h.freed.all h.core h.was (by rw [h.zero]; rfl) hσ

theorem geo_freed (h : Erased s s' s3 s4 n i i' S bm) : Geo s' := h.freed.frame.geo h.core.geo

theorem geo_map (h : Erased s s' s3 s4 n i i' S bm) : Geo s3 :=
  h.map.geo h.geo_freed (Bitmap.unmark_eq_ok h.unmark).2.2.1

/-! What is where after the dinode was stored. -/

theorem sb (h : Erased s s' s3 s4 n i i' S bm) : s4.sb = s3.sb := by
  rw [h.after]
  rfl

theorem used (h : Erased s s' s3 s4 n i i' S bm) : s4.sb.usedBlockCount = s'.sb.usedBlockCount := by
  rw [h.sb, h.map.used]

theorem max (h : Erased s s' s3 s4 n i i' S bm) : s4.sb.maxFsBlocks = s.sb.maxFsBlocks := by
  rw [h.sb, h.map.max, h.freed.frame.max]

theorem blockFreemap (h : Erased s s' s3 s4 n i i' S bm) : s4.blockFreemap = s'.blockFreemap := by
  rw [← h.map.blockFreemap, h.after]
  rfl

theorem outside (h : Erased s s' s3 s4 n i i' S bm) {x : ℤ} (hx : x < 18 ∨ 146 ≤ x) :
    s4.dev.blocks x = s3.dev.blocks x := by
  have hrange := h.range
  rw [h.after]
  exact update_of_ne (by omega) ..

theorem data (h : Erased s s' s3 s4 n i i' S bm) {x : ℤ} (hx : 146 ≤ x) : s4.dev.blocks x = s'.dev.blocks x := by
  rw [h.outside (Or.inr hx), h.map.blocks x (by omega)]

theorem nblocks (h : Erased s s' s3 s4 n i i' S bm) : s4.dev.nblocks = s'.dev.nblocks := by
  have h146 := h.geo_map.nblocks
  have hrange := h.range
  rw [← h.map.nblocks, h.after]
  exact max_eq_left (by omega)

theorem busy (h : Erased s s' s3 s4 n i i' S bm) {x : ℤ} : s4.busy x ↔ s'.busy x := by
  rw [← h.map.busy, h.after]
  exact Iff.rfl

theorem alloc (h : Erased s s' s3 s4 n i i' S bm) : s4.alloc m ↔ s.alloc m ∧ m ≠ n := by
  have hiff := h.map.alloc_of_unmark h.range.1 h.unmark m
  rw [h.freed.frame.alloc] at hiff
  rw [← hiff, h.after]
  exact Iff.rfl

theorem diskDinode (h : Erased s s' s3 s4 n i i' S bm) (h0 : 0 ≤ m) (h1 : m < 16384) :
    s4.diskDinode m = if m = n then Dinode.zero else s.diskDinode m := by
  have hstored : s4.diskDinode m = if m = n then Dinode.zero else s3.diskDinode m := by
    rw [h.after]
    exact diskDinode_write dinode_zero_fits h.range.1 h0 rfl
  rw [hstored, h.map.diskDinode, h.freed.frame.diskDinode h1]

theorem find (h : Erased s s' s3 s4 n i i' S bm) (m : ℤ) :
    s4.find m = if m = n then some { i' with dirty := false } else s.find m := by
  have hstore : ∀ m, (s3.storeDinode n Dinode.zero).find m = s'.find m := fun m => h.map.find m
  rw [h.after, find_clean, hstore, hstore, h.freed.new]
  split_ifs with hmn
  · rfl
  · exact h.freed.others m hmn

theorem dinode (h : Erased s s' s3 s4 n i i' S bm) (hm : s.alloc m) (hmn : m ≠ n) : s4.dinode m = s.dinode m := by
  unfold State.dinode
  rw [h.find, if_neg hmn, h.diskDinode hm.1 (h.core.mem.allocRange m hm), if_neg hmn]

theorem still (h : Erased s s' s3 s4 n i i' S bm) (hm : s.alloc m) (hmn : m ≠ n) : Still s s4 m :=
  still_of_agree (by rw [h.dinode hm hmn]; exact agree_refl _) fun σ h0 => by
    rw [h.data (h.core.acc.pos_of_tree hm h0)]
    exact h.freed.kept_other h.core h.was hm hmn h0

/-! The invariant, part by part. -/

theorem mem (h : Erased s s' s3 s4 n i i' S bm) : Mem s4 := by
  have hmem := h.core.mem
  refine ⟨?_, fun m j hj => ?_, fun m j hj hc => ?_, fun m hm => ?_, fun m hm => ?_, fun m hm => ?_, fun m hm => ?_,
    fun m h0 h1 hm => ?_⟩
  · have hkeys : s4.hash.map Inode.iNr = s3.hash.map Inode.iNr := by
      rw [h.after, keys_clean]
      rfl
    rw [hkeys, h.map.hash, h.freed.frame.keys]
    exact hmem.nodup
  · rw [h.find] at hj
    split_ifs at hj with hmn
    · rw [hmn]
      exact h.range
    · exact hmem.range m j hj
  · rw [h.find] at hj
    split_ifs at hj with hmn
    · cases hj
      rw [h.diskDinode (hmn ▸ h.range.1) (hmn ▸ h.range.2), if_pos hmn, h.zero]
      exact agree_refl _
    · obtain ⟨h0, h1⟩ := hmem.range m j hj
      rw [h.diskDinode h0 h1, if_neg hmn]
      exact hmem.clean m j hj hc
  · exact hmem.allocRange m (h.alloc.1 hm).1
  · obtain ⟨hm, hmn⟩ := h.alloc.1 hm
    rw [h.dinode hm hmn]
    exact hmem.typed m hm
  · obtain ⟨hm, hmn⟩ := h.alloc.1 hm
    rw [h.dinode hm hmn]
    exact hmem.size m hm
  · obtain ⟨hm, hmn⟩ := h.alloc.1 hm
    rw [h.diskDinode hm.1 (hmem.allocRange m hm), if_neg hmn]
    exact hmem.diskSize m hm
  · rw [h.diskDinode h0 h1, h.find]
    split_ifs with hmn
    · refine ⟨rfl, fun j hj => ?_⟩
      cases hj
      exact h.zero
    · exact hmem.fresh m h0 h1 fun hc => hm (h.alloc.2 ⟨hc, hmn⟩)

/-- the pointers of `n` are gone, and the blocks they held -/
theorem exact (h : Erased s s' s3 s4 n i i' S bm) : Exact s4.ptr fun b => s4.busy b ∧ b ∉ (∅ : Finset ℤ) := by
  refine (h.core.acc.exact.clear fun k => k.1 = n).congr (fun k => ?_) fun x => ?_
  · obtain ⟨m, σ⟩ := k
    simp only [State.ptr]
    by_cases hmn : m = n
    · rw [if_pos hmn, if_neg fun hc => (h.alloc.1 hc).2 hmn]
    · rw [if_neg hmn]
      by_cases hm : s.alloc m
      · rw [if_pos hm, if_pos (h.alloc.2 ⟨hm, hmn⟩), (h.still hm hmn).tree]
      · rw [if_neg hm, if_neg fun hc => hm (h.alloc.1 hc).1]
  · rw [h.busy, h.freed.busy]
    constructor
    · rintro ⟨⟨h1, h2⟩, h3⟩
      refine ⟨⟨h1, h3⟩, fun k hk hc => ?_⟩
      obtain ⟨m, σ⟩ := k
      simp only at hk
      subst hk
      rw [State.ptr, if_pos h.was] at hc
      have hx146 := h1.1
      exact h2 σ (h.all (by simp only at hc; omega)) hc
    · rintro ⟨⟨h1, h3⟩, h2⟩
      refine ⟨⟨h1, fun σ _ hc => h2 (n, σ) rfl ?_⟩, h3⟩
      rw [State.ptr, if_pos h.was]
      exact hc

/-- a block that was freed is zeroed, and the others are as they were -/
theorem data_cases (h : Erased s s' s3 s4 n i i' S bm) {x : ℤ} (hx : 146 ≤ x) :
    s4.dev.blocks x = zeroMem ∨ ((∀ σ ∈ S, s.tree n σ ≠ x) ∧ s4.dev.blocks x = s.dev.blocks x) := by
  rw [h.data hx]
  by_cases hxS : ∃ σ ∈ S, s.tree n σ = x
  · obtain ⟨σ, hσ, rfl⟩ := hxS
    exact Or.inl (h.freed.zeroed σ hσ)
  · have hout : ∀ σ ∈ S, s.tree n σ ≠ x := fun σ hσ hc => hxS ⟨σ, hσ, hc⟩
    exact Or.inr ⟨hout, h.freed.blocks x (by omega) hout⟩

theorem acc (h : Erased s s' s3 s4 n i i' S bm) : Acc s4 0 ∅ := by
  have hacc := h.core.acc
  have hcard := h.freed.card
  have hused := h.freed.used
  refine ⟨h.exact, fun x hx => absurd hx (Finset.notMem_empty x), fun m hm => ?_, ?_, ?_,
    fun x hx hz => ?_, fun x hx => ?_⟩
  · obtain ⟨hm', hmn⟩ := h.alloc.1 hm
    rw [h.dinode hm' hmn, (h.still hm' hmn).tree, Finset.card_empty, Nat.cast_zero, ite_self, add_zero]
    exact hacc.count_of_ne hm' hmn
  · have hcount := hacc.used
    rw [h.used, h.blockFreemap]
    omega
  · have hlimit := hacc.limit
    rw [h.used, h.max]
    omega
  · rcases h.data_cases hx with hzero | ⟨hout, hsame⟩
    · exact hzero
    · rw [hsame]
      refine hacc.zero x hx (Or.inl fun hc => ?_)
      rcases hz with hz | hz
      · exact hz (h.busy.2 ((h.freed.busy x).2 ⟨hc, hout⟩))
      · exact absurd hz (Finset.notMem_empty x)
  · have hgrows := h.freed.frame.grows
    have h146 := h.core.geo.nblocks
    rw [h.nblocks] at hx
    rcases h.data_cases (x := x) (by omega) with hzero | ⟨-, hsame⟩
    · exact hzero
    · rw [hsame]
      exact hacc.eof x (by omega)

theorem geo (h : Erased s s' s3 s4 n i i' S bm) : Geo s4 := by
  have hgeo := h.geo_map
  refine ⟨by rw [h.sb]; exact hgeo.1, by rw [h.sb]; exact hgeo.2, by rw [h.sb]; exact hgeo.3,
    by rw [h.sb]; exact hgeo.4, by rw [h.sb]; exact hgeo.5, by rw [h.nblocks]; exact h.geo_freed.6, ?_, ?_⟩
  · rw [h.after]
    exact hgeo.7
  · rw [h.after]
    exact hgeo.8

theorem disk (h : Erased s s' s3 s4 n i i' S bm) : Disk s4 := by
  have hdisk := h.map.disk h.freed.disk
  refine ⟨?_, fun j hj => ?_, fun k hk j hj => ?_⟩
  · rw [h.outside (x := 0) (by omega), h.sb]
    exact hdisk.super
  · rw [h.outside (x := 1) (by omega), h.after]
    exact hdisk.inodes j hj
  · rw [h.outside (by omega), h.after]
    exact hdisk.blocks k hk j hj

theorem sound_after (h : Erased s s' s3 s4 n i i' S bm) : Sound s4 := by
  refine ⟨⟨h.geo, h.disk, h.mem, h.acc⟩, fun m σ hm hd _ h0 => ?_⟩
  obtain ⟨hm', hmn⟩ := h.alloc.1 hm
  rw [(h.still hm' hmn).tree] at h0 ⊢
  rw [h.nblocks]
  exact (h.sound.inside m σ hm' hd id h0).trans_le h.freed.frame.grows

theorem gone (h : Erased s s' s3 s4 n i i' S bm) : Gone s s4 n where
  sound := h.sound_after
  alloc := fun _ => h.alloc
  still := fun _ => h.still
  curDir := by rw [h.after]; exact h.map.curDir.trans h.freed.frame.curDir
  stack := by rw [h.after]; exact h.map.stack.trans h.freed.frame.stack
  dirFails := by rw [h.after]; exact h.map.dirFails.trans h.freed.frame.dirFails
  nblocks := by rw [h.nblocks]; exact h.freed.frame.grows
  used := by
    have hused := h.freed.used
    have hcount := h.freed.count
    rw [h.zero, show Dinode.zero.blockCount = 0 from rfl, zero_add] at hcount
    rw [dinode_of_find h.freed.old, ← hcount, h.used]
    exact_mod_cast hused
  max := h.max
  others := fun m hmn => by rw [h.find, if_neg hmn]
  disk := fun m h0 h1 hmn => by rw [h.diskDinode h0 h1, if_neg hmn]
  self := fun j hj => by
    rw [h.find, if_pos rfl] at hj
    cases hj
    rw [h.diskDinode h.range.1 h.range.2, if_pos rfl]
    exact ⟨rfl, h.zero⟩

end Erased

/-- **`testfs_remove_inode`.** -/
theorem removeInode_spec (hs : Sound s) (hn : s.alloc n) (hr : removeInode s n = .ok s') : Gone s s' n := by
  unfold removeInode at hr
  rw [bind_eq_ok] at hr
  obtain ⟨s1, hfree, hr⟩ := hr
  have hcore : Core s n ∅ := hs.core.change n
  obtain ⟨i, hi⟩ : ∃ i, s.find n = some i := by
    unfold freeBlocks at hfree
    rw [bind_eq_ok] at hfree
    obtain ⟨i, hi, -⟩ := hfree
    exact ⟨i, deref_eq_ok.1 hi⟩
  obtain ⟨i1, S, hfreed, -⟩ := freeBlocks_spec hcore hn hi hfree
  rw [deref_eq_ok.2 hfreed.new, ok_bind] at hr
  split_ifs at hr with h0
  have hzero : i1.dinode.blockCount = 0 := not_not.1 h0
  have hfreed2 := (hfreed.set (f := fun _ => Dinode.zero) hzero.symm).dirty
  rw [bind_eq_ok] at hr
  obtain ⟨s3, hput, hr⟩ := hr
  rw [bind_eq_ok] at hr
  obtain ⟨s4, hsync, hr⟩ := hr
  obtain ⟨bm, hu, -, hmap⟩ := putInodeFreemap_cases (hfreed2.frame.geo hcore.geo) hput
  obtain ⟨h0n, h1n⟩ := hcore.mem.range n i hi
  have hgeo3 := hmap.geo (hfreed2.frame.geo hcore.geo) (Bitmap.unmark_eq_ok hu).2.2.1
  have h4 : s4 = (s3.storeDinode n Dinode.zero).modify n fun i => { i with dirty := false } := by
    unfold syncInode at hsync
    rw [deref_eq_ok.2 ((hmap.find n).trans hfreed2.new), ok_bind] at hsync
    simp only [if_true, readInodeBlock_ok hgeo3 h0n h1n, ok_bind, writeInodeBlock_eq hgeo3 h0n h1n] at hsync
    cases hsync
    rfl
  have herased : Erased s _ s3 s4 n i _ S bm := ⟨hfreed2, hs, hn, rfl, hu, hmap, h4⟩
  have hgone := herased.gone
  have hsame := putInode_same hgone.sound hr
  refine ⟨hsame.sound, fun m => (hsame.alloc m).trans (hgone.alloc m), fun m hm hmn => ?_,
    hsame.curDir.trans hgone.curDir,
    hsame.stack.trans hgone.stack, hsame.dirFails.trans hgone.dirFails, ?_, ?_, hsame.max.trans hgone.max,
    fun m hmn => (putInode_others hgone.sound.core.mem hr hmn).trans (hgone.others m hmn), fun m hm0 hm1 hmn => ?_,
    fun j hj => ?_⟩
  · exact (hgone.still m hm hmn).trans (hsame.still m ((hgone.alloc m).2 ⟨hm, hmn⟩))
  · rw [hsame.nblocks]
    exact hgone.nblocks
  · rw [hsame.used]
    exact hgone.used
  · rw [State.diskDinode, putInode_dev hr]
    exact hgone.disk m hm0 hm1 hmn
  · have hsettled : Settled Eq {m | m ≠ n} s4 := by
      intro m k hk hm
      obtain rfl : m = n := not_not.1 hm
      exact hgone.self k hk
    exact hsame.settles _ Eq (fun _ => rfl) hsettled n j hj fun hc => hc rfl

end OsLab.Testfs
