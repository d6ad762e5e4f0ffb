/-
`testfs_read_block` and `testfs_allocate_block` on the block tree.

`readBlock` follows the tree (`readBlock_spec`). `allocateBlock` gives a logical block a physical one: on success the
slots on the way to the block are filled and nothing else changes (`Placed`), for lack of space it undoes what it did,
except that a fresh double indirect block stays when there is no block for its entry (`Failed`). The uninitialised
`indirect_allocated` matters only where space has run out: there it is assumed to read as 0.
-/
import Mathlib.Tactic
import OsLab.Testfs.Core

namespace OsLab.Testfs

open OsLab.Lib Function State

variable {s s' s'' : State} {n m b r : ℤ} {F : Finset ℤ} {i i' i'' : Inode} {σ τ : Slot}

/-! ## Reading -/

theorem readBlocks_eq_ok {blk : Lib.Mem} :
    readBlocks s b = .ok blk ↔ (0 ≤ b ∧ b < s.dev.nblocks) ∧ s.dev.blocks b = blk := by
  unfold readBlocks
  split_ifs with h
  · simp [h]
  · simp [h]

theorem slotOf_direct {k : ℕ} (h : k < 10) : slotOf k = .direct ⟨k, h⟩ := by simp [slotOf, h]

theorem slotOf_indE {k : ℕ} (h : ¬k < 10) (h' : k - 10 < 2048) : slotOf k = .indE ⟨k - 10, h'⟩ := by
  unfold slotOf
  rw [dif_neg h, dif_pos h']

/-- the position of a block behind the single indirect ones -/
theorem slotOf_leaf {k : ℕ} (h : ¬k < 10) (h' : ¬k - 10 < 2048) (hk : k < maxBlockNr) :
    ∃ a c : Fin 2048, (a : ℕ) = (k - 2058) / 2048 ∧ (c : ℕ) = (k - 2058) % 2048 ∧ slotOf k = .leaf a c := by
  rw [maxBlockNr_eq] at hk
  refine ⟨Fin.ofNat 2048 ((k - 2058) / 2048), Fin.ofNat 2048 ((k - 2058) % 2048), ?_, ?_, ?_⟩
  · simp only [Fin.ofNat]
    omega
  · simp only [Fin.ofNat]
    omega
  · unfold slotOf
    rw [dif_neg h, dif_neg h']

/-- the physical block is what the slot of the logical block holds -/
theorem physBlock_spec {d : Dinode} {k : ℕ} {p : ℤ} (hk : k < maxBlockNr) (hpos : ∀ σ, 0 ≤ tree s.dev.blocks d σ)
    (h : physBlock s d k = .ok p) : p = tree s.dev.blocks d (slotOf k) := by
  unfold physBlock at h
  split_ifs at h with h1 h2 h3 h4
  · cases h
    rw [slotOf_direct h1]
    rfl
  · obtain ⟨blk, hblk, h⟩ := bind_eq_ok.1 h
    cases h
    rw [slotOf_indE h1 h2, ← (readBlocks_eq_ok.1 hblk).2]
    exact (entryOf_of_ne (by omega) _).symm
  · cases h
    have h0 : d.iIndirect = 0 := by
      have := hpos .ind
      simp only [tree] at this
      omega
    rw [slotOf_indE h1 h2]
    simp [tree, h0, entryOf_zero]
  · obtain ⟨a, c, ha, hc, hslot⟩ := slotOf_leaf h1 h2 hk
    obtain ⟨blk, hblk, h⟩ := bind_eq_ok.1 h
    have hentry : tree s.dev.blocks d (.dindE a) = s32At blk (4 * ((k - (10 + 2048)) / 2048)) := by
      rw [tree, entryOf_of_ne (by omega), (readBlocks_eq_ok.1 hblk).2, ha]
    rw [hslot, tree, show entryOf s.dev.blocks d.iDindirect a = tree s.dev.blocks d (.dindE a) from rfl, hentry]
    dsimp only at h
    split_ifs at h with h5
    · obtain ⟨blk', hblk', h⟩ := bind_eq_ok.1 h
      cases h
      rw [entryOf_of_ne (by omega), (readBlocks_eq_ok.1 hblk').2, hc]
    · cases h
      have := hpos (.dindE a)
      rw [hentry] at this
      rw [show s32At blk (4 * ((k - (10 + 2048)) / 2048)) = 0 by omega, entryOf_zero]
  · obtain ⟨a, c, ha, hc, hslot⟩ := slotOf_leaf h1 h2 hk
    cases h
    have h0 : d.iDindirect = 0 := by
      have := hpos .dind
      simp only [tree] at this
      omega
    rw [hslot]
    simp [tree, h0, entryOf_zero]

theorem readBlock_spec {d : Dinode} {logNr : ℤ} {blk : Lib.Mem} (hpos : ∀ σ, 0 ≤ tree s.dev.blocks d σ)
    (h : readBlock s d logNr = .ok (r, blk)) :
    0 ≤ logNr ∧ ((maxBlockNr ≤ logNr ∧ r = -EFBIG) ∨
      (logNr < maxBlockNr ∧ r = tree s.dev.blocks d (slotOf logNr.toNat) ∧ blk = blockAt s.dev.blocks r)) := by
  unfold readBlock at h
  split_ifs at h with h1 h2
  · cases h
    exact ⟨by omega, Or.inl ⟨h2, rfl⟩⟩
  · refine ⟨by omega, Or.inr ⟨by omega, ?_⟩⟩
    obtain ⟨p, hp, h⟩ := bind_eq_ok.1 h
    have hphys := physBlock_spec (by omega) hpos hp
    have hp0 : 0 ≤ p := by rw [hphys]; exact hpos _
    split_ifs at h with h3
    · obtain ⟨blk', hblk', h⟩ := bind_eq_ok.1 h
      cases h
      refine ⟨hphys, ?_⟩
      rw [blockAt, if_neg (by omega)]
      exact (readBlocks_eq_ok.1 hblk').2.symm
    · cases h
      refine ⟨hphys, ?_⟩
      rw [blockAt, if_pos (by omega)]

/-- a block behind the double indirect block is found only if that block can be read -/
theorem dindirect_lt_of_readBlock {d : Dinode} {logNr : ℤ} {blk : Lib.Mem} {a c : Fin 2048}
    (hslot : slotOf logNr.toNat = .leaf a c) (hlt : logNr < maxBlockNr) (h0 : 0 < d.iDindirect)
    (h : readBlock s d logNr = .ok (r, blk)) : d.iDindirect < s.dev.nblocks := by
  unfold readBlock at h
  split_ifs at h with h1 h2
  · exact absurd h2 (by omega)
  obtain ⟨p, hp, -⟩ := bind_eq_ok.1 h
  unfold slotOf at hslot
  unfold physBlock at hp
  split_ifs at hp hslot with h3 h4
  obtain ⟨blk', hblk', -⟩ := bind_eq_ok.1 hp
  exact (readBlocks_eq_ok.1 hblk').1.2

/-! ## The slots on the way to a block -/

/-- the slots that must be filled for a data slot to be in use -/
def path : Slot → List Slot
  | .direct k => [.direct k]
  | .indE k => [.ind, .indE k]
  | .leaf k j => [.dind, .dindE k, .leaf k j]
  | σ => [σ]

/-- an empty slot on the way leaves the last one empty -/
theorem tree_eq_zero_of_path {blocks : ℤ → Lib.Mem} {d : Dinode} (hτ : τ ∈ path σ) (hz : tree blocks d τ = 0) :
    tree blocks d σ = 0 := by
  cases σ with
  | direct k =>
    obtain rfl : τ = .direct k := by simpa [path] using hτ
    exact hz
  | ind =>
    obtain rfl : τ = .ind := by simpa [path] using hτ
    exact hz
  | dind =>
    obtain rfl : τ = .dind := by simpa [path] using hτ
    exact hz
  | dindE k =>
    obtain rfl : τ = .dindE k := by simpa [path] using hτ
    exact hz
  | indE k =>
    obtain rfl | rfl : τ = .ind ∨ τ = .indE k := by simpa [path] using hτ
    · simp only [tree] at hz ⊢
      rw [hz, entryOf_zero]
    · exact hz
  | leaf k j =>
    obtain rfl | rfl | rfl : τ = .dind ∨ τ = .dindE k ∨ τ = .leaf k j := by simpa [path] using hτ
    · simp only [tree] at hz ⊢
      rw [hz, entryOf_zero, entryOf_zero]
    · simp only [tree] at hz ⊢
      rw [hz, entryOf_zero]
    · exact hz

/-- the number of blocks that a block still needs -/
def cost (t : Slot → ℤ) (σ : Slot) : ℕ := ((path σ).filter fun τ => t τ = 0).length

/-- a block that an operation on inode `n` may write: no block of another inode -/
def Own (s : State) (n x : ℤ) : Prop := Accounts x ∨ (146 ≤ x ∧ ∀ m σ, s.alloc m → m ≠ n → s.tree m σ ≠ x)

theorem own_iff {x : ℤ} (hf : Frame s s') (ho : ∀ m, s.alloc m → m ≠ n → s'.tree m = s.tree m) :
    Own s' n x ↔ Own s n x := by
  unfold Own
  refine or_congr Iff.rfl (and_congr Iff.rfl ?_)
  constructor
  · intro h m σ hm hmn
    rw [← ho m hm hmn]
    exact h m σ (hf.alloc.2 hm) hmn
  · intro h m σ hm hmn
    rw [ho m (hf.alloc.1 hm) hmn]
    exact h m σ (hf.alloc.1 hm) hmn

/-- the blocks of inode `n` are its own -/
theorem Core.own (h : Core s n F) (hn : s.alloc n) (h0 : s.tree n σ ≠ 0) : Own s n (s.tree n σ) :=
  Or.inr ⟨h.acc.pos_of_tree hn h0, h.tree_ne hn h0⟩

/-- so are the blocks it has no slot for yet -/
theorem Core.own_of_mem (h : Core s n F) (hb : b ∈ F) : Own s n b := by
  refine Or.inr ⟨(h.acc.float b hb).1, fun m σ hm _ hc => ?_⟩
  have h0 : s.tree m σ ≠ 0 := by
    have hpos := (h.acc.float b hb).1
    omega
  exact (h.acc.busy_of_tree hm h0).2 (hc ▸ hb)

/-- what an allocation for inode `n` leaves alone -/
structure Keeps (s s' : State) (n : ℤ) : Prop where
  other : ∀ m, s.alloc m → m ≠ n → s'.tree m = s.tree m
  mono : ∀ σ, s.tree n σ ≠ 0 → s'.tree n σ = s.tree n σ
  kept : ∀ m σ, s.alloc m → s.tree m σ ≠ 0 → ¬(m = n ∧ σ.isPtr) →
    s'.dev.blocks (s.tree m σ) = s.dev.blocks (s.tree m σ)
  log : Logs (Own s n) s s'

namespace Keeps

theorem refl (s : State) (n : ℤ) : Keeps s s n :=
  ⟨fun _ _ _ => rfl, fun _ _ => rfl, fun _ _ _ _ _ => rfl, Logs.of_eq rfl⟩

theorem trans (h : Keeps s s' n) (h' : Keeps s' s'' n) (hf : Frame s s') : Keeps s s'' n where
  other := fun m hm hmn => (h'.other m (hf.alloc.2 hm) hmn).trans (h.other m hm hmn)
  mono := fun σ hσ => by
    have h1 := h.mono σ hσ
    rw [h'.mono σ (by rw [h1]; exact hσ), h1]
  kept := fun m σ hm hσ hptr => by
    have h1 : s'.tree m σ = s.tree m σ := by
      by_cases hmn : m = n
      · subst hmn; exact h.mono σ hσ
      · rw [h.other m hm hmn]
    have h2 := h'.kept m σ (hf.alloc.2 hm) (by rw [h1]; exact hσ) hptr
    rw [h1] at h2
    rw [h2, h.kept m σ hm hσ hptr]
  log := h.log.trans (h'.log.mono fun _ hx => (own_iff hf h.other).1 hx)

/-- the trees and the blocks in use are as before -/
theorem of_eq (ht : ∀ m, s.alloc m → s'.tree m = s.tree m) (hn : s.alloc n)
    (hb : ∀ x, s.busy x → s'.dev.blocks x = s.dev.blocks x) (hlog : Logs (Own s n) s s') (hs : Core s n F) :
    Keeps s s' n where
  other := fun m hm _ => ht m hm
  mono := fun σ _ => by rw [ht n hn]
  kept := fun m σ hm hσ _ => hb _ (hs.acc.busy_of_tree hm hσ).1
  log := hlog

end Keeps

/-- logical block slot `σ` of inode `n` has block `p`; on the way to it empty slots were filled -/
structure Placed (s s' : State) (n : ℤ) (i i' : Inode) (σ : Slot) (p : ℤ) : Prop where
  touch : Touch s s' n i i'
  core : Core s' n ∅
  size : i'.dinode.iSize = i.dinode.iSize
  keeps : Keeps s s' n
  pos : 0 < p
  target : s'.tree n σ = p
  way : ∀ τ, s'.tree n τ ≠ s.tree n τ → τ ∈ path σ
  inside : ∀ τ ∈ path σ, τ ≠ σ → s'.tree n τ < s'.dev.nblocks
  same : s.tree n σ ≠ 0 → i' = i

/-- there was no space for slot `σ` of inode `n` -/
structure Failed (s s' : State) (n : ℤ) (i i' : Inode) (σ : Slot) : Prop where
  touch : Touch s s' n i i'
  core : Core s' n ∅
  size : i'.dinode.iSize = i.dinode.iSize
  dirty : s.sb.usedBlockCount < s.sb.maxFsBlocks → i'.dirty = true
  same : s.sb.maxFsBlocks ≤ s.sb.usedBlockCount → i' = i
  keeps : Keeps s s' n
  leak : ∀ τ, s'.tree n τ ≠ s.tree n τ →
    τ = .dind ∧ .dind ∈ path σ ∧ s.sb.usedBlockCount + 1 = s.sb.maxFsBlocks
  short : s.sb.maxFsBlocks < s.sb.usedBlockCount + cost (s.tree n) σ
  kept : .dind ∈ path σ → s.tree n .dind = 0 → s.sb.usedBlockCount + 1 = s.sb.maxFsBlocks → s'.tree n .dind ≠ 0

/-- `testfs_alloc_block_for_inode` fails when the file system is full, and only then -/
theorem Core.allocBlockForInode (h : Core s n F) (ha : allocBlockForInode s n = .ok (r, s')) :
    (r = -ENOSPC ∧ s' = s ∧ s.sb.maxFsBlocks ≤ s.sb.usedBlockCount) ∨ Took s s' n r := by
  rcases allocBlockForInode_cases h.geo ha with ⟨hr, hs, hfull⟩ | ht
  · exact Or.inl ⟨hr, hs, hfull.elim id fun hnone => max_le_of_alloc_none h.geo h.acc.used hnone⟩
  · exact Or.inr ht

theorem failed_of_full (h : Core s n ∅) (hi : s.find n = some i) (hfull : s.sb.maxFsBlocks ≤ s.sb.usedBlockCount)
    (h0 : s.tree n σ = 0) (hmem : σ ∈ path σ) : Failed s s n i i σ where
  touch := Touch.refl hi
  core := h
  size := rfl
  dirty := fun hc => absurd hfull (not_le.2 hc)
  same := fun _ => rfl
  keeps := Keeps.refl s n
  leak := fun τ hτ => absurd rfl hτ
  short := by
    have hpos : 0 < cost (s.tree n) σ := by
      unfold cost
      rw [List.length_pos_iff_exists_mem]
      exact ⟨σ, List.mem_filter.2 ⟨hmem, by simpa using h0⟩⟩
    omega
  kept := fun _ _ hc => by omega

theorem Took.keeps (ht : Took s s' n b) (h : Core s n F) (hn : s.alloc n) (hi : s.find n = some i) : Keeps s s' n :=
  Keeps.of_eq (h.took hn hi ht).2 hn (fun x hx => ht.blocks x (by have := hx.1; omega))
    (ht.log.mono fun _ hx => Or.inl hx) h

/-- the release of a block of inode `n` -/
theorem Gave.logs (ht : Gave s s' n b) (hb : Own s n b) : Logs (Own s n) s s' := by
  refine ht.log.mono fun x hx => ?_
  rcases hx with hx | rfl
  · exact Or.inl hx
  · exact hb

theorem keeps_setDinode {f : Dinode → Dinode} (hi : s.find n = some i) (hempty : s.tree n σ = 0)
    (htree : Testfs.tree s.dev.blocks (f i.dinode) = update (s.tree n) σ b) : Keeps s (s.setDinode n f) n where
  other := fun m hm hmn => by
    have hfind : (s.setDinode n f).find m = s.find m := by rw [find_setDinode, if_neg hmn]
    unfold State.tree State.dinode
    rw [hfind]
    rfl
  mono := fun τ hτ => by
    have hfind : (s.setDinode n f).find n = some { i with dinode := f i.dinode } := by
      rw [find_setDinode, if_pos rfl, hi]; rfl
    have hne : τ ≠ σ := fun hc => hτ (hc ▸ hempty)
    rw [tree_of_find hfind]
    exact (congrFun htree τ).trans (update_of_ne hne ..)
  kept := fun _ _ _ _ _ => rfl
  log := Logs.of_eq rfl

/-- a store to a pointer block of inode `n` that fills an empty slot, or none -/
theorem keeps_write {blk : Lib.Mem} {q : ℤ} (h : Core s n F) (hn : s.alloc n)
    (hi : s.find n = some i) (hq : s.tree n τ = q) (h0 : q ≠ 0) (hptr : τ.isPtr)
    (htree : ∀ σ, s.tree n σ ≠ 0 → Testfs.tree (update s.dev.blocks q blk) i.dinode σ = s.tree n σ) :
    Keeps s { s with dev := s.dev.write q blk } n where
  other := by
    subst hq
    have htouch : Touch s { s with dev := s.dev.write (s.tree n τ) blk } n i i :=
      touch_write hi (h.acc.pos_of_tree hn h0)
    exact htouch.other_tree h (h.tree_ne hn h0) fun x _ hx => update_of_ne hx ..
  mono := fun σ hσ => by
    rw [tree_of_find (i := i) (show State.find { s with dev := s.dev.write q blk } n = some i from hi)]
    exact htree σ hσ
  kept := fun m σ hm hσ hno => by
    refine update_of_ne (fun hc => hno ?_) ..
    rw [← hq] at hc
    obtain ⟨rfl, rfl⟩ := h.acc.inj hm hn hσ hc
    exact ⟨rfl, hptr⟩
  log := by
    subst hq
    exact Logs.write (h.own hn h0)

/-- two allocations on the same way -/
theorem Placed.after {p : ℤ} (h : Placed s' s'' n i' i'' σ p) (htouch : Touch s s' n i i')
    (hsize : i'.dinode.iSize = i.dinode.iSize) (hkeeps : Keeps s s' n)
    (hway : ∀ τ, s'.tree n τ ≠ s.tree n τ → τ ∈ path σ) (hempty : s.tree n σ = 0) : Placed s s'' n i i'' σ p where
  touch := htouch.trans h.touch
  core := h.core
  size := h.size.trans hsize
  keeps := hkeeps.trans h.keeps htouch.frame
  pos := h.pos
  target := h.target
  way := fun τ hτ => by
    by_cases h1 : s'.tree n τ = s.tree n τ
    · exact h.way τ (by rw [h1]; exact hτ)
    · exact hway τ h1
  inside := h.inside
  same := fun hne => absurd hempty hne

theorem way_of_update {ρ : Slot} {t t' : Slot → ℤ} {q : ℤ} (h : t' = update t ρ q) (hρ : ρ ∈ path σ) (τ : Slot)
    (hτ : t' τ ≠ t τ) : τ ∈ path σ := by
  by_cases hne : τ = ρ
  · rw [hne]; exact hρ
  · rw [h, update_of_ne hne] at hτ
    exact absurd rfl hτ

/-! ## Direct blocks -/

theorem allocateDirect_spec {k : Fin 10} (h : Core s n ∅) (hn : s.alloc n) (hi : s.find n = some i)
    (hr : allocateDirect s n k = .ok (r, s')) :
    (r = -ENOSPC ∧ ∃ i', Failed s s' n i i' (.direct k)) ∨ ∃ i', Placed s s' n i i' (.direct k) r := by
  unfold allocateDirect at hr
  rw [deref_eq_ok.2 hi, ok_bind] at hr
  split_ifs at hr with h0
  rw [bind_eq_ok] at hr
  obtain ⟨⟨r1, s1⟩, halloc, hr⟩ := hr
  have hempty : s.tree n (.direct k) = 0 := by rw [tree_of_find hi]; exact not_not.1 h0
  rcases h.allocBlockForInode halloc with ⟨rfl, hs1, hfull⟩ | ht
  · left
    cases hr
    rw [hs1]
    exact ⟨rfl, i, failed_of_full h hi hfull hempty (by simp [path])⟩
  · right
    have hpos := ht.pos
    have hnn : 0 ≤ r1 := by omega
    simp only [hnn, if_true] at hr
    cases hr
    obtain ⟨hcore1, htrees1⟩ := h.took hn hi ht
    have htouch1 := ht.touch hi
    have hn1 := htouch1.alloc.2 hn
    have hempty1 : s1.tree n (.direct k) = 0 := by rw [htrees1 n hn]; exact hempty
    have htouch2 := touch_setDinode (f := fun d => { d with iBlockNr := update d.iBlockNr k r }) htouch1.new rfl rfl
      fun hc => by cases hc
    set d1 := { i.dinode with blockCount := i.dinode.blockCount + 1 } with hd1
    have htree : tree s1.dev.blocks { d1 with iBlockNr := update d1.iBlockNr k r } =
        update (tree s1.dev.blocks d1) (.direct k) r := tree_set_direct k
    rw [← tree_of_find htouch1.new] at htree
    have hcore := hcore1.setPtr (f := fun d => { d with iBlockNr := update d.iBlockNr k r }) hn1 htouch1.new rfl
      (Finset.mem_insert_self r ∅) rfl rfl rfl hempty1 htree
    rw [show (insert r (∅ : Finset ℤ)).erase r = ∅ by simp] at hcore
    have hself : (s1.setDinode n fun d => { d with iBlockNr := update d.iBlockNr k r }).tree n =
        update (s.tree n) (.direct k) r := by
      rw [tree_of_find htouch2.new, ← htrees1 n hn]
      exact htree
    refine ⟨_, htouch1.trans htouch2, hcore, rfl, ?_, by omega, ?_, ?_, ?_, fun hne => absurd hempty hne⟩
    · exact (ht.keeps h hn hi).trans (keeps_setDinode htouch1.new hempty1 htree) ht.frame
    · rw [hself, update_self]
    · exact way_of_update hself (by simp [path])
    · intro τ hτ hne
      exact absurd (by simpa [path] using hτ) hne

/-! ## Blocks behind a pointer block -/

/-- an entry of a pointer block of inode `n` is filled -/
theorem Core.fill (h : Core s n F) (hn : s.alloc n) (hi : s.find n = some i) (hb : b ∈ F) {ρ : Slot} {q : ℤ}
    {blk : Lib.Mem} (hq : s.tree n ρ = q) (h0 : q ≠ 0) (hptr : ρ.isPtr) (hempty : s.tree n σ = 0)
    (htree : Testfs.tree (update s.dev.blocks q blk) i.dinode = update (s.tree n) σ b)
    (hs' : s' = { s with dev := s.dev.write q blk }) :
    Core s' n (F.erase b) ∧ Touch s s' n i i ∧ Keeps s s' n ∧ s'.tree n = update (s.tree n) σ b ∧
      q < s'.dev.nblocks := by
  subst hs'
  have htouch : Touch s { s with dev := s.dev.write q blk } n i i :=
    touch_write hi (by rw [← hq]; exact h.acc.pos_of_tree hn (by rw [hq]; exact h0))
  refine ⟨h.putPtr hn hi hb hq h0 hempty htree, htouch, keeps_write h hn hi hq h0 hptr ?_, ?_, ?_⟩
  · intro τ hτ
    have hne : τ ≠ σ := fun hc => hτ (hc ▸ hempty)
    rw [htree, update_of_ne hne]
  · rw [tree_of_find htouch.new]
    exact htree
  · have hlt : q + 1 ≤ (s.dev.write q blk).nblocks := le_max_right ..
    exact Int.lt_iff_add_one_le.2 hlt

/-- `indirect_allocated`, when it was not assigned, reads as 0 -/
theorem indirectAllocated_eq (hs : ∀ j, s.stack j = 0) (assigned : Bool) :
    indirectAllocated s assigned = (assigned, s) := by
  have hshift : (fun j => s.stack (j + 1)) = s.stack := funext fun j => by rw [hs, hs]
  cases assigned with
  | true => rfl
  | false => simp [indirectAllocated, readUninit, hs 0, hshift]

/-- whatever is undone, the error is returned -/
theorem fst_of_undo {c : Bool} {q : ℤ} {x : Except Stop State} {g : State → State} {t : State}
    (h : (if c then (do let s ← x; pure (q, g s)) else pure (q, t)) = .ok (r, s')) : r = q := by
  split_ifs at h
  · rw [bind_eq_ok] at h
    obtain ⟨s1, -, h⟩ := h
    cases h
    rfl
  · cases h
    rfl

theorem erase_insert_self (b : ℤ) : (insert b (∅ : Finset ℤ)).erase b = ∅ := by simp

theorem allocateInIndirect_spec {k : Fin 2048} {blk : Lib.Mem} {assigned : Bool} (h : Core s n ∅) (hn : s.alloc n)
    (hi : s.find n = some i) (h0 : i.dinode.iIndirect ≠ 0) (hblk : s.dev.blocks i.dinode.iIndirect = blk)
    (hstack : r = -ENOSPC → ∀ j, s.stack j = 0) (hr : allocateInIndirect s n k blk assigned = .ok (r, s')) :
    s.tree n (.indE k) = 0 ∧
      ((r = -ENOSPC ∧ s.sb.maxFsBlocks ≤ s.sb.usedBlockCount ∧
          ((assigned = false ∧ s' = s) ∨ (assigned = true ∧ ∃ s1, Gave s s1 n i.dinode.iIndirect ∧
            s' = s1.setDinode n fun d => { d with iIndirect := 0 }))) ∨
        ∃ i', Placed s s' n i i' (.indE k) r) := by
  have htreeI : s.tree n .ind = i.dinode.iIndirect := by rw [tree_of_find hi]; rfl
  have hentry : s.tree n (.indE k) = s32At blk (4 * k) := by
    rw [tree_of_find hi, ← hblk]
    exact entryOf_of_ne h0 k
  unfold allocateInIndirect at hr
  split_ifs at hr with hzero
  have hempty : s.tree n (.indE k) = 0 := hentry.trans (not_not.1 hzero)
  refine ⟨hempty, ?_⟩
  rw [bind_eq_ok] at hr
  obtain ⟨⟨r1, s1⟩, halloc, hr⟩ := hr
  rcases h.allocBlockForInode halloc with ⟨rfl, hs1, hfull⟩ | ht
  · left
    subst hs1
    have hneg : ¬(0 : ℤ) ≤ -ENOSPC := by decide
    simp only [deref_eq_ok.2 hi, ok_bind, hneg, if_false] at hr
    rw [indirectAllocated_eq (hstack (fst_of_undo hr))] at hr
    cases assigned with
    | false =>
      cases hr
      exact ⟨rfl, hfull, Or.inl ⟨rfl, rfl⟩⟩
    | true =>
      simp only [if_true, bind_eq_ok] at hr
      obtain ⟨s2, hfree, hr⟩ := hr
      cases hr
      rcases freeBlockFromInode_cases h.geo hfree with ⟨hc, -⟩ | ⟨-, hgave⟩
      · exact absurd hc h0
      · exact ⟨rfl, hfull, Or.inr ⟨rfl, s2, hgave, rfl⟩⟩
  · right
    have hpos := ht.pos
    have hnn : 0 ≤ r1 := by omega
    obtain ⟨hcore1, htrees1⟩ := h.took hn hi ht
    have htouch1 := ht.touch hi
    simp only [deref_eq_ok.2 htouch1.new, ok_bind, hnn, if_true, bind_eq_ok] at hr
    obtain ⟨s2, hw, hr⟩ := hr
    cases hr
    obtain ⟨-, hs2⟩ := writeBlocks_spec hw
    have hI146 : 146 ≤ i.dinode.iIndirect := by
      rw [← htreeI]; exact h.acc.pos_of_tree hn (by rw [htreeI]; exact h0)
    have hblk1 : s1.dev.blocks i.dinode.iIndirect = blk := by rw [ht.blocks _ (by omega), hblk]
    have htree : Testfs.tree (update s1.dev.blocks i.dinode.iIndirect (put32 blk (4 * k) r))
        { i.dinode with blockCount := i.dinode.blockCount + 1 } = update (s1.tree n) (.indE k) r := by
      have hinj := hcore1.acc.treeInj (htouch1.alloc.2 hn)
      rw [tree_of_find htouch1.new] at hinj ⊢
      have hput := tree_put_indE hinj h0 (inInt32_of_busy hcore1.geo ((ht.busy r).2 (Or.inr rfl))) k
      simp only [hblk1] at hput
      exact hput
    obtain ⟨hcore, htouch2, hkeeps, hself, hlt⟩ := hcore1.fill (ρ := .ind) (htouch1.alloc.2 hn) htouch1.new
      (Finset.mem_insert_self r ∅) (by rw [htrees1 n hn, htreeI]) h0 trivial (by rw [htrees1 n hn, hempty]) htree hs2
    rw [erase_insert_self] at hcore
    rw [htrees1 n hn] at hself
    refine ⟨_, htouch1.trans htouch2, hcore, rfl, (ht.keeps h hn hi).trans hkeeps ht.frame, by omega, ?_, ?_, ?_,
      fun hne => absurd hempty hne⟩
    · rw [hself, update_self]
    · exact way_of_update hself (by simp [path])
    · intro τ hτ hne
      have hτ' : τ = .ind := by simpa [path, hne] using hτ
      rw [hself, update_of_ne hne, hτ', htreeI]
      exact hlt

theorem allocateIndirect_spec {k : Fin 2048} (h : Core s n ∅) (hn : s.alloc n) (hi : s.find n = some i)
    (hstack : r = -ENOSPC → ∀ j, s.stack j = 0) (hr : allocateIndirect s n k = .ok (r, s')) :
    (r = -ENOSPC ∧ ∃ i', Failed s s' n i i' (.indE k)) ∨ ∃ i', Placed s s' n i i' (.indE k) r := by
  have htreeI : s.tree n .ind = i.dinode.iIndirect := by rw [tree_of_find hi]; rfl
  unfold allocateIndirect at hr
  rw [deref_eq_ok.2 hi, ok_bind] at hr
  split_ifs at hr with h0
  · -- a fresh indirect block
    have hempty : s.tree n (.indE k) = 0 := by
      rw [tree_of_find hi]
      simp only [tree, h0, entryOf_zero]
    rw [bind_eq_ok] at hr
    obtain ⟨⟨p, s1⟩, halloc, hr⟩ := hr
    rcases h.allocBlockForInode halloc with ⟨rfl, hs1, hfull⟩ | ht
    · left
      cases hr
      rw [hs1]
      exact ⟨rfl, i, failed_of_full h hi hfull hempty (by simp [path])⟩
    · have hpos := ht.pos
      have hnn : ¬p < 0 := by omega
      simp only [hnn, if_false] at hr
      obtain ⟨hcore1, htrees1⟩ := h.took hn hi ht
      have htouch1 := ht.touch hi
      have hn1 := htouch1.alloc.2 hn
      have hp0 : s.dev.blocks p = zeroMem := h.acc.zero p hpos (Or.inl ht.fresh)
      have hz1 : s1.dev.blocks p = zeroMem := by rw [ht.blocks p (by omega), hp0]
      have hempty1 : s1.tree n .ind = 0 := by rw [htrees1 n hn, htreeI, h0]
      have htree := tree_set_ind (d := { i.dinode with blockCount := i.dinode.blockCount + 1 }) h0 hz1
      rw [← tree_of_find htouch1.new] at htree
      have hcore2 := hcore1.setPtr (f := fun d => { d with iIndirect := p }) hn1 htouch1.new rfl
        (Finset.mem_insert_self p ∅) rfl rfl rfl hempty1 htree
      rw [erase_insert_self] at hcore2
      have htouch2 := touch_setDinode (f := fun d => { d with iIndirect := p }) htouch1.new rfl rfl fun hc => by
        cases hc
      have htouch := htouch1.trans htouch2
      have hkeeps : Keeps s (s1.setDinode n fun d => { d with iIndirect := p }) n :=
        (ht.keeps h hn hi).trans (keeps_setDinode htouch1.new hempty1 htree) ht.frame
      have hself : (s1.setDinode n fun d => { d with iIndirect := p }).tree n = update (s.tree n) .ind p := by
        rw [tree_of_find htouch2.new, ← htrees1 n hn]
        exact htree
      have hn2 := htouch.alloc.2 hn
      have hstack2 : r = -ENOSPC → ∀ j, (s1.setDinode n fun d => { d with iIndirect := p }).stack j = 0 := by
        intro hr j
        rw [htouch.frame.stack]
        exact hstack hr j
      obtain ⟨-, ⟨hr1, hfull, hundo⟩ | ⟨i', hplaced⟩⟩ := allocateInIndirect_spec hcore2 hn2 htouch2.new
        (by simp only; omega) hz1 hstack2 hr
      · -- the indirect block goes back
        left
        rcases hundo with ⟨hc, -⟩ | ⟨-, s3, hgave, rfl⟩
        · cases hc
        refine ⟨hr1, ?_⟩
        obtain ⟨hcore3, hother3, hself3⟩ := hcore2.dropPtr hn2 htouch2.new
          (by rw [hself, update_self]) hz1 hgave (f := fun d => { d with iIndirect := 0 }) (fun d => ⟨rfl, rfl, rfl⟩)
          fun blocks hz d hd => tree_clear_ind (by rw [hd.2.1]; exact hz)
        have htouch3 := hgave.touch htouch2.new
        have htouch4 := touch_setDinode (f := fun d => { d with iIndirect := 0 }) htouch3.new rfl rfl fun hc => by
          cases hc
        have hself' : (s3.setDinode n fun d => { d with iIndirect := 0 }).tree n = s.tree n := by
          rw [hself3, hself, update_idem, ← h0, ← htreeI, update_eq_self]
        refine ⟨_, htouch.trans (htouch3.trans htouch4), hcore3, rfl, fun _ => rfl,
          fun hc => absurd hc (not_le.2 ht.room), ?_, ?_, ?_, fun hc => by simp [path] at hc⟩
        · refine Keeps.of_eq (fun m hm => ?_) hn (fun x hx => ?_) ?_ h
          · by_cases hmn : m = n
            · rw [hmn, hself']
            · rw [hother3 m (htouch.alloc.2 hm) hmn, hkeeps.other m hm hmn]
          · have hxp : x ≠ p := fun hc => ht.fresh (hc ▸ hx)
            have hx146 := hx.1
            exact (hgave.blocks x (by omega) hxp).trans (ht.blocks x (by omega))
          · have hp : Own (s1.setDinode n fun d => { d with iIndirect := p }) n p := by
              have hown := hcore2.own hn2 (σ := .ind) (by rw [hself, update_self]; omega)
              rwa [hself, update_self] at hown
            exact hkeeps.log.trans ((hgave.logs hp).mono fun _ hx => (own_iff htouch.frame hkeeps.other).1 hx)
        · intro τ hτ
          exact absurd (congrFun hself' τ) hτ
        · have hcost : cost (s.tree n) (.indE k) = 2 := by
            simp [cost, path, htreeI, h0, hempty]
          have hused : s1.sb.usedBlockCount = s.sb.usedBlockCount + 1 := ht.used
          have hmax : s1.sb.maxFsBlocks = s.sb.maxFsBlocks := ht.frame.max
          have hfull' : s1.sb.maxFsBlocks ≤ s1.sb.usedBlockCount := hfull
          rw [hcost]
          omega
      · right
        exact ⟨i', hplaced.after htouch rfl hkeeps (way_of_update hself (by simp [path])) hempty⟩
  · -- the indirect block exists
    rw [bind_eq_ok] at hr
    obtain ⟨blk, hread, hr⟩ := hr
    obtain ⟨hempty, ⟨hr1, hfull, hundo⟩ | hplaced⟩ :=
      allocateInIndirect_spec h hn hi h0 (readBlocks_eq_ok.1 hread).2 hstack hr
    · left
      rcases hundo with ⟨-, rfl⟩ | ⟨hc, -⟩
      · exact ⟨hr1, i, failed_of_full h hi hfull hempty (by simp [path])⟩
      · cases hc
    · exact Or.inr hplaced

/-! ## Double indirect blocks -/

/-- a pointer block of inode `n` is written as it is -/
theorem Core.rewrite (h : Core s n F) (hn : s.alloc n) (hi : s.find n = some i) {ρ : Slot} {q : ℤ} {blk : Lib.Mem}
    (hq : s.tree n ρ = q) (h0 : q ≠ 0) (hblk : s.dev.blocks q = blk) (hs' : s' = { s with dev := s.dev.write q blk }) :
    Core s' n F ∧ Touch s s' n i i ∧ (∀ m, s.alloc m → s'.tree m = s.tree m) ∧ s'.dev.blocks = s.dev.blocks := by
  have hpos : 146 ≤ q := by rw [← hq]; exact h.acc.pos_of_tree hn (by rw [hq]; exact h0)
  have hblocks : s'.dev.blocks = s.dev.blocks := by
    rw [hs', ← hblk]
    exact update_eq_self q s.dev.blocks
  have htouch : Touch s s' n i i := by rw [hs']; exact touch_write hi hpos
  have htrees : ∀ m, s.alloc m → s'.tree m = s.tree m :=
    htouch.trees h ⟨rfl, rfl, rfl⟩ fun m σ _ _ _ => by rw [hblocks]
  have hfm : s'.blockFreemap = s.blockFreemap := by rw [hs']
  have hsb : s'.sb = s.sb := by rw [hs']
  have hbusy : ∀ x, s'.busy x ↔ s.busy x := fun x => by simp only [State.busy, hfm]
  have hdisk : Disk s' := by rw [hs']; exact h.disk.write hpos
  refine ⟨⟨htouch.frame.geo h.geo, hdisk, htouch.mem_of_size h.mem hn rfl, ?_⟩, htouch, htrees, hblocks⟩
  refine ⟨?_, ?_, ?_, ?_, ?_, ?_, ?_⟩
  · exact h.acc.exact.congr (ptr_congr (fun m => htouch.alloc) htrees) fun x => by rw [hbusy]
  · exact fun x hx => (hbusy x).2 (h.acc.float x hx)
  · intro m hm
    have hm' := htouch.alloc.1 hm
    have hdinode : s'.dinode m = s.dinode m := by
      by_cases hmn : m = n
      · rw [hmn, dinode_of_find htouch.new, dinode_of_find hi]
      · exact htouch.dinode_of_ne (h.mem.allocRange m hm') hmn
    rw [htrees m hm', hdinode]
    exact h.acc.count m hm'
  · rw [hsb, hfm]; exact h.acc.used
  · rw [hsb]; exact h.acc.limit
  · intro x hx hz
    rw [hblocks]
    exact h.acc.zero x hx (by rw [← hbusy]; exact hz)
  · intro x hx
    rw [hblocks]
    exact h.acc.eof x (htouch.frame.grows.trans hx)

/-- a data block gets its entry in the second-level block -/
theorem Core.fillLeaf {a c : Fin 2048} {q : ℤ} {blk : Lib.Mem} (h : Core s n {r}) (hn : s.alloc n)
    (hi : s.find n = some i) (hq : s.tree n (.dindE a) = q) (h0 : q ≠ 0) (hblk : s.dev.blocks q = blk)
    (hempty : s.tree n (.leaf a c) = 0) (hs' : s' = { s with dev := s.dev.write q (put32 blk (4 * (c : ℕ)) r) }) :
    Core s' n ∅ ∧ Touch s s' n i i ∧ Keeps s s' n ∧ s'.tree n = update (s.tree n) (.leaf a c) r ∧
      q < s'.dev.nblocks := by
  have hinj := h.acc.treeInj hn
  rw [tree_of_find hi] at hinj
  have hput := tree_put_leaf hinj (inInt32_of_busy h.geo (h.acc.float r (Finset.mem_singleton_self r))) a c
    (by rw [← tree_of_find hi]; exact hq) h0
  rw [hblk, ← tree_of_find hi] at hput
  have hfill := h.fill (ρ := .dindE a) hn hi (Finset.mem_singleton_self r) hq h0 trivial hempty hput hs'
  rwa [Finset.erase_singleton] at hfill

/-- a second-level block gets its entry in the double indirect block -/
theorem Core.fillSecond {a : Fin 2048} {q : ℤ} {dblk : Lib.Mem} (h : Core s n (insert r {q}))
    (hrq : r ≠ q) (hn : s.alloc n) (hi : s.find n = some i) (h0 : i.dinode.iDindirect ≠ 0)
    (hd : s.dev.blocks i.dinode.iDindirect = dblk) (hentry : s.tree n (.dindE a) = 0)
    (hs' : s' = { s with dev := s.dev.write i.dinode.iDindirect (put32 dblk (4 * (a : ℕ)) q) }) :
    (Core s' n {r} ∧ Touch s s' n i i ∧ Keeps s s' n ∧ s'.tree n = update (s.tree n) (.dindE a) q ∧
      i.dinode.iDindirect < s'.dev.nblocks) ∧ s'.dev.blocks q = zeroMem := by
  have hqF : q ∈ insert r ({q} : Finset ℤ) := Finset.mem_insert_of_mem (Finset.mem_singleton_self q)
  have hqbusy : s.busy q := h.acc.float q hqF
  have hqz : s.dev.blocks q = zeroMem := h.acc.zero q hqbusy.1 (Or.inr hqF)
  have htreeD : s.tree n .dind = i.dinode.iDindirect := by rw [tree_of_find hi]; rfl
  have hD := h.acc.busy_of_tree hn (σ := .dind) (by rw [htreeD]; exact h0)
  rw [htreeD] at hD
  have hDq : q ≠ i.dinode.iDindirect := fun hcon => hD.2 (hcon ▸ hqF)
  have hinj := h.acc.treeInj hn
  rw [tree_of_find hi] at hinj
  have hput := tree_put_dindE hinj h0 (inInt32_of_busy h.geo hqbusy) a (by rw [← tree_of_find hi]; exact hentry) hqz hDq
  simp only [hd] at hput
  rw [← tree_of_find hi] at hput
  have hfill := h.fill (ρ := .dind) hn hi hqF htreeD h0 trivial hentry hput hs'
  have hF : (insert r ({q} : Finset ℤ)).erase q = {r} := by
    rw [Finset.erase_insert_of_ne hrq, Finset.erase_singleton]
    rfl
  rw [hF] at hfill
  refine ⟨hfill, ?_⟩
  rw [hs']
  exact (update_of_ne hDq ..).trans hqz

/-- the data block, when the second-level block exists -/
theorem allocateLeaf_old {k : ℕ} {a c : Fin 2048} (ha : (a : ℕ) = k / 2048) (hc : (c : ℕ) = k % 2048)
    {dblk blk : Lib.Mem} (h : Core s n ∅) (hn : s.alloc n) (hi : s.find n = some i) (h0 : i.dinode.iDindirect ≠ 0)
    (hd : s.dev.blocks i.dinode.iDindirect = dblk) (hq0 : s32At dblk (4 * (k / 2048)) ≠ 0)
    (hblk : s.dev.blocks (s32At dblk (4 * (k / 2048))) = blk) (hempty : s.tree n (.leaf a c) = 0)
    (hstack : r = -ENOSPC → ∀ j, s.stack j = 0) (hr : allocateLeaf s n k dblk blk false false = .ok (r, s')) :
    (r = -ENOSPC ∧ s.sb.maxFsBlocks ≤ s.sb.usedBlockCount ∧ s' = s) ∨ ∃ i', Placed s s' n i i' (.leaf a c) r := by
  have htreeD : s.tree n .dind = i.dinode.iDindirect := by rw [tree_of_find hi]; rfl
  have hentry : s.tree n (.dindE a) = s32At dblk (4 * (k / 2048)) := by
    rw [tree_of_find hi, ← hd, ← ha]
    exact entryOf_of_ne h0 a
  generalize hq : s32At dblk (4 * (k / 2048)) = q at *
  unfold allocateLeaf at hr
  rw [bind_eq_ok] at hr
  obtain ⟨⟨r1, s1⟩, halloc, hr⟩ := hr
  rcases h.allocBlockForInode halloc with ⟨rfl, hs1, hfull⟩ | ht
  · left
    subst hs1
    have hneg : ¬(0 : ℤ) ≤ -ENOSPC := by decide
    simp only [deref_eq_ok.2 hi, ok_bind, hneg, if_false, Bool.false_eq_true, pure_eq_ok] at hr
    rw [indirectAllocated_eq (hstack (fst_of_undo (g := id) hr))] at hr
    cases hr
    exact ⟨rfl, hfull, rfl⟩
  · right
    have hpos := ht.pos
    have hnn : 0 ≤ r1 := by omega
    obtain ⟨hcore1, htrees1⟩ := h.took hn hi ht
    have htouch1 := ht.touch hi
    simp only [deref_eq_ok.2 htouch1.new, ok_bind, hnn, if_true, bind_eq_ok] at hr
    obtain ⟨s2, hw2, s3, hw3, hr⟩ := hr
    cases hr
    have hn1 := htouch1.alloc.2 hn
    have hD146 : 146 ≤ i.dinode.iDindirect := by
      rw [← htreeD]; exact h.acc.pos_of_tree hn (by rw [htreeD]; exact h0)
    have hq146 : 146 ≤ q := by rw [← hentry]; exact h.acc.pos_of_tree hn (by rw [hentry]; exact hq0)
    have hd1 : s1.dev.blocks i.dinode.iDindirect = dblk := by rw [ht.blocks _ (by omega), hd]
    obtain ⟨hcore2, htouch2, htrees2, hblocks2⟩ := hcore1.rewrite (ρ := .dind) hn1 htouch1.new
      (by rw [htrees1 n hn, htreeD]) h0 hd1 (writeBlocks_spec hw2).2
    have hn2 := htouch2.alloc.2 hn1
    have hblk2 : s2.dev.blocks q = blk := by rw [hblocks2, ht.blocks q (by omega), hblk]
    have hself2 : s2.tree n = s.tree n := by rw [htrees2 n hn1, htrees1 n hn]
    rw [insert_empty_eq] at hcore2
    rw [hq, ← hc] at hw3
    obtain ⟨hcore3, htouch3, hkeeps3, hself3, hlt⟩ := hcore2.fillLeaf hn2 htouch2.new (by rw [hself2, hentry]) hq0 hblk2
      (by rw [hself2, hempty]) (writeBlocks_spec hw3).2
    rw [hself2] at hself3
    have hown : Own s1 n i.dinode.iDindirect := by
      have hown := hcore1.own hn1 (σ := .dind) (by rw [htrees1 n hn, htreeD]; exact h0)
      rwa [htrees1 n hn, htreeD] at hown
    have hkeeps2 : Keeps s1 s2 n := by
      refine Keeps.of_eq htrees2 hn1 (fun x _ => by rw [hblocks2]) ?_ hcore1
      rw [(writeBlocks_spec hw2).2]
      exact Logs.write hown
    have hltD : i.dinode.iDindirect < s2.dev.nblocks := by
      rw [(writeBlocks_spec hw2).2]
      exact Int.lt_iff_add_one_le.2 (le_max_right ..)
    refine ⟨_, (htouch1.trans htouch2).trans htouch3, hcore3, rfl, ?_, by omega, ?_, ?_, ?_,
      fun hne => absurd hempty hne⟩
    · exact ((ht.keeps h hn hi).trans hkeeps2 ht.frame).trans hkeeps3 (ht.frame.trans htouch2.frame)
    · rw [hself3, update_self]
    · exact way_of_update hself3 (by simp [path])
    · intro τ hτ hne
      rw [hself3, update_of_ne hne]
      by_cases hτD : τ = .dind
      · rw [hτD, htreeD]
        exact hltD.trans_le htouch3.frame.grows
      · have hτ' : τ = .dindE a := by simpa [path, hne, hτD] using hτ
        rw [hτ', hentry]
        exact hlt

/-- blocks that were taken for a slot behind the double indirect block went back, that block too if `dropped` -/
structure Undone (s s' : State) (n : ℤ) (i i' : Inode) (dropped : Bool) : Prop where
  touch : Touch s s' n i i'
  core : Core s' n ∅
  size : i'.dinode.iSize = i.dinode.iSize
  dirty : i'.dirty = true
  other : ∀ m, s.alloc m → m ≠ n → s'.tree m = s.tree m
  self : s'.tree n = if dropped then update (s.tree n) .dind 0 else s.tree n
  blocks : ∀ x, 18 ≤ x → s'.dev.blocks x = s.dev.blocks x
  log : Logs (Own s n) s s'

theorem tree_leaf_of_dindE {a c : Fin 2048} (h : s.tree n (.dindE a) = 0) : s.tree n (.leaf a c) = 0 :=
  tree_eq_zero_of_path (by simp [path]) h

/-- the second-level block goes back -/
theorem undone_kept {q : ℤ} (h : Core s n {q}) (hn : s.alloc n) (hi : s.find n = some i) (hgave : Gave s s' n q) :
    ∃ i', Undone s s' n i i' false := by
  have hqF := Finset.mem_singleton_self q
  have hqz : s.dev.blocks q = zeroMem := h.acc.zero q (h.acc.float q hqF).1 (Or.inr hqF)
  obtain ⟨hcore, htrees⟩ := h.gave hn hi hqF hgave
  rw [Finset.erase_singleton] at hcore
  refine ⟨_, hgave.touch hi, hcore, rfl, rfl, fun m hm _ => htrees m hm, htrees n hn, fun x hx => ?_,
    hgave.logs (h.own_of_mem hqF)⟩
  by_cases hxq : x = q
  · rw [hxq, hgave.zeroed, hqz]
  · exact hgave.blocks x hx hxq

/-- the double indirect block goes back, and then the second-level block -/
theorem undone_dropped {q : ℤ} {s1 : State} (h : Core s n {q}) (hn : s.alloc n) (hi : s.find n = some i)
    (h0 : i.dinode.iDindirect ≠ 0) (hz : s.dev.blocks i.dinode.iDindirect = zeroMem)
    (hgave : Gave s s1 n i.dinode.iDindirect)
    (hfree : freeBlockFromInode (s1.setDinode n fun d => { d with iDindirect := 0 }) n q = .ok s') :
    ∃ i', Undone s s' n i i' true := by
  have htreeD : s.tree n .dind = i.dinode.iDindirect := by rw [tree_of_find hi]; rfl
  have hq146 := (h.acc.float q (Finset.mem_singleton_self q)).1
  obtain ⟨hcore1, hother1, hself1⟩ := h.dropPtr hn hi htreeD hz hgave
    (f := fun d => { d with iDindirect := 0 }) (fun d => ⟨rfl, rfl, rfl⟩)
    fun blocks hz d hd => tree_clear_dind (by rw [hd.2.2]; exact hz)
  have htouch1 := (hgave.touch hi).trans
    (touch_setDinode (f := fun d => { d with iDindirect := 0 }) (hgave.touch hi).new rfl rfl fun hc => by cases hc)
  have hn1 := htouch1.alloc.2 hn
  rcases freeBlockFromInode_cases hcore1.geo hfree with ⟨hcon, -⟩ | ⟨-, hlast⟩
  · omega
  obtain ⟨i', hundone⟩ := undone_kept hcore1 hn1 htouch1.new hlast
  refine ⟨i', htouch1.trans hundone.touch, hundone.core, hundone.size, hundone.dirty,
    fun m hm hmn => ?_, ?_, fun x hx => ?_, ?_⟩
  · rw [hundone.other m (htouch1.alloc.2 hm) hmn, hother1 m hm hmn]
  · rw [hundone.self, if_neg (by decide), hself1]
    rfl
  · rw [hundone.blocks x hx]
    show s1.dev.blocks x = s.dev.blocks x
    by_cases hxD : x = i.dinode.iDindirect
    · rw [hxD, hgave.zeroed, hz]
    · exact hgave.blocks x hx hxD
  · have hownD : Own s n i.dinode.iDindirect := by
      have hown := h.own hn (σ := .dind) (by rw [htreeD]; exact h0)
      rwa [htreeD] at hown
    have hlog1 : Logs (Own s n) s (s1.setDinode n fun d => { d with iDindirect := 0 }) := hgave.logs hownD
    exact hlog1.trans (hundone.log.mono fun _ hx => (own_iff htouch1.frame hother1).1 hx)

/-- both blocks get their entries -/
theorem placed_leaf {a c : Fin 2048} {dblk : Lib.Mem} {q : ℤ} {s1 s2 : State} (h : Core s n {q}) (hn : s.alloc n)
    (hi : s.find n = some i) (h0 : i.dinode.iDindirect ≠ 0) (hd : s.dev.blocks i.dinode.iDindirect = dblk)
    (hentry : s.tree n (.dindE a) = 0) (ht : Took s s1 n r)
    (hs2 : s2 = { s1 with dev := s1.dev.write i.dinode.iDindirect (put32 dblk (4 * (a : ℕ)) q) })
    (hs' : s' = { s2 with dev := s2.dev.write q (put32 zeroMem (4 * (c : ℕ)) r) }) :
    ∃ i', Placed s s' n i i' (.leaf a c) r := by
  have hpos := ht.pos
  have hqbusy : s.busy q := h.acc.float q (Finset.mem_singleton_self q)
  have hq0 : q ≠ 0 := by
    have hq146 := hqbusy.1
    omega
  have htreeD : s.tree n .dind = i.dinode.iDindirect := by rw [tree_of_find hi]; rfl
  have hD146 : 146 ≤ i.dinode.iDindirect := by
    rw [← htreeD]
    exact h.acc.pos_of_tree hn (by rw [htreeD]; exact h0)
  have hempty : s.tree n (.leaf a c) = 0 := tree_leaf_of_dindE hentry
  obtain ⟨hcore1, htrees1⟩ := h.took hn hi ht
  have htouch1 := ht.touch hi
  have hn1 := htouch1.alloc.2 hn
  have hrq : r ≠ q := fun hcon => ht.fresh (hcon ▸ hqbusy)
  have hd1 : s1.dev.blocks i.dinode.iDindirect = dblk := by rw [ht.blocks _ (by omega), hd]
  obtain ⟨⟨hcore2, htouch2, hkeeps2, hself2, hltD⟩, hblk2⟩ :=
    hcore1.fillSecond hrq hn1 htouch1.new h0 hd1 (by rw [htrees1 n hn, hentry]) hs2
  rw [htrees1 n hn] at hself2
  have hn2 := htouch2.alloc.2 hn1
  have hq2 : s2.tree n (.dindE a) = q := by rw [hself2, update_self]
  have hempty2 : s2.tree n (.leaf a c) = 0 := by rw [hself2, update_of_ne (by simp), hempty]
  obtain ⟨hcore3, htouch3, hkeeps3, hself3, hlt⟩ := hcore2.fillLeaf hn2 htouch2.new hq2 hq0 hblk2 hempty2 hs'
  rw [hself2] at hself3
  refine ⟨_, (htouch1.trans htouch2).trans htouch3, hcore3, rfl, ?_, by omega, ?_, fun τ hτ => ?_, fun τ hτ hne => ?_,
    fun hne => absurd hempty hne⟩
  · exact ((ht.keeps h hn hi).trans hkeeps2 ht.frame).trans hkeeps3 (ht.frame.trans htouch2.frame)
  · rw [hself3, update_self]
  · by_cases hτ1 : τ = .leaf a c
    · simp [path, hτ1]
    · by_cases hτ2 : τ = .dindE a
      · simp [path, hτ2]
      · rw [hself3, update_of_ne hτ1, update_of_ne hτ2] at hτ
        exact absurd rfl hτ
  · rw [hself3, update_of_ne hne]
    by_cases hτD : τ = .dind
    · rw [hτD, update_of_ne (by simp), htreeD]
      exact hltD.trans_le htouch3.frame.grows
    · have hτ' : τ = .dindE a := by simpa [path, hne, hτD] using hτ
      rw [hτ', update_self]
      exact hlt

/-- the data block, when the second-level block is fresh -/
theorem allocateLeaf_new {k : ℕ} {a c : Fin 2048} (ha : (a : ℕ) = k / 2048) (hc : (c : ℕ) = k % 2048)
    {dblk : Lib.Mem} {q : ℤ} {dropped : Bool} (h : Core s n {q}) (hn : s.alloc n) (hi : s.find n = some i)
    (h0 : i.dinode.iDindirect ≠ 0) (hd : s.dev.blocks i.dinode.iDindirect = dblk)
    (hdz : dropped = true → dblk = zeroMem) (hentry : s.tree n (.dindE a) = 0)
    (hr : allocateLeaf s n k (put32 dblk (4 * (k / 2048)) q) zeroMem dropped true = .ok (r, s')) :
    (r = -ENOSPC ∧ s.sb.maxFsBlocks ≤ s.sb.usedBlockCount ∧ ∃ i', Undone s s' n i i' dropped) ∨
      ∃ i', Placed s s' n i i' (.leaf a c) r := by
  have hqbusy : s.busy q := h.acc.float q (Finset.mem_singleton_self q)
  have hq146 := hqbusy.1
  have hload : s32At (put32 dblk (4 * (k / 2048)) q) (4 * (k / 2048)) = q :=
    s32At_put32_self (inInt32_of_busy h.geo hqbusy)
  unfold allocateLeaf at hr
  rw [hload, bind_eq_ok] at hr
  obtain ⟨⟨r1, s1⟩, halloc, hr⟩ := hr
  rcases h.allocBlockForInode halloc with ⟨rfl, hs1, hfull⟩ | ht
  · left
    subst hs1
    have hneg : ¬(0 : ℤ) ≤ -ENOSPC := by decide
    simp only [deref_eq_ok.2 hi, ok_bind, hneg, if_false] at hr
    cases dropped with
    | false =>
      simp only [Bool.false_eq_true, if_false, pure_eq_ok, ok_bind, indirectAllocated, if_true, bind_eq_ok] at hr
      obtain ⟨s2, hfree, hr⟩ := hr
      cases hr
      rcases freeBlockFromInode_cases h.geo hfree with ⟨hcon, -⟩ | ⟨-, hgave⟩
      · omega
      · exact ⟨rfl, hfull, undone_kept h hn hi hgave⟩
    | true =>
      simp only [if_true] at hr
      rw [bind_eq_ok] at hr
      obtain ⟨s2, hfree2, hr⟩ := hr
      simp only [pure_eq_ok, ok_bind, indirectAllocated, if_true, bind_eq_ok] at hr
      obtain ⟨s4, hfree4, hr⟩ := hr
      cases hr
      rcases freeBlockFromInode_cases h.geo hfree2 with ⟨hcon, -⟩ | ⟨-, hgave⟩
      · exact absurd hcon h0
      · exact ⟨rfl, hfull, undone_dropped h hn hi h0 (hd.trans (hdz rfl)) hgave hfree4⟩
  · right
    have hnn : 0 ≤ r1 := by
      have hpos := ht.pos
      omega
    have htouch1 := ht.touch hi
    simp only [deref_eq_ok.2 htouch1.new, ok_bind, hnn, if_true, bind_eq_ok] at hr
    obtain ⟨s2, hw2, s3, hw3, hr⟩ := hr
    cases hr
    rw [← ha] at hw2
    rw [← hc] at hw3
    exact placed_leaf h hn hi h0 hd hentry ht (writeBlocks_spec hw2).2 (writeBlocks_spec hw3).2

/-- a block behind the double indirect block, which exists; `dropped` if it was just obtained -/
theorem allocateInDindirect_spec {k : ℕ} {a c : Fin 2048} (ha : (a : ℕ) = k / 2048) (hc : (c : ℕ) = k % 2048)
    {dblk : Lib.Mem} {dropped : Bool} (h : Core s n ∅) (hn : s.alloc n) (hi : s.find n = some i)
    (h0 : i.dinode.iDindirect ≠ 0) (hd : s.dev.blocks i.dinode.iDindirect = dblk)
    (hdz : dropped = true → dblk = zeroMem) (hempty : s.tree n (.leaf a c) = 0)
    (hstack : r = -ENOSPC → ∀ j, s.stack j = 0) (hr : allocateInDindirect s n k dblk dropped = .ok (r, s')) :
    (r = -ENOSPC ∧ s.sb.maxFsBlocks ≤ s.sb.usedBlockCount ∧ s' = s) ∨
      (r = -ENOSPC ∧ s.tree n (.dindE a) = 0 ∧ s.sb.usedBlockCount + 1 = s.sb.maxFsBlocks ∧
        ∃ i', Undone s s' n i i' dropped) ∨
      ∃ i', Placed s s' n i i' (.leaf a c) r := by
  have hentry : s.tree n (.dindE a) = s32At dblk (4 * (k / 2048)) := by
    rw [tree_of_find hi, ← hd, ← ha]
    exact entryOf_of_ne h0 a
  unfold allocateInDindirect at hr
  split_ifs at hr with hq0
  · -- a fresh second-level block
    rw [bind_eq_ok] at hr
    obtain ⟨⟨q, s1⟩, halloc, hr⟩ := hr
    rcases h.allocBlockForInode halloc with ⟨rfl, hs1, hfull⟩ | ht
    · cases hr
      exact Or.inl ⟨rfl, hfull, hs1⟩
    · right
      have hpos := ht.pos
      have hnn : ¬q < 0 := by omega
      simp only [hnn, if_false] at hr
      obtain ⟨hcore1, htrees1⟩ := h.took hn hi ht
      have htouch1 := ht.touch hi
      have hn1 := htouch1.alloc.2 hn
      have hD146 : 146 ≤ i.dinode.iDindirect := by
        have := h.acc.pos_of_tree hn (σ := .dind) (by rw [tree_of_find hi]; exact h0)
        rwa [tree_of_find hi] at this
      rcases allocateLeaf_new ha hc hcore1 hn1 htouch1.new h0 ((ht.blocks i.dinode.iDindirect (by omega)).trans hd) hdz
        (by rw [htrees1 n hn, hentry, hq0]) hr with ⟨hr1, hfull, i', hundo⟩ | ⟨i', hplaced⟩
      · left
        have hused := ht.used
        have hmax := ht.frame.max
        have hroom := ht.room
        refine ⟨hr1, by rw [hentry, hq0], by omega, i', htouch1.trans hundo.touch, hundo.core, hundo.size, hundo.dirty,
          ?_, ?_, ?_, ?_⟩
        · intro m hm hmn
          rw [hundo.other m (htouch1.alloc.2 hm) hmn, htrees1 m hm]
        · rw [hundo.self, htrees1 n hn]
        · intro x hx
          rw [hundo.blocks x hx, ht.blocks x hx]
        · exact (ht.keeps h hn hi).log.trans
            (hundo.log.mono fun _ hx => (own_iff ht.frame fun m hm _ => htrees1 m hm).1 hx)
      · right
        exact ⟨i', hplaced.after htouch1 rfl (ht.keeps h hn hi) (fun τ hτ => absurd (by rw [htrees1 n hn]) hτ) hempty⟩
  · -- the second-level block exists
    have hfalse : dropped = false := by
      cases dropped with
      | false => rfl
      | true =>
        rw [hdz rfl, s32At_zeroMem] at hq0
        exact absurd rfl hq0
    subst hfalse
    rw [bind_eq_ok] at hr
    obtain ⟨blk, hread, hr⟩ := hr
    rcases allocateLeaf_old ha hc h hn hi h0 hd hq0 (readBlocks_eq_ok.1 hread).2 hempty hstack hr with hfail | hplaced
    · exact Or.inl hfail
    · exact Or.inr (Or.inr hplaced)

theorem allocateDindirect_spec {k : ℕ} {a c : Fin 2048} (ha : (a : ℕ) = k / 2048) (hc : (c : ℕ) = k % 2048)
    (h : Core s n ∅) (hn : s.alloc n) (hi : s.find n = some i) (hempty : s.tree n (.leaf a c) = 0)
    (hstack : r = -ENOSPC → ∀ j, s.stack j = 0) (hr : allocateDindirect s n k = .ok (r, s')) :
    (r = -ENOSPC ∧ ∃ i', Failed s s' n i i' (.leaf a c)) ∨ ∃ i', Placed s s' n i i' (.leaf a c) r := by
  have htreeD : s.tree n .dind = i.dinode.iDindirect := by rw [tree_of_find hi]; rfl
  unfold allocateDindirect at hr
  rw [deref_eq_ok.2 hi, ok_bind] at hr
  split_ifs at hr with h0
  · -- a fresh double indirect block
    have hdindE : s.tree n (.dindE a) = 0 := by
      rw [tree_of_find hi]
      simp only [tree, h0, entryOf_zero]
    have hcost : cost (s.tree n) (.leaf a c) = 3 := by simp [cost, path, htreeD, h0, hdindE, hempty]
    rw [bind_eq_ok] at hr
    obtain ⟨⟨p, s1⟩, halloc, hr⟩ := hr
    rcases h.allocBlockForInode halloc with ⟨rfl, hs1, hfull⟩ | ht
    · left
      cases hr
      rw [hs1]
      exact ⟨rfl, i, failed_of_full h hi hfull hempty (by simp [path])⟩
    · have hpos := ht.pos
      have hnn : ¬p < 0 := by omega
      simp only [hnn, if_false] at hr
      obtain ⟨hcore1, htrees1⟩ := h.took hn hi ht
      have htouch1 := ht.touch hi
      have hn1 := htouch1.alloc.2 hn
      have hp0 : s.dev.blocks p = zeroMem := h.acc.zero p hpos (Or.inl ht.fresh)
      have hz1 : s1.dev.blocks p = zeroMem := by rw [ht.blocks p (by omega), hp0]
      have hempty1 : s1.tree n .dind = 0 := by rw [htrees1 n hn, htreeD, h0]
      have htree := tree_set_dind (d := { i.dinode with blockCount := i.dinode.blockCount + 1 }) h0 hz1
      rw [← tree_of_find htouch1.new] at htree
      have hcore2 := hcore1.setPtr (f := fun d => { d with iDindirect := p }) hn1 htouch1.new rfl
        (Finset.mem_insert_self p ∅) rfl rfl rfl hempty1 htree
      rw [erase_insert_self] at hcore2
      have htouch2 := touch_setDinode (f := fun d => { d with iDindirect := p }) htouch1.new rfl rfl fun hc => by
        cases hc
      have htouch := htouch1.trans htouch2
      have hkeeps : Keeps s (s1.setDinode n fun d => { d with iDindirect := p }) n :=
        (ht.keeps h hn hi).trans (keeps_setDinode htouch1.new hempty1 htree) ht.frame
      have hself : (s1.setDinode n fun d => { d with iDindirect := p }).tree n = update (s.tree n) .dind p := by
        rw [tree_of_find htouch2.new, ← htrees1 n hn]
        exact htree
      have hn2 := htouch.alloc.2 hn
      have hstack2 : r = -ENOSPC → ∀ j, (s1.setDinode n fun d => { d with iDindirect := p }).stack j = 0 := by
        intro hr j
        rw [htouch.frame.stack]
        exact hstack hr j
      have hused : s1.sb.usedBlockCount = s.sb.usedBlockCount + 1 := ht.used
      have hmax : s1.sb.maxFsBlocks = s.sb.maxFsBlocks := ht.frame.max
      have hroom := ht.room
      rcases allocateInDindirect_spec ha hc hcore2 hn2 htouch2.new (by simp only; omega) hz1 (fun _ => rfl)
        (by rw [hself, update_of_ne (by simp), hempty]) hstack2 hr
        with ⟨hr1, hfull, hs'⟩ | ⟨hr1, -, hfull, i', hundo⟩ | hplaced
      · -- the double indirect block stays
        left
        have hfull' : s1.sb.maxFsBlocks ≤ s1.sb.usedBlockCount := hfull
        subst hs'
        refine ⟨hr1, _, htouch, hcore2, rfl, fun _ => rfl, fun hc => absurd hc (not_le.2 hroom), hkeeps,
          fun τ hτ => ?_, by omega, fun _ _ _ => by rw [hself, update_self]; omega⟩
        have hτ' : τ = .dind := by
          by_contra hne
          rw [hself, update_of_ne hne] at hτ
          exact hτ rfl
        exact ⟨hτ', by simp [path], by omega⟩
      · -- everything goes back
        left
        have hfull' : s1.sb.usedBlockCount + 1 = s1.sb.maxFsBlocks := hfull
        have hself' : s'.tree n = s.tree n := by
          rw [hundo.self, if_pos rfl, hself, update_idem, ← h0, ← htreeD, update_eq_self]
        refine ⟨hr1, i', htouch.trans hundo.touch, hundo.core, hundo.size, fun _ => hundo.dirty,
          fun hc => absurd hc (not_le.2 hroom), ?_, fun τ hτ => ?_, by omega, fun _ _ hc => by omega⟩
        · refine Keeps.of_eq (fun m hm => ?_) hn (fun x hx => ?_) ?_ h
          · by_cases hmn : m = n
            · rw [hmn, hself']
            · rw [hundo.other m (htouch.alloc.2 hm) hmn, hkeeps.other m hm hmn]
          · have hx146 := hx.1
            rw [hundo.blocks x (by omega)]
            exact ht.blocks x (by omega)
          · exact hkeeps.log.trans (hundo.log.mono fun _ hx => (own_iff htouch.frame hkeeps.other).1 hx)
        · rw [hself'] at hτ
          exact absurd rfl hτ
      · obtain ⟨i', hplaced⟩ := hplaced
        exact Or.inr ⟨i', hplaced.after htouch rfl hkeeps (way_of_update hself (by simp [path])) hempty⟩
  · -- the double indirect block exists
    rw [bind_eq_ok] at hr
    obtain ⟨dblk, hread, hr⟩ := hr
    rcases allocateInDindirect_spec ha hc h hn hi h0 (readBlocks_eq_ok.1 hread).2
      (fun hcon => by cases hcon) hempty hstack hr
      with ⟨hr1, hfull, hs'⟩ | ⟨hr1, hdindE, hfull, i', hundo⟩ | hplaced
    · left
      subst hs'
      exact ⟨hr1, i, failed_of_full h hi hfull hempty (by simp [path])⟩
    · left
      have hself' : s'.tree n = s.tree n := hundo.self
      have hcost : cost (s.tree n) (.leaf a c) = 2 := by simp [cost, path, htreeD, h0, hdindE, hempty]
      refine ⟨hr1, i', hundo.touch, hundo.core, hundo.size, fun _ => hundo.dirty, fun hc => absurd hc (by omega),
        ?_, fun τ hτ => ?_, by omega, fun _ hc => absurd (htreeD.symm.trans hc) h0⟩
      · refine Keeps.of_eq (fun m hm => ?_) hn (fun x hx => ?_) hundo.log h
        · by_cases hmn : m = n
          · rw [hmn, hself']
          · exact hundo.other m hm hmn
        · have hx146 := hx.1
          exact hundo.blocks x (by omega)
      · rw [hself'] at hτ
        exact absurd rfl hτ
    · exact Or.inr hplaced

/-! ## All blocks -/

theorem slotOf_mem_path (k : ℕ) : slotOf k ∈ path (slotOf k) := by
  unfold slotOf
  split_ifs <;> simp [path]

theorem allocateNew_spec {k : ℕ} (hk : k < maxBlockNr) (h : Core s n ∅) (hn : s.alloc n) (hi : s.find n = some i)
    (hempty : s.tree n (slotOf k) = 0) (hstack : r = -ENOSPC → 10 ≤ k → ∀ j, s.stack j = 0)
    (hr : allocateNew s n k = .ok (r, s')) :
    (r = -ENOSPC ∧ ∃ i', Failed s s' n i i' (slotOf k)) ∨ ∃ i', Placed s s' n i i' (slotOf k) r := by
  unfold allocateNew at hr
  split_ifs at hr with h1 h2
  · rw [slotOf_direct h1]
    exact allocateDirect_spec h hn hi hr
  · rw [slotOf_indE h1 h2]
    exact allocateIndirect_spec (k := ⟨k - 10, h2⟩) h hn hi (fun hc => hstack hc (by omega)) hr
  · obtain ⟨a, c, ha, hc, hslot⟩ := slotOf_leaf h1 h2 hk
    rw [hslot] at hempty ⊢
    exact allocateDindirect_spec ha hc h hn hi hempty (fun hc => hstack hc (by omega)) hr

/-- a block that is there already -/
theorem placed_of_tree (h : Core s n ∅) (hn : s.alloc n) (hi : s.find n = some i) (h0 : s.tree n σ ≠ 0)
    (hins : ∀ τ ∈ path σ, τ ≠ σ → s.tree n τ < s.dev.nblocks) : Placed s s n i i σ (s.tree n σ) where
  touch := Touch.refl hi
  core := h
  size := rfl
  keeps := Keeps.refl s n
  pos := by
    have hpos := h.acc.pos_of_tree hn h0
    omega
  target := rfl
  way := fun τ hτ => absurd rfl hτ
  inside := hins
  same := fun _ => rfl

/-- **`testfs_allocate_block`.** A block past the maximum is refused; else the block has or gets a physical block, and
what is in `block` is what the file has there; or there is no space for it. -/
theorem allocateBlock_spec {logNr : ℤ} {blk : Lib.Mem} (h : Core s n ∅) (hn : s.alloc n) (hi : s.find n = some i)
    (hins : Inside s fun _ => False) (hstack : r = -ENOSPC → 10 ≤ logNr → ∀ j, s.stack j = 0)
    (hr : allocateBlock s n logNr = .ok (r, blk, s')) :
    0 ≤ logNr ∧ ((maxBlockNr ≤ logNr ∧ r = -EFBIG ∧ s' = s) ∨
      (logNr < maxBlockNr ∧ r = -ENOSPC ∧ ∃ i', Failed s s' n i i' (slotOf logNr.toNat)) ∨
      (logNr < maxBlockNr ∧ blk = blockAt s.dev.blocks (s.tree n (slotOf logNr.toNat)) ∧
        ∃ i', Placed s s' n i i' (slotOf logNr.toNat) r)) := by
  unfold allocateBlock at hr
  split_ifs at hr with hmax
  · cases hr
    exact ⟨by rw [maxBlockNr_eq] at hmax; omega, Or.inl ⟨hmax, rfl, rfl⟩⟩
  · rw [deref_eq_ok.2 hi, ok_bind, bind_eq_ok] at hr
    obtain ⟨⟨p, blk'⟩, hread, hr⟩ := hr
    have hnonneg : ∀ σ, 0 ≤ tree s.dev.blocks i.dinode σ := fun σ => by
      rw [← tree_of_find hi]
      exact h.acc.nonneg_of_tree hn σ
    obtain ⟨hlog, ⟨hcon, -⟩ | ⟨hlt, hp, hblk⟩⟩ := readBlock_spec hnonneg hread
    · exact absurd hcon hmax
    rw [← tree_of_find hi] at hp
    refine ⟨hlog, Or.inr ?_⟩
    dsimp only at hr
    split_ifs at hr with hp0
    · right
      cases hr
      refine ⟨hlt, by rw [hblk, hp], i, ?_⟩
      rw [hp]
      refine placed_of_tree h hn hi (by rw [← hp]; exact hp0) fun τ hτ hne => ?_
      have hτ0 : s.tree n τ ≠ 0 := fun hz => hp0 (hp.trans (tree_eq_zero_of_path hτ hz))
      by_cases hd : τ = .dind
      · subst hd
        obtain ⟨a, c, hslot⟩ : ∃ a c, slotOf logNr.toNat = .leaf a c := by
          generalize slotOf logNr.toNat = σ at hτ hne
          cases σ <;> simp_all [path]
        have hpos := h.acc.pos_of_tree hn hτ0
        rw [tree_of_find hi] at hpos ⊢
        exact dindirect_lt_of_readBlock hslot hlt (by simp only [tree] at hpos; omega) hread
      · exact hins n τ hn hd (by simp) hτ0
    · rw [bind_eq_ok] at hr
      obtain ⟨⟨p', s1⟩, hnew, hr⟩ := hr
      cases hr
      have hempty : s.tree n (slotOf logNr.toNat) = 0 := by rw [← hp]; exact not_not.1 hp0
      rcases allocateNew_spec (by omega) h hn hi hempty (fun hc hk => hstack hc (by omega)) hnew
        with ⟨hr1, hfail⟩ | hplaced
      · exact Or.inl ⟨hlt, hr1, hfail⟩
      · exact Or.inr ⟨hlt, by rw [hblk, hp], hplaced⟩

end OsLab.Testfs
