/-
What a failed allocation or a failed write leaves behind.

`testfs_allocate_block` takes up to three blocks and gives back those it took when a later one cannot be had. It does so
on every path but two (`failed_allocation_undone`):
- the first block behind the last indirect block: with one block left, the double indirect block is taken and kept;
- a block whose indirect block is there already: `indirect_allocated` is read before anything was assigned to it, and
  where it reads as something else than 0, the indirect block that is in use is freed.
The invariant `Metered` holds on every run, whatever is read from memory that was not set, so both results are about
every state a command can pass through.
-/
import Mathlib.Tactic
import OsLab.Testfs.Runs

namespace OsLab.Testfs

open OsLab.Lib Function State

variable {s s' s0 s1 t u : State} {n m b r p q : ℤ} {i i' i1 : Inode} {F : Finset ℤ} {k : Bool}
  {fsSizeMb : ℕ} {stack : ℕ → ℤ}

/-! ## The counter of the blocks -/

/-- the counter of the blocks in use counts the bits of the freemap -/
structure Metered (s : State) : Prop where
  geo : Geo s
  used : s.sb.usedBlockCount = s.blockFreemap.bits.card
  limit : s.sb.usedBlockCount ≤ s.sb.maxFsBlocks

theorem Core.metered (h : Core s n F) : Metered s := ⟨h.geo, h.acc.used, h.acc.limit⟩

namespace Metered

/-- a change of neither the super block nor the freemaps -/
theorem congr (h : Metered s) (hsb : t.sb = s.sb) (hinodes : t.inodeFreemap = s.inodeFreemap)
    (hblocks : t.blockFreemap = s.blockFreemap) (hgrows : s.dev.nblocks ≤ t.dev.nblocks) : Metered t := by
  refine ⟨⟨?_, ?_, ?_, ?_, ?_, h.geo.nblocks.trans hgrows, ?_, ?_⟩, ?_, ?_⟩
  · rw [hsb]; exact h.geo.inodeFreemapStart
  · rw [hsb]; exact h.geo.blockFreemapStart
  · rw [hsb]; exact h.geo.inodeBlocksStart
  · rw [hsb]; exact h.geo.dataBlocksStart
  · rw [hsb]; exact h.geo.maxBlocks
  · rw [hinodes]; exact h.geo.inodeBits
  · rw [hblocks]; exact h.geo.blockBits
  · rw [hsb, hblocks]; exact h.used
  · rw [hsb]; exact h.limit

theorem allocBlock (h : Metered s) (ha : allocBlock s = .ok (r, t)) : Metered t := by
  rcases allocBlock_cases ha with ⟨-, hs, -⟩ | ⟨idx, bm, hbm, hroom, -, hs⟩
  · exact hs ▸ h
  · obtain ⟨-, -, -, hbits, -⟩ := Bitmap.alloc_eq_some hbm
    obtain ⟨hins, hnot⟩ := Bitmap.bits_of_alloc hbm
    have hused := h.used
    subst hs
    refine ⟨⟨h.geo.1, h.geo.2, h.geo.3, h.geo.4, h.geo.5, ?_, h.geo.7, hbits.trans h.geo.8⟩, ?_, hroom⟩
    · exact (h.geo.nblocks.trans (le_max_left _ _)).trans (le_max_left _ _)
    · change s.sb.usedBlockCount + 1 = bm.bits.card
      rw [hins, Finset.card_insert_of_notMem hnot, hused]

theorem freeBlock (h : Metered s) (hf : freeBlock s b = .ok t) : Metered t := by
  obtain ⟨-, bm, hbm, hpos, hs⟩ := freeBlock_cases h.geo hf
  obtain ⟨-, -, hbits, -⟩ := Bitmap.unmark_eq_ok hbm
  obtain ⟨hdel, hmem⟩ := Bitmap.bits_of_unmark hbm
  have hused := h.used
  have hlimit := h.limit
  have hcard := Finset.card_erase_add_one hmem
  subst hs
  refine ⟨⟨h.geo.1, h.geo.2, h.geo.3, h.geo.4, h.geo.5, ?_, h.geo.7, hbits.trans h.geo.8⟩, ?_, ?_⟩
  · exact ((h.geo.nblocks.trans (le_max_left _ _)).trans (le_max_left _ _)).trans (le_max_left _ _)
  · change s.sb.usedBlockCount - 1 = bm.bits.card
    rw [hdel]
    omega
  · change s.sb.usedBlockCount - 1 ≤ s.sb.maxFsBlocks
    omega

theorem getInodeFreemap (h : Metered s) (hr : getInodeFreemap s = .ok (r, t)) : Metered t := by
  unfold Testfs.getInodeFreemap at hr
  obtain ⟨a, ha, hr⟩ := bind_eq_ok.1 hr
  cases a with
  | none =>
    cases hr
    exact h
  | some q =>
    cases hr
    obtain ⟨-, -, -, hbits, -⟩ := Bitmap.alloc_eq_some ha
    refine ⟨⟨h.geo.1, h.geo.2, h.geo.3, h.geo.4, h.geo.5, ?_, hbits.trans h.geo.7, h.geo.8⟩, h.used, h.limit⟩
    exact (h.geo.nblocks.trans (le_max_left _ _)).trans (le_max_left _ _)

theorem putInodeFreemap (h : Metered s) (hr : putInodeFreemap s n = .ok t) : Metered t := by
  unfold Testfs.putInodeFreemap at hr
  obtain ⟨bm, hbm, hr⟩ := bind_eq_ok.1 hr
  dsimp only at hr
  split_ifs at hr with hpos
  cases hr
  obtain ⟨-, -, hbits, -⟩ := Bitmap.unmark_eq_ok hbm
  refine ⟨⟨h.geo.1, h.geo.2, h.geo.3, h.geo.4, h.geo.5, ?_, hbits.trans h.geo.7, h.geo.8⟩, h.used, h.limit⟩
  exact (h.geo.nblocks.trans (le_max_left _ _)).trans (le_max_left _ _)

/-- every change keeps the counter -/
theorem prim (hp : Prim k s t) (h : Metered s) : Metered t := by
  cases hp with
  | modify nr f hf => exact h.congr rfl rfl rfl le_rfl
  | write start block hpos => exact h.congr rfl rfl rfl (le_max_left _ _)
  | allocBlock ha => exact h.allocBlock ha
  | freeBlock hf => exact h.freeBlock hf
  | getInodeFreemap hr => exact h.getInodeFreemap hr
  | putInodeFreemap hr => exact h.putInodeFreemap hr
  | stack f => exact h.congr rfl rfl rfl le_rfl
  | fails l => exact h.congr rfl rfl rfl le_rfl
  | print p => exact h.congr rfl rfl rfl le_rfl
  | curDir nr => exact h.congr rfl rfl rfl le_rfl
  | getInode hget =>
    unfold Testfs.getInode at hget
    split at hget
    · cases hget
      exact h.congr rfl rfl rfl le_rfl
    · obtain ⟨blk, -, hget⟩ := bind_eq_ok.1 hget
      cases hget
      exact h.congr rfl rfl rfl le_rfl
  | putInode hput =>
    unfold Testfs.putInode at hput
    obtain ⟨i, -, hput⟩ := bind_eq_ok.1 hput
    split_ifs at hput
    · cases hput
      exact h.congr rfl rfl rfl le_rfl
    · cases hput
      exact h.congr rfl rfl rfl le_rfl

/-- an allocation fails when the file system is full, and only then -/
theorem allocBlockForInode (h : Metered s) (ha : allocBlockForInode s n = .ok (r, t)) :
    (r = -ENOSPC ∧ t = s ∧ s.sb.maxFsBlocks ≤ s.sb.usedBlockCount) ∨ Took s t n r := by
  rcases allocBlockForInode_cases h.geo ha with ⟨hr, hs, hfull⟩ | ht
  · exact Or.inl ⟨hr, hs, hfull.elim id fun hnone => max_le_of_alloc_none h.geo h.used hnone⟩
  · exact Or.inr ht

end Metered

/-- every state of a run, and every state a command passes through -/
theorem metered_of_run (hk : validSize fsSizeMb) (h0 : start fsSizeMb stack = .ok s0) (hrun : Run step anyStep s0 s)
    (hm : Moves true s t) : Metered t := by
  obtain ⟨hg, -, -⟩ := start_graph hk h0
  have hs : Metered s := run_inv (fun _ _ => Metered.prim) hrun hg.sound.core.metered
  exact hm.inv (fun _ _ => Metered.prim) hs

/-! ## Blocks that were taken and not yet used -/

/-- the failed call left the pointers and the accounts of inode `n` as they were, and every block that was in use -/
structure Restored (s s' : State) (n : ℤ) : Prop where
  iBlockNr : (s'.dinode n).iBlockNr = (s.dinode n).iBlockNr
  iIndirect : (s'.dinode n).iIndirect = (s.dinode n).iIndirect
  iDindirect : (s'.dinode n).iDindirect = (s.dinode n).iDindirect
  blockCount : (s'.dinode n).blockCount = (s.dinode n).blockCount
  freemap : s'.blockFreemap.bits = s.blockFreemap.bits
  used : s'.sb.usedBlockCount = s.sb.usedBlockCount
  kept : ∀ b, s.busy b → s'.dev.blocks b = s.dev.blocks b

theorem Restored.refl (s : State) (n : ℤ) : Restored s s n := ⟨rfl, rfl, rfl, rfl, rfl, rfl, fun _ _ => rfl⟩

/-- `t` is `s` with the blocks `F` taken for inode `n`, which is `i1` now -/
structure Lent (s t : State) (n : ℤ) (i1 : Inode) (F : Finset ℤ) : Prop where
  metered : Metered t
  find : t.find n = some i1
  count : i1.dinode.blockCount = (s.dinode n).blockCount + F.card
  free : ∀ x ∈ F, 146 ≤ x ∧ ¬s.busy x
  busy : ∀ x, t.busy x ↔ s.busy x ∨ x ∈ F
  used : t.sb.usedBlockCount = s.sb.usedBlockCount + F.card
  max : t.sb.maxFsBlocks = s.sb.maxFsBlocks
  kept : ∀ x, s.busy x → t.dev.blocks x = s.dev.blocks x

namespace Lent

theorem refl (h : Metered s) (hi : s.find n = some i) : Lent s s n i ∅ where
  metered := h
  find := hi
  count := by rw [dinode_of_find hi, Finset.card_empty, Nat.cast_zero, add_zero]
  free := fun x hx => absurd hx (Finset.notMem_empty x)
  busy := fun x => by simp
  used := rfl
  max := rfl
  kept := fun _ _ => rfl

theorem took (h : Lent s t n i1 F) (ht : Took t u n b) :
    Lent s u n { i1 with dinode := { i1.dinode with blockCount := i1.dinode.blockCount + 1 }, dirty := true }
      (insert b F) := by
  have hnot : ¬(s.busy b ∨ b ∈ F) := fun hb => ht.fresh ((h.busy b).2 hb)
  have hcard : (insert b F).card = F.card + 1 := Finset.card_insert_of_notMem fun hb => hnot (Or.inr hb)
  have hused := h.used
  refine ⟨⟨ht.frame.geo h.metered.geo, ?_, ?_⟩, ?_, ?_, ?_, ?_, ?_, ?_, ?_⟩
  · rw [ht.used, ht.card, h.metered.used]
  · rw [ht.used, ht.frame.max]
    exact ht.room
  · rw [ht.find, if_pos rfl, h.find]
    rfl
  · change i1.dinode.blockCount + 1 = _
    rw [h.count, hcard]
    push_cast
    ring
  · intro x hx
    rcases Finset.mem_insert.1 hx with rfl | hx
    · exact ⟨ht.pos, fun hb => hnot (Or.inl hb)⟩
    · exact h.free x hx
  · intro x
    rw [ht.busy, h.busy, Finset.mem_insert]
    tauto
  · rw [ht.used, hused, hcard, add_assoc]
  · rw [ht.frame.max, h.max]
  · intro x hx
    rw [ht.blocks x (by have := hx.1; omega), h.kept x hx]

theorem gave (h : Lent s t n i1 F) (hb : b ∈ F) (ht : Gave t u n b) :
    Lent s u n { i1 with dinode := { i1.dinode with blockCount := i1.dinode.blockCount - 1 }, dirty := true }
      (F.erase b) := by
  have hcard := Finset.card_erase_add_one hb
  have hused := h.used
  have hgave := ht.used
  have hlimit := h.metered.limit
  refine ⟨⟨ht.frame.geo h.metered.geo, ?_, ?_⟩, ?_, ?_, ?_, ?_, ?_, ?_, ?_⟩
  · have hbits := ht.card
    have hmetered := h.metered.used
    omega
  · rw [ht.frame.max]
    omega
  · rw [ht.find, if_pos rfl, h.find]
    rfl
  · change i1.dinode.blockCount - 1 = _
    rw [h.count, ← hcard]
    push_cast
    ring
  · exact fun x hx => h.free x (Finset.mem_of_mem_erase hx)
  · intro x
    rw [ht.busy, h.busy, Finset.mem_erase]
    have hfree := (h.free b hb).2
    constructor
    · rintro ⟨hx | hx, hne⟩
      · exact Or.inl hx
      · exact Or.inr ⟨hne, hx⟩
    · rintro (hx | ⟨hne, hx⟩)
      · exact ⟨Or.inl hx, fun hc => hfree (hc ▸ hx)⟩
      · exact ⟨Or.inr hx, hne⟩
  · omega
  · rw [ht.frame.max, h.max]
  · intro x hx
    rw [ht.blocks x (by have := hx.1; omega) fun hc => (h.free b hb).2 (hc ▸ hx), h.kept x hx]

/-- a change of the pointers -/
theorem setDinode {f : Dinode → Dinode} (h : Lent s t n i1 F) (hf : (f i1.dinode).blockCount = i1.dinode.blockCount) :
    Lent s (t.setDinode n f) n { i1 with dinode := f i1.dinode } F where
  metered := h.metered.congr rfl rfl rfl le_rfl
  find := by
    rw [find_setDinode, if_pos rfl, h.find]
    rfl
  count := hf.trans h.count
  free := h.free
  busy := h.busy
  used := h.used
  max := h.max
  kept := h.kept

/-- reading what was not set -/
theorem read (h : Lent s t n i1 F) (assigned : Bool) : Lent s (indirectAllocated t assigned).2 n i1 F := by
  cases assigned <;> exact ⟨h.metered.congr rfl rfl rfl le_rfl, h.find, h.count, h.free, h.busy, h.used, h.max, h.kept⟩

/-- with nothing lent and the pointers in place -/
theorem restored (h : Lent s t n i1 ∅) (hblock : i1.dinode.iBlockNr = (s.dinode n).iBlockNr)
    (hind : i1.dinode.iIndirect = (s.dinode n).iIndirect) (hdind : i1.dinode.iDindirect = (s.dinode n).iDindirect) :
    Restored s t n := by
  have hdinode : t.dinode n = i1.dinode := dinode_of_find h.find
  refine ⟨?_, ?_, ?_, ?_, ?_, ?_, h.kept⟩
  · rw [hdinode, hblock]
  · rw [hdinode, hind]
  · rw [hdinode, hdind]
  · rw [hdinode, h.count, Finset.card_empty, Nat.cast_zero, add_zero]
  · ext k
    have hiff := h.busy (146 + k)
    simpa [State.busy] using hiff
  · rw [h.used, Finset.card_empty, add_zero]

/-- a block that was in use was freed -/
theorem not_restored (h : Lent s t n i1 ∅) (ht : Gave t u n b) (hused : s'.sb.usedBlockCount = u.sb.usedBlockCount) :
    ¬Restored s s' n := by
  intro hc
  have h1 := h.used
  have h2 := ht.used
  have h3 := hc.used
  rw [Finset.card_empty] at h1
  omega

end Lent

/-! ## The branches of testfs_allocate_block -/

theorem fst_indirectAllocated (s : State) (assigned : Bool) :
    (indirectAllocated s assigned).1 = true ↔ assigned = true ∨ s.stack 0 ≠ 0 := by
  cases assigned with
  | true => exact iff_of_true rfl (Or.inl rfl)
  | false =>
    change decide (s.stack 0 ≠ 0) = true ↔ _
    rw [decide_eq_true_eq, or_iff_right (by decide)]

theorem allocateDirect_undone {k : Fin 10} (h : Metered s) (hr : allocateDirect s n k = .ok (r, s')) (hneg : r < 0) :
    s' = s := by
  unfold allocateDirect at hr
  obtain ⟨i, -, hr⟩ := bind_eq_ok.1 hr
  split_ifs at hr with hzero
  obtain ⟨⟨r1, s1⟩, h1, hr⟩ := bind_eq_ok.1 hr
  rcases h.allocBlockForInode h1 with ⟨-, hs, -⟩ | ht
  · dsimp only at hr
    split_ifs at hr
    · cases hr
      omega
    · cases hr
      exact hs
  · have hpos := ht.pos
    dsimp only at hr
    rw [if_pos (by omega)] at hr
    cases hr
    omega

/-- what is undone when no block can be had for an entry of the indirect block -/
theorem allocateInIndirect_fails {k : ℕ} {blk : Lib.Mem} {assigned : Bool} (h : Metered s) (hi : s.find n = some i)
    (hr : allocateInIndirect s n k blk assigned = .ok (r, s')) (hneg : r < 0) :
    if (indirectAllocated s assigned).1 then
      ∃ t, freeBlockFromInode (indirectAllocated s assigned).2 n i.dinode.iIndirect = .ok t ∧
        s' = t.setDinode n fun d => { d with iIndirect := 0 }
    else s' = (indirectAllocated s assigned).2 := by
  unfold allocateInIndirect at hr
  split_ifs at hr with hzero
  obtain ⟨⟨r1, s1⟩, h1, hr⟩ := bind_eq_ok.1 hr
  rcases h.allocBlockForInode h1 with ⟨hr1, hs, -⟩ | ht
  · dsimp only at hr
    rw [hs, deref_eq_ok.2 hi, ok_bind, if_neg (by rw [hr1]; decide)] at hr
    split_ifs at hr with hall
    · obtain ⟨t, ht, hr⟩ := bind_eq_ok.1 hr
      cases hr
      rw [if_pos hall]
      exact ⟨t, ht, rfl⟩
    · cases hr
      rw [if_neg hall]
  · have hpos := ht.pos
    obtain ⟨i1, -, hr⟩ := bind_eq_ok.1 hr
    rw [if_pos (by omega)] at hr
    obtain ⟨t, -, hr⟩ := bind_eq_ok.1 hr
    cases hr
    omega

/-- A block that was taken for the indirect block is given back; the indirect block that was there stays if
`indirect_allocated` reads as 0. -/
theorem allocateIndirect_undone {k : ℕ} (h : Metered s) (hi : s.find n = some i)
    (hr : allocateIndirect s n k = .ok (r, s')) (hneg : r < 0) :
    Restored s s' n ↔ (i.dinode.iIndirect ≠ 0 → s.stack 0 = 0) := by
  unfold allocateIndirect at hr
  rw [deref_eq_ok.2 hi, ok_bind] at hr
  have hold : s.dinode n = i.dinode := dinode_of_find hi
  split_ifs at hr with hzero
  · refine iff_of_true ?_ fun hc => absurd hzero hc
    obtain ⟨⟨p, s1⟩, h1, hr⟩ := bind_eq_ok.1 hr
    rcases h.allocBlockForInode h1 with ⟨hr1, hs, -⟩ | ht
    · dsimp only at hr
      rw [if_pos (by rw [hr1]; decide)] at hr
      cases hr
      exact hs ▸ Restored.refl s n
    · have hpos := ht.pos
      dsimp only at hr
      rw [if_neg (by omega)] at hr
      have hlent := ((Lent.refl h hi).took ht).setDinode (f := fun d => { d with iIndirect := p }) rfl
      have hundo := allocateInIndirect_fails hlent.metered hlent.find hr hneg
      rw [if_pos ((fst_indirectAllocated _ _).2 (Or.inl rfl))] at hundo
      obtain ⟨t, hfree, hs'⟩ := hundo
      obtain ⟨hp, -⟩ | ⟨-, hgave⟩ := freeBlockFromInode_cases hlent.metered.geo hfree
      · exact absurd hp (by dsimp only; omega)
      · have hback := ((hlent.read true).gave (Finset.mem_insert_self p ∅) hgave).setDinode
          (f := fun d => { d with iIndirect := 0 }) rfl
        rw [erase_insert_self, ← hs'] at hback
        refine hback.restored ?_ ?_ ?_
        · rw [hold]
        · rw [hold, hzero]
        · rw [hold]
  · obtain ⟨blk, -, hr⟩ := bind_eq_ok.1 hr
    have hundo := allocateInIndirect_fails h hi hr hneg
    have hlent := (Lent.refl h hi).read false
    by_cases hjunk : s.stack 0 = 0
    · refine iff_of_true ?_ fun _ => hjunk
      rw [if_neg fun hc => ((fst_indirectAllocated _ _).1 hc).elim (by decide) fun hc => hc hjunk] at hundo
      rw [hundo]
      exact hlent.restored (by rw [hold]) (by rw [hold]) (by rw [hold])
    · refine iff_of_false ?_ fun hc => hjunk (hc hzero)
      rw [if_pos ((fst_indirectAllocated _ _).2 (Or.inr hjunk))] at hundo
      obtain ⟨t, hfree, hs'⟩ := hundo
      obtain ⟨hp, -⟩ | ⟨-, hgave⟩ := freeBlockFromInode_cases hlent.metered.geo hfree
      · exact absurd hp hzero
      · exact hlent.not_restored hgave (by rw [hs']; rfl)

/-- what is undone when no data block can be had behind a second-level block -/
theorem allocateLeaf_fails {k : ℕ} {dindirect indirect : Lib.Mem} {dindirectAllocated assigned : Bool} (h : Metered s)
    (hi : s.find n = some i) (hr : allocateLeaf s n k dindirect indirect dindirectAllocated assigned = .ok (r, s'))
    (hneg : r < 0) :
    ∃ t, (if dindirectAllocated then ∃ u, freeBlockFromInode s n i.dinode.iDindirect = .ok u ∧
        t = u.setDinode n fun d => { d with iDindirect := 0 } else t = s) ∧
      if (indirectAllocated t assigned).1 then
        freeBlockFromInode (indirectAllocated t assigned).2 n (s32At dindirect (4 * (k / 2048))) = .ok s'
      else s' = (indirectAllocated t assigned).2 := by
  unfold allocateLeaf at hr
  obtain ⟨⟨r1, s1⟩, h1, hr⟩ := bind_eq_ok.1 hr
  dsimp only at hr
  rcases h.allocBlockForInode h1 with ⟨hr1, hs, -⟩ | ht
  · rw [hs, deref_eq_ok.2 hi, ok_bind, if_neg (by rw [hr1]; decide)] at hr
    -- what follows the first `if`, in both of its branches
    have hrest : ∀ t, (if (indirectAllocated t assigned).1 = true then do
          let s ← freeBlockFromInode (indirectAllocated t assigned).2 n (s32At dindirect (4 * (k / 2048)))
          pure (r1, s)
        else pure (r1, (indirectAllocated t assigned).2)) = .ok (r, s') →
        if (indirectAllocated t assigned).1 then
          freeBlockFromInode (indirectAllocated t assigned).2 n (s32At dindirect (4 * (k / 2048))) = .ok s'
        else s' = (indirectAllocated t assigned).2 := by
      intro t ht
      split_ifs at ht ⊢ with hall
      · obtain ⟨u, hu, ht⟩ := bind_eq_ok.1 ht
        cases ht
        exact hu
      · cases ht
        rfl
    cases dindirectAllocated with
    | true =>
      rw [if_pos rfl] at hr
      obtain ⟨u, hu, hr⟩ := bind_eq_ok.1 hr
      exact ⟨_, ⟨u, hu, rfl⟩, hrest _ hr⟩
    | false =>
      rw [if_neg (by decide)] at hr
      exact ⟨s, rfl, hrest s hr⟩
  · have hpos := ht.pos
    obtain ⟨i1, -, hr⟩ := bind_eq_ok.1 hr
    rw [if_pos (by omega)] at hr
    obtain ⟨t, -, hr⟩ := bind_eq_ok.1 hr
    obtain ⟨u, -, hr⟩ := bind_eq_ok.1 hr
    cases hr
    omega

/-- With a double indirect block in place, a block that was taken for the second-level block is given back. -/
theorem allocateInDindirect_old {k : ℕ} {blk : Lib.Mem} (h : Metered s) (hi : s.find n = some i)
    (hr : allocateInDindirect s n k blk false = .ok (r, s')) (hneg : r < 0) :
    Restored s s' n ↔ (s32At blk (4 * (k / 2048)) ≠ 0 → s.stack 0 = 0) := by
  have hold : s.dinode n = i.dinode := dinode_of_find hi
  unfold allocateInDindirect at hr
  split_ifs at hr with hzero
  · refine iff_of_true ?_ fun hc => absurd hzero hc
    obtain ⟨⟨p, s1⟩, h1, hr⟩ := bind_eq_ok.1 hr
    dsimp only at hr
    rcases h.allocBlockForInode h1 with ⟨hr1, hs, -⟩ | ht
    · rw [if_pos (by rw [hr1]; decide)] at hr
      cases hr
      exact hs ▸ Restored.refl s n
    · have hpos := ht.pos
      have hint : InInt32 p := inInt32_of_busy (ht.frame.geo h.geo) ((ht.busy p).2 (Or.inr rfl))
      rw [if_neg (by omega)] at hr
      have hlent := (Lent.refl h hi).took ht
      obtain ⟨t, hfirst, hundo⟩ := allocateLeaf_fails hlent.metered hlent.find hr hneg
      have hfirst : t = s1 := hfirst
      subst hfirst
      rw [if_pos ((fst_indirectAllocated _ _).2 (Or.inl rfl)), s32At_put32_self hint] at hundo
      obtain ⟨hp, -⟩ | ⟨-, hgave⟩ := freeBlockFromInode_cases hlent.metered.geo hundo
      · omega
      · have hback := (hlent.read true).gave (Finset.mem_insert_self p ∅) hgave
        rw [erase_insert_self] at hback
        exact hback.restored (by rw [hold]) (by rw [hold]) (by rw [hold])
  · obtain ⟨indirect, -, hr⟩ := bind_eq_ok.1 hr
    have hlent := (Lent.refl h hi).read false
    obtain ⟨t, hfirst, hundo⟩ := allocateLeaf_fails h hi hr hneg
    have hfirst : t = s := hfirst
    subst hfirst
    by_cases hjunk : t.stack 0 = 0
    · refine iff_of_true ?_ fun _ => hjunk
      rw [if_neg fun hc => ((fst_indirectAllocated _ _).1 hc).elim (by decide) fun hc => hc hjunk] at hundo
      rw [hundo]
      exact hlent.restored (by rw [hold]) (by rw [hold]) (by rw [hold])
    · refine iff_of_false ?_ fun hc => hjunk (hc hzero)
      rw [if_pos ((fst_indirectAllocated _ _).2 (Or.inr hjunk))] at hundo
      obtain ⟨hp, -⟩ | ⟨-, hgave⟩ := freeBlockFromInode_cases hlent.metered.geo hundo
      · exact absurd hp hzero
      · exact hlent.not_restored hgave rfl

/-- Behind a new double indirect block: if no second-level block can be had, the new block is kept. -/
theorem allocateInDindirect_new {k : ℕ} (hl : Lent s t n i1 {p}) (hp : i1.dinode.iDindirect = p)
    (hblock : i1.dinode.iBlockNr = (s.dinode n).iBlockNr) (hind : i1.dinode.iIndirect = (s.dinode n).iIndirect)
    (hdind : (s.dinode n).iDindirect = 0) (hr : allocateInDindirect t n k zeroMem true = .ok (r, s')) (hneg : r < 0) :
    Restored s s' n ↔ s.sb.usedBlockCount + 1 ≠ s.sb.maxFsBlocks := by
  have hused := hl.used
  have hmax := hl.max
  have hlimit := hl.metered.limit
  have h146 := (hl.free p (Finset.mem_singleton_self p)).1
  rw [Finset.card_singleton] at hused
  unfold allocateInDindirect at hr
  rw [if_pos (s32At_zeroMem _)] at hr
  obtain ⟨⟨q, s1⟩, h1, hr⟩ := bind_eq_ok.1 hr
  dsimp only at hr
  rcases hl.metered.allocBlockForInode h1 with ⟨hr1, hs, hfull⟩ | ht
  · rw [if_pos (by rw [hr1]; decide)] at hr
    cases hr
    refine iff_of_false (fun hc => ?_) fun hc => hc (by omega)
    have hcount := hc.used
    rw [hs] at hcount
    omega
  · have hpos := ht.pos
    have hroom := ht.room
    have hint : InInt32 q := inInt32_of_busy (ht.frame.geo hl.metered.geo) ((ht.busy q).2 (Or.inr rfl))
    have hne : q ≠ p := fun hc => ht.fresh ((hl.busy q).2 (Or.inr (Finset.mem_singleton.2 hc)))
    refine iff_of_true ?_ (by omega)
    rw [if_neg (by omega)] at hr
    have hlent := hl.took ht
    obtain ⟨u, hfirst, hundo⟩ := allocateLeaf_fails hlent.metered hlent.find hr hneg
    rw [if_pos rfl] at hfirst
    obtain ⟨v, hfree, hu⟩ := hfirst
    rw [if_pos ((fst_indirectAllocated _ _).2 (Or.inl rfl)), s32At_put32_self hint] at hundo
    obtain ⟨hz, -⟩ | ⟨-, hgave⟩ := freeBlockFromInode_cases hlent.metered.geo hfree
    · dsimp only at hz
      omega
    · dsimp only at hgave
      rw [hp] at hgave
      have hback := (hlent.gave (Finset.mem_insert_of_mem (Finset.mem_singleton_self p)) hgave).setDinode
        (f := fun d => { d with iDindirect := 0 }) rfl
      have herase : (insert q {p} : Finset ℤ).erase p = {q} := by
        rw [Finset.erase_insert_of_ne hne, Finset.erase_singleton]
        rfl
      rw [herase, ← hu] at hback
      obtain ⟨hz, -⟩ | ⟨-, hgave2⟩ := freeBlockFromInode_cases (hback.read true).metered.geo hundo
      · omega
      · have hback2 := (hback.read true).gave (Finset.mem_singleton_self q) hgave2
        rw [Finset.erase_singleton] at hback2
        exact hback2.restored hblock hind hdind.symm

theorem allocateDindirect_undone {k : ℕ} (h : Metered s) (hi : s.find n = some i)
    (hr : allocateDindirect s n k = .ok (r, s')) (hneg : r < 0) :
    Restored s s' n ↔ (i.dinode.iDindirect = 0 → s.sb.usedBlockCount + 1 ≠ s.sb.maxFsBlocks) ∧
      (i.dinode.iDindirect ≠ 0 → s32At (s.dev.blocks i.dinode.iDindirect) (4 * (k / 2048)) ≠ 0 → s.stack 0 = 0) := by
  have hold : s.dinode n = i.dinode := dinode_of_find hi
  unfold allocateDindirect at hr
  rw [deref_eq_ok.2 hi, ok_bind] at hr
  split_ifs at hr with hzero
  · have hiff : ((i.dinode.iDindirect = 0 → s.sb.usedBlockCount + 1 ≠ s.sb.maxFsBlocks) ∧ (i.dinode.iDindirect ≠ 0 →
        s32At (s.dev.blocks i.dinode.iDindirect) (4 * (k / 2048)) ≠ 0 → s.stack 0 = 0)) ↔
          s.sb.usedBlockCount + 1 ≠ s.sb.maxFsBlocks :=
      ⟨fun hc => hc.1 hzero, fun hc => ⟨fun _ => hc, fun hc' => absurd hzero hc'⟩⟩
    rw [hiff]
    obtain ⟨⟨p, s1⟩, h1, hr⟩ := bind_eq_ok.1 hr
    dsimp only at hr
    rcases h.allocBlockForInode h1 with ⟨hr1, hs, hfull⟩ | ht
    · rw [if_pos (by rw [hr1]; decide)] at hr
      cases hr
      exact iff_of_true (hs ▸ Restored.refl s n) (by omega)
    · have hpos := ht.pos
      rw [if_neg (by omega)] at hr
      have hlent := ((Lent.refl h hi).took ht).setDinode (f := fun d => { d with iDindirect := p }) rfl
      exact allocateInDindirect_new hlent rfl (by rw [hold]) (by rw [hold]) (by rw [hold, hzero]) hr hneg
  · obtain ⟨blk, hblk, hr⟩ := bind_eq_ok.1 hr
    have hblk := (readBlocks_eq_ok.1 hblk).2
    rw [allocateInDindirect_old h hi hr hneg, hblk]
    exact ⟨fun hc => ⟨fun hc' => absurd hc' hzero, fun _ => hc⟩, fun hc => hc.2 hzero⟩

/-! ## Failed allocations -/

/-- When a failure of `testfs_allocate_block` is undone: where block `b` is not there, and its indirect block is, the
uninitialised `indirect_allocated` must read as 0; where the double indirect block is not there, a single block must not
be all that is left. -/
def Undoes (s : State) (d : Dinode) (b : ℤ) : Prop :=
  physBlock s d b.toNat = .ok 0 →
    (10 ≤ b → b < 2058 → d.iIndirect ≠ 0 → s.stack 0 = 0) ∧
    (2058 ≤ b → b < maxBlockNr → d.iDindirect = 0 → s.sb.usedBlockCount + 1 ≠ s.sb.maxFsBlocks) ∧
    (2058 ≤ b → b < maxBlockNr → d.iDindirect ≠ 0 →
      s32At (s.dev.blocks d.iDindirect) (4 * ((b.toNat - 2058) / 2048)) ≠ 0 → s.stack 0 = 0)

theorem Metered.allocateBlock {blk : Lib.Mem} (h : Metered s) (hi : s.find n = some i) (hb : 0 ≤ b)
    (hr : allocateBlock s n b = .ok (r, blk, s')) (hneg : r < 0) : Restored s s' n ↔ Undoes s i.dinode b := by
  have hmax : maxBlockNr = 4196362 := maxBlockNr_eq
  unfold Testfs.allocateBlock at hr
  split_ifs at hr with hbig
  · cases hr
    refine iff_of_true (Restored.refl s n) fun _ => ⟨fun _ hc => ?_, fun _ hc => ?_, fun _ hc => ?_⟩ <;> omega
  · rw [deref_eq_ok.2 hi, ok_bind] at hr
    obtain ⟨⟨p, blk1⟩, hread, hr⟩ := bind_eq_ok.1 hr
    dsimp only at hr
    have hphys : physBlock s i.dinode b.toNat = .ok p := by
      unfold readBlock at hread
      rw [if_neg (by omega), if_neg hbig] at hread
      obtain ⟨p1, hp1, hread⟩ := bind_eq_ok.1 hread
      split_ifs at hread
      · obtain ⟨blk2, -, hread⟩ := bind_eq_ok.1 hread
        cases hread
        exact hp1
      · cases hread
        exact hp1
    unfold Undoes
    rw [hphys]
    split_ifs at hr with hp
    · cases hr
      refine iff_of_true (Restored.refl s n) fun hc => ?_
      cases hc
      exact absurd rfl hp
    · rw [not_not] at hp
      subst hp
      obtain ⟨⟨p2, s2⟩, hnew, hr⟩ := bind_eq_ok.1 hr
      cases hr
      rw [forall_prop_of_true rfl]
      unfold allocateNew at hnew
      split_ifs at hnew with h10 h2058
      · refine iff_of_true (allocateDirect_undone h hnew hneg ▸ Restored.refl s n) ⟨fun hc => ?_,
          fun hc => ?_, fun hc => ?_⟩
          <;> omega
      · rw [allocateIndirect_undone h hi hnew hneg]
        refine ⟨fun hc => ⟨fun _ _ => hc, fun hc => ?_, fun hc => ?_⟩, fun hc => hc.1 (by omega) (by omega)⟩ <;> omega
      · rw [allocateDindirect_undone h hi hnew hneg]
        refine ⟨fun hc => ⟨fun _ hc => ?_, fun _ _ => hc.1, fun _ _ => hc.2⟩,
          fun hc => ⟨hc.2.1 ?_ ?_, hc.2.2 ?_ ?_⟩⟩ <;> omega

/-- **Failed allocations are undone, but for two cases.** The inode is any inode in memory in any state that a command
of a run passes through. -/
theorem failed_allocation_undone {blk : Lib.Mem} (hk : validSize fsSizeMb) (h0 : start fsSizeMb stack = .ok s0)
    (hrun : Run step anyStep s0 s) (hm : Moves true s t) (hi : t.find n = some i) (hb : 0 ≤ b)
    (hr : allocateBlock t n b = .ok (r, blk, s')) (hneg : r < 0) : Restored t s' n ↔ Undoes t i.dinode b :=
  (metered_of_run hk h0 hrun hm).allocateBlock hi hb hr hneg

/-- a file of 125 blocks on a device of 128, and a block behind its last indirect block -/
theorem one_block_left :
    ∃ s0 s t i r blk s', start 1 (fun _ => 0) = .ok s0 ∧ Run step anyStep s0 s ∧ Moves true s t ∧ t.find 1 = some i ∧
      allocateBlock t 1 2058 = .ok (r, blk, s') ∧ r < 0 ∧ s'.sb.usedBlockCount ≠ t.sb.usedBlockCount := by
  have h : after (start 1 fun _ => 0) (fun s0 => after (step s0 (.create tokenF)) fun s1 =>
      after (fillStep s1 tokenF.chars 0 (125 * 8192 - 1)) fun s => after (getInode s 1) fun t => (t.find 1).isSome &&
        after (allocateBlock t 1 2058) fun x => decide (x.1 < 0 ∧ x.2.2.sb.usedBlockCount ≠ t.sb.usedBlockCount)) =
          true := by decide +kernel
  obtain ⟨s0, h0, h⟩ := exists_of_after h
  obtain ⟨s1, h1, h⟩ := exists_of_after h
  obtain ⟨s, h2, h⟩ := exists_of_after h
  obtain ⟨t, hget, h⟩ := exists_of_after h
  rw [Bool.and_eq_true, Option.isSome_iff_exists] at h
  obtain ⟨⟨i, hi⟩, h⟩ := h
  obtain ⟨⟨r, blk, s'⟩, hr, h⟩ := exists_of_after h
  obtain ⟨hneg, hused⟩ := of_decide_eq_true h
  rw [← step_fill] at h2
  have hrun : Run step anyStep s0 s := ((Run.refl s0).tail _ rfl h1).tail _ rfl h2
  exact ⟨s0, s, t, i, r, blk, s', h0, hrun, (Prim.getInode hget).moves, hi, hr, hneg, hused⟩

theorem failed_allocation_undone_of_one_block :
    ∃ s0 s t i r blk s', start 1 (fun _ => 0) = .ok s0 ∧ Run step anyStep s0 s ∧ Moves true s t ∧ t.find 1 = some i ∧
      allocateBlock t 1 2058 = .ok (r, blk, s') ∧ r < 0 ∧ ¬Undoes t i.dinode 2058 := by
  obtain ⟨s0, s, t, i, r, blk, s', h0, hrun, hm, hi, hr, hneg, hused⟩ := one_block_left
  refine ⟨s0, s, t, i, r, blk, s', h0, hrun, hm, hi, hr, hneg, fun hc => hused ?_⟩
  exact ((failed_allocation_undone ⟨le_rfl, by norm_num⟩ h0 hrun hm hi (by norm_num) hr hneg).2 hc).used

/-- The last block becomes the double indirect block, no block is left for the second level, and the first is kept. -/
theorem double_indirect_block_kept :
    ¬ ∀ (fsSizeMb : ℕ) (stack : ℕ → ℤ) (s0 s t s' : State) (n b r : ℤ) (i : Inode) (blk : Lib.Mem), validSize fsSizeMb →
      start fsSizeMb stack = .ok s0 → Run step anyStep s0 s → Moves true s t → t.find n = some i → 0 ≤ b →
      allocateBlock t n b = .ok (r, blk, s') → r < 0 → Restored t s' n := by
  intro hall
  obtain ⟨s0, s, t, i, r, blk, s', h0, hrun, hm, hi, hr, hneg, hused⟩ := one_block_left
  exact hused (hall 1 _ s0 s t s' 1 2058 r i blk ⟨le_rfl, by norm_num⟩ h0 hrun hm hi (by norm_num) hr hneg).used

end OsLab.Testfs
