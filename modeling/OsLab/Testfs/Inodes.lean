/-
Inodes in memory and on disk (`testfs_get_inode`, `testfs_sync_inode`, `testfs_put_inode`, `testfs_create_inode`).

`Sound` is the invariant between two operations on blocks: `Core` with no block left without a slot, and every slot but
a double indirect block inside the device. `Still s s' m` says that inode `m` is the same file in both states, `Same s
s'` that all of them are. Reading an inode, writing it back and dropping it keep `Same`; a new inode is an empty file.
-/
import Mathlib.Tactic
import OsLab.Testfs.Data
import OsLab.Testfs.Refs

namespace OsLab.Testfs

open OsLab.Lib Function State

variable {s s' s'' : State} {n m r : ℤ} {F : Finset ℤ} {i i' : Inode} {σ τ : Slot}

/-! ## Dinodes on disk -/

/-- the fields of a dinode are values of their types -/
structure Dinode.Fits (d : Dinode) : Prop where
  words : ∀ k < 14, InInt32 (d.word k)
  size : InInt64 d.iSize

theorem Dinode.word_block (d : Dinode) (k : Fin 10) : d.word (k + 1) = d.iBlockNr k := by
  fin_cases k <;> rfl

theorem Dinode.get_put_self {d : Dinode} (h : d.Fits) (m : Lib.Mem) (o : ℕ) : Dinode.get (Dinode.put m o d) o = d := by
  have hword : ∀ k < 14, s32At (Dinode.put m o d) (o + 4 * k) = d.word k := by
    intro k hk
    unfold Dinode.put
    rw [s32At_put64_of_disjoint (by omega)]
    exact s32At_put32s (h.words k hk) hk
  have hsize : s64At (Dinode.put m o d) (o + 56) = d.iSize := s64At_put64_self h.size
  have hblocks : (fun k : Fin 10 => s32At (Dinode.put m o d) (o + 4 * ((k : ℕ) + 1))) = d.iBlockNr := by
    funext k
    rw [hword _ (by omega), Dinode.word_block]
  have htype : s32At (Dinode.put m o d) o = d.iType := hword 0 (by omega)
  unfold Dinode.get
  rw [htype, hblocks, hword 11 (by omega), hword 12 (by omega), hword 13 (by omega), hsize]
  rfl

/-- a dinode at another place -/
theorem Dinode.get_put_of_disjoint {d : Dinode} {m : Lib.Mem} {o o' : ℕ} (h : o' + 64 ≤ o ∨ o + 64 ≤ o') :
    Dinode.get (Dinode.put m o d) o' = Dinode.get m o' := by
  have hbyte : ∀ j, o' ≤ j → j < o' + 64 → Dinode.put m o d j = m j := by
    intro j h1 h2
    unfold Dinode.put put64
    rcases h with h | h
    · rw [putLE_of_lt (by omega), put32s_of_lt (by omega)]
    · rw [putLE_of_ge (by omega), put32s_of_ge (by omega)]
  have hword : ∀ k, k + 4 ≤ 64 → s32At (Dinode.put m o d) (o' + k) = s32At m (o' + k) := fun k hk =>
    s32At_congr fun j h1 h2 => hbyte j (by omega) (by omega)
  have hsize : s64At (Dinode.put m o d) (o' + 56) = s64At m (o' + 56) :=
    s64At_congr fun j h1 h2 => hbyte j (by omega) (by omega)
  have hblocks : (fun k : Fin 10 => s32At (Dinode.put m o d) (o' + 4 * ((k : ℕ) + 1))) =
      fun k : Fin 10 => s32At m (o' + 4 * ((k : ℕ) + 1)) := funext fun k => hword _ (by omega)
  have htype : s32At (Dinode.put m o d) o' = s32At m o' :=
    s32At_congr fun j h1 h2 => hbyte j (by omega) (by omega)
  unfold Dinode.get
  rw [htype, hblocks, hsize, hword (4 * 11) (by omega), hword (4 * 12) (by omega), hword (4 * 13) (by omega)]

theorem Dinode.get_zeroMem (o : ℕ) : Dinode.get zeroMem o = Dinode.zero := by
  simp [Dinode.get, Dinode.zero]

/-- an inode in use owns no more blocks than there are in use -/
theorem Core.count_le (h : Core s n ∅) (hm : s.alloc m) :
    0 ≤ (s.dinode m).blockCount ∧ (s.dinode m).blockCount ≤ 1048576 := by
  have hcount : (s.dinode m).blockCount = held (s.tree m) := by
    rw [h.acc.count m hm, Finset.card_empty, Nat.cast_zero, ite_self, add_zero]
  have hle : held (s.tree m) ≤ s.blockFreemap.bits.card := by
    refine held_le_card (fun σ => (s.tree m σ - 146).toNat) (fun σ h0 => (h.acc.busy_of_tree hm h0).1.2) ?_
    intro σ τ h0 h1 heq
    have h2 := h.acc.pos_of_tree hm h0
    have h3 := h.acc.pos_of_tree hm h1
    exact h.acc.treeInj hm σ τ h0 (by omega)
  have hbits := s.blockFreemap.card_bits_le
  rw [h.geo.blockBits] at hbits
  omega

/-- the dinodes of inodes in use fit into their slots -/
theorem Core.fits (h : Core s n ∅) (hm : s.alloc m) : (s.dinode m).Fits := by
  have hptr : ∀ σ, InInt32 (s.tree m σ) := fun σ => by
    by_cases h0 : s.tree m σ = 0
    · rw [h0]
      constructor <;> norm_num
    · exact inInt32_of_busy h.geo (h.acc.busy_of_tree hm h0).1
  have hcount := h.count_le hm
  have hsize := h.mem.size m hm
  refine ⟨fun k hk => ?_, ⟨by omega, by omega⟩⟩
  have htype : InInt32 (s.dinode m).iType := by
    rcases h.mem.typed m hm with ht | ht <;> rw [ht] <;> constructor <;> decide
  by_cases h1 : k = 0
  · subst h1
    exact htype
  by_cases h2 : k < 11
  · obtain ⟨j, rfl⟩ : ∃ j, k = j + 1 := ⟨k - 1, by omega⟩
    have hw := (s.dinode m).word_block ⟨j, by omega⟩
    simp only at hw
    rw [hw]
    exact hptr (.direct ⟨j, by omega⟩)
  obtain rfl | rfl | rfl : k = 11 ∨ k = 12 ∨ k = 13 := by omega
  · exact hptr .ind
  · exact hptr .dind
  · constructor
    · show -2 ^ 31 ≤ (s.dinode m).blockCount
      omega
    · show (s.dinode m).blockCount < 2 ^ 31
      omega

/-! ## The same files -/

/-- inode `m` is the same file in both states; the end of a regular file that is not in memory any more may differ -/
structure Still (s s' : State) (m : ℤ) : Prop where
  type : (s'.dinode m).iType = (s.dinode m).iType
  size : (s.dinode m).iType = iDir → (s'.dinode m).iSize = (s.dinode m).iSize
  tree : s'.tree m = s.tree m
  content : s'.content m = s.content m

theorem Still.refl (s : State) (m : ℤ) : Still s s m := ⟨rfl, fun _ => rfl, rfl, rfl⟩

theorem Still.trans (h : Still s s' m) (h' : Still s' s'' m) : Still s s'' m where
  type := h'.type.trans h.type
  size := fun hd => (h'.size (h.type.trans hd)).trans (h.size hd)
  tree := h'.tree.trans h.tree
  content := h'.content.trans h.content

/-- the dinodes that inode `m` has in memory and on disk are among those it had -/
structure Carries (s s' : State) (m : ℤ) : Prop where
  mem : s'.dinode m = s.dinode m ∨ s'.dinode m = s.diskDinode m
  disk : s'.diskDinode m = s.dinode m ∨ s'.diskDinode m = s.diskDinode m

theorem Carries.refl (s : State) (m : ℤ) : Carries s s m := ⟨Or.inl rfl, Or.inr rfl⟩

theorem Carries.trans (h : Carries s s' m) (h' : Carries s' s'' m) : Carries s s'' m where
  mem := by
    rcases h'.mem with heq | heq
    · rw [heq]; exact h.mem
    · rw [heq]; exact h.disk
  disk := by
    rcases h'.disk with heq | heq
    · rw [heq]; exact h.mem
    · rw [heq]; exact h.disk

/-- what holds of both dinodes goes on to hold of both -/
theorem Carries.keep {P : Dinode → Prop} (h : Carries s s' m) (hmem : P (s.dinode m)) (hdisk : P (s.diskDinode m)) :
    P (s'.dinode m) ∧ P (s'.diskDinode m) := by
  constructor
  · rcases h.mem with heq | heq <;> rw [heq] <;> assumption
  · rcases h.disk with heq | heq <;> rw [heq] <;> assumption

/-- between two operations on blocks -/
structure Sound (s : State) : Prop where
  core : Core s 0 ∅
  inside : Inside s fun _ => False

/-- outside of `X`, the inodes in memory are clean and `P` relates them to those on disk -/
def Settled (P : Dinode → Dinode → Prop) (X : Set ℤ) (s : State) : Prop :=
  ∀ m i, s.find m = some i → m ∉ X → i.dirty = false ∧ P i.dinode (s.diskDinode m)

/-- settled outside of `X` before, and outside of `Y` after -/
def Settles (X Y : Set ℤ) (s s' : State) : Prop := ∀ P, (∀ d, P d d) → Settled P X s → Settled P Y s'

theorem Settled.mono {P : Dinode → Dinode → Prop} {X Y : Set ℤ} (h : Settled P X s) (hXY : X ⊆ Y) : Settled P Y s :=
  fun m i hi hm => h m i hi fun hc => hm (hXY hc)

/-- all files are the same -/
structure Same (s s' : State) : Prop where
  sound : Sound s'
  alloc : ∀ m, s'.alloc m ↔ s.alloc m
  still : ∀ m, s.alloc m → Still s s' m
  curDir : s'.curDir = s.curDir
  stack : s'.stack = s.stack
  dirFails : s'.dirFails = s.dirFails
  nblocks : s'.dev.nblocks = s.dev.nblocks
  used : s'.sb.usedBlockCount = s.sb.usedBlockCount
  max : s'.sb.maxFsBlocks = s.sb.maxFsBlocks
  settles : ∀ X, Settles X X s s'
  dinode : ∀ X, Settled Eq X s → ∀ m, s.alloc m → m ∉ X → s'.dinode m = s.dinode m
  carries : ∀ m, s.alloc m → Carries s s' m

namespace Same

theorem refl (h : Sound s) : Same s s :=
  ⟨h, fun _ => Iff.rfl, fun m _ => Still.refl s m, rfl, rfl, rfl, rfl, rfl, rfl,
    fun _ _ _ hs => hs, fun _ _ _ _ _ => rfl, fun m _ => Carries.refl s m⟩

theorem trans (h : Same s s') (h' : Same s' s'') : Same s s'' where
  sound := h'.sound
  alloc := fun m => (h'.alloc m).trans (h.alloc m)
  still := fun m hm => (h.still m hm).trans (h'.still m ((h.alloc m).2 hm))
  curDir := h'.curDir.trans h.curDir
  stack := h'.stack.trans h.stack
  dirFails := h'.dirFails.trans h.dirFails
  nblocks := h'.nblocks.trans h.nblocks
  used := h'.used.trans h.used
  max := h'.max.trans h.max
  settles := fun X P hP hs => h'.settles X P hP (h.settles X P hP hs)
  dinode := fun X hs m hm hX =>
    (h'.dinode X (h.settles X Eq (fun _ => rfl) hs) m ((h.alloc m).2 hm) hX).trans (h.dinode X hs m hm hX)
  carries := fun m hm => (h.carries m hm).trans (h'.carries m ((h.alloc m).2 hm))

end Same

theorem agree_refl (d : Dinode) : Agree d d := ⟨rfl, ⟨rfl, rfl, rfl⟩, rfl, fun _ => rfl⟩

theorem still_of_agree (ha : Agree (s'.dinode m) (s.dinode m))
    (hb : ∀ σ, s.tree m σ ≠ 0 → s'.dev.blocks (s.tree m σ) = s.dev.blocks (s.tree m σ)) : Still s s' m := by
  have htree : s'.tree m = s.tree m := tree_congr ha.ptrs fun σ _ h0 => hb σ h0
  exact ⟨ha.type, fun hd => ha.size (ha.type.trans hd), htree, content_eq_of_tree htree fun σ _ h0 => hb σ h0⟩

/-- the same inodes in use, in memory or on disk, and the same blocks -/
theorem Sound.transfer (h : Sound s) (hgeo : Geo s') (hdisk : Disk s') (hmem : Mem s')
    (halloc : ∀ m, s'.alloc m ↔ s.alloc m) (hbusy : ∀ x, s'.busy x ↔ s.busy x)
    (hcard : s'.blockFreemap.bits.card = s.blockFreemap.bits.card) (hused : s'.sb.usedBlockCount = s.sb.usedBlockCount)
    (hmax : s'.sb.maxFsBlocks = s.sb.maxFsBlocks) (hblocks : ∀ x, 146 ≤ x → s'.dev.blocks x = s.dev.blocks x)
    (hnb : s'.dev.nblocks = s.dev.nblocks) (ha : ∀ m, s.alloc m → Agree (s'.dinode m) (s.dinode m)) :
    Sound s' ∧ ∀ m, s.alloc m → Still s s' m := by
  have hstill : ∀ m, s.alloc m → Still s s' m := fun m hm =>
    still_of_agree (ha m hm) fun σ h0 => hblocks _ (h.core.acc.pos_of_tree hm h0)
  have hacc : Acc s' 0 ∅ := by
    refine ⟨?_, fun x hx => absurd hx (Finset.notMem_empty x), fun m hm => ?_, ?_, ?_,
      fun x hx hz => ?_, fun x hx => ?_⟩
    · refine h.core.acc.exact.congr (ptr_congr halloc fun m hm => (hstill m hm).tree) fun x => ?_
      rw [hbusy]
    · have hm' := (halloc m).1 hm
      rw [(ha m hm').count, (hstill m hm').tree]
      exact h.core.acc.count m hm'
    · rw [hused, hcard]
      exact h.core.acc.used
    · rw [hused, hmax]
      exact h.core.acc.limit
    · rw [hblocks x hx]
      exact h.core.acc.zero x hx (by rw [← hbusy]; exact hz)
    · rw [hnb] at hx
      have h146 := h.core.geo.nblocks
      rw [hblocks x (by omega)]
      exact h.core.acc.eof x hx
  refine ⟨⟨⟨hgeo, hdisk, hmem, hacc⟩, fun m σ hm hd _ h0 => ?_⟩, hstill⟩
  have hm' := (halloc m).1 hm
  rw [(hstill m hm').tree] at h0 ⊢
  rw [hnb]
  exact h.inside m σ hm' hd id h0

/-- the inodes in use are the same, in memory or on disk -/
theorem Sound.same (h : Sound s) (hsb : s'.sb = s.sb) (hif : s'.inodeFreemap = s.inodeFreemap)
    (hbf : s'.blockFreemap = s.blockFreemap) (hblocks : ∀ x, x < 18 ∨ 146 ≤ x → s'.dev.blocks x = s.dev.blocks x)
    (hnb : s'.dev.nblocks = s.dev.nblocks) (hmem : Mem s') (ha : ∀ m, s.alloc m → Agree (s'.dinode m) (s.dinode m))
    (hcur : s'.curDir = s.curDir) (hst : s'.stack = s.stack) (hdf : s'.dirFails = s.dirFails)
    (hsettles : ∀ X, Settles X X s s') (hdinode : ∀ X, Settled Eq X s → ∀ m, s.alloc m → m ∉ X →
    s'.dinode m = s.dinode m) (hcarries : ∀ m, s.alloc m → Carries s s' m) : Same s s' := by
  have halloc : ∀ m, s'.alloc m ↔ s.alloc m := fun m => by simp only [State.alloc, hif]
  have hbusy : ∀ x, s'.busy x ↔ s.busy x := fun x => by simp only [State.busy, hbf]
  have hgeo : Geo s' :=
    ⟨by rw [hsb]; exact h.core.geo.1, by rw [hsb]; exact h.core.geo.2, by rw [hsb]; exact h.core.geo.3,
    by rw [hsb]; exact h.core.geo.4, by rw [hsb]; exact h.core.geo.5, by rw [hnb]; exact h.core.geo.6,
    by rw [hif]; exact h.core.geo.7, by rw [hbf]; exact h.core.geo.8⟩
  have hdisk : Disk s' := by
    refine ⟨?_, fun j hj => ?_, fun k hk j hj => ?_⟩
    · rw [hblocks 0 (by omega), hsb]
      exact h.core.disk.super
    · rw [hblocks 1 (by omega), hif]
      exact h.core.disk.inodes j hj
    · rw [hblocks _ (by omega), hbf]
      exact h.core.disk.blocks k hk j hj
  obtain ⟨hsound, hstill⟩ := h.transfer hgeo hdisk hmem halloc hbusy (by rw [hbf]) (by rw [hsb]) (by rw [hsb])
    (fun x hx => hblocks x (Or.inr hx)) hnb ha
  exact ⟨hsound, halloc, hstill, hcur, hst, hdf, hnb, by rw [hsb], by rw [hsb], hsettles, hdinode,
    hcarries⟩

/-- the inodes in memory are the same up to their reference counts -/
theorem settles_of_find {X : Set ℤ} (hfind : ∀ m j, s'.find m = some j → (j.dirty = false ∧ j.dinode = s.diskDinode m) ∨
      ∃ j', s.find m = some j' ∧ j.dinode = j'.dinode ∧ j.dirty = j'.dirty)
    (hdisk : ∀ m, s'.diskDinode m = s.diskDinode m) : Settles X X s s' := by
  intro P hP hs m j hj hm
  rw [hdisk]
  rcases hfind m j hj with ⟨hclean, hd⟩ | ⟨j', hj', hd, hdirty⟩
  · rw [hd]
    exact ⟨hclean, hP _⟩
  · rw [hd, hdirty]
    exact hs m j' hj' hm

/-! ## `testfs_get_inode` -/

theorem mem_range (h : Mem s) (hm : s.alloc m) : 0 ≤ m ∧ m < 16384 := ⟨hm.1, h.allocRange m hm⟩

theorem inodeToBlockNr_ok (h0 : 0 ≤ n) (h1 : n < 16384) : inodeToBlockNr n = .ok (n.toNat / 128) := by
  unfold inodeToBlockNr inodesPerBlock nrInodeBlocks
  rw [if_pos ⟨h0, by omega⟩]

theorem readInodeBlock_ok (hg : Geo s) (h0 : 0 ≤ n) (h1 : n < 16384) :
    readInodeBlock s n = .ok (s.dev.blocks (18 + n.toNat / 128 : ℕ)) := by
  unfold readInodeBlock
  rw [inodeToBlockNr_ok h0 h1, ok_bind, hg.inodeBlocksStart]
  have hn := hg.nblocks
  exact if_pos ⟨by omega, by omega⟩

theorem find_cons (j : Inode) (l : List ℤ) : ({ s with hash := j :: s.hash, loads := s.loads ++ [l] } : State).find m =
    if j.iNr = m then some j else s.find m := by
  simp only [State.find, List.find?_cons]
  by_cases h : j.iNr = m <;> simp [h]

/-- what `testfs_get_inode` does: a reference more, or the inode from the disk -/
theorem getInode_cases (hg : Geo s) (h0 : 0 ≤ n) (h1 : n < 16384) (h : getInode s n = .ok s') :
    (∃ i, s.find n = some i ∧ s' = s.modify n fun i => { i with iCount := i.iCount + 1 }) ∨
      (s.find n = none ∧ s' = { s with
        hash := ⟨s.diskDinode n, false, n, 1⟩ :: s.hash
        loads := s.loads ++ [n :: s.hash.map Inode.iNr] }) := by
  unfold getInode at h
  cases hf : s.find n with
  | some i =>
    rw [hf] at h
    cases h
    exact Or.inl ⟨i, rfl, rfl⟩
  | none =>
    rw [hf] at h
    simp only [readInodeBlock_ok hg h0 h1, ok_bind] at h
    cases h
    exact Or.inr ⟨rfl, rfl⟩

theorem getInode_ok (hg : Geo s) (h0 : 0 ≤ n) (h1 : n < 16384) : ∃ s', getInode s n = .ok s' := by
  unfold getInode
  cases hf : s.find n with
  | some i => exact ⟨_, rfl⟩
  | none => simp only [readInodeBlock_ok hg h0 h1, ok_bind]; exact ⟨_, rfl⟩

/-- the same inodes in memory up to their reference counts -/
theorem find_of_modify {f : Inode → Inode} {j : Inode} (hf : ∀ i, (f i).iNr = i.iNr)
    (hd : ∀ i, s.find n = some i → (f i).dinode = i.dinode ∧ (f i).dirty = i.dirty)
    (hj : (s.modify n f).find m = some j) :
    ∃ j', s.find m = some j' ∧ j.dinode = j'.dinode ∧ j.dirty = j'.dirty := by
  rw [find_modify hf] at hj
  split_ifs at hj with hm
  · subst hm
    cases hs : s.find m with
    | none => rw [hs] at hj; cases hj
    | some j' =>
      rw [hs, Option.map_some, Option.some.injEq] at hj
      subst hj
      exact ⟨j', rfl, hd j' hs⟩
  · exact ⟨j, hj, rfl, rfl⟩

theorem Mem.modify {f : Inode → Inode} (h : Mem s) (hf : ∀ i, (f i).iNr = i.iNr)
    (hd : ∀ i, s.find n = some i → (f i).dinode = i.dinode ∧ (f i).dirty = i.dirty) : Mem (s.modify n f) := by
  have hfind : ∀ m j, (s.modify n f).find m = some j → ∃ j', s.find m = some j' ∧
    j.dinode = j'.dinode ∧ j.dirty = j'.dirty :=
    fun m j hj => find_of_modify hf hd hj
  have hdinode : ∀ m, (s.modify n f).dinode m = s.dinode m := by
    intro m
    unfold State.dinode
    rw [find_modify hf]
    split_ifs with hm
    · subst hm
      cases hs : s.find m with
      | none => rfl
      | some j => exact (hd j hs).1
    · rfl
  refine ⟨by rw [keys_modify hf]; exact h.nodup, fun m j hj => ?_, fun m j hj hc => ?_, h.allocRange, fun m hm => ?_,
    fun m hm => ?_, h.diskSize, fun m h0 h1 hm => ⟨(h.fresh m h0 h1 hm).1, fun j hj => ?_⟩⟩
  · obtain ⟨j', hj', -⟩ := hfind m j hj
    exact h.range m j' hj'
  · obtain ⟨j', hj', hd', hdirty⟩ := hfind m j hj
    rw [hd']
    exact h.clean m j' hj' (hdirty.symm.trans hc)
  · rw [hdinode]; exact h.typed m hm
  · rw [hdinode]; exact h.size m hm
  · obtain ⟨j', hj', hd', -⟩ := hfind m j hj
    rw [hd']
    exact (h.fresh m h0 h1 hm).2 j' hj'

theorem dinode_modify {f : Inode → Inode} (hf : ∀ i, (f i).iNr = i.iNr)
    (hd : ∀ i, s.find n = some i → (f i).dinode = i.dinode) (m : ℤ) : (s.modify n f).dinode m = s.dinode m := by
  unfold State.dinode
  rw [find_modify hf]
  split_ifs with hm
  · subst hm
    cases hs : s.find m with
    | none => rfl
    | some j => exact hd j hs
  · rfl

/-- a change of reference counts or clean flags -/
theorem Sound.modify {f : Inode → Inode} (h : Sound s) (hf : ∀ i, (f i).iNr = i.iNr)
    (hd : ∀ i, s.find n = some i → (f i).dinode = i.dinode ∧ (f i).dirty = i.dirty) : Same s (s.modify n f) := by
  have hdinode : ∀ m, (s.modify n f).dinode m = s.dinode m := dinode_modify hf fun i hi => (hd i hi).1
  refine h.same rfl rfl rfl (fun _ _ => rfl) rfl (h.core.mem.modify hf hd) (fun m _ => ?_) rfl rfl rfl (fun X => ?_)
    (fun _ _ m _ _ => hdinode m) fun m _ => ⟨Or.inl (hdinode m), Or.inr rfl⟩
  · rw [hdinode]
    exact agree_refl _
  · exact settles_of_find (fun m j hj => Or.inr (find_of_modify hf hd hj)) fun _ => rfl

/-- **`testfs_get_inode`.** -/
theorem getInode_same (h : Sound s) (h0 : 0 ≤ n) (h1 : n < 16384) (hr : getInode s n = .ok s') :
    Same s s' ∧ ∃ i, s'.find n = some i ∧ i.dinode = s.dinode n := by
  rcases getInode_cases h.core.geo h0 h1 hr with ⟨i, hi, rfl⟩ | ⟨hnone, rfl⟩
  · refine ⟨h.modify (fun _ => rfl) fun _ _ => ⟨rfl, rfl⟩, { i with iCount := i.iCount + 1 }, ?_,
      (dinode_of_find hi).symm⟩
    rw [find_modify, if_pos rfl, hi]
    · rfl
    · exact fun _ => rfl
  · have hfind := fun m => find_cons (s := s) (m := m) ⟨s.diskDinode n, false, n, 1⟩ (n :: s.hash.map Inode.iNr)
    set t : State := { s with
      hash := ⟨s.diskDinode n, false, n, 1⟩ :: s.hash, loads := s.loads ++ [n :: s.hash.map Inode.iNr] } with ht
    have hdinode : ∀ m, t.dinode m = s.dinode m := by
      intro m
      unfold State.dinode
      rw [hfind]
      split_ifs with hm
      · simp only at hm
        subst hm
        rw [hnone]
      · rfl
    have hm := h.core.mem
    have hcases : ∀ m j, t.find m = some j → (m = n ∧ j.dirty = false ∧ j.dinode = s.diskDinode m) ∨
        s.find m = some j := by
      intro m j hj
      rw [hfind] at hj
      split_ifs at hj with hmn
      · simp only at hmn
        cases hj
        exact Or.inl ⟨hmn.symm, rfl, by rw [← hmn]⟩
      · exact Or.inr hj
    have hsettles : ∀ X, Settles X X s t := by
      refine fun X => settles_of_find (fun m j hj => ?_) fun _ => rfl
      rcases hcases m j hj with ⟨-, hc, hd⟩ | hold
      · exact Or.inl ⟨hc, hd⟩
      · exact Or.inr ⟨j, hold, rfl, rfl⟩
    have hmem : Mem t := by
      refine ⟨?_, fun m j hj => ?_, fun m j hj hc => ?_, hm.allocRange, fun m hm' => ?_, fun m hm' => ?_, hm.diskSize,
        fun m h0 h1 hm' => ⟨(hm.fresh m h0 h1 hm').1, fun j hj => ?_⟩⟩
      · rw [ht, List.map_cons, List.nodup_cons]
        exact ⟨find_eq_none.1 hnone, hm.nodup⟩
      · rcases hcases m j hj with ⟨rfl, -⟩ | hold
        · exact ⟨h0, h1⟩
        · exact hm.range m j hold
      · rcases hcases m j hj with ⟨rfl, -, hd⟩ | hold
        · rw [hd]; exact agree_refl _
        · exact hm.clean m j hold hc
      · rw [hdinode]; exact hm.typed m hm'
      · rw [hdinode]; exact hm.size m hm'
      · rcases hcases m j hj with ⟨-, -, hd⟩ | hold
        · rw [hd]; exact (hm.fresh m h0 h1 hm').1
        · exact (hm.fresh m h0 h1 hm').2 j hold
    refine ⟨h.same rfl rfl rfl (fun _ _ => rfl) rfl hmem (fun m _ => by rw [hdinode]; exact agree_refl _)
        rfl rfl rfl hsettles (fun _ _ m _ _ => hdinode m) fun m _ => ⟨Or.inl (hdinode m), Or.inr rfl⟩,
      ⟨s.diskDinode n, false, n, 1⟩, by rw [hfind, if_pos rfl], (dinode_of_none hnone).symm⟩

theorem getInode_others (hg : Geo s) (h0 : 0 ≤ n) (h1 : n < 16384) (hr : getInode s n = .ok s') (hm : m ≠ n) :
    s'.find m = s.find m := by
  rcases getInode_cases hg h0 h1 hr with ⟨i, -, rfl⟩ | ⟨-, rfl⟩
  · rw [find_modify, if_neg hm]
    exact fun _ => rfl
  · rw [find_cons, if_neg fun hc => hm hc.symm]

/-! ## `testfs_sync_inode` and `testfs_put_inode` -/

theorem writeInodeBlock_eq (hg : Geo s) (h0 : 0 ≤ n) (h1 : n < 16384) (blk : Lib.Mem) :
    writeInodeBlock s n blk = .ok { s with dev := s.dev.write (18 + n.toNat / 128 : ℕ) blk } := by
  unfold writeInodeBlock
  rw [inodeToBlockNr_ok h0 h1, ok_bind, hg.inodeBlocksStart]
  exact if_pos (by omega)

/-- the inode blocks after one dinode was written -/
theorem diskDinode_write {d : Dinode} (hd : d.Fits) (h0 : 0 ≤ n) (h1 : 0 ≤ m) {t : State}
    (ht : t.dev.blocks = update s.dev.blocks (18 + n.toNat / 128 : ℕ)
      (Dinode.put (s.dev.blocks (18 + n.toNat / 128 : ℕ)) (inodeToBlockOffset n) d)) :
    t.diskDinode m = if m = n then d else s.diskDinode m := by
  unfold State.diskDinode inodeToBlockOffset inodesPerBlock at *
  rw [ht]
  split_ifs with hmn
  · rw [hmn, update_self, Dinode.get_put_self hd]
  · by_cases hblk : m.toNat / 128 = n.toNat / 128
    · rw [hblk, update_self, Dinode.get_put_of_disjoint (by omega)]
    · rw [update_of_ne (by omega)]

/-- the inode block of `n` with the dinode `d` in it -/
def State.storeDinode (s : State) (n : ℤ) (d : Dinode) : State :=
  s.writeMeta (18 + n.toNat / 128) (Dinode.put (s.dev.blocks (18 + n.toNat / 128 : ℕ)) (inodeToBlockOffset n) d)

theorem diskDinode_size_lt (s : State) (n : ℤ) : (s.diskDinode n).iSize < 2 ^ 63 := by
  obtain ⟨-, hlt⟩ := inInt64_s64At (s.dev.blocks (18 + n.toNat / 128 : ℕ)) (n.toNat % 128 * 64 + 56)
  simp only [State.diskDinode, Dinode.get]
  exact hlt

theorem find_clean (m : ℤ) : (s.modify n fun i => { i with dirty := false }).find m =
    if m = n then (s.find n).map fun i => { i with dirty := false } else s.find m := by
  rw [find_modify]
  intro i
  rfl

theorem keys_clean : (s.modify n fun i => { i with dirty := false }).hash.map Inode.iNr = s.hash.map Inode.iNr := by
  rw [keys_modify]
  intro i
  rfl

theorem syncInode_cases (hg : Geo s) (hm : Mem s) (h : syncInode s n = .ok s') :
    ∃ i, s.find n = some i ∧ ((i.dirty = false ∧ s' = s) ∨ (i.dirty = true ∧
      s' = (s.storeDinode n i.dinode).modify n fun i => { i with dirty := false })) := by
  unfold syncInode at h
  rw [bind_eq_ok] at h
  obtain ⟨i, hi, h⟩ := h
  rw [deref_eq_ok] at hi
  refine ⟨i, hi, ?_⟩
  obtain ⟨h0, h1⟩ := hm.range n i hi
  split_ifs at h with hd
  · right
    rw [readInodeBlock_ok hg h0 h1, ok_bind, writeInodeBlock_eq hg h0 h1, ok_bind] at h
    cases h
    exact ⟨hd, rfl⟩
  · left
    cases h
    exact ⟨by simpa using hd, rfl⟩

/-- the inode of number `n` was written back -/
theorem find_stored {d : Dinode} (hi : s.find n = some i) (m : ℤ) :
    ((s.storeDinode n d).modify n fun i => { i with dirty := false }).find m =
      if m = n then some { i with dirty := false } else s.find m := by
  rw [find_clean]
  split_ifs with hmn
  · rw [show (s.storeDinode n d).find n = some i from hi]
    rfl
  · rfl

theorem diskDinode_stored {d : Dinode} (hd : d.Fits) (h0 : 0 ≤ n) (h1 : 0 ≤ m) :
    ((s.storeDinode n d).modify n fun i => { i with dirty := false }).diskDinode m =
      if m = n then d else s.diskDinode m := diskDinode_write hd h0 h1 rfl

/-- **`testfs_sync_inode`.** -/
theorem syncInode_same (h : Sound s) (hn : s.alloc n) (hr : syncInode s n = .ok s') :
    Same s s' ∧ ∃ i i', s.find n = some i ∧ s'.find n = some i' ∧ i'.dinode = i.dinode ∧ i'.dirty = false := by
  obtain ⟨i, hi, ⟨hclean, rfl⟩ | ⟨hdirty, rfl⟩⟩ := syncInode_cases h.core.geo h.core.mem hr
  · exact ⟨Same.refl h, i, i, hi, hi, rfl, hclean⟩
  obtain ⟨h0, h1⟩ := h.core.mem.range n i hi
  set u : State := s.storeDinode n i.dinode with hu
  have hfits : i.dinode.Fits := by
    rw [← dinode_of_find hi]
    exact h.core.fits hn
  have hdisk : ∀ m, 0 ≤ m → (u.modify n fun i => { i with dirty := false }).diskDinode m =
      if m = n then i.dinode else s.diskDinode m := fun m hm => diskDinode_stored hfits h0 hm
  have hfind : ∀ m, (u.modify n fun i => { i with dirty := false }).find m =
      if m = n then some { i with dirty := false } else s.find m := find_stored hi
  set t : State := u.modify n fun i => { i with dirty := false } with ht
  have hdinode : ∀ m, s.alloc m → t.dinode m = s.dinode m := by
    intro m hm
    unfold State.dinode
    rw [hfind, hdisk m hm.1]
    split_ifs with hmn
    · rw [hmn, hi]
    · rfl
  have hmem : Mem t := by
    have hmem := h.core.mem
    refine ⟨?_, fun m j hj => ?_, fun m j hj hc => ?_, hmem.allocRange, fun m hm => ?_, fun m hm => ?_, fun m hm => ?_,
      fun m hm0 hm1 hm => ?_⟩
    · rw [ht, keys_clean]
      exact hmem.nodup
    · rw [hfind] at hj
      split_ifs at hj with hmn
      · rw [hmn]; exact ⟨h0, h1⟩
      · exact hmem.range m j hj
    · rw [hfind] at hj
      split_ifs at hj with hmn
      · cases hj
        rw [hdisk m (by omega), if_pos hmn]
        exact agree_refl _
      · rw [hdisk m (hmem.range m j hj).1, if_neg hmn]
        exact hmem.clean m j hj hc
    · rw [hdinode m hm]; exact hmem.typed m hm
    · rw [hdinode m hm]; exact hmem.size m hm
    · rw [hdisk m hm.1]
      split_ifs with hmn
      · rw [← dinode_of_find hi]
        exact (hmem.size n hn).1
      · exact hmem.diskSize m hm
    · have hmn : m ≠ n := fun hc => hm (hc ▸ hn)
      rw [hdisk m hm0, if_neg hmn, hfind, if_neg hmn]
      exact hmem.fresh m hm0 hm1 hm
  have hsettles : ∀ X, Settles X X s t := by
    intro X P hP hs m j hj hm
    rw [hfind] at hj
    split_ifs at hj with hmn
    · cases hj
      rw [hdisk m (by omega), if_pos hmn]
      exact ⟨rfl, hP _⟩
    · rw [hdisk m (h.core.mem.range m j hj).1, if_neg hmn]
      exact hs m j hj hm
  have hcarries : ∀ m, s.alloc m → Carries s t m := by
    intro m hm
    refine ⟨Or.inl (hdinode m hm), ?_⟩
    rw [hdisk m hm.1]
    split_ifs with hmn
    · rw [hmn]
      exact Or.inl (dinode_of_find hi).symm
    · exact Or.inr rfl
  have hnb := h.core.geo.nblocks
  refine ⟨h.same rfl rfl rfl (fun x hx => update_of_ne (by omega) ..) (max_eq_left (by omega)) hmem (fun m hm => ?_)
    rfl rfl rfl hsettles (fun _ _ m hm _ => hdinode m hm) hcarries, i, { i with dirty := false }, hi, ?_, rfl, rfl⟩
  · rw [hdinode m hm]
    exact agree_refl _
  · rw [hfind, if_pos rfl]

/-- after `testfs_sync_inode` the inode is settled too, if it was dirty or as on disk -/
theorem syncInode_settles {P : Dinode → Dinode → Prop} {X : Set ℤ} (h : Sound s) (hn : s.alloc n) (hP : ∀ d, P d d)
    (hclean : ∀ i, s.find n = some i → i.dirty = false → P i.dinode (s.diskDinode n)) (hs : Settled P (insert n X) s)
    (hr : syncInode s n = .ok s') : Settled P X s' := by
  obtain ⟨i, hi, ⟨hdirty, rfl⟩ | ⟨hdirty, rfl⟩⟩ := syncInode_cases h.core.geo h.core.mem hr
  · intro m j hj hm
    by_cases hmn : m = n
    · rw [hmn] at hj ⊢
      rw [hi] at hj
      cases hj
      exact ⟨hdirty, hclean i hi hdirty⟩
    · exact hs m j hj fun hc => hm (Set.mem_of_mem_insert_of_ne hc hmn)
  · obtain ⟨h0, h1⟩ := h.core.mem.range n i hi
    have hfits : i.dinode.Fits := by
      rw [← dinode_of_find hi]
      exact h.core.fits hn
    intro m j hj hm
    rw [find_stored hi] at hj
    split_ifs at hj with hmn
    · cases hj
      rw [diskDinode_stored hfits h0 (by omega), if_pos hmn]
      exact ⟨rfl, hP _⟩
    · rw [diskDinode_stored hfits h0 (h.core.mem.range m j hj).1, if_neg hmn]
      exact hs m j hj fun hc => hm (Set.mem_of_mem_insert_of_ne hc hmn)

theorem syncInode_others (h : Sound s) (hr : syncInode s n = .ok s') (hm : m ≠ n) : s'.find m = s.find m := by
  obtain ⟨i, hi, ⟨-, rfl⟩ | ⟨-, rfl⟩⟩ := syncInode_cases h.core.geo h.core.mem hr
  · rfl
  · rw [find_stored hi, if_neg hm]

theorem putInode_cases (h : putInode s n = .ok s') :
    ∃ i, s.find n = some i ∧ i.dirty = false ∧
      (s' = { s with hash := s.hash.eraseP fun i => i.iNr = n } ∨
      s' = s.modify n fun i => { i with iCount := i.iCount - 1 }) := by
  unfold putInode at h
  rw [bind_eq_ok] at h
  obtain ⟨i, hi, h⟩ := h
  rw [deref_eq_ok] at hi
  split_ifs at h with hd hc
  · cases h
    exact ⟨i, hi, by simpa using hd, Or.inl rfl⟩
  · cases h
    exact ⟨i, hi, by simpa using hd, Or.inr rfl⟩

theorem putInode_others (h : Mem s) (hr : putInode s n = .ok s') (hm : m ≠ n) : s'.find m = s.find m := by
  obtain ⟨i, -, -, rfl | rfl⟩ := putInode_cases hr
  · rw [State.find, find_eraseP h.nodup, if_neg hm]
    rfl
  · rw [find_modify, if_neg hm]
    exact fun _ => rfl

theorem putInode_dev (hr : putInode s n = .ok s') : s'.dev = s.dev := by
  obtain ⟨i, -, -, rfl | rfl⟩ := putInode_cases hr
  · rfl
  · rfl

/-- **`testfs_put_inode`.** -/
theorem putInode_same (h : Sound s) (hr : putInode s n = .ok s') : Same s s' := by
  obtain ⟨i, hi, hclean, rfl | rfl⟩ := putInode_cases hr
  swap
  · exact h.modify (fun _ => rfl) fun _ _ => ⟨rfl, rfl⟩
  have hmem := h.core.mem
  set t : State := { s with hash := s.hash.eraseP fun i => i.iNr = n } with ht
  have hfind : ∀ m, t.find m = if m = n then none else s.find m := fun m => find_eraseP hmem.nodup m
  have hold : ∀ m j, t.find m = some j → s.find m = some j := by
    intro m j hj
    rw [hfind] at hj
    split_ifs at hj
    exact hj
  have hagree : ∀ m, s.alloc m → Agree (t.dinode m) (s.dinode m) := by
    intro m hm
    by_cases hmn : m = n
    · subst hmn
      have ha := hmem.clean m i hi hclean
      rw [dinode_of_none (s := t) (by rw [hfind, if_pos rfl]), dinode_of_find hi]
      exact ⟨ha.type.symm, ⟨ha.ptrs.1.symm, ha.ptrs.2.1.symm, ha.ptrs.2.2.symm⟩, ha.count.symm,
        fun hd => (ha.size (ha.type.trans hd)).symm⟩
    · have heq : t.dinode m = s.dinode m := by
        unfold State.dinode
        rw [hfind, if_neg hmn]
        rfl
      rw [heq]
      exact agree_refl _
  have hcarries : ∀ m, s.alloc m → Carries s t m := by
    intro m _
    refine ⟨?_, Or.inr rfl⟩
    unfold State.dinode
    rw [hfind]
    split_ifs with hmn
    · exact Or.inr rfl
    · exact Or.inl rfl
  refine h.same rfl rfl rfl (fun _ _ => rfl) rfl ?_ hagree rfl rfl rfl (fun X => ?_) (fun X hs m hm hX => ?_) hcarries
  rotate_left
  · exact settles_of_find (fun m j hj => Or.inr ⟨j, hold m j hj, rfl, rfl⟩) fun _ => rfl
  · unfold State.dinode
    rw [hfind]
    split_ifs with hmn
    · subst hmn
      rw [hi]
      exact (hs m i hi hX).2.symm
    · rfl
  refine ⟨?_, fun m j hj => hmem.range m j (hold m j hj), fun m j hj hc => hmem.clean m j (hold m j hj) hc,
    hmem.allocRange, fun m hm => ?_, fun m hm => ?_, hmem.diskSize, fun m h0 h1 hm => ⟨(hmem.fresh m h0 h1 hm).1,
      fun j hj => (hmem.fresh m h0 h1 hm).2 j (hold m j hj)⟩⟩
  · refine List.Nodup.sublist ?_ hmem.nodup
    exact (List.eraseP_sublist ..).map _
  · rw [(hagree m hm).type]
    exact hmem.typed m hm
  · by_cases hmn : m = n
    · rw [dinode_of_none (s := t) (by rw [hfind, if_pos hmn])]
      exact ⟨hmem.diskSize m hm, diskDinode_size_lt s m⟩
    · have heq : t.dinode m = s.dinode m := by
        unfold State.dinode
        rw [hfind, if_neg hmn]
        rfl
      rw [heq]
      exact hmem.size m hm

/-! ## `testfs_create_inode` -/

/-- the inode freemap changed, in memory and on disk, and nothing else but the count in the super block -/
structure Remapped (s s' : State) (bm : Bitmap) : Prop where
  map : s'.inodeFreemap = bm
  sb : s'.sb = { s.sb with usedInodeCount := s'.sb.usedInodeCount }
  disk : Disk s → Disk s'
  blocks : ∀ x, 2 ≤ x → s'.dev.blocks x = s.dev.blocks x
  nblocks : s'.dev.nblocks = s.dev.nblocks
  blockFreemap : s'.blockFreemap = s.blockFreemap
  hash : s'.hash = s.hash
  curDir : s'.curDir = s.curDir
  stack : s'.stack = s.stack
  dirFails : s'.dirFails = s.dirFails

theorem remapped_of_writes {bm : Bitmap} {cnt idx : ℕ} (hg : Geo s) (hidx : idx < 65536)
    (hs' : s' = writeSuperBlock { writeInodeFreemap { s with inodeFreemap := bm } idx with
      sb := { s.sb with usedInodeCount := cnt } }) : Remapped s s' bm := by
  have hn := hg.nblocks
  have hblk : idx / 65536 = 0 := by omega
  subst hs'
  refine ⟨rfl, rfl, fun hd => ⟨?_, fun j hj => ?_, fun k hk j hj => ?_⟩, fun x hx => ?_, ?_, rfl, rfl, rfl, rfl, rfl⟩
  · simp [writeSuperBlock, writeMeta, Dev.write]
  · simp only [writeSuperBlock, writeInodeFreemap, writeMeta, Dev.write, hg.inodeFreemapStart, hblk]
    rw [update_of_ne (by norm_num), show ((1 + 0 : ℕ) : ℤ) = 1 by norm_num, update_self]
    simp [Bitmap.blockOf, hblk]
  · simp only [writeSuperBlock, writeInodeFreemap, writeMeta, Dev.write, hg.inodeFreemapStart, hblk]
    rw [update_of_ne (by omega), update_of_ne (by omega)]
    exact hd.blocks k hk j hj
  · simp only [writeSuperBlock, writeInodeFreemap, writeMeta, Dev.write, hg.inodeFreemapStart, hblk]
    rw [update_of_ne (by omega), update_of_ne (by omega)]
  · simp only [writeSuperBlock, writeInodeFreemap, writeMeta, Dev.write, hg.inodeFreemapStart, hblk]
    omega

theorem getInodeFreemap_cases (hg : Geo s) (h : getInodeFreemap s = .ok (r, s')) :
    (r = -ENOSPC ∧ s' = s) ∨ ∃ idx bm, s.inodeFreemap.alloc = .ok (some (idx, bm)) ∧ r = idx ∧ idx < 65536 ∧
      Remapped s s' bm := by
  unfold getInodeFreemap at h
  rw [bind_eq_ok] at h
  obtain ⟨a, ha, h⟩ := h
  cases a with
  | none =>
    cases h
    exact Or.inl ⟨rfl, rfl⟩
  | some q =>
    obtain ⟨idx, bm⟩ := q
    cases h
    have hlt : idx < 65536 := by
      rw [← hg.inodeBits]
      exact (Bitmap.alloc_eq_some ha).1
    exact Or.inr ⟨idx, bm, ha, rfl, hlt, remapped_of_writes hg hlt rfl⟩

theorem putInodeFreemap_cases (hg : Geo s) (h : putInodeFreemap s n = .ok s') :
    ∃ bm, s.inodeFreemap.unmark n.toNat = .ok bm ∧ n.toNat < 65536 ∧ Remapped s s' bm := by
  unfold putInodeFreemap at h
  rw [bind_eq_ok] at h
  obtain ⟨bm, hbm, h⟩ := h
  dsimp only at h
  split_ifs at h with hused
  cases h
  have hlt : n.toNat < 65536 := by
    rw [← hg.inodeBits]
    exact (Bitmap.unmark_eq_ok hbm).1
  exact ⟨bm, hbm, hlt, remapped_of_writes hg hlt rfl⟩

namespace Remapped

variable {bm : Bitmap}

theorem geo (h : Remapped s s' bm) (hg : Geo s) (hbits : bm.nbits = s.inodeFreemap.nbits) : Geo s' where
  inodeFreemapStart := by rw [h.sb]; exact hg.inodeFreemapStart
  blockFreemapStart := by rw [h.sb]; exact hg.blockFreemapStart
  inodeBlocksStart := by rw [h.sb]; exact hg.inodeBlocksStart
  dataBlocksStart := by rw [h.sb]; exact hg.dataBlocksStart
  maxBlocks := by rw [h.sb]; exact hg.maxBlocks
  nblocks := by rw [h.nblocks]; exact hg.nblocks
  inodeBits := by rw [h.map, hbits]; exact hg.inodeBits
  blockBits := by rw [h.blockFreemap]; exact hg.blockBits

theorem find (h : Remapped s s' bm) (m : ℤ) : s'.find m = s.find m := by simp only [State.find, h.hash]

theorem busy (h : Remapped s s' bm) (x : ℤ) : s'.busy x ↔ s.busy x := by simp only [State.busy, h.blockFreemap]

theorem diskDinode (h : Remapped s s' bm) (m : ℤ) : s'.diskDinode m = s.diskDinode m := by
  unfold State.diskDinode
  rw [h.blocks _ (by omega)]

theorem dinode (h : Remapped s s' bm) (m : ℤ) : s'.dinode m = s.dinode m := by
  unfold State.dinode
  rw [h.find, h.diskDinode]

theorem used (h : Remapped s s' bm) : s'.sb.usedBlockCount = s.sb.usedBlockCount := by rw [h.sb]

theorem max (h : Remapped s s' bm) : s'.sb.maxFsBlocks = s.sb.maxFsBlocks := by rw [h.sb]

/-- a bit was set, another one than those in use -/
theorem alloc_of_mark (h : Remapped s s' bm) {idx : ℕ} (ha : s.inodeFreemap.alloc = .ok (some (idx, bm))) (m : ℤ) :
    s'.alloc m ↔ s.alloc m ∨ m = idx := by
  obtain ⟨hins, -⟩ := Bitmap.bits_of_alloc ha
  simp only [State.alloc, h.map, hins, Finset.mem_insert]
  constructor
  · rintro ⟨h0, h1 | h1⟩
    · exact Or.inr (by omega)
    · exact Or.inl ⟨h0, h1⟩
  · rintro (⟨h0, h1⟩ | rfl)
    · exact ⟨h0, Or.inr h1⟩
    · exact ⟨by omega, Or.inl (by omega)⟩

/-- a bit was cleared -/
theorem alloc_of_unmark (h : Remapped s s' bm) (hn : 0 ≤ n) (hu : s.inodeFreemap.unmark n.toNat = .ok bm) (m : ℤ) :
    s'.alloc m ↔ s.alloc m ∧ m ≠ n := by
  obtain ⟨hdel, -⟩ := Bitmap.bits_of_unmark hu
  simp only [State.alloc, h.map, hdel, Finset.mem_erase]
  constructor
  · rintro ⟨h0, h1, h2⟩
    exact ⟨⟨h0, h2⟩, fun hc => h1 (by rw [hc])⟩
  · rintro ⟨⟨h0, h1⟩, h2⟩
    exact ⟨h0, fun hc => h2 (by omega), h1⟩

theorem trans {bm' : Bitmap} (h : Remapped s s' bm) (h' : Remapped s' s'' bm') : Remapped s s'' bm' where
  map := h'.map
  sb := by rw [h'.sb, h.sb]
  disk := fun hd => h'.disk (h.disk hd)
  blocks := fun x hx => (h'.blocks x hx).trans (h.blocks x hx)
  nblocks := h'.nblocks.trans h.nblocks
  blockFreemap := h'.blockFreemap.trans h.blockFreemap
  hash := h'.hash.trans h.hash
  curDir := h'.curDir.trans h.curDir
  stack := h'.stack.trans h.stack
  dirFails := h'.dirFails.trans h.dirFails

end Remapped

/-- the block accounting when the inodes in use change by `n`, which has no blocks -/
theorem Acc.remap {t : State} (h : Acc s 0 ∅) (hbf : t.blockFreemap = s.blockFreemap)
    (hused : t.sb.usedBlockCount = s.sb.usedBlockCount) (hmax : t.sb.maxFsBlocks = s.sb.maxFsBlocks)
    (hblocks : ∀ x, 146 ≤ x → t.dev.blocks x = s.dev.blocks x) (hnb : t.dev.nblocks = s.dev.nblocks)
    (h146 : 146 ≤ s.dev.nblocks) (halloc : ∀ m, m ≠ n → (t.alloc m ↔ s.alloc m))
    (hdinode : ∀ m, s.alloc m → m ≠ n → t.dinode m = s.dinode m)
    (hold : s.alloc n → ∀ σ, s.tree n σ = 0)
    (hnew : t.alloc n → SamePtrs Dinode.zero (t.dinode n) ∧ (t.dinode n).blockCount = 0) : Acc t 0 ∅ := by
  have htree : ∀ m, s.alloc m → m ≠ n → t.tree m = s.tree m := by
    intro m hm hmn
    refine tree_congr (by rw [hdinode m hm hmn]; exact ⟨rfl, rfl, rfl⟩) fun σ _ h0 => hblocks _ (h.pos_of_tree hm h0)
  have hzero : t.alloc n → ∀ σ, t.tree n σ = 0 := fun hn σ => tree_zero (hnew hn).1 σ
  have hbusy : ∀ x, t.busy x ↔ s.busy x := fun x => by simp only [State.busy, hbf]
  refine ⟨?_, fun x hx => absurd hx (Finset.notMem_empty x), fun m hm => ?_, by rw [hused, hbf]; exact h.used,
    by rw [hused, hmax]; exact h.limit, fun x hx hz => ?_, fun x hx => ?_⟩
  · refine h.exact.congr (fun k => ?_) fun x => by rw [hbusy]
    obtain ⟨m, σ⟩ := k
    simp only [State.ptr]
    by_cases hmn : m = n
    · subst hmn
      have h1 : (if t.alloc m then t.tree m σ else 0) = 0 := by
        split_ifs with hm
        · exact hzero hm σ
        · rfl
      have h2 : (if s.alloc m then s.tree m σ else 0) = 0 := by
        split_ifs with hm
        · exact hold hm σ
        · rfl
      rw [h1, h2]
    · by_cases hm : s.alloc m
      · rw [if_pos hm, if_pos ((halloc m hmn).2 hm), htree m hm hmn]
      · rw [if_neg hm, if_neg fun hc => hm ((halloc m hmn).1 hc)]
  · rw [Finset.card_empty, Nat.cast_zero, ite_self, add_zero]
    by_cases hmn : m = n
    · subst hmn
      rw [(hnew hm).2, held_eq_zero (hzero hm), Nat.cast_zero]
    · have hm' := (halloc m hmn).1 hm
      rw [hdinode m hm' hmn, htree m hm' hmn]
      have hcount := h.count m hm'
      rwa [Finset.card_empty, Nat.cast_zero, ite_self, add_zero] at hcount
  · rw [hblocks x hx]
    exact h.zero x hx (by rw [← hbusy]; exact hz)
  · rw [hnb] at hx
    rw [hblocks x (by omega)]
    exact h.eof x hx

/-- a new inode, an empty file or directory -/
structure Born (s s' : State) (n type : ℤ) : Prop where
  sound : Sound s'
  fresh : ¬s.alloc n
  alloc : ∀ m, s'.alloc m ↔ s.alloc m ∨ m = n
  still : ∀ m, s.alloc m → Still s s' m
  find : ∃ i, s'.find n = some i ∧ i.dinode = { Dinode.zero with iType := type } ∧ i.dirty = true
  others : ∀ m, m ≠ n → s'.find m = s.find m
  disk : ∀ m, s'.diskDinode m = s.diskDinode m
  curDir : s'.curDir = s.curDir
  stack : s'.stack = s.stack
  dirFails : s'.dirFails = s.dirFails
  nblocks : s'.dev.nblocks = s.dev.nblocks
  used : s'.sb.usedBlockCount = s.sb.usedBlockCount
  max : s'.sb.maxFsBlocks = s.sb.maxFsBlocks

theorem Born.settles {type : ℤ} (h : Born s s' n type) (X : Set ℤ) : Settles X (insert n X) s s' := by
  intro P _ hs m i hi hm
  have hmn : m ≠ n := fun hc => hm (hc ▸ Set.mem_insert n X)
  rw [h.others m hmn] at hi
  rw [h.disk]
  exact hs m i hi fun hc => hm (Set.mem_insert_of_mem n hc)

theorem Born.dinode {type : ℤ} (h : Born s s' n type) (hm : m ≠ n) : s'.dinode m = s.dinode m := by
  unfold State.dinode
  rw [h.others m hm, h.disk]

theorem Born.carries {type : ℤ} (h : Born s s' n type) (hm : m ≠ n) : Carries s s' m :=
  ⟨Or.inl (h.dinode hm), Or.inr (h.disk m)⟩

/-- a new inode has no bytes, and the one on disk has none -/
theorem Born.size {type : ℤ} (h : Born s s' n type) (hs : Mem s) :
    (s'.dinode n).iSize = 0 ∧ (s'.diskDinode n).iSize = 0 := by
  obtain ⟨h0, h1⟩ := mem_range h.sound.core.mem ((h.alloc n).2 (Or.inr rfl))
  obtain ⟨i, hi, hdi, -⟩ := h.find
  refine ⟨by rw [dinode_of_find hi, hdi]; rfl, ?_⟩
  rw [h.disk, (hs.fresh n h0 h1 h.fresh).1]
  rfl

/-- everything but the hash table is the same -/
structure SameDisk (s s' : State) : Prop where
  sb : s'.sb = s.sb
  dev : s'.dev = s.dev
  inodeFreemap : s'.inodeFreemap = s.inodeFreemap
  blockFreemap : s'.blockFreemap = s.blockFreemap
  curDir : s'.curDir = s.curDir
  stack : s'.stack = s.stack
  dirFails : s'.dirFails = s.dirFails

theorem Sound.born {t : State} {bm : Bitmap} {idx : ℕ} {type : ℤ} {j : Inode} (h : Sound s) (hmap : Remapped s s' bm)
    (ha : s.inodeFreemap.alloc = .ok (some (idx, bm))) (hidx : idx < 16384) (htype : type = iFile ∨ type = iDir)
    (ht : SameDisk s' t) (hnodup : (t.hash.map Inode.iNr).Nodup)
    (hfind : ∀ m, t.find m = if m = (idx : ℤ) then some j else s.find m)
    (hj : j.dinode = { Dinode.zero with iType := type }) (hdirty : j.dirty = true) : Born s t idx type := by
  have hfresh : ¬s.alloc idx := fun hc => (Bitmap.bits_of_alloc ha).2 (by simpa [State.alloc] using hc.2)
  have hallocT : ∀ m, t.alloc m ↔ s.alloc m ∨ m = idx := fun m => by
    rw [← hmap.alloc_of_mark ha]
    simp only [State.alloc, ht.inodeFreemap]
  have hblocks : ∀ x, 2 ≤ x → t.dev.blocks x = s.dev.blocks x := fun x hx => by rw [ht.dev, hmap.blocks x hx]
  have hdisk : ∀ m, t.diskDinode m = s.diskDinode m := fun m => by
    unfold State.diskDinode
    rw [hblocks _ (by omega)]
  have hne : ∀ m, s.alloc m → m ≠ (idx : ℤ) := fun m hm hc => hfresh (hc ▸ hm)
  have hdinode : ∀ m, m ≠ (idx : ℤ) → t.dinode m = s.dinode m := fun m hmn => by
    unfold State.dinode
    rw [hfind, if_neg hmn, hdisk]
  have hself : t.dinode idx = { Dinode.zero with iType := type } := by
    rw [dinode_of_find (i := j) (by rw [hfind, if_pos rfl]), hj]
  have hmem := h.core.mem
  have hgeo : Geo s' := hmap.geo h.core.geo (Bitmap.alloc_eq_some ha).2.2.2.1
  have hgeoT : Geo t := ⟨by rw [ht.sb]; exact hgeo.1, by rw [ht.sb]; exact hgeo.2, by rw [ht.sb]; exact hgeo.3,
    by rw [ht.sb]; exact hgeo.4, by rw [ht.sb]; exact hgeo.5, by rw [ht.dev]; exact hgeo.6,
    by rw [ht.inodeFreemap]; exact hgeo.7, by rw [ht.blockFreemap]; exact hgeo.8⟩
  have hd := hmap.disk h.core.disk
  have hdiskT : Disk t := ⟨by rw [ht.dev, ht.sb]; exact hd.super, by rw [ht.dev, ht.inodeFreemap]; exact hd.inodes,
    by rw [ht.dev, ht.blockFreemap]; exact hd.blocks⟩
  have hzero := hmem.fresh idx (by omega) (by omega) hfresh
  have hmemT : Mem t := by
    refine ⟨hnodup, fun m i hi => ?_, fun m i hi hc => ?_, fun m hm => ?_, fun m hm => ?_,
      fun m hm => ?_, fun m hm => ?_, fun m h0 h1 hm => ?_⟩
    · rw [hfind] at hi
      split_ifs at hi with hmn
      · omega
      · exact hmem.range m i hi
    · rw [hfind] at hi
      split_ifs at hi with hmn
      · cases hi
        rw [hdirty] at hc
        cases hc
      · rw [hdisk]
        exact hmem.clean m i hi hc
    · rcases (hallocT m).1 hm with hm | rfl
      · exact hmem.allocRange m hm
      · omega
    · rcases (hallocT m).1 hm with hm | rfl
      · rw [hdinode m (hne m hm)]
        exact hmem.typed m hm
      · rw [hself]
        exact htype
    · rcases (hallocT m).1 hm with hm | rfl
      · rw [hdinode m (hne m hm)]
        exact hmem.size m hm
      · rw [hself]
        constructor <;> norm_num [Dinode.zero]
    · rw [hdisk]
      rcases (hallocT m).1 hm with hm | rfl
      · exact hmem.diskSize m hm
      · rw [hzero.1]
        rfl
    · have hm' : ¬s.alloc m := fun hc => hm ((hallocT m).2 (Or.inl hc))
      have hmn : m ≠ (idx : ℤ) := fun hc => hm ((hallocT m).2 (Or.inr hc))
      rw [hdisk, hfind, if_neg hmn]
      exact hmem.fresh m h0 h1 hm'
  have hacc : Acc t 0 ∅ := by
    refine h.core.acc.remap (n := idx) (by rw [ht.blockFreemap, hmap.blockFreemap]) (by rw [ht.sb, hmap.used])
      (by rw [ht.sb, hmap.max]) (fun x hx => hblocks x (by omega)) (by rw [ht.dev, hmap.nblocks]) h.core.geo.nblocks
      (fun m hmn => ?_) (fun m _ hmn => hdinode m hmn) (fun hc => absurd hc hfresh) fun _ => ?_
    · rw [hallocT]
      exact or_iff_left hmn
    · rw [hself]
      exact ⟨⟨rfl, rfl, rfl⟩, rfl⟩
  have hstill : ∀ m, s.alloc m → Still s t m := fun m hm =>
    still_of_agree (by rw [hdinode m (hne m hm)]; exact agree_refl _)
      fun σ h0 => hblocks _ (by have := h.core.acc.pos_of_tree hm h0; omega)
  refine ⟨⟨⟨hgeoT, hdiskT, hmemT, hacc⟩, fun m σ hm hd _ h0 => ?_⟩, hfresh, hallocT, hstill,
    ⟨j, by rw [hfind, if_pos rfl], hj, hdirty⟩, fun m hmn => by
     rw [hfind, if_neg hmn], hdisk, ht.curDir.trans hmap.curDir, ht.stack.trans hmap.stack,
     ht.dirFails.trans hmap.dirFails, by rw [ht.dev, hmap.nblocks],
    by rw [ht.sb, hmap.used], by rw [ht.sb, hmap.max]⟩
  rcases (hallocT m).1 hm with hm | rfl
  · rw [(hstill m hm).tree] at h0 ⊢
    rw [ht.dev, hmap.nblocks]
    exact h.inside m σ hm hd id h0
  · have hz : t.tree idx σ = 0 := tree_zero (by rw [hself]; exact ⟨rfl, rfl, rfl⟩) σ
    exact absurd hz h0

/-- the inode freemap went through a change and back -/
theorem Sound.remap {bm : Bitmap} (h : Sound s) (hmap : Remapped s s' bm) (hbits : bm.nbits = s.inodeFreemap.nbits)
    (halloc : ∀ m, s'.alloc m ↔ s.alloc m) : Same s s' := by
  have hmem := h.core.mem
  have hmem' : Mem s' := by
    refine ⟨by rw [hmap.hash]; exact hmem.nodup, fun m i hi => ?_, fun m i hi hc => ?_, fun m hm => ?_, fun m hm => ?_,
      fun m hm => ?_, fun m hm => ?_, fun m h0 h1 hm => ?_⟩
    · rw [hmap.find] at hi
      exact hmem.range m i hi
    · rw [hmap.find] at hi
      rw [hmap.diskDinode]
      exact hmem.clean m i hi hc
    · exact hmem.allocRange m ((halloc m).1 hm)
    · rw [hmap.dinode]
      exact hmem.typed m ((halloc m).1 hm)
    · rw [hmap.dinode]
      exact hmem.size m ((halloc m).1 hm)
    · rw [hmap.diskDinode]
      exact hmem.diskSize m ((halloc m).1 hm)
    · rw [hmap.diskDinode, hmap.find]
      exact hmem.fresh m h0 h1 fun hc => hm ((halloc m).2 hc)
  have hacc : Acc s' 0 ∅ := h.core.acc.remap (n := -1) hmap.blockFreemap hmap.used hmap.max
    (fun x hx => hmap.blocks x (by omega)) hmap.nblocks h.core.geo.nblocks (fun m _ => halloc m)
    (fun m _ _ => hmap.dinode m) (fun hc => absurd hc.1 (by norm_num)) fun hc => absurd hc.1 (by norm_num)
  have hstill : ∀ m, s.alloc m → Still s s' m := fun m hm =>
    still_of_agree (by rw [hmap.dinode]; exact agree_refl _)
      fun σ h0 => hmap.blocks _ (by have := h.core.acc.pos_of_tree hm h0; omega)
  refine ⟨⟨⟨hmap.geo h.core.geo hbits, hmap.disk h.core.disk, hmem', hacc⟩, fun m σ hm hd _ h0 => ?_⟩, halloc, hstill,
    hmap.curDir, hmap.stack, hmap.dirFails, hmap.nblocks, hmap.used, hmap.max,
    fun X => settles_of_find (fun m j hj => Or.inr ⟨j, hmap.find m ▸ hj, rfl, rfl⟩) hmap.diskDinode,
    fun _ _ m _ _ => hmap.dinode m, fun m _ => ⟨Or.inl (hmap.dinode m), Or.inr (hmap.diskDinode m)⟩⟩
  have hm' := (halloc m).1 hm
  rw [(hstill m hm').tree] at h0 ⊢
  rw [hmap.nblocks]
  exact h.inside m σ hm' hd id h0

/-- an inode number that was not in use, loaded after its bit was set, comes with a dinode of zeros -/
theorem Remapped.load_fresh {bm : Bitmap} {s1 s2 : State} {idx : ℕ} (hmap : Remapped s s1 bm)
    (hmem : Mem s) (hgeo1 : Geo s1) (hlt : idx < 16384) (hfresh : ¬s.alloc idx) (hinode : getInode s1 idx = .ok s2) :
    SameDisk s1 s2 ∧ (s2.hash.map Inode.iNr).Nodup ∧ ∃ i, i.dinode = Dinode.zero ∧
      ∀ m, s2.find m = if m = (idx : ℤ) then some i else s.find m := by
  have hzero := hmem.fresh idx (by omega) (by omega) hfresh
  rcases getInode_cases hgeo1 (by omega) (by omega) hinode with ⟨i, hi, rfl⟩ | ⟨hnone, rfl⟩
  · rw [hmap.find] at hi
    refine ⟨⟨rfl, rfl, rfl, rfl, rfl, rfl, rfl⟩, ?_, { i with iCount := i.iCount + 1 }, hzero.2 i hi, fun m => ?_⟩
    · rw [keys_modify, hmap.hash]
      · exact hmem.nodup
      · exact fun _ => rfl
    · rw [find_modify, hmap.find, hmap.find, hi]
      · rfl
      · exact fun _ => rfl
  · rw [hmap.find] at hnone
    refine ⟨⟨rfl, rfl, rfl, rfl, rfl, rfl, rfl⟩, ?_, ⟨s1.diskDinode idx, false, idx, 1⟩, ?_, fun m => ?_⟩
    · rw [List.map_cons, List.nodup_cons, hmap.hash]
      exact ⟨find_eq_none.1 hnone, hmem.nodup⟩
    · rw [hmap.diskDinode]
      exact hzero.1
    · rw [find_cons, hmap.find]
      simp only [eq_comm]

/-- **`testfs_create_inode`.** -/
theorem createInode_spec {type : ℤ} (h : Sound s) (htype : type = iFile ∨ type = iDir)
    (hr : createInode s type = .ok (r, n, s')) : (r = -ENOSPC ∧ Same s s') ∨ (r = 0 ∧ Born s s' n type) := by
  unfold createInode at hr
  rw [bind_eq_ok] at hr
  obtain ⟨⟨nr, s1⟩, hget, hr⟩ := hr
  dsimp only at hr
  rcases getInodeFreemap_cases h.core.geo hget with ⟨rfl, rfl⟩ | ⟨idx, bm, ha, rfl, hidx, hmap⟩
  · have hneg : -ENOSPC < 0 := by decide
    rw [if_pos hneg] at hr
    cases hr
    exact Or.inl ⟨rfl, Same.refl h⟩
  have hbits : bm.nbits = s.inodeFreemap.nbits := (Bitmap.alloc_eq_some ha).2.2.2.1
  have hgeo1 := hmap.geo h.core.geo hbits
  have hneg : ¬((idx : ℤ) < 0) := by omega
  simp only [hneg, if_false, Int.toNat_natCast] at hr
  split_ifs at hr with hbig
  · -- no inode block for the number
    left
    rw [bind_eq_ok] at hr
    obtain ⟨s2, hput, hr⟩ := hr
    cases hr
    obtain ⟨bm', hbm', -, hmap'⟩ := putInodeFreemap_cases hgeo1 hput
    refine ⟨rfl, h.remap (hmap.trans hmap') ?_ fun m => ?_⟩
    · rw [(Bitmap.unmark_eq_ok hbm').2.2.1, hmap.map, hbits]
    · have hfresh : ¬s.alloc idx := fun hc => (Bitmap.bits_of_alloc ha).2 (by simpa [State.alloc] using hc.2)
      rw [hmap'.alloc_of_unmark (by omega) hbm', hmap.alloc_of_mark ha]
      constructor
      · rintro ⟨h1 | h1, h2⟩
        · exact h1
        · exact absurd h1 h2
      · intro h1
        exact ⟨Or.inl h1, fun hc => hfresh (hc ▸ h1)⟩
  · right
    have hlt : idx < 16384 := by
      unfold nrInodeBlocks inodesPerBlock at hbig
      omega
    rw [bind_eq_ok] at hr
    obtain ⟨s2, hinode, hr⟩ := hr
    cases hr
    refine ⟨rfl, ?_⟩
    have hfresh : ¬s.alloc idx := fun hc => (Bitmap.bits_of_alloc ha).2 (by simpa [State.alloc] using hc.2)
    obtain ⟨hsame, hnodup, i, hi0, hfind⟩ := hmap.load_fresh h.core.mem hgeo1 hlt hfresh hinode
    refine h.born (j := { i with dinode := { i.dinode with iType := type }, dirty := true }) hmap ha hlt htype
      ⟨hsame.sb, hsame.dev, hsame.inodeFreemap, hsame.blockFreemap, hsame.curDir, hsame.stack,
       hsame.dirFails⟩ ?_ (fun m => ?_)
      (by simp only [hi0]) rfl
    · have hkeys : (((s2.setDinode idx fun d => { d with iType := type }).setDirty idx).hash.map Inode.iNr) =
          s2.hash.map Inode.iNr := ((Frame.setDinode _).trans Frame.setDirty).keys
      rw [hkeys]
      exact hnodup
    · rw [find_setDinode_setDirty, hfind, hfind, if_pos rfl]
      split_ifs with hmn
      · rfl
      · rfl

end OsLab.Testfs
