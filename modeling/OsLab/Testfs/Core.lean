/-
The invariant of the block accounting.

`Acc s n F`: every block in use stands in exactly one slot of one inode, except those of `F`, which inode `n` has just
been given and has no slot for yet; the counters agree with that; free blocks are blocks of zeros. `Mem` relates the
inodes in memory to the inode blocks. `Core` is all of it, with the layout and the freemaps on disk.

Four things happen to the blocks of an inode, and each keeps `Core`: a block is taken (`Core.took`), it gets a slot in
the dinode (`Core.setPtr`) or in a pointer block (`Core.putPtr`), it is given back (`Core.gave`, `Core.dropPtr`).
-/
import Mathlib.Tactic
import OsLab.Lib.Pool
import OsLab.Testfs.Store
import OsLab.Testfs.Tree

namespace OsLab.Testfs

open OsLab.Lib Function

namespace State

instance (s : State) (n : ℤ) : Decidable (s.alloc n) := inferInstanceAs (Decidable (_ ∧ _))

instance (s : State) (b : ℤ) : Decidable (s.busy b) := inferInstanceAs (Decidable (_ ∧ _))

/-- the block tree of inode `n` -/
def tree (s : State) (n : ℤ) : Slot → ℤ := Testfs.tree s.dev.blocks (s.dinode n)

/-- the block numbers in the slots of all inodes in use -/
def ptr (s : State) : ℤ × Slot → ℤ := fun k => if s.alloc k.1 then s.tree k.1 k.2 else 0

end State

open State

/-- equal but for the size of a file -/
structure Agree (d e : Dinode) : Prop where
  type : d.iType = e.iType
  ptrs : SamePtrs e d
  count : d.blockCount = e.blockCount
  size : d.iType = iDir → d.iSize = e.iSize

structure Acc (s : State) (n : ℤ) (F : Finset ℤ) : Prop where
  exact : Exact s.ptr fun b => s.busy b ∧ b ∉ F
  float : ∀ b ∈ F, s.busy b
  count : ∀ m, s.alloc m → (s.dinode m).blockCount = held (s.tree m) + if m = n then (F.card : ℤ) else 0
  used : s.sb.usedBlockCount = s.blockFreemap.bits.card
  limit : s.sb.usedBlockCount ≤ s.sb.maxFsBlocks
  zero : ∀ b, 146 ≤ b → ¬s.busy b ∨ b ∈ F → s.dev.blocks b = zeroMem
  eof : ∀ b, s.dev.nblocks ≤ b → s.dev.blocks b = zeroMem

/-- the inodes in memory and on disk -/
structure Mem (s : State) : Prop where
  nodup : (s.hash.map Inode.iNr).Nodup
  range : ∀ n i, s.find n = some i → 0 ≤ n ∧ n < 16384
  clean : ∀ n i, s.find n = some i → i.dirty = false → Agree i.dinode (s.diskDinode n)
  allocRange : ∀ n, s.alloc n → n < 16384
  typed : ∀ n, s.alloc n → (s.dinode n).iType = iFile ∨ (s.dinode n).iType = iDir
  size : ∀ n, s.alloc n → 0 ≤ (s.dinode n).iSize ∧ (s.dinode n).iSize < 2 ^ 63
  diskSize : ∀ n, s.alloc n → 0 ≤ (s.diskDinode n).iSize
  fresh : ∀ n, 0 ≤ n → n < 16384 → ¬s.alloc n → s.diskDinode n = Dinode.zero ∧ ∀ i, s.find n = some i →
    i.dinode = Dinode.zero

structure Core (s : State) (n : ℤ) (F : Finset ℤ) : Prop where
  geo : Geo s
  disk : Disk s
  mem : Mem s
  acc : Acc s n F

/-- a block with a slot lies inside the device; a double indirect block may not have been written yet -/
def Inside (s : State) (X : ℤ × Slot → Prop) : Prop :=
  ∀ m σ, s.alloc m → σ ≠ .dind → ¬X (m, σ) → s.tree m σ ≠ 0 → s.tree m σ < s.dev.nblocks

variable {s s' s'' : State} {n m b : ℤ} {F : Finset ℤ} {i i' i'' : Inode} {σ τ : Slot}

/-! ## Consequences -/

namespace Acc

theorem busy_of_tree (h : Acc s n F) (hm : s.alloc m) (hσ : s.tree m σ ≠ 0) : s.busy (s.tree m σ) ∧ s.tree m σ ∉ F := by
  have h1 := h.exact.mem (m, σ)
  simp only [ptr, hm, if_true] at h1
  exact h1 hσ

theorem pos_of_tree (h : Acc s n F) (hm : s.alloc m) (hσ : s.tree m σ ≠ 0) : 146 ≤ s.tree m σ :=
  (h.busy_of_tree hm hσ).1.1

theorem nonneg_of_tree (h : Acc s n F) (hm : s.alloc m) (σ : Slot) : 0 ≤ s.tree m σ := by
  by_cases hσ : s.tree m σ = 0
  · omega
  · have hpos := h.pos_of_tree hm hσ
    omega

theorem inj (h : Acc s n F) {m' : ℤ} (hm : s.alloc m) (hm' : s.alloc m') (hσ : s.tree m σ ≠ 0)
    (heq : s.tree m σ = s.tree m' τ) : m = m' ∧ σ = τ := by
  have h1 := h.exact.inj (m, σ) (m', τ)
  simp only [ptr, hm, hm', if_true] at h1
  simpa using h1 hσ heq

theorem treeInj (h : Acc s n F) (hm : s.alloc m) : TreeInj (s.tree m) :=
  fun _ _ hσ heq => (h.inj hm hm hσ heq).2

theorem count_of_ne (h : Acc s n F) (hm : s.alloc m) (hne : m ≠ n) : (s.dinode m).blockCount = held (s.tree m) := by
  rw [h.count m hm, if_neg hne, add_zero]

theorem count_self (h : Acc s n F) (hn : s.alloc n) : (s.dinode n).blockCount = held (s.tree n) + F.card := by
  rw [h.count n hn, if_pos rfl]

/-- with no block without a slot the inode that allocates is any inode -/
theorem change (h : Acc s n ∅) (m : ℤ) : Acc s m ∅ :=
  ⟨h.exact, h.float, fun k hk => by rw [h.count k hk, Finset.card_empty, Nat.cast_zero, ite_self, ite_self],
    h.used, h.limit, h.zero, h.eof⟩

end Acc

theorem Core.change (h : Core s n ∅) (m : ℤ) : Core s m ∅ := ⟨h.geo, h.disk, h.mem, h.acc.change m⟩

/-- a block number is an `int` -/
theorem inInt32_of_busy (hg : Geo s) (h : s.busy b) : InInt32 b := by
  have h1 := lt_of_busy hg h
  have h2 := h.1
  constructor <;> omega

theorem tree_of_find (h : s.find n = some i) : s.tree n = Testfs.tree s.dev.blocks i.dinode := by
  rw [State.tree, dinode_of_find h]

/-! ## One inode changes -/

/-- only inode `n`, in memory, and the blocks of files have changed -/
structure Touch (s s' : State) (n : ℤ) (i i' : Inode) : Prop where
  frame : Frame s s'
  old : s.find n = some i
  new : s'.find n = some i'
  others : ∀ m, m ≠ n → s'.find m = s.find m
  count : i'.iCount = i.iCount
  type : i'.dinode.iType = i.dinode.iType
  dirty : i.dirty = true → i'.dirty = true
  clean : i'.dirty = false → i'.dinode = { i.dinode with iSize := i'.dinode.iSize }
  used : (s'.sb.usedBlockCount : ℤ) - s.sb.usedBlockCount = i'.dinode.blockCount - i.dinode.blockCount

namespace Touch

theorem refl (h : s.find n = some i) : Touch s s n i i :=
  ⟨Frame.refl s, h, h, fun _ _ => rfl, rfl, rfl, id, fun _ => rfl, by omega⟩

theorem trans (h : Touch s s' n i i') (h' : Touch s' s'' n i' i'') : Touch s s'' n i i'' where
  frame := h.frame.trans h'.frame
  old := h.old
  new := h'.new
  others := fun m hm => (h'.others m hm).trans (h.others m hm)
  count := h'.count.trans h.count
  type := h'.type.trans h.type
  dirty := fun hd => h'.dirty (h.dirty hd)
  clean := fun hc => by
    have hc' : i'.dirty = false := by
      cases hd : i'.dirty with
      | false => rfl
      | true => rw [h'.dirty hd] at hc; cases hc
    rw [h'.clean hc, h.clean hc']
  used := by
    have h1 := h.used
    have h2 := h'.used
    omega

theorem alloc (h : Touch s s' n i i') : s'.alloc m ↔ s.alloc m := h.frame.alloc

theorem dinode_of_ne (h : Touch s s' n i i') (hr : m < 16384) (hm : m ≠ n) : s'.dinode m = s.dinode m := by
  simp only [State.dinode, h.others m hm, h.frame.diskDinode hr]

/-- the inodes in memory and on disk still fit -/
theorem mem (h : Touch s s' n i i') (hs : Mem s) (hn : s.alloc n)
    (hsize : 0 ≤ i'.dinode.iSize ∧ i'.dinode.iSize < 2 ^ 63)
    (hdir : i'.dirty = false → i.dinode.iType = iDir → i'.dinode.iSize = i.dinode.iSize) : Mem s' where
  nodup := by rw [h.frame.keys]; exact hs.nodup
  range := fun m j hj => by
    by_cases hm : m = n
    · subst hm; exact hs.range m i h.old
    · exact hs.range m j (by rw [← h.others m hm]; exact hj)
  clean := fun m j hj hc => by
    by_cases hm : m = n
    · subst hm
      rw [h.new, Option.some.injEq] at hj
      subst hj
      have hc' : i.dirty = false := by
        cases hd : i.dirty with
        | false => rfl
        | true => rw [h.dirty hd] at hc; cases hc
      have hold := hs.clean m i h.old hc'
      have heq := h.clean hc
      rw [h.frame.diskDinode (hs.range m i h.old).2]
      refine ⟨?_, ?_, ?_, fun hd => ?_⟩
      · rw [heq]; exact hold.type
      · rw [heq]; exact hold.ptrs
      · rw [heq]; exact hold.count
      · rw [h.type] at hd
        rw [hdir hc hd]
        exact hold.size hd
    · rw [h.others m hm] at hj
      rw [h.frame.diskDinode (hs.range m j hj).2]
      exact hs.clean m j hj hc
  allocRange := fun m hm => hs.allocRange m (h.alloc.1 hm)
  typed := fun m hm => by
    have hm' := h.alloc.1 hm
    by_cases hmn : m = n
    · subst hmn
      rw [dinode_of_find h.new, h.type, ← dinode_of_find h.old]
      exact hs.typed m hm'
    · rw [h.dinode_of_ne (hs.allocRange m hm') hmn]
      exact hs.typed m hm'
  size := fun m hm => by
    have hm' := h.alloc.1 hm
    by_cases hmn : m = n
    · subst hmn
      rw [dinode_of_find h.new]
      exact hsize
    · rw [h.dinode_of_ne (hs.allocRange m hm') hmn]
      exact hs.size m hm'
  diskSize := fun m hm => by
    have hm' := h.alloc.1 hm
    rw [h.frame.diskDinode (hs.allocRange m hm')]
    exact hs.diskSize m hm'
  fresh := fun m h0 h1 hm => by
    have hm' : ¬s.alloc m := fun hc => hm (h.alloc.2 hc)
    have hmn : m ≠ n := fun hc => hm' (hc ▸ hn)
    rw [h.frame.diskDinode h1, h.others m hmn]
    exact hs.fresh m h0 h1 hm'

/-- the case of an unchanged size -/
theorem mem_of_size (h : Touch s s' n i i') (hs : Mem s) (hn : s.alloc n) (hsize : i'.dinode.iSize = i.dinode.iSize) :
    Mem s' := by
  refine h.mem hs hn ?_ fun _ _ => hsize
  rw [hsize, ← dinode_of_find h.old]
  exact hs.size n hn

end Touch

theorem Took.touch (h : Took s s' n b) (hi : s.find n = some i) :
    Touch s s' n i { i with dinode := { i.dinode with blockCount := i.dinode.blockCount + 1 }, dirty := true } where
  frame := h.frame
  old := hi
  new := by rw [h.find, if_pos rfl, hi]; rfl
  others := fun m hm => by rw [h.find, if_neg hm]
  count := rfl
  type := rfl
  dirty := fun _ => rfl
  clean := fun hc => by cases hc
  used := by
    rw [h.used]
    push_cast
    ring

theorem Gave.touch (h : Gave s s' n b) (hi : s.find n = some i) :
    Touch s s' n i { i with dinode := { i.dinode with blockCount := i.dinode.blockCount - 1 }, dirty := true } where
  frame := h.frame
  old := hi
  new := by rw [h.find, if_pos rfl, hi]; rfl
  others := fun m hm => by rw [h.find, if_neg hm]
  count := rfl
  type := rfl
  dirty := fun _ => rfl
  clean := fun hc => by cases hc
  used := by
    rw [← h.used]
    push_cast
    ring

theorem touch_setDinode {f : Dinode → Dinode} (hi : s.find n = some i) (ht : (f i.dinode).iType = i.dinode.iType)
    (hc : (f i.dinode).blockCount = i.dinode.blockCount)
    (hf : i.dirty = false → f i.dinode = { i.dinode with iSize := (f i.dinode).iSize }) :
    Touch s (s.setDinode n f) n i { i with dinode := f i.dinode } where
  frame := Frame.setDinode f
  old := hi
  new := by rw [find_setDinode, if_pos rfl, hi]; rfl
  others := fun m hm => by rw [find_setDinode, if_neg hm]
  count := rfl
  type := ht
  dirty := id
  clean := hf
  used := by
    rw [hc, sub_self]
    exact sub_self _

theorem touch_setDirty (hi : s.find n = some i) : Touch s (s.setDirty n) n i { i with dirty := true } where
  frame := Frame.setDirty
  old := hi
  new := by rw [find_setDirty, if_pos rfl, hi]; rfl
  others := fun m hm => by rw [find_setDirty, if_neg hm]
  count := rfl
  type := rfl
  dirty := fun _ => rfl
  clean := fun hc => by cases hc
  used := by
    rw [sub_self]
    exact sub_self _

theorem touch_write {blk : Lib.Mem} (hi : s.find n = some i) (hb : 146 ≤ b) :
    Touch s { s with dev := s.dev.write b blk } n i i where
  frame := frame_write hb
  old := hi
  new := hi
  others := fun _ _ => rfl
  count := rfl
  type := rfl
  dirty := id
  clean := fun _ => rfl
  used := by rw [sub_self, sub_self]

/-! ## The slots after a step -/

theorem ptr_congr (ha : ∀ m, s'.alloc m ↔ s.alloc m) (ht : ∀ m, s.alloc m → s'.tree m = s.tree m) (k : ℤ × Slot) :
    s'.ptr k = s.ptr k := by
  unfold State.ptr
  by_cases hk : s.alloc k.1
  · rw [if_pos hk, if_pos ((ha _).2 hk), ht _ hk]
  · rw [if_neg hk, if_neg fun hc => hk ((ha _).1 hc)]

theorem ptr_update (ha : ∀ m, s'.alloc m ↔ s.alloc m) (hn : s.alloc n)
    (ht : ∀ m, s.alloc m → m ≠ n → s'.tree m = s.tree m) (hσ : s'.tree n = update (s.tree n) σ b) (k : ℤ × Slot) :
    s'.ptr k = update s.ptr (n, σ) b k := by
  obtain ⟨m, τ⟩ := k
  unfold State.ptr
  by_cases hm : m = n
  · subst hm
    by_cases hτ : τ = σ
    · subst hτ
      simp [hn, ha, hσ]
    · have hne : (m, τ) ≠ (m, σ) := by simpa using hτ
      simp [hn, ha, hσ, update_of_ne hτ, update_of_ne hne]
  · have hne : (m, τ) ≠ (n, σ) := by simp [hm]
    rw [update_of_ne hne]
    by_cases hk : s.alloc m
    · simp [hk, ha, ht m hk hm]
    · simp [hk, ha]

/-- the trees of all inodes when only the pointer blocks matter -/
theorem Touch.trees (h : Touch s s' n i i') (hs : Core s n F) (hp : SamePtrs i.dinode i'.dinode)
    (hb : ∀ m σ, s.alloc m → σ.isPtr → s.tree m σ ≠ 0 → s'.dev.blocks (s.tree m σ) = s.dev.blocks (s.tree m σ))
    (m : ℤ) (hm : s.alloc m) : s'.tree m = s.tree m := by
  refine tree_congr ?_ fun σ hσ h0 => hb m σ hm hσ h0
  by_cases hmn : m = n
  · subst hmn
    rw [dinode_of_find h.old, dinode_of_find h.new]
    exact hp
  · rw [h.dinode_of_ne (hs.mem.allocRange m hm) hmn]
    exact ⟨rfl, rfl, rfl⟩

/-- the trees of the other inodes when a block of inode `n` changes -/
theorem Touch.other_tree (h : Touch s s' n i i') (hs : Core s n F) {q : ℤ}
    (hq : ∀ m σ, s.alloc m → m ≠ n → s.tree m σ ≠ q)
    (hb : ∀ x, 146 ≤ x → x ≠ q → s'.dev.blocks x = s.dev.blocks x) (m : ℤ) (hm : s.alloc m) (hmn : m ≠ n) :
    s'.tree m = s.tree m := by
  refine tree_congr ?_ fun σ _ h0 => hb _ (hs.acc.pos_of_tree hm h0) (hq m σ hm hmn)
  rw [h.dinode_of_ne (hs.mem.allocRange m hm) hmn]
  exact ⟨rfl, rfl, rfl⟩

/-! ## The steps -/

theorem Core.took (h : Core s n F) (hn : s.alloc n) (hi : s.find n = some i) (ht : Took s s' n b) :
    Core s' n (insert b F) ∧ ∀ m, s.alloc m → s'.tree m = s.tree m := by
  have htouch := ht.touch hi
  have hbF : b ∉ F := fun hb => ht.fresh (h.acc.float b hb)
  have htrees : ∀ m, s.alloc m → s'.tree m = s.tree m :=
    htouch.trees h ⟨rfl, rfl, rfl⟩ fun m σ hm _ h0 => ht.blocks _ (by have := h.acc.pos_of_tree hm h0; omega)
  refine ⟨⟨ht.frame.geo h.geo, ht.disk h.disk, htouch.mem_of_size h.mem hn rfl, ?_⟩, htrees⟩
  refine ⟨?_, ?_, ?_, ?_, ?_, ?_, ?_⟩
  · refine h.acc.exact.congr (ptr_congr (fun m => htouch.alloc) htrees) fun x => ?_
    rw [ht.busy, Finset.mem_insert]
    constructor
    · rintro ⟨hx | hx, hnot⟩
      · exact ⟨hx, fun hc => hnot (Or.inr hc)⟩
      · exact absurd (Or.inl hx) hnot
    · rintro ⟨hx, hnot⟩
      refine ⟨Or.inl hx, ?_⟩
      rintro (hc | hc)
      · exact ht.fresh (hc ▸ hx)
      · exact hnot hc
  · intro x hx
    rw [ht.busy]
    rcases Finset.mem_insert.1 hx with hx | hx
    · exact Or.inr hx
    · exact Or.inl (h.acc.float x hx)
  · intro m hm
    have hm' := htouch.alloc.1 hm
    by_cases hmn : m = n
    · subst hmn
      have hold := h.acc.count_self hn
      rw [dinode_of_find hi] at hold
      rw [htrees m hm', dinode_of_find htouch.new, if_pos rfl, Finset.card_insert_of_notMem hbF]
      push_cast
      linarith
    · rw [htrees m hm', htouch.dinode_of_ne (h.mem.allocRange m hm') hmn, if_neg hmn, add_zero]
      exact h.acc.count_of_ne hm' hmn
  · rw [ht.used, ht.card, h.acc.used]
  · rw [ht.used, ht.frame.max]
    exact ht.room
  · intro x hx hz
    rw [ht.blocks x (by omega)]
    by_cases hxb : x = b
    · exact h.acc.zero x hx (Or.inl (hxb ▸ ht.fresh))
    · refine h.acc.zero x hx ?_
      rcases hz with hz | hz
      · exact Or.inl fun hc => hz ((ht.busy x).2 (Or.inl hc))
      · exact Or.inr (Finset.mem_of_mem_insert_of_ne hz hxb)
  · intro x hx
    rw [ht.nblocks] at hx
    have h146 := h.geo.nblocks
    rw [ht.blocks x (by omega)]
    exact h.acc.eof x hx

/-- a block without a slot is given back -/
theorem Core.gave (h : Core s n F) (hn : s.alloc n) (hi : s.find n = some i) (hb : b ∈ F) (ht : Gave s s' n b) :
    Core s' n (F.erase b) ∧ ∀ m, s.alloc m → s'.tree m = s.tree m := by
  have htouch := ht.touch hi
  have hpos : 146 ≤ b := ht.owned.1
  have hnb : ∀ m σ, s.alloc m → s.tree m σ ≠ 0 → s.tree m σ ≠ b := fun m σ hm h0 hc =>
    (h.acc.busy_of_tree hm h0).2 (hc ▸ hb)
  have htrees : ∀ m, s.alloc m → s'.tree m = s.tree m :=
    htouch.trees h ⟨rfl, rfl, rfl⟩ fun m σ hm _ h0 =>
      ht.blocks _ (by have := h.acc.pos_of_tree hm h0; omega) (hnb m σ hm h0)
  have hbz : s.dev.blocks b = zeroMem := h.acc.zero b hpos (Or.inr hb)
  have hblocks : ∀ x, 18 ≤ x → s'.dev.blocks x = s.dev.blocks x := fun x hx => by
    by_cases hxb : x = b
    · subst hxb; rw [ht.zeroed, hbz]
    · exact ht.blocks x hx hxb
  refine ⟨⟨ht.frame.geo h.geo, ht.disk h.disk, htouch.mem_of_size h.mem hn rfl, ?_⟩, htrees⟩
  refine ⟨?_, ?_, ?_, ?_, ?_, ?_, ?_⟩
  · refine h.acc.exact.congr (ptr_congr (fun m => htouch.alloc) htrees) fun x => ?_
    rw [ht.busy, Finset.mem_erase]
    constructor
    · rintro ⟨⟨hx, hne⟩, hnot⟩
      exact ⟨hx, fun hc => hnot ⟨hne, hc⟩⟩
    · rintro ⟨hx, hnot⟩
      exact ⟨⟨hx, fun hc => hnot (hc ▸ hb)⟩, fun hc => hnot hc.2⟩
  · intro x hx
    rw [ht.busy]
    exact ⟨h.acc.float x (Finset.mem_of_mem_erase hx), Finset.ne_of_mem_erase hx⟩
  · intro m hm
    have hm' := htouch.alloc.1 hm
    by_cases hmn : m = n
    · subst hmn
      have hold := h.acc.count_self hn
      have hcard := Finset.card_erase_add_one hb
      rw [dinode_of_find hi, ← hcard] at hold
      push_cast at hold
      rw [htrees m hm', dinode_of_find htouch.new, if_pos rfl]
      linarith
    · rw [htrees m hm', htouch.dinode_of_ne (h.mem.allocRange m hm') hmn, if_neg hmn, add_zero]
      exact h.acc.count_of_ne hm' hmn
  · have h1 := ht.used
    have h2 := ht.card
    have h3 := h.acc.used
    omega
  · have h1 := ht.used
    have h2 := h.acc.limit
    rw [ht.frame.max]
    omega
  · intro x hx hz
    rw [hblocks x (by omega)]
    by_cases hxb : x = b
    · rw [hxb, hbz]
    · refine h.acc.zero x hx ?_
      rcases hz with hz | hz
      · exact Or.inl fun hc => hz ((ht.busy x).2 ⟨hc, hxb⟩)
      · exact Or.inr (Finset.mem_of_mem_erase hz)
  · intro x hx
    have h146 := h.geo.nblocks
    have hle := ht.frame.grows
    rw [hblocks x (by omega)]
    exact h.acc.eof x (by omega)

/-- a block is put into a slot: the dinode or a pointer block of inode `n` changes -/
theorem Core.commit (h : Core s n F) (hn : s.alloc n) (hb : b ∈ F) (htouch : Touch s s' n i i')
    (hdisk : Disk s') (hsize : i'.dinode.iSize = i.dinode.iSize) (hcount : i'.dinode.blockCount = i.dinode.blockCount)
    (hsb : s'.sb = s.sb) (hfm : s'.blockFreemap = s.blockFreemap)
    (hempty : s.tree n σ = 0) (htree : s'.tree n = update (s.tree n) σ b)
    (hother : ∀ m, s.alloc m → m ≠ n → s'.tree m = s.tree m)
    (hzero : ∀ x, 146 ≤ x → ¬s.busy x ∨ x ∈ F → s'.dev.blocks x = s.dev.blocks x)
    (heof : ∀ x, s'.dev.nblocks ≤ x → s'.dev.blocks x = s.dev.blocks x) : Core s' n (F.erase b) := by
  have hbusy : ∀ x, s'.busy x ↔ s.busy x := fun x => by simp only [State.busy, hfm]
  have hb0 : b ≠ 0 := by have := (h.acc.float b hb).1; omega
  refine ⟨htouch.frame.geo h.geo, hdisk, htouch.mem_of_size h.mem hn hsize, ?_⟩
  refine ⟨?_, ?_, ?_, ?_, ?_, ?_, ?_⟩
  · have hk : s.ptr (n, σ) = 0 := by simp [State.ptr, hempty]
    refine (h.acc.exact.take hk (fun hc => hc.2 hb) hb0).congr (ptr_update (fun m => htouch.alloc) hn hother htree)
      fun x => ?_
    rw [hbusy, Finset.mem_erase]
    constructor
    · rintro ⟨hx, hnot⟩
      by_cases hxb : x = b
      · exact Or.inr hxb
      · exact Or.inl ⟨hx, fun hc => hnot ⟨hxb, hc⟩⟩
    · rintro (⟨hx, hnot⟩ | rfl)
      · exact ⟨hx, fun hc => hnot hc.2⟩
      · exact ⟨h.acc.float x hb, fun hc => hc.1 rfl⟩
  · intro x hx
    rw [hbusy]
    exact h.acc.float x (Finset.mem_of_mem_erase hx)
  · intro m hm
    have hm' := htouch.alloc.1 hm
    by_cases hmn : m = n
    · subst hmn
      have hold := h.acc.count_self hn
      have hcard := Finset.card_erase_add_one hb
      rw [dinode_of_find htouch.old, ← hcard] at hold
      push_cast at hold
      rw [htree, held_take hempty hb0, dinode_of_find htouch.new, if_pos rfl, hcount, hold]
      push_cast
      ring
    · rw [hother m hm' hmn, htouch.dinode_of_ne (h.mem.allocRange m hm') hmn, if_neg hmn, add_zero]
      exact h.acc.count_of_ne hm' hmn
  · rw [hsb, hfm]; exact h.acc.used
  · rw [hsb]; exact h.acc.limit
  · intro x hx hz
    have hz' : ¬s.busy x ∨ x ∈ F := by
      rcases hz with hz | hz
      · exact Or.inl fun hc => hz ((hbusy x).2 hc)
      · exact Or.inr (Finset.mem_of_mem_erase hz)
    rw [hzero x hx hz', h.acc.zero x hx hz']
  · intro x hx
    rw [heof x hx]
    exact h.acc.eof x (htouch.frame.grows.trans hx)

/-- a block gets a slot in the dinode -/
theorem Core.setPtr (h : Core s n F) (hn : s.alloc n) (hi : s.find n = some i) (hd : i.dirty = true) (hb : b ∈ F)
    {f : Dinode → Dinode} (htype : (f i.dinode).iType = i.dinode.iType) (hsize : (f i.dinode).iSize = i.dinode.iSize)
    (hcount : (f i.dinode).blockCount = i.dinode.blockCount) (hempty : s.tree n σ = 0)
    (htree : Testfs.tree s.dev.blocks (f i.dinode) = update (s.tree n) σ b) : Core (s.setDinode n f) n (F.erase b) := by
  have htouch : Touch s (s.setDinode n f) n i { i with dinode := f i.dinode } :=
    touch_setDinode hi htype hcount fun hc => by rw [hd] at hc; cases hc
  refine h.commit hn hb htouch (h.disk.modify _) hsize hcount rfl rfl hempty ?_ ?_ (fun _ _ _ => rfl) fun _ _ => rfl
  · rw [tree_of_find htouch.new]
    exact htree
  · intro m hm hmn
    unfold State.tree
    rw [htouch.dinode_of_ne (h.mem.allocRange m hm) hmn]
    rfl

/-- the blocks of inode `n` are no blocks of other inodes -/
theorem Core.tree_ne (h : Core s n F) (hn : s.alloc n) {ρ : Slot} (h0 : s.tree n ρ ≠ 0) (m : ℤ) (σ : Slot)
    (hm : s.alloc m) (hmn : m ≠ n) : s.tree m σ ≠ s.tree n ρ :=
  fun hc => hmn (h.acc.inj hn hm h0 hc.symm).1.symm

/-- a block gets a slot in a pointer block -/
theorem Core.putPtr (h : Core s n F) (hn : s.alloc n) (hi : s.find n = some i) (hb : b ∈ F) {ρ : Slot} {q : ℤ}
    {blk : Lib.Mem} (hq : s.tree n ρ = q) (h0 : q ≠ 0) (hempty : s.tree n σ = 0)
    (htree : Testfs.tree (update s.dev.blocks q blk) i.dinode = update (s.tree n) σ b) :
    Core { s with dev := s.dev.write q blk } n (F.erase b) := by
  subst hq
  obtain ⟨hbusy, hF⟩ := h.acc.busy_of_tree hn h0
  have htouch : Touch s { s with dev := s.dev.write (s.tree n ρ) blk } n i i := touch_write hi hbusy.1
  have hblocks : ∀ x, x ≠ s.tree n ρ → (s.dev.write (s.tree n ρ) blk).blocks x = s.dev.blocks x :=
    fun x hx => update_of_ne hx ..
  refine h.commit hn hb htouch (h.disk.write hbusy.1) rfl rfl rfl rfl hempty ?_ ?_ ?_ ?_
  · rw [tree_of_find htouch.new]
    exact htree
  · exact htouch.other_tree h (h.tree_ne hn h0) fun x _ hx => hblocks x hx
  · intro x _ hz
    refine hblocks x ?_
    rintro rfl
    rcases hz with hz | hz
    · exact hz hbusy
    · exact hF hz
  · intro x hx
    refine hblocks x ?_
    rintro rfl
    have hlt : s.tree n ρ + 1 ≤ (s.dev.write (s.tree n ρ) blk).nblocks := le_max_right ..
    exact absurd (hlt.trans hx) (by omega)

/-- a store to a data block of inode `n` -/
theorem Core.store (h : Core s n F) (hn : s.alloc n) (hi : s.find n = some i) {ρ : Slot} {q : ℤ} {blk : Lib.Mem}
    (hq : s.tree n ρ = q) (h0 : q ≠ 0) (hρ : ¬ρ.isPtr) :
    Core { s with dev := s.dev.write q blk } n F ∧
      ∀ m, s.alloc m → State.tree { s with dev := s.dev.write q blk } m = s.tree m := by
  subst hq
  obtain ⟨hbusy, hF⟩ := h.acc.busy_of_tree hn h0
  have htouch : Touch s { s with dev := s.dev.write (s.tree n ρ) blk } n i i := touch_write hi hbusy.1
  have hblocks : ∀ x, x ≠ s.tree n ρ → (s.dev.write (s.tree n ρ) blk).blocks x = s.dev.blocks x :=
    fun x hx => update_of_ne hx ..
  have htrees : ∀ m, s.alloc m → State.tree { s with dev := s.dev.write (s.tree n ρ) blk } m = s.tree m := by
    refine htouch.trees h ⟨rfl, rfl, rfl⟩ fun m σ hm hσ hσ0 => hblocks _ fun hc => ?_
    obtain ⟨-, rfl⟩ := h.acc.inj hm hn hσ0 hc
    exact hρ hσ
  refine ⟨⟨htouch.frame.geo h.geo, h.disk.write hbusy.1, htouch.mem_of_size h.mem hn rfl, ?_⟩, htrees⟩
  refine ⟨h.acc.exact.congr (ptr_congr (fun m => Iff.rfl) htrees) fun x => Iff.rfl, h.acc.float, ?_,
    h.acc.used, h.acc.limit, ?_, ?_⟩
  · intro m hm
    have hdinode : State.dinode { s with dev := s.dev.write (s.tree n ρ) blk } m = s.dinode m := by
      by_cases hmn : m = n
      · rw [hmn, dinode_of_find htouch.new, dinode_of_find hi]
      · exact htouch.dinode_of_ne (h.mem.allocRange m hm) hmn
    rw [htrees m hm, hdinode]
    exact h.acc.count m hm
  · intro x hx hz
    refine (hblocks x ?_).trans (h.acc.zero x hx hz)
    rintro rfl
    rcases hz with hz | hz
    · exact hz hbusy
    · exact hF hz
  · intro x hx
    have hx' : s.dev.nblocks ≤ x ∧ s.tree n ρ + 1 ≤ x := max_le_iff.1 hx
    exact (hblocks x (by omega)).trans (h.acc.eof x hx'.1)

/-- a pointer block without entries is given back and its slot in the dinode cleared -/
theorem Core.dropPtr (h : Core s n F) (hn : s.alloc n) (hi : s.find n = some i) {s1 : State} (hb : s.tree n σ = b)
    (hz : s.dev.blocks b = zeroMem) (ht : Gave s s1 n b) {f : Dinode → Dinode}
    (hf : ∀ d, (f d).iType = d.iType ∧ (f d).iSize = d.iSize ∧ (f d).blockCount = d.blockCount)
    (htree : ∀ blocks : ℤ → Lib.Mem, blocks b = zeroMem → ∀ d, SamePtrs i.dinode d →
      Testfs.tree blocks (f d) = update (Testfs.tree blocks d) σ 0) :
    Core (s1.setDinode n f) n F ∧ (∀ m, s.alloc m → m ≠ n → State.tree (s1.setDinode n f) m = s.tree m) ∧
      State.tree (s1.setDinode n f) n = update (s.tree n) σ 0 := by
  have hb0 : b ≠ 0 := by have := ht.owned.1; omega
  have hσ0 : s.tree n σ ≠ 0 := by rw [hb]; exact hb0
  have htouch1 := ht.touch hi
  have htouch2 := touch_setDinode (f := f) htouch1.new (hf _).1 (hf _).2.2 fun hc => by cases hc
  have htouch := htouch1.trans htouch2
  have hblocks : ∀ x, 18 ≤ x → s1.dev.blocks x = s.dev.blocks x := fun x hx => by
    by_cases hxb : x = b
    · subst hxb; rw [ht.zeroed, hz]
    · exact ht.blocks x hx hxb
  have htrees1 : ∀ m, s.alloc m → s1.tree m = s.tree m :=
    htouch1.trees h ⟨rfl, rfl, rfl⟩ fun m σ hm _ h0 => hblocks _ (by have := h.acc.pos_of_tree hm h0; omega)
  have hself : State.tree (s1.setDinode n f) n = update (s.tree n) σ 0 := by
    have h1 := htree s1.dev.blocks ht.zeroed { i.dinode with blockCount := i.dinode.blockCount - 1 } ⟨rfl, rfl, rfl⟩
    rw [← htrees1 n hn, tree_of_find htouch.new, tree_of_find htouch1.new]
    exact h1
  have hother : ∀ m, s.alloc m → m ≠ n → State.tree (s1.setDinode n f) m = s.tree m := by
    intro m hm hmn
    rw [← htrees1 m hm]
    unfold State.tree
    rw [htouch2.dinode_of_ne (h.mem.allocRange m hm) hmn]
    rfl
  refine ⟨⟨htouch.frame.geo h.geo, (ht.disk h.disk).modify _, htouch.mem_of_size h.mem hn (hf _).2.1, ?_⟩,
    hother, hself⟩
  have hbusy : ∀ x, State.busy (s1.setDinode n f) x ↔ s.busy x ∧ x ≠ b := ht.busy
  obtain ⟨-, hbF⟩ := h.acc.busy_of_tree hn hσ0
  rw [hb] at hbF
  refine ⟨?_, ?_, ?_, ?_, ?_, ?_, ?_⟩
  · have hk : s.ptr (n, σ) = b := by simp [State.ptr, hn, hb]
    refine (h.acc.exact.drop hk).congr (ptr_update (fun m => htouch.alloc) hn hother hself) fun x => ?_
    rw [hbusy]
    tauto
  · intro x hx
    rw [hbusy]
    exact ⟨h.acc.float x hx, fun hc => hbF (hc ▸ hx)⟩
  · intro m hm
    have hm' := htouch.alloc.1 hm
    by_cases hmn : m = n
    · subst hmn
      have hold := h.acc.count_self hn
      have hheld := held_drop hσ0
      rw [dinode_of_find hi, ← hheld] at hold
      push_cast at hold
      have hcount : (f { i.dinode with blockCount := i.dinode.blockCount - 1 }).blockCount = i.dinode.blockCount - 1 :=
        (hf _).2.2
      rw [hself, dinode_of_find htouch.new, if_pos rfl]
      linarith
    · rw [hother m hm' hmn, htouch.dinode_of_ne (h.mem.allocRange m hm') hmn, if_neg hmn, add_zero]
      exact h.acc.count_of_ne hm' hmn
  · have h1 := ht.used
    have h2 := ht.card
    have h3 := h.acc.used
    show s1.sb.usedBlockCount = s1.blockFreemap.bits.card
    omega
  · have h1 := ht.used
    have h2 := h.acc.limit
    rw [htouch.frame.max]
    show s1.sb.usedBlockCount ≤ s.sb.maxFsBlocks
    omega
  · intro x hx hzx
    refine (hblocks x (by omega)).trans ?_
    by_cases hxb : x = b
    · rw [hxb, hz]
    · refine h.acc.zero x hx ?_
      rcases hzx with hzx | hzx
      · exact Or.inl fun hc => hzx ((hbusy x).2 ⟨hc, hxb⟩)
      · exact Or.inr hzx
  · intro x hx
    have h146 := h.geo.nblocks
    have hle := ht.frame.grows
    have hx' : s1.dev.nblocks ≤ x := hx
    exact (hblocks x (by omega)).trans (h.acc.eof x (by omega))

end OsLab.Testfs
