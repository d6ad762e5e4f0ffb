/-
Directories (`dir.c`).

`Directory s n es`: the bytes of inode `n` up to its size are the entries `es`, one behind the other, and all of them
can be read. `scan_eq` then says what every loop over a directory finds: the first entry its body has an answer for,
with its offset. A directory changes in two places: `testfs_add_dirent` puts an entry in the place of a removed one of
the same length or behind the last one (`addDirent_spec`), `testfs_remove_dirent` marks one as removed
(`removeDirent_spec`).
-/
import Mathlib.Data.List.TakeWhile
import Mathlib.Tactic
import OsLab.Testfs.Read
import OsLab.Testfs.Remove

namespace OsLab.Testfs

open OsLab.Lib Function State

variable {s s' s'' : State} {n m r o : ℤ} {i i' : Inode}

/-! ## Bytes in a file -/

/-- the bytes `l` stand at offset `o` -/
def At (c : Lib.Mem) (o : ℕ) (l : List UInt8) : Prop := slice c o l.length = l

theorem at_append {c : Lib.Mem} {o : ℕ} {l l' : List UInt8} : At c o (l ++ l') ↔ At c o l ∧ At c (o + l.length) l' := by
  unfold At
  rw [List.length_append, slice_append]
  constructor
  · intro h
    exact List.append_inj h (slice_length ..)
  · rintro ⟨h1, h2⟩
    rw [h1, h2]

theorem at_nil (c : Lib.Mem) (o : ℕ) : At c o [] := rfl

theorem at_congr {c c' : Lib.Mem} {o : ℕ} {l : List UInt8} (h : At c o l)
    (hc : ∀ j, o ≤ j → j < o + l.length → c' j = c j) :
    At c' o l := by
  unfold At slice at *
  rw [← h]
  simp only [List.length_map, List.length_range]
  refine List.map_congr_left fun j hj => ?_
  have hj' := List.mem_range.1 hj
  exact hc _ (by omega) (by omega)

theorem slice_bytes (l : List UInt8) : slice (bytes l) 0 l.length = l := by
  unfold slice bytes
  refine List.ext_getElem (by simp) fun j h1 h2 => ?_
  simp [h2]

/-- what was written stands there -/
theorem at_copy_self (c : Lib.Mem) (o : ℕ) (l : List UInt8) : At (copy c o (bytes l) 0 l.length) o l := by
  refine Eq.trans ?_ (slice_bytes l)
  unfold slice
  refine List.map_congr_left fun j hj => ?_
  have hj' := List.mem_range.1 hj
  rw [copy_of_mem (by omega) (by omega)]
  congr 1
  omega

theorem at_copy_of_disjoint {c src : Lib.Mem} {o o' k p : ℕ} {l : List UInt8} (h : At c o l)
    (hd : o + l.length ≤ o' ∨ o' + k ≤ o) : At (copy c o' src p k) o l := by
  refine at_congr h fun j h1 h2 => ?_
  rcases hd with hd | hd
  · exact copy_of_lt (by omega)
  · exact copy_of_ge (by omega)

/-! ## Entries -/

theorem le32_length (z : ℤ) : (le32 z).length = 4 := slice_length ..

theorem s32At_of_at {c : Lib.Mem} {o : ℕ} {z : ℤ} (hz : InInt32 z) (h : At c o (le32 z)) : s32At c o = z := by
  have hbyte : ∀ j < 4, c (o + j) = put32 zeroMem 0 z j := by
    intro j hj
    unfold At at h
    rw [le32_length, le32] at h
    have hget := congrArg (fun l => l.getD j 0) h
    simpa [slice, hj] using hget
  rw [← s32At_put32_self (m := zeroMem) (o := 0) hz]
  unfold s32At
  congr 1
  rw [show leAt c o 4 = leAt (fun j => c (o + j)) 0 4 by rw [leAt_shift, Nat.add_zero]]
  exact leAt_congr fun j _ h2 => hbyte j (by omega)

/-- an entry as it is written: a name that ends with its first 0 -/
structure Dirent.Wf (e : Dirent) : Prop where
  len : e.dNameLen = e.name.length
  name : e.name = e.str ++ [0]
  nr : InInt32 e.dInodeNr
  short : e.name.length + 8 < 2 ^ 31

theorem Dirent.Wf.pos {e : Dirent} (h : e.Wf) : 0 < e.name.length := by
  rw [h.name]
  simp

theorem Dirent.bytes_length (e : Dirent) : e.bytes.length = 8 + e.name.length := by
  simp only [Dirent.bytes, List.length_append, le32_length]

/-- a directory as it lies on disk -/
def listing (es : List Dirent) : List UInt8 := es.flatMap Dirent.bytes

@[simp] theorem listing_nil : listing [] = [] := rfl

@[simp] theorem listing_cons (e : Dirent) (es : List Dirent) : listing (e :: es) = e.bytes ++ listing es := rfl

@[simp] theorem listing_append (es fs : List Dirent) : listing (es ++ fs) = listing es ++ listing fs :=
  List.flatMap_append

/-- inode `n` is the directory with the entries `es` -/
structure Directory (s : State) (n : ℤ) (es : List Dirent) : Prop where
  type : (s.dinode n).iType = iDir
  wf : ∀ e ∈ es, e.Wf
  size : (s.dinode n).iSize = (listing es).length
  bytes : At (s.content n) 0 (listing es)
  solid : ∀ b, b * 8192 < (listing es).length → Mapped s n b
  small : (listing es).length < 2 ^ 32

theorem le32_inj {a b : ℤ} (ha : InInt32 a) (hb : InInt32 b) (h : le32 a = le32 b) : a = b := by
  have hat : ∀ z, At (bytes (le32 z)) 0 (le32 z) := fun z => slice_bytes (le32 z)
  calc a = s32At (bytes (le32 a)) 0 := (s32At_of_at ha (hat a)).symm
    _ = s32At (bytes (le32 b)) 0 := by rw [h]
    _ = b := s32At_of_at hb (hat b)

/-- the bytes of a directory tell its entries -/
theorem listing_inj {es fs : List Dirent} (hes : ∀ e ∈ es, e.Wf) (hfs : ∀ e ∈ fs, e.Wf) (h : listing es = listing fs) :
    es = fs := by
  have hpos : ∀ (e : Dirent) (l : List UInt8), [] ≠ e.bytes ++ l := by
    intro e l hc
    have hlen := congrArg List.length hc
    rw [List.length_append, e.bytes_length, List.length_nil] at hlen
    omega
  induction es generalizing fs with
  | nil =>
    cases fs with
    | nil => rfl
    | cons f fs => exact absurd h (hpos f _)
  | cons e es ih =>
    cases fs with
    | nil => exact absurd h.symm (hpos e _)
    | cons f fs =>
      have he := hes e List.mem_cons_self
      have hf := hfs f List.mem_cons_self
      rw [listing_cons, listing_cons, Dirent.bytes, Dirent.bytes, List.append_assoc, List.append_assoc,
        List.append_assoc, List.append_assoc] at h
      obtain ⟨hlen, h⟩ := List.append_inj h (by rw [le32_length, le32_length])
      obtain ⟨hnr, h⟩ := List.append_inj h (by rw [le32_length, le32_length])
      have hint : ∀ {x : Dirent}, x.Wf → InInt32 x.dNameLen := fun hx => by
        have hlen := hx.len
        have hshort := hx.short
        exact ⟨by omega, by omega⟩
      have hlen' := le32_inj (hint he) (hint hf) hlen
      have hnr' := le32_inj he.nr hf.nr hnr
      have hname : e.name.length = f.name.length := by
        have h1 := he.len
        have h2 := hf.len
        omega
      obtain ⟨hname', hrest⟩ := List.append_inj h hname
      have hef : e = f := by
        cases e
        cases f
        simp_all
      rw [hef, ih (fun x hx => hes x (List.mem_cons_of_mem e hx)) (fun x hx => hfs x (List.mem_cons_of_mem f hx)) hrest]

variable {es pre post : List Dirent} {e : Dirent}

theorem Directory.unique {fs : List Dirent} (h : Directory s n es) (h' : Directory s n fs) : es = fs := by
  have hlen : (listing es).length = (listing fs).length := by
    have h1 := h.size
    have h2 := h'.size
    omega
  refine listing_inj h.wf h'.wf ?_
  rw [← h.bytes, hlen]
  exact h'.bytes

/-- a part of a directory can be read -/
theorem Directory.read {start size : ℕ} (h : Directory s n es) (hpos : ∀ σ, 0 ≤ s.tree n σ) (h0 : 0 < size)
    (hsize : size < 2 ^ 31) (hend : start + size ≤ (listing es).length) :
    readData s (s.dinode n) start size = .ok ((size : ℤ), slice (s.content n) start size) := by
  have hlen : readLen s n start size = size := by
    unfold readLen
    rw [h.size]
    omega
  have hsmall := h.small
  have hread : (∀ b, Touched start (readLen s n start size) b → b < maxBlockNr ∧ Reach s n b) →
      readData s (s.dinode n) start size =
        .ok ((readLen s n start size : ℤ), slice (s.content n) start (readLen s n start size)) :=
    readData_ok hpos (by rw [h.size]; omega) hsize
  rw [hlen] at hread
  refine hread fun b hb => ?_
  obtain ⟨h1, h2⟩ := hb
  refine ⟨by rw [maxBlockNr_eq]; omega, (h.solid b (by omega)).reach⟩

/-- `testfs_next_dirent` in front of an entry -/
theorem nextDirent_entry (h : Directory s n (pre ++ e :: post)) (hpos : ∀ σ, 0 ≤ s.tree n σ) :
    nextDirent s (s.dinode n) (listing pre).length = .ok (some (e, ((listing (pre ++ [e])).length : ℤ))) := by
  have hwf := h.wf e (by simp)
  have hname := hwf.pos
  have hshort := hwf.short
  have hsize := h.size
  have hlen : (listing (pre ++ e :: post)).length = (listing pre).length + (8 + e.name.length) +
      (listing post).length := by
    simp only [listing_append, listing_cons, List.length_append, Dirent.bytes_length]
    omega
  have hat := h.bytes
  rw [listing_append, listing_cons, at_append, at_append, Nat.zero_add] at hat
  obtain ⟨-, hbytes, -⟩ := hat
  unfold Dirent.bytes at hbytes
  rw [at_append, at_append, List.length_append, le32_length, le32_length] at hbytes
  obtain ⟨⟨hat1, hat2⟩, hat3⟩ := hbytes
  have hhead : slice (s.content n) (listing pre).length 8 = le32 e.dNameLen ++ le32 e.dInodeNr := by
    have hboth := at_append.2 ⟨hat1, by rw [le32_length]; exact hat2⟩
    unfold At at hboth
    rwa [List.length_append, le32_length, le32_length] at hboth
  have hword : At (Testfs.bytes (le32 e.dNameLen ++ le32 e.dInodeNr)) 0 (le32 e.dNameLen ++ le32 e.dInodeNr) :=
    slice_bytes _
  rw [at_append, le32_length] at hword
  have hlen32 : InInt32 e.dNameLen := by
    rw [hwf.len]
    constructor <;> omega
  have hnext : ((listing pre).length : ℤ) + 8 + e.dNameLen = ((listing (pre ++ [e])).length : ℤ) := by
    rw [listing_append, listing_cons, listing_nil, List.append_nil, List.length_append, Dirent.bytes_length, hwf.len]
    push_cast
    ring
  have hr1 : readData s (s.dinode n) ((listing pre).length : ℤ) 8 =
      .ok (((8 : ℕ) : ℤ), slice (s.content n) (listing pre).length 8) :=
    h.read hpos (by omega) (by omega) (by omega)
  have hr2 : readData s (s.dinode n) (((listing pre).length : ℤ) + 8) e.name.length =
      .ok ((e.name.length : ℤ), slice (s.content n) ((listing pre).length + 8) e.name.length) := by
    have hstart : ((listing pre).length : ℤ) + 8 = ((listing pre).length + 8 : ℕ) := by push_cast; rfl
    rw [hstart]
    exact h.read hpos (by omega) (by omega) (by omega)
  have hname3 : slice (s.content n) ((listing pre).length + 8) e.name.length = e.name := hat3
  have htoNat : e.dNameLen.toNat = e.name.length := by rw [hwf.len]; rfl
  have hmore : ¬((s.dinode n).iSize ≤ ((listing pre).length : ℤ)) := by
    rw [hsize]
    omega
  have hlenpos : ¬e.dNameLen ≤ 0 := by
    rw [hwf.len]
    omega
  unfold nextDirent
  rw [if_neg (by rw [h.type]; exact not_not.2 rfl), if_neg hmore, hr1, ok_bind]
  dsimp only
  rw [if_neg (by omega), if_neg (by rw [slice_length]; omega), hhead, s32At_of_at hlen32 hword.1,
    s32At_of_at hwf.nr hword.2, if_neg hlenpos, htoNat, hr2, ok_bind]
  dsimp only
  rw [if_neg (by omega), if_neg (by rw [slice_length]; omega), hname3, hnext]
  rfl

/-- `testfs_next_dirent` at the end -/
theorem nextDirent_end (h : Directory s n es) : nextDirent s (s.dinode n) (listing es).length = .ok none := by
  unfold nextDirent
  rw [if_neg (by rw [h.type]; exact not_not.2 rfl), if_pos (by rw [h.size])]
  rfl

/-! ## Loops over a directory -/

theorem scanDir_ok {A : Type} {f : Dirent → Option A} (hpos : ∀ σ, 0 ≤ s.tree n σ) (fuel : ℕ)
    (h : Directory s n (pre ++ post)) (hfuel : (listing post).length < fuel) :
    scanDir s (s.dinode n) f fuel (listing pre).length =
      .ok (post.findSome? f, ((listing (pre ++ post.takeWhile fun e => (f e).isNone)).length : ℤ)) := by
  induction post generalizing pre fuel with
  | nil =>
    obtain ⟨fuel, rfl⟩ : ∃ k, fuel = k + 1 := ⟨fuel - 1, by omega⟩
    rw [List.append_nil] at h
    rw [scanDir, nextDirent_end h, ok_bind]
    simp
  | cons e post ih =>
    obtain ⟨fuel, rfl⟩ : ∃ k, fuel = k + 1 := ⟨fuel - 1, by omega⟩
    rw [scanDir, nextDirent_entry h hpos, ok_bind]
    rw [listing_cons, List.length_append, Dirent.bytes_length] at hfuel
    cases hf : f e with
    | some a => simp [hf]
    | none =>
      have hd : Directory s n ((pre ++ [e]) ++ post) := by simpa using h
      have hstep := ih fuel hd (by omega)
      simp only [hf]
      rw [hstep, List.findSome?_cons_of_isNone (by simp [hf]), List.takeWhile_cons_of_pos (by simp [hf])]
      simp

/-- **What a loop over a directory finds.** -/
theorem scan_ok {A : Type} {f : Dirent → Option A} (h : Directory s n es) (hpos : ∀ σ, 0 ≤ s.tree n σ)
    (hi : s.find n = some i) :
    scan s n f = .ok (es.findSome? f, ((listing (es.takeWhile fun e => (f e).isNone)).length : ℤ)) := by
  have htype := h.type
  have hsize := h.size
  rw [dinode_of_find hi] at htype hsize
  unfold scan
  rw [deref_eq_ok.2 hi, ok_bind, if_neg (by rw [htype]; exact not_not.2 rfl)]
  have hd : Directory s n ([] ++ es) := by simpa using h
  have hscan := scanDir_ok (f := f) hpos (i.dinode.iSize.toNat + 1) hd (by rw [hsize]; simp)
  rw [dinode_of_find hi] at hscan
  simpa using hscan

theorem scan_eq {A : Type} {f : Dirent → Option A} {a : Option A} (h : Directory s n es) (hpos : ∀ σ, 0 ≤ s.tree n σ)
    (hr : scan s n f = .ok (a, o)) :
    (∃ i, s.find n = some i) ∧ a = es.findSome? f ∧ o = (listing (es.takeWhile fun e => (f e).isNone)).length := by
  obtain ⟨i, hi⟩ : ∃ i, s.find n = some i := by
    unfold scan at hr
    rw [bind_eq_ok] at hr
    obtain ⟨i, hi, -⟩ := hr
    exact ⟨i, deref_eq_ok.1 hi⟩
  rw [scan_ok h hpos hi] at hr
  cases hr
  exact ⟨⟨i, hi⟩, rfl, rfl⟩

/-! ## Names -/

/-- an entry that was not removed -/
def Dirent.live (e : Dirent) : Prop := 0 ≤ e.dInodeNr

instance (e : Dirent) : Decidable e.live := inferInstanceAs (Decidable (_ ≤ _))

/-- what a name stands for in a directory -/
def lookup (es : List Dirent) (name : List UInt8) : Option ℤ :=
  es.findSome? fun e => if 0 ≤ e.dInodeNr ∧ e.named name then some e.dInodeNr else none

/-- `testfs_dir_name_to_inode_nr` -/
theorem dirNameToInodeNr_ok (h : Directory s n es) (hpos : ∀ σ, 0 ≤ s.tree n σ)
    (hi : s.find n = some i) (name : List UInt8) :
    dirNameToInodeNr s n name = .ok ((lookup es name).getD (-ENOENT)) := by
  unfold dirNameToInodeNr lookup
  rw [scan_ok h hpos hi, ok_bind]
  cases List.findSome? _ es with
  | none => rfl
  | some a => rfl

theorem dirNameToInodeNr_eq {name : List UInt8} (h : Directory s n es) (hpos : ∀ σ, 0 ≤ s.tree n σ)
    (hr : dirNameToInodeNr s n name = .ok r) : (∃ i, s.find n = some i) ∧ r = (lookup es name).getD (-ENOENT) := by
  obtain ⟨i, hi⟩ : ∃ i, s.find n = some i := by
    unfold dirNameToInodeNr at hr
    rw [bind_eq_ok] at hr
    obtain ⟨⟨a, o⟩, hscan, -⟩ := hr
    exact (scan_eq h hpos hscan).1
  rw [dirNameToInodeNr_ok h hpos hi] at hr
  cases hr
  exact ⟨⟨i, hi⟩, rfl⟩

theorem findSome?_entry (es : List Dirent) (nr : ℤ) :
    es.findSome? (fun e => if e.dInodeNr = nr then some e else none) = es.find? fun e => e.dInodeNr = nr := by
  induction es with
  | nil => rfl
  | cons e es ih => by_cases he : e.dInodeNr = nr <;> simp [he, ih]

/-- `testfs_find_dirent` -/
theorem findDirent_ok (h : Directory s n es) (hpos : ∀ σ, 0 ≤ s.tree n σ) (hi : s.find n = some i) (nr : ℤ) :
    findDirent s n nr = .ok (es.find? fun e => e.dInodeNr = nr) := by
  unfold findDirent
  rw [scan_ok h hpos hi, ok_bind]
  simp only [findSome?_entry, pure_eq_ok]

/-! ## What is recorded of failed writes -/

/-- no failed write to a directory is recorded -/
def SameFails (s s' : State) : Prop := s'.dirFails = s.dirFails

theorem freeBlockFromInode_fails (s : State) (n b : ℤ) : Post (freeBlockFromInode s n b) (SameFails s) := by
  unfold freeBlockFromInode freeBlock zeroBlocks writeBlocks putBlockFreemap
  refine Post.ite (fun _ => Post.pure rfl) fun _ => ?_
  refine Post.bind (P := SameFails s) ?_ fun s1 h1 => Post.pure h1
  refine Post.bind (P := SameFails s) (Post.ite (fun _ => Post.ok rfl) fun _ => Post.error) fun s1 h1 => ?_
  refine Post.ite (fun _ => Post.throw) fun _ => ?_
  refine Post.bind (P := SameFails s) (Post.bind Post.trivial fun bm _ => Post.pure h1) fun s2 h2 => ?_
  exact Post.ite (fun _ => Post.pure h2) fun _ => Post.throw

theorem freeEntries_fails (s : State) (n : ℤ) (blk : Lib.Mem) (e : ℤ) : Post (freeEntries s n blk e) (SameFails s) := by
  unfold freeEntries
  refine Post.foldlM _ s rfl fun t k ht => ?_
  exact (freeBlockFromInode_fails t n _).mono fun _ h => Eq.trans h ht

theorem freeBlocks_fails (s : State) (n : ℤ) : Post (freeBlocks s n) (SameFails s) := by
  have hdirect : ∀ e t k, Post (freeDirect n e t k) (SameFails t) := by
    intro e t k
    unfold freeDirect
    refine Post.ite (fun _ => ?_) fun _ => Post.pure rfl
    refine Post.bind Post.trivial fun i _ => ?_
    refine Post.ite (fun _ => Post.pure rfl) fun _ => ?_
    exact (freeBlockFromInode_fails t n _).bind fun s1 h1 => Post.pure h1
  have hindirect : ∀ t e, Post (freeIndirect t n e) (SameFails t) := by
    intro t e
    unfold freeIndirect
    refine Post.bind Post.trivial fun i _ => ?_
    refine Post.ite (fun _ => ?_) fun _ => Post.pure rfl
    refine Post.ite (fun _ => Post.throw) fun _ => ?_
    refine Post.bind Post.trivial fun blk _ => ?_
    refine (freeEntries_fails t n blk e).bind fun s1 h1 => ?_
    exact (freeBlockFromInode_fails s1 n _).bind fun s2 h2 => Post.pure (Eq.trans h2 h1)
  have hsecond : ∀ blk e t k, Post (freeSecond n blk e t k) (SameFails t) := by
    intro blk e t k
    unfold freeSecond
    refine Post.ite (fun _ => Post.pure rfl) fun _ => ?_
    refine Post.bind Post.trivial fun blk' _ => ?_
    refine (freeEntries_fails t n blk' _).bind fun s1 h1 => ?_
    exact (freeBlockFromInode_fails s1 n _).mono fun _ h2 => Eq.trans h2 h1
  have hdindirect : ∀ t e, Post (freeDindirect t n e) (SameFails t) := by
    intro t e
    unfold freeDindirect
    refine Post.ite (fun _ => ?_) fun _ => Post.pure rfl
    refine Post.bind Post.trivial fun i _ => ?_
    refine Post.bind Post.trivial fun blk _ => ?_
    have hloop : Post ((List.range 2048).foldlM (freeSecond n blk e) t) (SameFails t) :=
      Post.foldlM _ t rfl fun u k hu => (hsecond blk e u k).mono fun _ h => Eq.trans h hu
    refine hloop.bind fun s1 h1 => ?_
    exact (freeBlockFromInode_fails s1 n _).bind fun s2 h2 => Post.pure (Eq.trans h2 h1)
  unfold freeBlocks
  refine Post.bind Post.trivial fun i _ => ?_
  have hloop : ∀ e, Post ((List.finRange 10).foldlM (freeDirect n e) s) (SameFails s) := fun e =>
    Post.foldlM _ s rfl fun t k ht => (hdirect e t k).mono fun _ h => Eq.trans h ht
  refine (hloop _).bind fun s1 h1 => ?_
  refine (hindirect s1 _).bind fun s2 h2 => ?_
  exact (hdindirect s2 _).bind fun s3 h3 => Post.pure (Eq.trans h3 (Eq.trans h2 h1))

theorem syncInode_fails (s : State) (n : ℤ) : Post (syncInode s n) (SameFails s) := by
  unfold syncInode writeInodeBlock writeBlocks
  refine Post.bind Post.trivial fun i _ => ?_
  refine Post.ite (fun _ => ?_) fun _ => Post.pure rfl
  refine Post.bind Post.trivial fun blk _ => ?_
  refine Post.bind (P := SameFails s) ?_ fun s1 h1 => Post.pure h1
  exact Post.bind Post.trivial fun b _ => Post.ite (fun _ => Post.ok rfl) fun _ => Post.error

theorem putInode_fails (s : State) (n : ℤ) : Post (putInode s n) (SameFails s) := by
  unfold putInode
  refine Post.bind Post.trivial fun i _ => ?_
  refine Post.ite (fun _ => Post.throw) fun _ => ?_
  exact Post.ite (fun _ => Post.pure rfl) fun _ => Post.pure rfl

theorem removeInode_fails (s : State) (n : ℤ) : Post (removeInode s n) (SameFails s) := by
  have hmap : ∀ t, Post (putInodeFreemap t n) (SameFails t) := by
    intro t
    unfold putInodeFreemap
    exact Post.bind Post.trivial fun bm _ => Post.ite (fun _ => Post.pure rfl) fun _ => Post.throw
  unfold removeInode
  refine (freeBlocks_fails s n).bind fun s1 h1 => ?_
  refine Post.bind Post.trivial fun i _ => ?_
  refine Post.ite (fun _ => Post.throw) fun _ => ?_
  refine (hmap _).bind fun s3 h3 => ?_
  refine (syncInode_fails s3 n).bind fun s4 h4 => ?_
  exact (putInode_fails s4 n).mono fun s5 h5 => Eq.trans h5 (Eq.trans h4 (Eq.trans h3 h1))

/-! ## Writes to a directory -/

/-- what is assumed of a call: a failed write to a directory left its end where it was, and none failed or the locals
read without having been set are 0 -/
structure Calm (s s' : State) : Prop where
  fails : ∀ x ∈ s'.dirFails, x = 0
  junk : (∀ j, s.stack j = 0) ∨ s'.dirFails = []

/-- only inode `n` changed, and only its data -/
structure Edited (s s' : State) (n : ℤ) : Prop where
  sound : Sound s'
  alloc : ∀ m, s'.alloc m ↔ s.alloc m
  still : ∀ m, s.alloc m → m ≠ n → Still s s' m
  type : (s'.dinode n).iType = (s.dinode n).iType
  find : ∀ m, m ≠ n → s'.find m = s.find m
  disk : ∀ m, m < 16384 → s'.diskDinode m = s.diskDinode m
  curDir : s'.curDir = s.curDir
  stack : s'.stack = s.stack
  grows : s.dev.nblocks ≤ s'.dev.nblocks

theorem Edited.refl (h : Sound s) (n : ℤ) : Edited s s n :=
  ⟨h, fun _ => Iff.rfl, fun m _ _ => Still.refl s m, rfl, fun _ _ => rfl, fun _ _ => rfl, rfl, rfl, le_refl _⟩

theorem Edited.trans (h : Edited s s' n) (h' : Edited s' s'' n) : Edited s s'' n where
  sound := h'.sound
  alloc := fun m => (h'.alloc m).trans (h.alloc m)
  still := fun m hm hmn => (h.still m hm hmn).trans (h'.still m ((h.alloc m).2 hm) hmn)
  type := h'.type.trans h.type
  find := fun m hm => (h'.find m hm).trans (h.find m hm)
  disk := fun m hm => (h'.disk m hm).trans (h.disk m hm)
  curDir := h'.curDir.trans h.curDir
  stack := h'.stack.trans h.stack
  grows := h.grows.trans h'.grows

theorem Edited.carries (h : Edited s s' n) (hm : s.alloc m) (hmn : m ≠ n) : Carries s s' m := by
  have hlt : m < 16384 := h.sound.core.mem.allocRange m ((h.alloc m).2 hm)
  refine ⟨Or.inl ?_, Or.inr (h.disk m hlt)⟩
  unfold State.dinode
  rw [h.find m hmn, h.disk m hlt]

theorem Grew.edited (h : Grew s s' n i i') (hm : Mem s) : Edited s s' n where
  sound := ⟨h.core.change 0, h.inside⟩
  alloc := fun _ => h.touch.alloc
  still := fun m ha hmn => by
    have heq := h.touch.dinode_of_ne (hm.allocRange m ha) hmn
    exact ⟨by rw [heq], fun _ => by rw [heq], h.other m ha hmn, h.others m ha hmn⟩
  type := by rw [dinode_of_find h.touch.new, dinode_of_find h.touch.old, h.touch.type]
  find := h.touch.others
  disk := fun _ hlt => h.touch.frame.diskDinode hlt
  curDir := h.touch.frame.curDir
  stack := h.touch.frame.stack
  grows := h.touch.frame.grows

/-- the output, the current directory and the record of failed writes are no part of the file system -/
theorem Sound.of_eq (h : Sound s) (hsb : s'.sb = s.sb) (hdev : s'.dev = s.dev) (hif : s'.inodeFreemap = s.inodeFreemap)
    (hbf : s'.blockFreemap = s.blockFreemap) (hhash : s'.hash = s.hash) : Sound s' := by
  cases s
  cases s'
  simp only at hsb hdev hif hbf hhash
  subst hsb hdev hif hbf hhash
  obtain ⟨⟨hgeo, hdisk, hmem, hacc⟩, hins⟩ := h
  exact ⟨⟨⟨hgeo.1, hgeo.2, hgeo.3, hgeo.4, hgeo.5, hgeo.6, hgeo.7, hgeo.8⟩, ⟨hdisk.1, hdisk.2, hdisk.3⟩,
    ⟨hmem.1, hmem.2, hmem.3, hmem.4, hmem.5, hmem.6, hmem.7, hmem.8⟩,
    ⟨hacc.1, hacc.2, hacc.3, hacc.4, hacc.5, hacc.6, hacc.7⟩⟩, hins⟩

theorem Edited.record (h : Edited s s' n) (l : List ℤ) : Edited s { s' with dirFails := l } n where
  sound := h.sound.of_eq rfl rfl rfl rfl rfl
  alloc := h.alloc
  still := fun m hm hmn => ⟨(h.still m hm hmn).1, (h.still m hm hmn).2, (h.still m hm hmn).3, (h.still m hm hmn).4⟩
  type := h.type
  find := h.find
  disk := h.disk
  curDir := h.curDir
  stack := h.stack
  grows := h.grows

theorem writeDir_cases {buf : List UInt8} {start : ℤ} (hr : writeDir s n buf start = .ok (r, s')) :
    ∃ i s1, s.find n = some i ∧ writeData s n (bytes buf) start buf.length = .ok (r, s1) ∧
      ((0 ≤ r ∧ s' = s1) ∨ (r < 0 ∧ ∃ i1, s1.find n = some i1 ∧
        s' = { s1 with dirFails := s1.dirFails ++ [i1.dinode.iSize - i.dinode.iSize] })) := by
  unfold writeDir at hr
  rw [bind_eq_ok] at hr
  obtain ⟨i, hi, hr⟩ := hr
  rw [bind_eq_ok] at hr
  obtain ⟨⟨r1, s1⟩, hw, hr⟩ := hr
  dsimp only at hr
  split_ifs at hr with hneg
  · rw [bind_eq_ok] at hr
    obtain ⟨i1, hi1, hr⟩ := hr
    cases hr
    exact ⟨i, s1, deref_eq_ok.1 hi, hw, Or.inr ⟨hneg, i1, deref_eq_ok.1 hi1, rfl⟩⟩
  · cases hr
    exact ⟨i, s', deref_eq_ok.1 hi, hw, Or.inl ⟨not_lt.1 hneg, rfl⟩⟩

/-- a move of the end does not change the bytes -/
theorem content_growTo (t : State) (n fin : ℤ) : (growTo t n fin).content n = t.content n := by
  have hptrs : SamePtrs (t.dinode n) ((growTo t n fin).dinode n) := by
    unfold State.dinode growTo
    rw [find_setDinode, if_pos rfl]
    cases t.find n with
    | none => exact ⟨rfl, rfl, rfl⟩
    | some j => exact ⟨rfl, rfl, rfl⟩
  exact content_eq_of_tree (tree_congr hptrs fun _ _ _ => rfl) fun _ _ _ => rfl

/-- a directory that was not touched -/
theorem Directory.still (h : Directory s n es) (hst : Still s s' n) (hgrows : s.dev.nblocks ≤ s'.dev.nblocks) :
    Directory s' n es where
  type := hst.type.trans h.type
  wf := h.wf
  size := (hst.size h.type).trans h.size
  bytes := by rw [hst.content]; exact h.bytes
  solid := fun b hb => (h.solid b hb).mono (fun τ _ => by rw [hst.tree]) hgrows
  small := h.small

/-- `len` bytes of a directory are written, at an offset in it or at its end -/
theorem Stored.directory {buf : List UInt8} {start : ℕ} (h : Stored s s' n i i' (bytes buf) start buf.length)
    (hd : Directory s n es) {fs : List Dirent} (hwf : ∀ e ∈ fs, e.Wf) (hle : start ≤ (listing es).length)
    (hlen : (listing fs).length = max (listing es).length (start + buf.length))
    (hat : At (copy (s.content n) start (bytes buf) 0 buf.length) 0 (listing fs))
    (hsmall : (listing fs).length < 2 ^ 32) :
    Directory s' n fs where
  type := by
    rw [dinode_of_find h.grew.touch.new, h.grew.touch.type, ← dinode_of_find h.grew.touch.old]
    exact hd.type
  wf := hwf
  size := by
    have hold := hd.size
    rw [dinode_of_find h.grew.touch.old] at hold
    rw [dinode_of_find h.grew.touch.new, h.size, hold, hlen]
    push_cast
    rfl
  bytes := by rw [h.content]; exact hat
  solid := fun b hb => by
    by_cases hbs : b * 8192 < (listing es).length
    · exact (hd.solid b hbs).mono h.grew.mono h.grew.touch.frame.grows
    · exact h.full b (by omega) (by omega)
  small := hsmall

/-- no part of a directory needs a new block -/
theorem Directory.fits {p len : ℕ} (h : Directory s n es) (hc : Core s n ∅) (h0 : 0 < len)
    (hlen : p + len ≤ (listing es).length) : Fits s n p len := by
  have hsmall := h.small
  refine ⟨by rw [maxBlockNr_eq]; omega, ?_⟩
  have hnone : need (s.tree n) (p / 8192) ((p + max len 1 - 1) / 8192 + 1) = 0 := by
    rw [need, Finset.card_eq_zero, Finset.eq_empty_iff_forall_notMem]
    intro τ hτ
    obtain ⟨⟨b, hb, hmem⟩, hz⟩ := mem_gaps.1 hτ
    exact (h.solid b (by omega) τ hmem).1 hz
  rw [hnone]
  exact hc.acc.limit

theorem Dirent.Wf.bytes_lt {e : Dirent} (h : e.Wf) : e.bytes.length < 2 ^ 31 := by
  rw [Dirent.bytes_length, Nat.add_comm]
  exact h.short

theorem Dirent.bytes_pos (e : Dirent) : 0 < e.bytes.length := by
  rw [Dirent.bytes_length]
  omega

/-- **An entry is overwritten.** -/
theorem replace_entry {e' : Dirent} (hs : Sound s) (hn : s.alloc n) (h : Directory s n (pre ++ e :: post)) (hwf : e'.Wf)
    (hlen : e'.name.length = e.name.length) (hjunk : r < 0 → (∀ j, s.stack j = 0) ∨ s'.dirFails = [])
    (hr : writeDir s n e'.bytes (listing pre).length = .ok (r, s')) :
    0 ≤ r ∧ Edited s s' n ∧ Directory s' n (pre ++ e' :: post) ∧ s'.dirFails = s.dirFails := by
  have hcore : Core s n ∅ := hs.core.change n
  obtain ⟨i, s1, hi, hw, hcases⟩ := writeDir_cases hr
  have hlt := hwf.bytes_lt
  have hpos := e'.bytes_pos
  have hsmall := h.small
  have hbytes : e'.bytes.length = e.bytes.length := by rw [Dirent.bytes_length, Dirent.bytes_length, hlen]
  have htotal : (listing (pre ++ e :: post)).length = (listing pre).length + e.bytes.length +
      (listing post).length := by
    simp only [listing_append, listing_cons, List.length_append]
    omega
  rcases hcases with ⟨hr0, rfl⟩ | ⟨hneg, i1, hi1, hs'⟩
  · obtain ⟨-, -, i', hst⟩ := writeData_ok hcore hn hi hs.inside hpos hlt (by omega) hr0 hw
    rw [Int.toNat_natCast] at hst
    refine ⟨hr0, hst.grew.edited hs.core.mem, hst.directory h ?_ (by omega) ?_ ?_ ?_, hst.grew.touch.frame.dirFails⟩
    · intro x hx
      rcases List.mem_append.1 hx with hx | hx
      · exact h.wf x (by simp [hx])
      · rcases List.mem_cons.1 hx with rfl | hx
        · exact hwf
        · exact h.wf x (by simp [hx])
    · simp only [listing_append, listing_cons, List.length_append]
      omega
    · have hat := h.bytes
      rw [listing_append, listing_cons, at_append, at_append, Nat.zero_add] at hat
      rw [listing_append, listing_cons, at_append, at_append, Nat.zero_add]
      refine ⟨at_copy_of_disjoint hat.1 (Or.inl (by omega)), at_copy_self .., ?_⟩
      rw [hbytes]
      exact at_copy_of_disjoint hat.2.2 (Or.inr (by omega))
    · simp only [listing_append, listing_cons, List.length_append] at hsmall ⊢
      omega
  · -- the blocks are there, so the write cannot have failed
    exfalso
    have hne : s'.dirFails ≠ [] := by
      rw [hs']
      simp
    have hz := (hjunk hneg).resolve_right hne
    have hfits : Fits s n (writePos (listing pre).length) e'.bytes.length := by
      rw [writePos_eq (by omega) (by rw [maxBlockNr_eq]; omega), Int.toNat_natCast]
      exact h.fits hcore hpos (by omega)
    exact absurd hneg (not_lt.2 (writeData_fits hcore hn hi hs.inside (fun _ _ => hz) hlt hfits hw))

/-- a write that ends early has changed nothing in front of it -/
theorem Broken.content {buf : Lib.Mem} {start : ℤ} {p tot rest : ℕ} (hb : Broken s s' n i buf start p tot rest r)
    (hn : s.alloc n) : ∃ k, s'.content n = copy (s.content n) p buf tot k := by
  obtain ⟨k, s1, i1, hw, -, -, hend⟩ := hb
  refine ⟨k, ?_⟩
  rcases hend with ⟨-, -, rfl⟩ | ⟨-, -, s2, i2, hfail, hs'⟩
  · rw [content_growTo, hw.content]
  · have hc : s2.content n = copy (s.content n) p buf tot k := by
      rw [hfail.content (hw.grew.touch.alloc.2 hn), hw.content]
    split_ifs at hs' with hlast
    · rw [hs', content_growTo, hc]
    · rw [hs', hc]

/-- **An entry is put behind the last one, or the directory stays as it is.** -/
theorem append_entry {e' : Dirent} (hs : Sound s) (hn : s.alloc n) (h : Directory s n es)
    (hwf : e'.name.length + 8 < 2 ^ 31 → e'.Wf) (hlen : e'.name.length < 2 ^ 31) (hstart : (listing es).length < 2 ^ 31)
    (hcalm : r < 0 → Calm s s') (hr : writeDir s n e'.bytes (listing es).length = .ok (r, s')) :
    Edited s s' n ∧ ((0 ≤ r ∧ Directory s' n (es ++ [e']) ∧ s'.dirFails = s.dirFails) ∨
      (r < 0 ∧ Directory s' n es ∧ s'.dirFails ≠ [])) := by
  have hcore : Core s n ∅ := hs.core.change n
  obtain ⟨i, s1, hi, hw, hcases⟩ := writeDir_cases hr
  have hbl := e'.bytes_length
  have hpos := e'.bytes_pos
  have hwp : writePos (listing es).length = (listing es).length := by
    rw [writePos_eq (by omega) (by rw [maxBlockNr_eq]; omega), Int.toNat_natCast]
  rcases hcases with ⟨hr0, rfl⟩ | ⟨hneg, i1, hi1, hs'⟩
  · -- the number of bytes is not negative as an `int`
    have hlt : e'.bytes.length < 2 ^ 31 := by
      obtain ⟨-, hend⟩ := writeData_spec hcore hn hi hs.inside (fun hc => absurd hr0 (by rw [hc]; decide)) hw
      rcases hend with ⟨⟨t1, j1, -, -, hr1, -⟩, -⟩ | ⟨t1, j1, -, -, -, ⟨hr1, -⟩ | ⟨hr1, -⟩⟩
      · by_contra hge
        rw [hr1] at hr0
        simp only [toInt32, signed] at hr0
        split_ifs at hr0 <;> omega
      · exact absurd hr0 (by rw [hr1]; decide)
      · exact absurd hr0 (by rw [hr1]; decide)
    obtain ⟨-, -, i', hst⟩ := writeData_ok hcore hn hi hs.inside hpos hlt (by omega) hr0 hw
    rw [Int.toNat_natCast] at hst
    have hone : (listing (es ++ [e'])).length = (listing es).length + e'.bytes.length := by
      simp only [listing_append, listing_cons, listing_nil, List.append_nil, List.length_append]
    refine ⟨hst.grew.edited hs.core.mem, Or.inl ⟨hr0, hst.directory h ?_ (le_refl _) ?_ ?_ ?_,
      hst.grew.touch.frame.dirFails⟩⟩
    · intro x hx
      rcases List.mem_append.1 hx with hx | hx
      · exact h.wf x hx
      · rw [List.mem_singleton.1 hx]
        exact hwf (by omega)
    · omega
    · rw [listing_append, listing_cons, listing_nil, List.append_nil, at_append, Nat.zero_add]
      exact ⟨at_copy_of_disjoint h.bytes (Or.inl (by omega)), at_copy_self ..⟩
    · omega
  · have hne : s'.dirFails ≠ [] := by
      rw [hs']
      simp
    have hz := (hcalm hneg).junk.resolve_right hne
    have hsize : i1.dinode.iSize = i.dinode.iSize := by
      have hdiff := (hcalm hneg).fails (i1.dinode.iSize - i.dinode.iSize) (by rw [hs']; simp)
      omega
    obtain ⟨-, hend⟩ := writeData_spec hcore hn hi hs.inside (fun _ _ => hz) hw
    rw [hwp, Nat.mod_eq_of_lt (by omega)] at hend
    obtain ⟨i2, hgrew⟩ := writeData_grew hcore hn hi hs.inside (fun _ => hz)
      (fun _ _ => by rw [dinode_of_find hi1, hsize]) hw
    obtain rfl : i1 = i2 := by
      have hnew := hgrew.touch.new
      rw [hi1] at hnew
      exact Option.some.inj hnew
    have hold := h.size
    rw [dinode_of_find hi] at hold
    rcases hend with ⟨⟨t1, j1, hwrote, -, -, hs1⟩, -⟩ | hbroken
    · -- a length that is no `int`: the end has moved
      exfalso
      have hmoved : i1.dinode.iSize = max j1.dinode.iSize ((listing es).length + e'.bytes.length) := by
        rw [if_pos hpos] at hs1
        rw [hs1, find_setDirty, if_pos rfl, growTo, find_setDinode, if_pos rfl, hwrote.grew.touch.new] at hi1
        simp only [Option.map_some, Option.some.injEq] at hi1
        rw [← hi1]
      rw [hwrote.size] at hmoved
      omega
    · obtain ⟨k, hcontent⟩ := Broken.content ⟨_, hbroken⟩ hn
      have hd1 : Directory s1 n es := by
        refine ⟨?_, h.wf, ?_, ?_, fun b hb => (h.solid b hb).mono hgrew.mono hgrew.touch.frame.grows, h.small⟩
        · rw [dinode_of_find hi1, hgrew.touch.type, ← dinode_of_find hi]
          exact h.type
        · rw [dinode_of_find hi1, hsize, hold]
        · rw [hcontent]
          exact at_copy_of_disjoint h.bytes (Or.inl (by omega))
      have hedit := hgrew.edited hs.core.mem
      rw [hs']
      refine ⟨hedit.record _, Or.inr ⟨hneg, ⟨hd1.1, hd1.2, hd1.3, hd1.4, hd1.5, hd1.6⟩, by simp⟩⟩

/-! ## `testfs_add_dirent` -/

/-- the entry `new` in the place of a removed one, or behind the last one -/
inductive Added (new : Dirent) : List Dirent → List Dirent → Prop
  | reuse (pre : List Dirent) (e : Dirent) (post : List Dirent) :
    ¬e.live → Added new (pre ++ e :: post) (pre ++ new :: post)
  | append (es : List Dirent) : Added new es (es ++ [new])

/-- the entry `testfs_write_dirent` writes -/
def entryOfName (name : List UInt8) (nr : ℤ) : Dirent := ⟨name.length + 1, nr, name ++ [0]⟩

theorem entryOfName_str {name : List UInt8} (h : 0 ∉ name) (nr : ℤ) : (entryOfName name nr).str = name := by
  unfold entryOfName Dirent.str
  simp only
  rw [List.takeWhile_append_of_pos]
  · simp
  · intro c hc
    simp only [ne_eq, decide_eq_true_eq]
    exact fun h0 => h (h0 ▸ hc)

theorem entryOfName_length (name : List UInt8) (nr : ℤ) : (entryOfName name nr).name.length = name.length + 1 := by
  simp [entryOfName]

theorem entryOfName_wf {name : List UInt8} {nr : ℤ} (h : 0 ∉ name) (hnr : InInt32 nr)
    (hlen : (entryOfName name nr).name.length + 8 < 2 ^ 31) : (entryOfName name nr).Wf where
  len := by
    rw [entryOfName_length]
    simp [entryOfName]
  name := by
    rw [entryOfName_str h]
    rfl
  nr := hnr
  short := hlen

theorem writeDir_start {buf : List UInt8} {start : ℤ} (hr : writeDir s n buf start = .ok (r, s')) : 0 ≤ start := by
  obtain ⟨i, s1, -, hw, -⟩ := writeDir_cases hr
  unfold writeData at hw
  split_ifs at hw with hbad
  omega

/-- an offset in a directory that is not negative as an `int` -/
theorem toInt32_offset {k : ℕ} (hk : k < 2 ^ 32) (h0 : 0 ≤ toInt32 k) : toInt32 k = k ∧ k < 2 ^ 31 := by
  have hlt : k < 2 ^ 31 := by
    by_contra hge
    simp only [toInt32, signed] at h0
    split_ifs at h0 <;> omega
  exact ⟨toInt32_of_mem ⟨by omega, by omega⟩, hlt⟩

theorem takeWhile_of_split {A : Type} {f : Dirent → Option A} {a : A} (hf : f e = some a)
    (hnone : ∀ x ∈ pre, f x = none) :
    (pre ++ e :: post).takeWhile (fun e => (f e).isNone) = pre := by
  rw [List.takeWhile_append_of_pos fun x hx => by rw [hnone x hx]; rfl]
  simp [hf]

theorem takeWhile_of_none {A : Type} {f : Dirent → Option A} (hnone : ∀ x ∈ es, f x = none) :
    es.takeWhile (fun e => (f e).isNone) = es := by
  rw [List.takeWhile_eq_self_iff]
  intro x hx
  rw [hnone x hx]
  rfl

theorem writeDirent_cases {name : List UInt8} {len nr start : ℤ}
    (hr : writeDirent s n name len nr start = .ok (r, s')) :
    (r = -ENOMEM ∧ len < 0 ∧ s' = s) ∨ (len = name.length + 1 ∧ 0 ≤ start ∧
      writeDir s n (entryOfName name nr).bytes start = .ok (r, s')) := by
  unfold writeDirent at hr
  split_ifs at hr with h1 h2 h3
  · cases hr
    exact Or.inl ⟨rfl, h1, rfl⟩
  · have hlen := not_not.1 h2
    rw [hlen] at hr
    exact Or.inr ⟨hlen, writeDir_start hr, hr⟩

/-- what `testfs_add_dirent` does: it refuses the name, or it writes the entry behind the last one or in the place of a
removed one -/
theorem addDirent_cases {name : List UInt8} {nr : ℤ} (hpos : ∀ σ, 0 ≤ s.tree n σ) (h : Directory s n es)
    (hr : addDirent s n name nr = .ok (r, s')) :
    (s' = s ∧ ((r = -EEXIST ∧ ∃ e ∈ es, e.live ∧ e.str = name) ∨ (r = -ENOMEM ∧ 2 ^ 31 ≤ name.length + 1))) ∨
      (name.length + 1 < 2 ^ 31 ∧
        ((es.findSome? (addHere name (name.length + 1)) = none ∧ (listing es).length < 2 ^ 31 ∧
            writeDir s n (entryOfName name nr).bytes (listing es).length = .ok (r, s')) ∨
          ∃ pre e post, es = pre ++ e :: post ∧ ¬e.live ∧ e.name.length = name.length + 1 ∧
            writeDir s n (entryOfName name nr).bytes (listing pre).length = .ok (r, s'))) := by
  unfold addDirent at hr
  dsimp only at hr
  rw [bind_eq_ok] at hr
  obtain ⟨⟨a, o⟩, hscan, hr⟩ := hr
  obtain ⟨⟨i, hi⟩, ha, ho⟩ := scan_eq h hpos hscan
  have hlong : toInt32 (name.length + 1) < 0 → 2 ^ 31 ≤ name.length + 1 := by
    intro hneg
    by_contra hlt
    rw [toInt32_of_mem ⟨by omega, by omega⟩] at hneg
    omega
  have hshort : toInt32 (name.length + 1) = name.length + 1 → name.length + 1 < 2 ^ 31 := by
    intro hint
    obtain ⟨-, h2⟩ : InInt32 (toInt32 (name.length + 1)) := inInt32_signed (by omega)
    omega
  -- the entry is written at an offset up to the end of the directory
  have hwrite : ∀ k : ℕ, k ≤ (listing es).length →
      writeDirent s n name (toInt32 (name.length + 1)) nr (toInt32 k) = .ok (r, s') →
      (r = -ENOMEM ∧ 2 ^ 31 ≤ name.length + 1 ∧ s' = s) ∨ (toInt32 (name.length + 1) = name.length + 1 ∧ k < 2 ^ 31 ∧
        writeDir s n (entryOfName name nr).bytes k = .ok (r, s')) := by
    intro k hk hw
    have hsmall := h.small
    rcases writeDirent_cases hw with ⟨rfl, hneg, rfl⟩ | ⟨hint, h0, hw⟩
    · exact Or.inl ⟨rfl, hlong hneg, rfl⟩
    · obtain ⟨hoff, hlt⟩ := toInt32_offset (by omega) h0
      rw [hoff] at hw
      exact Or.inr ⟨hint, hlt, hw⟩
  cases a with
  | none =>
    have hnone := ha.symm
    rw [takeWhile_of_none (List.findSome?_eq_none_iff.1 hnone)] at ho
    dsimp only at hr
    rw [deref_eq_ok.2 hi, ok_bind] at hr
    split_ifs at hr with hend
    rw [ho] at hr
    rcases hwrite _ (le_refl _) hr with ⟨rfl, hlarge, rfl⟩ | ⟨hint, hlt, hw⟩
    · exact Or.inl ⟨rfl, Or.inr ⟨rfl, hlarge⟩⟩
    · rw [hint] at hnone
      exact Or.inr ⟨hshort hint, Or.inl ⟨hnone, hlt, hw⟩⟩
  | some again =>
    obtain ⟨pre, e, post, rfl, hf, hnone⟩ := List.findSome?_eq_some_iff.1 ha.symm
    rw [takeWhile_of_split hf hnone] at ho
    unfold addHere at hf
    cases again with
    | false =>
      cases hr
      refine Or.inl ⟨rfl, Or.inl ⟨rfl, e, by simp, ?_⟩⟩
      split_ifs at hf with h1
      · exact ⟨h1.1, by simpa [Dirent.named] using h1.2⟩
      · simp at hf
    | true =>
      dsimp only at hr
      have hdead : ¬e.live ∧ e.dNameLen = toInt32 (name.length + 1) := by
        split_ifs at hf with h1 h2
        · simp at hf
        · exact ⟨fun hc => h2 (Or.inl hc), by by_contra hc; exact h2 (Or.inr hc)⟩
      rw [ho] at hr
      rcases hwrite _ (by simp) hr with ⟨rfl, hlarge, rfl⟩ | ⟨hint, -, hw⟩
      · exact Or.inl ⟨rfl, Or.inr ⟨rfl, hlarge⟩⟩
      · have hlen := (h.wf e (by simp)).len
        refine Or.inr ⟨hshort hint, Or.inr ⟨pre, e, post, rfl, hdead.1, ?_, hw⟩⟩
        have hsame := hdead.2
        omega

/-- **`testfs_add_dirent`.** -/
theorem addDirent_spec {name : List UInt8} {nr : ℤ} (hs : Sound s) (hn : s.alloc n)
    (h : Directory s n es) (hname : 0 ∉ name) (hnr : InInt32 nr) (hcalm : r < 0 → Calm s s')
    (hr : addDirent s n name nr = .ok (r, s')) :
    Edited s s' n ∧
      ((0 ≤ r ∧ s'.dirFails = s.dirFails ∧ ∃ es', Added (entryOfName name nr) es es' ∧ Directory s' n es') ∨
        (r < 0 ∧ Directory s' n es ∧ ((r = -EEXIST ∧ (∃ e ∈ es, e.live ∧ e.str = name) ∧ s' = s) ∨
          (r = -ENOMEM ∧ 2 ^ 31 ≤ name.length + 1 ∧ s' = s) ∨ s'.dirFails ≠ []))) := by
  have hlen : (entryOfName name nr).name.length = name.length + 1 := entryOfName_length name nr
  rcases addDirent_cases (hs.core.acc.nonneg_of_tree hn) h hr with
    ⟨rfl, ⟨rfl, htaken⟩ | ⟨rfl, hlarge⟩⟩ | ⟨hlt, ⟨-, hend, hw⟩ | ⟨pre, e, post, rfl, hdead, hsame, hw⟩⟩
  · exact ⟨Edited.refl hs n, Or.inr ⟨by decide, h, Or.inl ⟨rfl, htaken, rfl⟩⟩⟩
  · exact ⟨Edited.refl hs n, Or.inr ⟨by decide, h, Or.inr (Or.inl ⟨rfl, hlarge, rfl⟩)⟩⟩
  · -- behind the last entry
    obtain ⟨hedit, ⟨hr0, hd, hf⟩ | ⟨hneg, hd, hf⟩⟩ :=
      append_entry hs hn h (entryOfName_wf hname hnr) (by omega) hend hcalm hw
    · exact ⟨hedit, Or.inl ⟨hr0, hf, _, .append es, hd⟩⟩
    · exact ⟨hedit, Or.inr ⟨hneg, hd, Or.inr (Or.inr hf)⟩⟩
  · have hwf := h.wf e (by simp)
    have heq : (entryOfName name nr).name.length = e.name.length := by omega
    obtain ⟨hr0, hedit, hd, hf⟩ := replace_entry hs hn h
      (entryOfName_wf hname hnr (by rw [heq]; exact hwf.short)) heq (fun hneg => (hcalm hneg).junk) hw
    exact ⟨hedit, Or.inl ⟨hr0, hf, _, .reuse pre e post hdead, hd⟩⟩

/-- an entry that there is room for is added -/
theorem addDirent_fits {name : List UInt8} {nr : ℤ} (hs : Sound s) (hn : s.alloc n) (h : Directory s n es)
    (hfree : ∀ e ∈ es, e.live → e.str ≠ name) (hlen : name.length + 9 < 2 ^ 31)
    (hfits : (∀ e ∈ es, e.live ∨ e.dNameLen ≠ name.length + 1) → Fits s n (listing es).length (name.length + 9))
    (hjunk : 10 ≤ ((listing es).length + name.length + 8) / 8192 → ∀ j, s.stack j = 0)
    (hr : addDirent s n name nr = .ok (r, s')) : 0 ≤ r := by
  have hcore : Core s n ∅ := hs.core.change n
  have hbytes : (entryOfName name nr).bytes.length = name.length + 9 := by
    rw [Dirent.bytes_length, entryOfName_length]
    omega
  have hsmall := h.small
  have hwrite : ∀ k : ℕ, k ≤ (listing es).length → Fits s n k (name.length + 9) →
      writeDir s n (entryOfName name nr).bytes k = .ok (r, s') → 0 ≤ r := by
    intro k hk hfit hw
    obtain ⟨i, s1, hi, hdata, -⟩ := writeDir_cases hw
    have hwp : writePos (k : ℤ) = k := by rw [writePos_eq (by omega) (by rw [maxBlockNr_eq]; omega), Int.toNat_natCast]
    rw [hbytes] at hdata
    refine writeData_fits hcore hn hi hs.inside (fun _ hfar => hjunk ?_) (by omega) (by rw [hwp]; exact hfit) hdata
    rw [hwp, Nat.mod_eq_of_lt (by omega)] at hfar
    omega
  rcases addDirent_cases (hs.core.acc.nonneg_of_tree hn) h hr with
    ⟨-, ⟨-, e, he, hlive, hstr⟩ | ⟨-, hlarge⟩⟩ | ⟨-, ⟨hnone, -, hw⟩ | ⟨pre, e, post, rfl, hdead, hsame, hw⟩⟩
  · exact absurd hstr (hfree e he hlive)
  · omega
  · refine hwrite _ (le_refl _) (hfits fun e he => ?_) hw
    by_contra hcon
    push Not at hcon
    have hskip := List.findSome?_eq_none_iff.1 hnone e he
    unfold addHere at hskip
    have hkeep : ¬(0 ≤ e.dInodeNr ∨ e.dNameLen ≠ name.length + 1) := not_or.2 ⟨hcon.1, not_not.2 hcon.2⟩
    rw [if_neg fun hc => hcon.1 hc.1, if_neg hkeep] at hskip
    cases hskip
  · refine hwrite _ ?_ (h.fits hcore (by omega) ?_) hw
    · simp only [listing_append, List.length_append]
      omega
    · simp only [listing_append, listing_cons, List.length_append, Dirent.bytes_length]
      omega

/-! ## `testfs_remove_dirent` -/

/-- nothing but `.` and `..` in a directory -/
def Bare (es : List Dirent) : Prop := ∀ e ∈ es, e.live → e.str = dot ∨ e.str = dotdot

theorem Same.directory (h : Same s s') (hn : s.alloc n) (hd : Directory s n es) : Directory s' n es :=
  hd.still (h.still n hn) (le_of_eq h.nblocks.symm)

theorem removeDirentAllowed_spec (hs : Sound s) (hm : s.alloc m)
    (hdir : (s.dinode m).iType = iDir → Directory s m es) (hr : removeDirentAllowed s m = .ok (r, s')) :
    Same s s' ∧ ((r = 0 ∧ ((s.dinode m).iType = iDir → Bare es)) ∨
      (r = -ENOTEMPTY ∧ (s.dinode m).iType = iDir ∧ ¬Bare es)) := by
  unfold removeDirentAllowed at hr
  rw [bind_eq_ok] at hr
  obtain ⟨s1, hget, hr⟩ := hr
  obtain ⟨h0, h1⟩ := mem_range hs.core.mem hm
  obtain ⟨hsame, i, hi, hdi⟩ := getInode_same hs h0 h1 hget
  rw [deref_eq_ok.2 hi, ok_bind] at hr
  have hpos : ∀ σ, 0 ≤ s1.tree m σ := hsame.sound.core.acc.nonneg_of_tree ((hsame.alloc m).2 hm)
  by_cases htype : (s.dinode m).iType = iDir
  · have hd := hdir htype
    rw [if_neg (by rw [hdi, htype]; exact not_not.2 rfl), scan_ok (hsame.directory hm hd) hpos hi, ok_bind] at hr
    dsimp only at hr
    rw [pure_eq_ok, ok_bind, bind_eq_ok] at hr
    obtain ⟨s2, hput, hr⟩ := hr
    cases hr
    refine ⟨hsame.trans (putInode_same hsame.sound hput), ?_⟩
    cases hfind : es.findSome? fun e => if e.dInodeNr < 0 ∨ e.named dot ∨ e.named dotdot then none else some () with
    | none =>
      left
      refine ⟨by simp, fun _ e he hlive => ?_⟩
      have hnone := List.findSome?_eq_none_iff.1 hfind e he
      have hneg : ¬e.dInodeNr < 0 := not_lt.2 hlive
      simpa [hneg, Dirent.named, or_iff_not_imp_left] using hnone
    | some u =>
      right
      refine ⟨by simp, htype, fun hbare => ?_⟩
      obtain ⟨e, he, hf⟩ := List.exists_of_findSome?_eq_some hfind
      split_ifs at hf with hskip
      apply hskip
      by_cases hneg : e.dInodeNr < 0
      · exact Or.inl hneg
      · refine Or.inr ?_
        simpa [Dirent.named] using hbare e he (not_lt.1 hneg)
  · rw [if_pos (by rw [hdi]; exact htype), pure_eq_ok, ok_bind, bind_eq_ok] at hr
    obtain ⟨s2, hput, hr⟩ := hr
    cases hr
    exact ⟨hsame.trans (putInode_same hsame.sound hput), Or.inl ⟨rfl, fun hc => absurd hc htype⟩⟩

/-- an entry marked as removed -/
def Dirent.dead (e : Dirent) : Dirent := { e with dInodeNr := -1 }

theorem Dirent.dead_not_live (e : Dirent) : ¬e.dead.live := by
  unfold Dirent.live Dirent.dead
  norm_num

theorem Dirent.Wf.dead {e : Dirent} (h : e.Wf) : e.dead.Wf where
  len := h.len
  name := h.name
  nr := by
    constructor <;> norm_num [Dirent.dead]
  short := h.short

/-- **`testfs_remove_dirent`.** -/
theorem removeDirent_spec {name : List UInt8} {D : ℤ → List Dirent} (hs : Sound s) (hn : s.alloc n)
    (h : Directory s n es) (hnames : ∀ e ∈ es, e.live → s.alloc e.dInodeNr)
    (hdirs : ∀ m, s.alloc m → (s.dinode m).iType = iDir → Directory s m (D m))
    (hjunk : r < 0 → (∀ j, s.stack j = 0) ∨ s'.dirFails = []) (hr : removeDirent s n name = .ok (r, s')) :
    (r = -EINVAL ∧ s' = s ∧ (name = dot ∨ name = dotdot)) ∨
      (name ≠ dot ∧ name ≠ dotdot ∧ ((r = -ENOENT ∧ s' = s ∧ ∀ e ∈ es, e.live → e.str ≠ name) ∨
        ∃ pre e post, es = pre ++ e :: post ∧ e.live ∧ e.str = name ∧ (∀ x ∈ pre, x.live → x.str ≠ name) ∧
          ((r = -ENOTEMPTY ∧ Same s s' ∧ (s.dinode e.dInodeNr).iType = iDir ∧ ¬Bare (D e.dInodeNr)) ∨
            (r = e.dInodeNr ∧ ((s.dinode r).iType = iDir → Bare (D r)) ∧ s'.dirFails = s.dirFails ∧
              ∃ s1, Same s s1 ∧ Edited s1 s' n ∧ Directory s' n (pre ++ e.dead :: post) ∧
                ∃ r1, 0 ≤ r1 ∧ writeDir s1 n e.dead.bytes (listing pre).length = .ok (r1, s'))))) := by
  have hpos : ∀ σ, 0 ≤ s.tree n σ := hs.core.acc.nonneg_of_tree hn
  unfold removeDirent at hr
  split_ifs at hr with hdots
  · cases hr
    exact Or.inl ⟨rfl, rfl, hdots⟩
  right
  refine ⟨fun hc => hdots (Or.inl hc), fun hc => hdots (Or.inr hc), ?_⟩
  rw [bind_eq_ok] at hr
  obtain ⟨⟨a, o⟩, hscan, hr⟩ := hr
  obtain ⟨⟨i, hi⟩, ha, ho⟩ := scan_eq h hpos hscan
  have hskip : ∀ x : Dirent, (if x.dInodeNr < 0 ∨ x.named name = false then none else some x) = none →
      x.live → x.str ≠ name := by
    intro x hx hlive heq
    have hneg : ¬x.dInodeNr < 0 := not_lt.2 hlive
    simp [hneg, Dirent.named, heq] at hx
  cases a with
  | none =>
    left
    cases hr
    exact ⟨rfl, rfl, fun e he => hskip e (List.findSome?_eq_none_iff.1 ha.symm e he)⟩
  | some x =>
    right
    obtain ⟨pre, e, post, rfl, hf, hnone⟩ := List.findSome?_eq_some_iff.1 ha.symm
    rw [takeWhile_of_split hf hnone] at ho
    split_ifs at hf with hno
    obtain rfl : e = x := Option.some.inj hf
    have hlive : e.live := by
      unfold Dirent.live
      by_contra hc
      exact hno (Or.inl (not_le.1 hc))
    have hstr : e.str = name := by
      by_contra hc
      exact hno (Or.inr (by simp [Dirent.named, hc]))
    refine ⟨pre, e, post, rfl, hlive, hstr, fun x hx => hskip x (hnone x hx), ?_⟩
    dsimp only at hr
    rw [bind_eq_ok] at hr
    obtain ⟨⟨r1, s1⟩, hallow, hr⟩ := hr
    have hm := hnames e (by simp) hlive
    obtain ⟨hsame, ⟨rfl, hbare⟩ | ⟨rfl, htype, hnot⟩⟩ := removeDirentAllowed_spec hs hm (hdirs _ hm) hallow
    · right
      simp only [lt_irrefl, if_false] at hr
      rw [bind_eq_ok] at hr
      obtain ⟨⟨r2, s2⟩, hw, hr⟩ := hr
      rw [ho] at hw
      have hjunk1 : r2 < 0 → (∀ j, s1.stack j = 0) ∨ s2.dirFails = [] := by
        intro hneg
        dsimp only at hr
        rw [if_neg (not_le.2 hneg)] at hr
        cases hr
        rw [hsame.stack]
        exact hjunk hneg
      obtain ⟨hr0, hedit, hd, hfails⟩ := replace_entry hsame.sound ((hsame.alloc n).2 hn)
        (hsame.directory hn h) (h.wf e (by simp)).dead rfl hjunk1 hw
      simp only [hr0, if_true] at hr
      cases hr
      exact ⟨rfl, hbare, hfails.trans hsame.dirFails, s1, hsame, hedit, hd, r2, hr0, hw⟩
    · left
      have hneg : -ENOTEMPTY < 0 := by decide
      simp only [hneg, if_true] at hr
      cases hr
      exact ⟨rfl, hsame, htype, hnot⟩

end OsLab.Testfs
