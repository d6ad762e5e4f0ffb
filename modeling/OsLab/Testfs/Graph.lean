/-
The directory graph.

`Graph s D`: the directories of the file system have the entries `D`, no directory has a name twice, and the inodes in
use with these entries are a tree with root 0 (`Lib.NameTree`), in which the current directory is a directory. Creating
a file or directory puts a leaf into the tree, removing one takes a leaf out of it; a command that fails leaves the tree
as it is.
-/
import Mathlib.Tactic
import OsLab.Lib.Names
import OsLab.Testfs.Dir

namespace OsLab.Testfs

open OsLab.Lib Function State

variable {s s' s'' : State} {n m r d : ℤ} {i i' : Inode} {es es' pre post : List Dirent} {e new : Dirent}
  {name k : List UInt8} {D : ℤ → List Dirent}

/-! ## The names of a directory -/

/-- a directory has an entry `k` for inode `n` -/
def Names (es : List Dirent) (k : List UInt8) (n : ℤ) : Prop := ∃ e ∈ es, e.live ∧ e.str = k ∧ e.dInodeNr = n

/-- not the same name twice -/
def Differ (a b : Dirent) : Prop := a.live → b.live → a.str ≠ b.str

instance : Std.Symm Differ := ⟨fun _ _ h hb ha heq => h ha hb heq.symm⟩

/-- no two entries have the same name -/
def Distinct (es : List Dirent) : Prop := es.Pairwise Differ

theorem names_append {fs : List Dirent} : Names (es ++ fs) k n ↔ Names es k n ∨ Names fs k n := by
  simp only [Names, List.mem_append, or_and_right, exists_or]

theorem names_cons : Names (e :: es) k n ↔ (e.live ∧ e.str = k ∧ e.dInodeNr = n) ∨ Names es k n := by
  simp only [Names, List.mem_cons, or_and_right, exists_or, exists_eq_left]

theorem names_cons_of_not_live (h : ¬e.live) : Names (e :: es) k n ↔ Names es k n := by
  rw [names_cons]
  exact or_iff_right fun hc => h hc.1

theorem not_names_nil : ¬Names [] k n := by
  rintro ⟨e, he, -⟩
  exact absurd he List.not_mem_nil

theorem Distinct.unique (h : Distinct es) (hn : Names es k n) (hm : Names es k m) : n = m := by
  obtain ⟨a, ha, hla, hka, rfl⟩ := hn
  obtain ⟨b, hb, hlb, hkb, rfl⟩ := hm
  by_cases hab : a = b
  · rw [hab]
  · exact absurd (hka.trans hkb.symm) (h.forall ha hb hab hla hlb)

theorem lookup_eq_none_iff : lookup es k = none ↔ ∀ e ∈ es, e.live → e.str ≠ k := by
  simp only [lookup, List.findSome?_eq_none_iff, Dirent.live, Dirent.named]
  refine forall₂_congr fun e _ => ?_
  by_cases h0 : 0 ≤ e.dInodeNr <;> simp [h0]

/-- `testfs_dir_name_to_inode_nr` finds the one entry of a name -/
theorem lookup_eq_some_iff (h : Distinct es) : lookup es k = some n ↔ Names es k n := by
  have hhit : ∀ m, lookup es k = some m → Names es k m := by
    intro m hm
    obtain ⟨e, he, hf⟩ := List.exists_of_findSome?_eq_some hm
    split_ifs at hf with hc
    exact ⟨e, he, hc.1, by simpa [Dirent.named] using hc.2, Option.some.inj hf⟩
  constructor
  · exact hhit n
  · intro hn
    cases hl : lookup es k with
    | none =>
      obtain ⟨e, he, hlive, hk, -⟩ := hn
      exact absurd hk (lookup_eq_none_iff.1 hl e he hlive)
    | some m => rw [h.unique hn (hhit m hl)]

theorem names_nonneg (h : Names es k n) : 0 ≤ n := by
  obtain ⟨e, -, hlive, -, rfl⟩ := h
  exact hlive

/-- an entry was added -/
theorem Added.names (h : Added new es es') (hnew : new.live) :
    Names es' k n ↔ Names es k n ∨ (k = new.str ∧ n = new.dInodeNr) := by
  cases h with
  | reuse pre e post hdead =>
    rw [names_append, names_append, names_cons, names_cons_of_not_live hdead]
    constructor
    · rintro (h | ⟨-, rfl, rfl⟩ | h)
      · exact Or.inl (Or.inl h)
      · exact Or.inr ⟨rfl, rfl⟩
      · exact Or.inl (Or.inr h)
    · rintro ((h | h) | ⟨rfl, rfl⟩)
      · exact Or.inl h
      · exact Or.inr (Or.inr h)
      · exact Or.inr (Or.inl ⟨hnew, rfl, rfl⟩)
  | append =>
    rw [names_append, names_cons]
    refine or_congr_right ⟨?_, ?_⟩
    · rintro (⟨-, rfl, rfl⟩ | h)
      · exact ⟨rfl, rfl⟩
      · exact absurd h not_names_nil
    · rintro ⟨rfl, rfl⟩
      exact Or.inl ⟨hnew, rfl, rfl⟩

theorem Added.distinct (h : Added new es es') (hd : Distinct es) (hnew : ∀ e ∈ es, e.live → e.str ≠ new.str) :
    Distinct es' := by
  have hdiff : ∀ x ∈ es, Differ x new := fun x hx hlive _ => hnew x hx hlive
  unfold Distinct at *
  cases h with
  | reuse pre e post hdead =>
    rw [List.pairwise_append, List.pairwise_cons] at hd ⊢
    obtain ⟨h1, ⟨-, h2⟩, h3⟩ := hd
    refine ⟨h1, ⟨fun x hx => symm (hdiff x (by simp [hx])), h2⟩, fun x hx y hy => ?_⟩
    rcases List.mem_cons.1 hy with rfl | hy
    · exact hdiff x (by simp [hx])
    · exact h3 x hx y (List.mem_cons_of_mem _ hy)
  | append =>
    rw [List.pairwise_append]
    refine ⟨hd, List.pairwise_singleton .., fun x hx y hy => ?_⟩
    rw [List.mem_singleton.1 hy]
    exact hdiff x hx

/-- an entry was removed -/
theorem names_dead (h : Distinct (pre ++ e :: post)) (hlive : e.live) :
    Names (pre ++ e.dead :: post) k n ↔ Names (pre ++ e :: post) k n ∧ k ≠ e.str := by
  unfold Distinct at h
  rw [List.pairwise_append, List.pairwise_cons] at h
  obtain ⟨-, ⟨h2, -⟩, h3⟩ := h
  rw [names_append, names_append, names_cons_of_not_live e.dead_not_live, names_cons]
  constructor
  · rintro (⟨x, hx, hl, rfl, rfl⟩ | ⟨x, hx, hl, rfl, rfl⟩)
    · exact ⟨Or.inl ⟨x, hx, hl, rfl, rfl⟩, h3 x hx e (by simp) hl hlive⟩
    · exact ⟨Or.inr (Or.inr ⟨x, hx, hl, rfl, rfl⟩), fun hc => h2 x hx hlive hl hc.symm⟩
  · rintro ⟨h | ⟨-, rfl, -⟩ | h, hne⟩
    · exact Or.inl h
    · exact absurd rfl hne
    · exact Or.inr h

theorem distinct_dead (h : Distinct (pre ++ e :: post)) : Distinct (pre ++ e.dead :: post) := by
  have hdead : ∀ x, Differ e.dead x := fun x hl => absurd hl e.dead_not_live
  unfold Distinct at *
  rw [List.pairwise_append, List.pairwise_cons] at h ⊢
  obtain ⟨h1, ⟨-, h2⟩, h3⟩ := h
  refine ⟨h1, ⟨fun x _ => hdead x, h2⟩, fun x hx y hy => ?_⟩
  rcases List.mem_cons.1 hy with rfl | hy
  · exact symm (hdead x)
  · exact h3 x hx y (List.mem_cons_of_mem _ hy)

/-! ## The tree -/

/-- inode `n` is in use and a directory -/
def State.isDir (s : State) (n : ℤ) : Prop := s.alloc n ∧ (s.dinode n).iType = iDir

/-- directory `d` has an entry `k` for inode `n` -/
def State.entry (s : State) (D : ℤ → List Dirent) (d : ℤ) (k : List UInt8) (n : ℤ) : Prop := s.isDir d ∧ Names (D d) k n

/-- the directories have the entries `D` -/
structure Dirs (s : State) (D : ℤ → List Dirent) : Prop where
  sound : Sound s
  dirs : ∀ n, s.isDir n → Directory s n (D n)

structure Graph (s : State) (D : ℤ → List Dirent) : Prop where
  dirs : Dirs s D
  distinct : ∀ n, s.isDir n → Distinct (D n)
  tree : NameTree dot dotdot 0 s.alloc s.isDir (s.entry D)
  cur : s.isDir s.curDir

theorem Graph.sound (h : Graph s D) : Sound s := h.dirs.sound

theorem Graph.directory (h : Graph s D) (hn : s.isDir n) : Directory s n (D n) := h.dirs.dirs n hn

theorem Graph.pos (h : Graph s D) (hn : s.alloc n) (σ : Slot) : 0 ≤ s.tree n σ := h.sound.core.acc.nonneg_of_tree hn σ

/-- a live entry names an inode in use -/
theorem Graph.alloc_of_live (h : Graph s D) (hn : s.isDir n) (he : e ∈ D n) (hlive : e.live) : s.alloc e.dInodeNr :=
  h.tree.target n e.str e.dInodeNr ⟨hn, e, he, hlive, rfl, rfl⟩

/-- what a name stands for -/
theorem Graph.lookup (h : Graph s D) (hd : s.isDir d) : lookup (D d) k = some n ↔ s.entry D d k n := by
  rw [lookup_eq_some_iff (h.distinct d hd)]
  exact (and_iff_right hd).symm

/-- the files outside of `X` are the same -/
structure Alike (s s' : State) (X : Set ℤ) : Prop where
  sound : Sound s'
  alloc : ∀ m, s'.alloc m ↔ s.alloc m
  type : ∀ m, s.alloc m → (s'.dinode m).iType = (s.dinode m).iType
  still : ∀ m, s.alloc m → m ∉ X → Still s s' m
  curDir : s'.curDir = s.curDir
  stack : s'.stack = s.stack
  grows : s.dev.nblocks ≤ s'.dev.nblocks
  carries : ∀ m, s.alloc m → m ∉ X → Carries s s' m

variable {X Y : Set ℤ}

theorem Same.alike (h : Same s s') (X : Set ℤ) : Alike s s' X :=
  ⟨h.sound, h.alloc, fun m hm => (h.still m hm).type, fun m hm _ => h.still m hm, h.curDir, h.stack,
    le_of_eq h.nblocks.symm, fun m hm _ => h.carries m hm⟩

theorem Edited.alike (h : Edited s s' n) (hX : n ∈ X) : Alike s s' X where
  sound := h.sound
  alloc := h.alloc
  type := fun m hm => by
    by_cases hmn : m = n
    · rw [hmn, h.type]
    · exact (h.still m hm hmn).type
  still := fun m hm hmX => h.still m hm fun hc => hmX (hc ▸ hX)
  curDir := h.curDir
  stack := h.stack
  grows := h.grows
  carries := fun m hm hmX => h.carries hm fun hc => hmX (hc ▸ hX)

namespace Alike

theorem trans (h : Alike s s' X) (h' : Alike s' s'' X) : Alike s s'' X where
  sound := h'.sound
  alloc := fun m => (h'.alloc m).trans (h.alloc m)
  type := fun m hm => (h'.type m ((h.alloc m).2 hm)).trans (h.type m hm)
  still := fun m hm hX => (h.still m hm hX).trans (h'.still m ((h.alloc m).2 hm) hX)
  curDir := h'.curDir.trans h.curDir
  stack := h'.stack.trans h.stack
  grows := h.grows.trans h'.grows
  carries := fun m hm hX => (h.carries m hm hX).trans (h'.carries m ((h.alloc m).2 hm) hX)

theorem directory (h : Alike s s' X) (hn : s.alloc n) (hX : n ∉ X) (hd : Directory s n es) : Directory s' n es :=
  hd.still (h.still n hn hX) h.grows

theorem isDir (h : Alike s s' X) (m : ℤ) : s'.isDir m ↔ s.isDir m := by
  unfold State.isDir
  rw [h.alloc]
  exact and_congr_right fun hm => by rw [h.type m hm]

end Alike

/-- the tree after a step that left the names alone -/
theorem Graph.alike (hg : Graph s D) (h : Alike s s' X) (hX : ∀ m ∈ X, s.isDir m → Directory s' m (D m)) :
    Graph s' D := by
  have halloc : s'.alloc = s.alloc := funext fun m => propext (h.alloc m)
  have hisDir : s'.isDir = s.isDir := funext fun m => propext (h.isDir m)
  have hentry : s'.entry D = s.entry D := by
    unfold State.entry
    rw [hisDir]
  refine ⟨⟨h.sound, fun m hm => ?_⟩, fun m hm => hg.distinct m (by rw [← hisDir]; exact hm), ?_, ?_⟩
  · rw [hisDir] at hm
    by_cases hmX : m ∈ X
    · exact hX m hmX hm
    · exact h.directory hm.1 hmX (hg.directory hm)
  · rw [halloc, hisDir, hentry]
    exact hg.tree
  · rw [hisDir, h.curDir]
    exact hg.cur

theorem Graph.same (hg : Graph s D) (h : Same s s') : Graph s' D :=
  hg.alike (h.alike ∅) fun m hm => absurd hm (Set.notMem_empty m)

/-! ## `testfs_create_file_or_dir` -/

/-- the entries of a new directory -/
def newDir (n p : ℤ) : List Dirent := [entryOfName dot n, entryOfName dotdot p]

theorem entryOfName_live (name : List UInt8) (hn : 0 ≤ n) : (entryOfName name n).live := hn

theorem Added.of_live (h : Added new es es') (hes : ∀ e ∈ es, e.live) : es' = es ++ [new] := by
  cases h with
  | reuse pre e post hdead => exact absurd (hes e (by simp)) hdead
  | append => rfl

theorem zero_notMem_dot : (0 : UInt8) ∉ dot := by decide

theorem zero_notMem_dotdot : (0 : UInt8) ∉ dotdot := by decide

theorem Calm.of_stack (h : Calm s s'') (hst : s'.stack = s.stack) : Calm s' s'' := ⟨h.fails, by rw [hst]; exact h.junk⟩

theorem Calm.of_fails (h : Calm s s'') (hf : s''.dirFails = s'.dirFails) : Calm s s' :=
  ⟨by rw [← hf]; exact h.fails, by rw [← hf]; exact h.junk⟩

/-- an inode number is an `int` -/
theorem inInt32_of_alloc (h : Sound s) (hn : s.alloc n) : InInt32 n := by
  obtain ⟨h0, h1⟩ := mem_range h.core.mem hn
  constructor <;> omega

/-- what `testfs_create_empty_dir` does: `.` and then `..`; the removal of `.` after a failure is refused -/
theorem createEmptyDir_cases (hr : createEmptyDir s d n = .ok (r, s')) :
    (r < 0 ∧ addDirent s n dot n = .ok (r, s')) ∨ ∃ r1 s1, 0 ≤ r1 ∧ addDirent s n dot n = .ok (r1, s1) ∧
      ((r < 0 ∧ addDirent s1 n dotdot d = .ok (r, s')) ∨
        ∃ r2, 0 ≤ r2 ∧ r = 0 ∧ addDirent s1 n dotdot d = .ok (r2, s')) := by
  unfold createEmptyDir at hr
  rw [bind_eq_ok] at hr
  obtain ⟨i, -, hr⟩ := hr
  by_cases htype : i.dinode.iType ≠ iDir
  · rw [if_pos htype] at hr
    cases hr
  rw [if_neg htype, bind_eq_ok] at hr
  obtain ⟨⟨r1, s1⟩, hadd, hr⟩ := hr
  dsimp only at hr
  by_cases h1 : r1 < 0
  · rw [if_pos h1] at hr
    cases hr
    exact Or.inl ⟨h1, hadd⟩
  rw [if_neg h1, bind_eq_ok] at hr
  obtain ⟨⟨r2, s2⟩, hadd2, hr⟩ := hr
  dsimp only at hr
  refine Or.inr ⟨r1, s1, not_lt.1 h1, hadd, ?_⟩
  by_cases h2 : r2 < 0
  · rw [if_pos h2, bind_eq_ok] at hr
    obtain ⟨⟨r3, s3⟩, hrm, hr⟩ := hr
    cases hr
    unfold removeDirent at hrm
    rw [if_pos (Or.inl rfl)] at hrm
    cases hrm
    exact Or.inl ⟨h2, hadd2⟩
  · rw [if_neg h2] at hr
    cases hr
    exact Or.inr ⟨r2, not_lt.1 h2, rfl, hadd2⟩

/-- an entry is added to a new directory, in which everything is alive -/
theorem addDirent_new (hs : Sound s) (hn : s.alloc n) (h : Directory s n es) (hes : ∀ e ∈ es, e.live) (hname : 0 ∉ name)
    (hshort : name.length + 1 < 2 ^ 31) (hfree : ∀ e ∈ es, e.str ≠ name) (hm : s.alloc m) (hcalm : r < 0 → Calm s s')
    (hr : addDirent s n name m = .ok (r, s')) :
    Edited s s' n ∧ ((0 ≤ r ∧ s'.dirFails = s.dirFails ∧ Directory s' n (es ++ [entryOfName name m])) ∨
      (r < 0 ∧ s'.dirFails ≠ [])) := by
  obtain ⟨hedit, ⟨h0, hf, es', hadd, hd⟩ | ⟨hneg, -, hwhy⟩⟩ :=
    addDirent_spec hs hn h hname (inInt32_of_alloc hs hm) hcalm hr
  · rw [hadd.of_live hes] at hd
    exact ⟨hedit, Or.inl ⟨h0, hf, hd⟩⟩
  · refine ⟨hedit, Or.inr ⟨hneg, ?_⟩⟩
    rcases hwhy with ⟨-, ⟨e, he, -, hstr⟩, -⟩ | ⟨-, hlong, -⟩ | hfails
    · exact absurd hstr (hfree e he)
    · omega
    · exact hfails

theorem dot_ne_dotdot : dot ≠ dotdot := by decide

/-- the first entry of a new directory is `.` -/
theorem str_ne_dotdot : ∀ e ∈ [entryOfName dot n], e.str ≠ dotdot := by
  intro e he
  rw [List.mem_singleton.1 he, entryOfName_str zero_notMem_dot]
  exact dot_ne_dotdot

theorem live_dot (hn : 0 ≤ n) : ∀ e ∈ [entryOfName dot n], e.live := by
  intro e he
  rw [List.mem_singleton.1 he]
  exact entryOfName_live dot hn

/-- **`testfs_create_empty_dir`.** -/
theorem createEmptyDir_spec (hs : Sound s) (hn : s.alloc n) (h : Directory s n []) (hd : s.alloc d)
    (hcalm : r < 0 → Calm s s') (hr : createEmptyDir s d n = .ok (r, s')) :
    Edited s s' n ∧ ((r = 0 ∧ s'.dirFails = s.dirFails ∧ Directory s' n (newDir n d)) ∨
    (r < 0 ∧ s'.dirFails ≠ [])) := by
  have hfirst : ∀ r1 s1, (r1 < 0 → Calm s s1) → addDirent s n dot n = .ok (r1, s1) → _ := fun r1 s1 hc hadd =>
    addDirent_new hs hn h (fun e he => absurd he List.not_mem_nil) zero_notMem_dot (by decide)
      (fun e he => absurd he List.not_mem_nil) hn hc hadd
  rcases createEmptyDir_cases hr with ⟨hneg, hadd⟩ | ⟨r1, s1, h1, hadd, hrest⟩
  · obtain ⟨hedit, ⟨h0, -⟩ | ⟨-, hf⟩⟩ := hfirst r s' hcalm hadd
    · exact absurd hneg (not_lt.2 h0)
    · exact ⟨hedit, Or.inr ⟨hneg, hf⟩⟩
  obtain ⟨hedit, ⟨-, hf1, hd1⟩ | ⟨hneg, -⟩⟩ := hfirst r1 s1 (fun hc => absurd hc (not_lt.2 h1)) hadd
  swap
  · exact absurd hneg (not_lt.2 h1)
  have hsecond : ∀ r2, (r2 < 0 → Calm s1 s') → addDirent s1 n dotdot d = .ok (r2, s') → _ := fun r2 hc hadd =>
    addDirent_new hedit.sound ((hedit.alloc n).2 hn) hd1 (live_dot hn.1) zero_notMem_dotdot (by decide) str_ne_dotdot
      ((hedit.alloc d).2 hd) hc hadd
  rcases hrest with ⟨hneg, hadd⟩ | ⟨r2, h2, rfl, hadd⟩
  · obtain ⟨hedit2, ⟨h0, -⟩ | ⟨-, hf⟩⟩ := hsecond r (fun hc => (hcalm hc).of_stack hedit.stack) hadd
    · exact absurd hneg (not_lt.2 h0)
    · exact ⟨hedit.trans hedit2, Or.inr ⟨hneg, hf⟩⟩
  · obtain ⟨hedit2, ⟨-, hf2, hd2⟩ | ⟨hneg, -⟩⟩ := hsecond r2 (fun hc => absurd hc (not_lt.2 h2)) hadd
    · exact ⟨hedit.trans hedit2, Or.inl ⟨rfl, hf2.trans hf1, hd2⟩⟩
    · exact absurd hneg (not_lt.2 h2)

/-- the first block of an inode is needed if it is not there -/
theorem need_first (t : Slot → ℤ) : need t 0 1 = if t (.direct 0) = 0 then 1 else 0 := by
  have hgaps : gaps t 0 1 = if t (.direct 0) = 0 then {.direct 0} else ∅ := by
    ext τ
    have hmem : τ ∈ gaps t 0 1 ↔ τ = .direct 0 ∧ t τ = 0 := by
      rw [mem_gaps]
      constructor
      · rintro ⟨⟨b, hb, hτ⟩, hz⟩
        obtain rfl : b = 0 := by omega
        exact ⟨by simpa [slotOf, path] using hτ, hz⟩
      · rintro ⟨rfl, hz⟩
        exact ⟨⟨0, by omega, by simp [slotOf, path]⟩, hz⟩
    rw [hmem]
    split_ifs with h0
    · rw [Finset.mem_singleton]
      exact ⟨And.left, fun hτ => ⟨hτ, hτ ▸ h0⟩⟩
    · simp only [Finset.notMem_empty, iff_false, not_and]
      rintro rfl
      exact h0
  rw [need, hgaps]
  split_ifs <;> rfl

theorem listing_dot (n : ℤ) : (listing [entryOfName dot n]).length = 10 := by
  rw [listing_cons, listing_nil, List.append_nil, Dirent.bytes_length, entryOfName_length]
  rfl

/-- one block is enough for a new directory -/
theorem createEmptyDir_fits (hs : Sound s) (hn : s.alloc n) (h : Directory s n [])
    (hroom : s.sb.usedBlockCount + 1 ≤ s.sb.maxFsBlocks) (hr : createEmptyDir s d n = .ok (r, s')) : 0 ≤ r := by
  have hone : Fits s n (listing []).length (dot.length + 9) := by
    refine ⟨by rw [maxBlockNr_eq]; decide, ?_⟩
    have hneed := need_first (s.tree n)
    change s.sb.usedBlockCount + need (s.tree n) 0 1 ≤ s.sb.maxFsBlocks
    split_ifs at hneed <;> omega
  have hfirst : ∀ r1 s1, addDirent s n dot n = .ok (r1, s1) → 0 ≤ r1 := fun r1 s1 hadd =>
    addDirent_fits hs hn h (fun e he => absurd he List.not_mem_nil) (by decide) (fun _ => hone)
      (fun hfar => absurd hfar (by decide)) hadd
  rcases createEmptyDir_cases hr with ⟨-, hadd⟩ | ⟨r1, s1, h1, hadd, ⟨-, hadd2⟩ | ⟨r2, -, rfl, -⟩⟩
  · exact hfirst r s' hadd
  · obtain ⟨hedit, ⟨-, -, hd1⟩ | ⟨hneg, -⟩⟩ :=
      addDirent_new hs hn h (fun e he => absurd he List.not_mem_nil) zero_notMem_dot
      (by decide) (fun e he => absurd he List.not_mem_nil) hn (fun hc => absurd hc (not_lt.2 h1)) hadd
    swap
    · exact absurd hneg (not_lt.2 h1)
    refine addDirent_fits hedit.sound ((hedit.alloc n).2 hn) hd1 (fun e he _ => str_ne_dotdot e he)
      (by decide) (fun _ => ?_)
      (fun hfar => ?_) hadd2
    · rw [List.nil_append, listing_dot]
      refine ⟨by rw [maxBlockNr_eq]; decide, ?_⟩
      have hthere : s1.tree n (.direct 0) ≠ 0 :=
        (hd1.solid 0 (by rw [List.nil_append, listing_dot]; omega) _ (slotOf_mem_path 0)).1
      have hneed := need_first (s1.tree n)
      rw [if_neg hthere] at hneed
      change s1.sb.usedBlockCount + need (s1.tree n) 0 1 ≤ s1.sb.maxFsBlocks
      rw [hneed]
      exact hedit.sound.core.acc.limit
    · rw [List.nil_append, listing_dot] at hfar
      exact absurd hfar (by decide)
  · exact le_refl 0

/-- `testfs_create_file_or_dir` has linked inode `n` -/
structure Linked (s s' : State) (d n type : ℤ) (name : List UInt8) (es : List Dirent) : Prop where
  alike : Alike s s' {n, d}
  fails : s'.dirFails = s.dirFails
  inner : type = iDir → Directory s' n (newDir n d)
  outer : ∃ es', Added (entryOfName name n) es es' ∧ Directory s' d es'
  carries : type ≠ iDir → Carries s s' n

/-- it has given up, and removed inode `n` again -/
structure Dropped (s s' : State) (d n : ℤ) (es : List Dirent) : Prop where
  gone : ∃ s1, Alike s s1 {n, d} ∧ Gone s1 s' n
  outer : Directory s' d es

theorem Gone.directory (h : Gone s s' n) (hm : s.alloc m) (hmn : m ≠ n) (hd : Directory s m es) : Directory s' m es :=
  hd.still (h.still m hm hmn) h.nblocks

/-- what `testfs_create_file_or_dir` does with the inode it made: it links it, or it removes it again -/
theorem linkInode_cases {type : ℤ} (hr : linkInode s (some d) type name n = .ok (r, s')) :
    ∃ r1 s1, ((type = iDir ∧ createEmptyDir s d n = .ok (r1, s1)) ∨ (type ≠ iDir ∧ r1 = 0 ∧ s1 = s)) ∧
      ((r < 0 ∧ r1 = r ∧ removeInode s1 n = .ok s') ∨ (0 ≤ r1 ∧ ∃ r2 s2, addDirent s1 d name n = .ok (r2, s2) ∧
        ((r < 0 ∧ r2 = r ∧ removeInode s2 n = .ok s') ∨ (0 ≤ r2 ∧ r = 0 ∧
          ∃ s3 s4, syncInode s2 d = .ok s3 ∧ syncInode s3 n = .ok s4 ∧ putInode s4 n = .ok s')))) := by
  unfold linkInode at hr
  obtain ⟨⟨r1, s1⟩, hmake, hr⟩ := ite_bind_eq_ok hr
  dsimp only at hr
  refine ⟨r1, s1, ?_, ?_⟩
  · rcases hmake with ⟨htype, hempty⟩ | ⟨htype, hpure⟩
    · exact Or.inl ⟨htype, hempty⟩
    · cases hpure
      exact Or.inr ⟨htype, rfl, rfl⟩
  -- after the entries of the inode itself
  by_cases h1 : r1 < 0
  · rw [if_pos h1, bind_eq_ok] at hr
    obtain ⟨s2, hremove, hr⟩ := hr
    cases hr
    exact Or.inl ⟨h1, rfl, hremove⟩
  rw [if_neg h1, bind_eq_ok] at hr
  obtain ⟨⟨r2, s2⟩, hadd, hr⟩ := hr
  dsimp only at hr
  refine Or.inr ⟨not_lt.1 h1, r2, s2, hadd, ?_⟩
  by_cases h2 : r2 < 0
  · rw [if_pos h2, bind_eq_ok] at hr
    obtain ⟨s3, hremove, hr⟩ := hr
    cases hr
    exact Or.inl ⟨h2, rfl, hremove⟩
  rw [if_neg h2, bind_eq_ok] at hr
  obtain ⟨s3, hsync, hr⟩ := hr
  rw [bind_eq_ok] at hr
  obtain ⟨s4, hsync2, hr⟩ := hr
  rw [bind_eq_ok] at hr
  obtain ⟨s5, hput, hr⟩ := hr
  cases hr
  exact Or.inr ⟨not_lt.1 h2, rfl, s3, s4, hsync, hsync2, hput⟩

/-- the inode is removed again, whatever happened to it and to the directory -/
theorem dropped_of_remove (halike : Alike s s1 {n, d}) (hn : s.alloc n) (hd : s.alloc d) (hdn : d ≠ n)
    (hdir : Directory s1 d es) (hremove : removeInode s1 n = .ok s') : Dropped s s' d n es := by
  have hgone := removeInode_spec halike.sound ((halike.alloc n).2 hn) hremove
  exact ⟨⟨s1, halike, hgone⟩, hgone.directory ((halike.alloc d).2 hd) hdn hdir⟩

/-- **`testfs_create_file_or_dir` after the inode was made.** -/
theorem linkInode_spec {type : ℤ} (hs : Sound s) (hn : s.alloc n) (hd : s.alloc d) (hdn : d ≠ n)
    (hnew : type = iDir → Directory s n []) (hdir : Directory s d es) (hname : 0 ∉ name) (hcalm : r < 0 → Calm s s')
    (hr : linkInode s (some d) type name n = .ok (r, s')) :
    (r = 0 ∧ Linked s s' d n type name es) ∨ (r < 0 ∧ Dropped s s' d n es ∧
      ((r = -EEXIST ∧ ∃ e ∈ es, e.live ∧ e.str = name) ∨ (r = -ENOMEM ∧ 2 ^ 31 ≤ name.length + 1) ∨
      s'.dirFails ≠ [])) := by
  have hmem : n ∈ ({n, d} : Set ℤ) := by simp
  have hmem' : d ∈ ({n, d} : Set ℤ) := by simp
  obtain ⟨r1, s1, hmake, hrest⟩ := linkInode_cases hr
  have hcalm1 : r1 < 0 → Calm s s1 := by
    intro hneg
    rcases hrest with ⟨hr0, -, hremove⟩ | ⟨h0, -⟩
    · exact (hcalm hr0).of_fails (removeInode_fails s1 n _ hremove)
    · omega
  -- the inode itself
  have hinner : Edited s s1 n ∧ ((0 ≤ r1 ∧ s1.dirFails = s.dirFails ∧ (type = iDir → Directory s1 n (newDir n d))) ∨
      (r1 < 0 ∧ s1.dirFails ≠ [])) := by
    rcases hmake with ⟨htype, hempty⟩ | ⟨htype, rfl, rfl⟩
    · obtain ⟨hedit, ⟨rfl, hf, hd1⟩ | hfailed⟩ := createEmptyDir_spec hs hn (hnew htype) hd hcalm1 hempty
      · exact ⟨hedit, Or.inl ⟨le_refl 0, hf, fun _ => hd1⟩⟩
      · exact ⟨hedit, Or.inr hfailed⟩
    · exact ⟨Edited.refl hs n, Or.inl ⟨le_refl 0, rfl, fun hc => absurd hc htype⟩⟩
  obtain ⟨hedit, hmade⟩ := hinner
  have halike : Alike s s1 {n, d} := hedit.alike hmem
  have hdir1 : Directory s1 d es := hdir.still (hedit.still d hd hdn) hedit.grows
  rcases hrest with ⟨hneg, rfl, hremove⟩ | ⟨h1, r2, s2, hadd, hrest⟩
  · refine Or.inr ⟨hneg, dropped_of_remove halike hn hd hdn hdir1 hremove, Or.inr (Or.inr ?_)⟩
    rw [show s'.dirFails = s1.dirFails from removeInode_fails s1 n _ hremove]
    exact hmade.elim (fun hc => absurd hneg (not_lt.2 hc.1)) And.right
  obtain ⟨hf1, hd1⟩ := (hmade.resolve_right fun hc => absurd hc.1 (not_lt.2 h1)).2
  have hn1 := (halike.alloc n).2 hn
  have hcalm2 : r2 < 0 → Calm s1 s2 := by
    intro hneg
    rcases hrest with ⟨hr0, -, hremove⟩ | ⟨h0, -⟩
    · exact ((hcalm hr0).of_fails (removeInode_fails s2 n _ hremove)).of_stack halike.stack
    · omega
  -- the entry in the directory
  obtain ⟨hedit2, hadded⟩ :=
    addDirent_spec halike.sound ((halike.alloc d).2 hd) hdir1 hname (inInt32_of_alloc hs hn) hcalm2 hadd
  have halike2 := halike.trans (hedit2.alike hmem')
  rcases hrest with ⟨hneg, rfl, hremove⟩ | ⟨h2, rfl, s3, s4, hsync, hsync2, hput⟩
  · obtain ⟨-, hd2, hwhy⟩ := hadded.resolve_left fun hc => absurd hneg (not_lt.2 hc.1)
    refine Or.inr ⟨hneg, dropped_of_remove halike2 hn hd hdn hd2 hremove, ?_⟩
    rcases hwhy with ⟨h1, h2, -⟩ | ⟨h1, h2, -⟩ | h1
    · exact Or.inl ⟨h1, h2⟩
    · exact Or.inr (Or.inl ⟨h1, h2⟩)
    · exact Or.inr (Or.inr (by rw [show s'.dirFails = s2.dirFails from removeInode_fails s2 n _ hremove]; exact h1))
  · obtain ⟨-, hf2, es', hadd2, hd2⟩ := hadded.resolve_right fun hc => absurd hc.1 (not_lt.2 h2)
    obtain ⟨hsame3, -⟩ := syncInode_same hedit2.sound ((halike2.alloc d).2 hd) hsync
    obtain ⟨hsame4, -⟩ := syncInode_same hsame3.sound ((hsame3.alloc n).2 ((halike2.alloc n).2 hn)) hsync2
    have hsame := (hsame3.trans hsame4).trans (putInode_same hsame4.sound hput)
    refine Or.inl ⟨rfl, halike2.trans (hsame.alike _), ?_, fun htype => ?_, ⟨es', hadd2, ?_⟩, fun htype => ?_⟩
    · rw [hsame.dirFails, hf2, hf1]
    · exact hsame.directory ((halike2.alloc n).2 hn) ((hd1 htype).still (hedit2.still n hn1 hdn.symm) hedit2.grows)
    · exact hsame.directory ((halike2.alloc d).2 hd) hd2
    · obtain ⟨-, -, rfl⟩ := hmake.resolve_left fun hc => htype hc.1
      exact (hedit2.carries hn1 hdn.symm).trans (hsame.carries n ((halike2.alloc n).2 hn))

/-- a new directory is empty -/
theorem Born.directory (h : Born s s' n iDir) : Directory s' n [] := by
  obtain ⟨i, hi, hdi, -⟩ := h.find
  have hdinode : s'.dinode n = { Dinode.zero with iType := iDir } := by rw [dinode_of_find hi, hdi]
  refine ⟨by rw [hdinode], fun e he => absurd he List.not_mem_nil, by rw [hdinode]; rfl, at_nil _ _, fun b hb => ?_, ?_⟩
  · simp at hb
  · simp

theorem Born.type {type : ℤ} (h : Born s s' n type) : (s'.dinode n).iType = type := by
  obtain ⟨i, hi, hdi, -⟩ := h.find
  rw [dinode_of_find hi, hdi]

/-- an inode that was made and removed again -/
theorem Dropped.alike {s1 : State} {type : ℤ} (h : Dropped s1 s' d n es) (hb : Born s s1 n type) : Alike s s' {d} := by
  obtain ⟨t, halike, hgone⟩ := h.gone
  have hne : ∀ m, s.alloc m → m ≠ n := fun m hm hc => hb.fresh (hc ▸ hm)
  have h1 : ∀ m, s.alloc m → s1.alloc m := fun m hm => (hb.alloc m).2 (Or.inl hm)
  have h2 : ∀ m, s.alloc m → t.alloc m := fun m hm => (halike.alloc m).2 (h1 m hm)
  have hX' : ∀ m, s.alloc m → m ∉ ({d} : Set ℤ) → m ∉ ({n, d} : Set ℤ) := by
    intro m hm hX
    simp only [Set.mem_insert_iff, Set.mem_singleton_iff, not_or]
    exact ⟨hne m hm, hX⟩
  refine ⟨hgone.sound, fun m => ?_, fun m hm => ?_, fun m hm hX => ?_, ?_, ?_, ?_, fun m hm hX => ?_⟩
  · rw [hgone.alloc, halike.alloc, hb.alloc]
    constructor
    · rintro ⟨hm | rfl, hmn⟩
      · exact hm
      · exact absurd rfl hmn
    · intro hm
      exact ⟨Or.inl hm, hne m hm⟩
  · rw [(hgone.still m (h2 m hm) (hne m hm)).type, halike.type m (h1 m hm), (hb.still m hm).type]
  · have hstill := halike.still m (h1 m hm) (hX' m hm hX)
    exact ((hb.still m hm).trans hstill).trans (hgone.still m (h2 m hm) (hne m hm))
  · rw [hgone.curDir, halike.curDir, hb.curDir]
  · rw [hgone.stack, halike.stack, hb.stack]
  · exact (le_of_eq hb.nblocks.symm).trans (halike.grows.trans hgone.nblocks)
  · have hcarries := halike.carries m (h1 m hm) (hX' m hm hX)
    exact ((hb.carries (hne m hm)).trans hcarries).trans (hgone.carries (h2 m hm) (hne m hm))

/-- inode `n` is new, with the entry `name` for it in directory `d` -/
structure Created (s s' : State) (D D' : ℤ → List Dirent) (d n type : ℤ) (name : List UInt8) : Prop where
  graph : Graph s' D'
  fresh : ¬s.alloc n
  alloc : ∀ m, s'.alloc m ↔ s.alloc m ∨ m = n
  isDir : ∀ m, s'.isDir m ↔ s.isDir m ∨ (type = iDir ∧ m = n)
  entry : ∀ a b c, s'.entry D' a b c ↔ s.entry D a b c ∨ (a = d ∧ b = name ∧ c = n) ∨
    (type = iDir ∧ a = n ∧ ((b = dot ∧ c = n) ∨ (b = dotdot ∧ c = d)))
  curDir : s'.curDir = s.curDir
  stack : s'.stack = s.stack
  dirFails : s'.dirFails = s.dirFails
  carries : ∀ m, s.alloc m → m ≠ d → Carries s s' m
  size : type ≠ iDir → (s'.dinode n).iSize = 0 ∧ (s'.diskDinode n).iSize = 0

theorem names_newDir (hn : 0 ≤ n) (hd : 0 ≤ d) {c : ℤ} :
    Names (newDir n d) k c ↔ (k = dot ∧ c = n) ∨ (k = dotdot ∧ c = d) := by
  unfold newDir
  rw [names_cons, names_cons, entryOfName_str zero_notMem_dot, entryOfName_str zero_notMem_dotdot]
  have h1 := entryOfName_live dot hn
  have h2 := entryOfName_live dotdot hd
  simp only [h1, h2, true_and, not_names_nil, or_false]
  simp only [entryOfName, eq_comm]

theorem distinct_newDir : Distinct (newDir n d) := by
  unfold Distinct newDir
  rw [List.pairwise_cons]
  refine ⟨fun x hx _ _ => ?_, List.pairwise_singleton ..⟩
  rw [List.mem_singleton.1 hx, entryOfName_str zero_notMem_dot, entryOfName_str zero_notMem_dotdot]
  decide

theorem Linked.created {s1 : State} {type : ℤ} (h : Linked s1 s' d n type name (D d)) (hb : Born s s1 n type)
    (hg : Graph s D) (hd : s.isDir d) (hname : 0 ∉ name) (hproper : Proper dot dotdot name)
    (hfree : ∀ m, ¬s.entry D d name m) : ∃ D', Created s s' D D' d n type name := by
  obtain ⟨es', hadd, hd'⟩ := h.outer
  have hdn : d ≠ n := fun hc => hb.fresh (hc ▸ hd.1)
  have hne : ∀ m, s.alloc m → m ≠ n := fun m hm hc => hb.fresh (hc ▸ hm)
  have h1 : ∀ m, s.alloc m → s1.alloc m := fun m hm => (hb.alloc m).2 (Or.inl hm)
  have hn1 : s1.alloc n := (hb.alloc n).2 (Or.inr rfl)
  have halloc : ∀ m, s'.alloc m ↔ s.alloc m ∨ m = n := fun m => by rw [h.alike.alloc, hb.alloc]
  have hisDir : ∀ m, s'.isDir m ↔ s.isDir m ∨ (type = iDir ∧ m = n) := by
    intro m
    rw [h.alike.isDir]
    unfold State.isDir
    rw [hb.alloc]
    constructor
    · rintro ⟨hm | rfl, ht⟩
      · exact Or.inl ⟨hm, by rw [← (hb.still m hm).type]; exact ht⟩
      · exact Or.inr ⟨by rw [← hb.type]; exact ht, rfl⟩
    · rintro (⟨hm, ht⟩ | ⟨ht, rfl⟩)
      · exact ⟨Or.inl hm, by rw [(hb.still m hm).type]; exact ht⟩
      · exact ⟨Or.inr rfl, by rw [hb.type]; exact ht⟩
  set D' : ℤ → List Dirent := fun m => if m = d then es' else if m = n then newDir n d else D m with hD'
  have hD'd : D' d = es' := if_pos rfl
  have hD'n : D' n = newDir n d := by rw [hD']; simp only [if_neg hdn.symm, if_pos]
  have hD'o : ∀ m, m ≠ d → m ≠ n → D' m = D m := fun m h1 h2 => by rw [hD']; simp only [if_neg h1, if_neg h2]
  have hlive : (entryOfName name n).live := entryOfName_live name hn1.1
  have hstr := entryOfName_str hname n
  have hentry : ∀ a b c, s'.entry D' a b c ↔ s.entry D a b c ∨ (a = d ∧ b = name ∧ c = n) ∨
      (type = iDir ∧ a = n ∧ ((b = dot ∧ c = n) ∨ (b = dotdot ∧ c = d))) := by
    intro a b c
    unfold State.entry
    rw [hisDir]
    by_cases had : a = d
    · subst had
      rw [hD'd, hadd.names hlive, hstr]
      simp only [hd, true_and, hdn, false_and, and_false, or_false]
      rfl
    · by_cases han : a = n
      · subst han
        rw [hD'n, names_newDir hn1.1 hd.1.1]
        have hnot : ¬s.isDir a := fun hc => hb.fresh hc.1
        simp only [hnot, false_and, false_or, had, true_and, and_true]
      · rw [hD'o a had han]
        simp only [had, han, false_and, and_false, or_false]
  have hnames : ∀ e ∈ D d, e.live → e.str ≠ (entryOfName name n).str := by
    intro e he hl hc
    rw [hstr] at hc
    exact hfree e.dInodeNr ⟨hd, e, he, hl, hc, rfl⟩
  have hX : ∀ m, s.alloc m → m ≠ d → m ∉ ({n, d} : Set ℤ) := by
    intro m hm hmd
    simp only [Set.mem_insert_iff, Set.mem_singleton_iff, not_or]
    exact ⟨hne m hm, hmd⟩
  refine ⟨D', ⟨⟨h.alike.sound, fun m hm => ?_⟩, fun m hm => ?_, ?_, ?_⟩, hb.fresh, halloc, hisDir, hentry, ?_, ?_, ?_,
    fun m hm hmd => ?_, fun ht => ?_⟩
  · rcases (hisDir m).1 hm with hm | ⟨ht, rfl⟩
    · by_cases hmd : m = d
      · rw [hmd, hD'd]
        exact hd'
      · rw [hD'o m hmd (hne m hm.1)]
        exact h.alike.directory (h1 m hm.1) (hX m hm.1 hmd)
          ((hg.directory hm).still (hb.still m hm.1) (le_of_eq hb.nblocks.symm))
    · rw [hD'n]
      exact h.inner ht
  · rcases (hisDir m).1 hm with hm | ⟨ht, rfl⟩
    · by_cases hmd : m = d
      · rw [hmd, hD'd]
        exact hadd.distinct (hg.distinct d hd) hnames
      · rw [hD'o m hmd (hne m hm.1)]
        exact hg.distinct m hm
    · rw [hD'n]
      exact distinct_newDir
  · exact hg.tree.add dot_ne_dotdot hd hproper hfree hb.fresh halloc hisDir hentry
  · rw [h.alike.curDir, hb.curDir]
    exact (hisDir _).2 (Or.inl hg.cur)
  · rw [h.alike.curDir, hb.curDir]
  · rw [h.alike.stack, hb.stack]
  · rw [h.fails, hb.dirFails]
  · exact (hb.carries (hne m hm)).trans (h.alike.carries m (h1 m hm) (hX m hm hmd))
  · obtain ⟨hmem, hdisk⟩ := hb.size hg.sound.core.mem
    exact (h.carries ht).keep (P := fun e => e.iSize = 0) hmem hdisk

theorem Graph.lookup_none (h : Graph s D) (hd : s.isDir d) : Testfs.lookup (D d) k = none ↔ ∀ m, ¬s.entry D d k m := by
  constructor
  · intro hnone m hm
    rw [← h.lookup hd, hnone] at hm
    cases hm
  · intro hno
    cases hl : Testfs.lookup (D d) k with
    | none => rfl
    | some m => exact absurd ((h.lookup hd).1 hl) (hno m)

/-- `.` and `..` are taken in every directory -/
theorem Graph.proper_of_free (h : Graph s D) (hd : s.isDir d) (hfree : ∀ m, ¬s.entry D d k m) :
    Proper dot dotdot k := by
  constructor
  · rintro rfl
    exact hfree d (h.tree.self d hd)
  · rintro rfl
    obtain ⟨p, hp⟩ := h.tree.up d hd
    exact hfree p hp

/-- what `testfs_create_file_or_dir` does in a directory: it refuses the name, or it makes an inode and links it -/
theorem createFileOrDir_cases {type : ℤ} (hr : createFileOrDir s (some d) type name = .ok (r, s')) :
    ∃ nr, dirNameToInodeNr s d name = .ok nr ∧ ((0 ≤ nr ∧ r = -EEXIST ∧ s' = s) ∨ (nr < 0 ∧
      ∃ r1 n s1, createInode s type = .ok (r1, n, s1) ∧ ((r < 0 ∧ r1 = r ∧ s1 = s') ∨
        (0 ≤ r1 ∧ linkInode s1 (some d) type name n = .ok (r, s'))))) := by
  unfold createFileOrDir at hr
  dsimp only at hr
  rw [bind_eq_ok] at hr
  obtain ⟨nr, hlook, hr⟩ := hr
  refine ⟨nr, hlook, ?_⟩
  by_cases h0 : 0 ≤ nr
  · rw [if_pos h0] at hr
    cases hr
    exact Or.inl ⟨h0, rfl, rfl⟩
  rw [if_neg h0, bind_eq_ok] at hr
  obtain ⟨⟨r1, n, s1⟩, hcreate, hr⟩ := hr
  dsimp only at hr
  refine Or.inr ⟨not_le.1 h0, r1, n, s1, hcreate, ?_⟩
  by_cases h1 : r1 < 0
  · rw [if_pos h1] at hr
    cases hr
    exact Or.inl ⟨h1, rfl, rfl⟩
  · rw [if_neg h1] at hr
    exact Or.inr ⟨not_lt.1 h1, hr⟩

/-- the directories around a new inode -/
theorem Born.around {type : ℤ} (hb : Born s s1 n type) (hg : Graph s D) (hd : s.isDir d) :
    s1.alloc n ∧ s1.alloc d ∧ d ≠ n ∧ (type = iDir → Directory s1 n []) ∧ Directory s1 d (D d) := by
  refine ⟨(hb.alloc n).2 (Or.inr rfl), (hb.alloc d).2 (Or.inl hd.1), fun hc => hb.fresh (hc ▸ hd.1), ?_,
    (hg.directory hd).still (hb.still d hd.1) (le_of_eq hb.nblocks.symm)⟩
  rintro rfl
  exact hb.directory

/-- **`testfs_create_file_or_dir`.** -/
theorem createFileOrDir_spec {type : ℤ} (hg : Graph s D) (hd : s.isDir d) (htype : type = iFile ∨ type = iDir)
    (hname : 0 ∉ name) (hcalm : r < 0 → Calm s s') (hr : createFileOrDir s (some d) type name = .ok (r, s')) :
    (r = -EEXIST ∧ s' = s ∧ ∃ m, s.entry D d name m) ∨
      ((∀ m, ¬s.entry D d name m) ∧
        ((r < 0 ∧ Graph s' D ∧ Alike s s' {d} ∧
            ((r = -ENOSPC ∧ Same s s') ∨ (r = -ENOMEM ∧ 2 ^ 31 ≤ name.length + 1) ∨ s'.dirFails ≠ [])) ∨
          (r = 0 ∧ ∃ n D', Created s s' D D' d n type name))) := by
  obtain ⟨nr, hlook, hrest⟩ := createFileOrDir_cases hr
  obtain ⟨-, hnr⟩ := dirNameToInodeNr_eq (hg.directory hd) (hg.pos hd.1) hlook
  cases hl : Testfs.lookup (D d) name with
  | some m =>
    left
    have hentry := (hg.lookup hd).1 hl
    rw [hl, Option.getD_some] at hnr
    have h0 : 0 ≤ nr := hnr ▸ names_nonneg hentry.2
    obtain ⟨-, rfl, rfl⟩ := hrest.resolve_right fun hc => absurd hc.1 (not_lt.2 h0)
    exact ⟨rfl, rfl, m, hentry⟩
  | none =>
    right
    have hfree := (hg.lookup_none hd).1 hl
    refine ⟨hfree, ?_⟩
    rw [hl, Option.getD_none] at hnr
    obtain ⟨-, r1, n, s1, hcreate, hlink⟩ := hrest.resolve_left fun hc => absurd hc.1 (by rw [hnr]; decide)
    rcases createInode_spec hg.sound htype hcreate with ⟨rfl, hsame⟩ | ⟨rfl, hborn⟩
    · left
      obtain ⟨hneg, rfl, rfl⟩ := hlink.resolve_right fun hc => absurd hc.1 (by decide)
      exact ⟨hneg, hg.same hsame, hsame.alike _, Or.inl ⟨rfl, hsame⟩⟩
    · obtain ⟨-, hr⟩ := hlink.resolve_left fun hc => by
        obtain ⟨hneg, rfl, -⟩ := hc
        exact absurd hneg (lt_irrefl 0)
      obtain ⟨hn1, hd1, hdn, hnew, hdir1⟩ := hborn.around hg hd
      have hcalm1 : r < 0 → Calm s1 s' := fun hneg => (hcalm hneg).of_stack hborn.stack
      rcases linkInode_spec hborn.sound hn1 hd1 hdn hnew hdir1 hname hcalm1 hr
        with ⟨rfl, hlinked⟩ | ⟨hneg, hdropped, hwhy⟩
      · obtain ⟨D', hcreated⟩ := hlinked.created hborn hg hd hname (hg.proper_of_free hd hfree) hfree
        exact Or.inr ⟨rfl, n, D', hcreated⟩
      · left
        have halike := hdropped.alike hborn
        refine ⟨hneg, hg.alike halike fun m hm _ => ?_, halike, ?_⟩
        · rw [Set.mem_singleton_iff.1 hm]
          exact hdropped.outer
        · rcases hwhy with ⟨-, e, he, hlive, hstr⟩ | hlong | hfails
          · exact absurd ⟨hd, e, he, hlive, hstr, rfl⟩ (hfree e.dInodeNr)
          · exact Or.inr (Or.inl hlong)
          · exact Or.inr (Or.inr hfails)

/-! ## `rm` -/

/-- inode `n` is gone, and the entry `name` for it in directory `d` -/
structure Deleted (s s' : State) (D D' : ℤ → List Dirent) (d n : ℤ) (name : List UInt8) : Prop where
  graph : Graph s' D'
  was : s.entry D d name n
  alloc : ∀ m, s'.alloc m ↔ s.alloc m ∧ m ≠ n
  isDir : ∀ m, s'.isDir m ↔ s.isDir m ∧ m ≠ n
  entry : ∀ a b c, s'.entry D' a b c ↔ s.entry D a b c ∧ a ≠ n ∧ ¬(a = d ∧ b = name)
  curDir : s'.curDir = s.curDir
  stack : s'.stack = s.stack
  dirFails : s'.dirFails = s.dirFails
  carries : ∀ m, s.alloc m → m ≠ d → m ≠ n → Carries s s' m

/-- the entry for inode `n` was removed, and then the inode -/
theorem Graph.deleted {s1 s2 s3 : State} (hg : Graph s D) (hd : s.isDir d)
    (hes : D d = pre ++ e :: post) (hlive : e.live) (hproper : Proper dot dotdot e.str)
    (hbare : (s.dinode e.dInodeNr).iType = iDir → Bare (D e.dInodeNr)) (hcur : d = s.curDir) (h1 : Alike s s1 {d})
    (hd1 : Directory s1 d (pre ++ e.dead :: post)) (h2 : Gone s1 s2 e.dInodeNr) (h3 : Same s2 s3)
    (hf : s3.dirFails = s.dirFails) : ∃ D', Deleted s s3 D D' d e.dInodeNr e.str := by
  have hwas : s.entry D d e.str e.dInodeNr := ⟨hd, e, by rw [hes]; simp, hlive, rfl, rfl⟩
  have hdn : d ≠ e.dInodeNr := hg.tree.ne_of_proper hproper hwas
  have h1a : ∀ m, s.alloc m → s1.alloc m := fun m hm => (h1.alloc m).2 hm
  have h2a : ∀ m, s.alloc m → m ≠ e.dInodeNr → s2.alloc m := fun m hm hmn => (h2.alloc m).2 ⟨h1a m hm, hmn⟩
  have halloc : ∀ m, s3.alloc m ↔ s.alloc m ∧ m ≠ e.dInodeNr := fun m => by rw [h3.alloc, h2.alloc, h1.alloc]
  have htype : ∀ m, s.alloc m → m ≠ e.dInodeNr → (s3.dinode m).iType = (s.dinode m).iType := by
    intro m hm hmn
    rw [(h3.still m (h2a m hm hmn)).type, (h2.still m (h1a m hm) hmn).type, h1.type m hm]
  have hisDir : ∀ m, s3.isDir m ↔ s.isDir m ∧ m ≠ e.dInodeNr := by
    intro m
    unfold State.isDir
    rw [halloc]
    constructor
    · rintro ⟨⟨hm, hmn⟩, ht⟩
      exact ⟨⟨hm, by rw [← htype m hm hmn]; exact ht⟩, hmn⟩
    · rintro ⟨⟨hm, ht⟩, hmn⟩
      exact ⟨⟨hm, hmn⟩, by rw [htype m hm hmn]; exact ht⟩
  have hdist : Distinct (pre ++ e :: post) := hes ▸ hg.distinct d hd
  set D' : ℤ → List Dirent := fun m => if m = d then pre ++ e.dead :: post else D m with hD'
  have hD'd : D' d = pre ++ e.dead :: post := if_pos rfl
  have hD'o : ∀ m, m ≠ d → D' m = D m := fun m hm => if_neg hm
  have hentry : ∀ a b c, s3.entry D' a b c ↔ s.entry D a b c ∧ a ≠ e.dInodeNr ∧ ¬(a = d ∧ b = e.str) := by
    intro a b c
    unfold State.entry
    rw [hisDir]
    by_cases had : a = d
    · subst had
      rw [hD'd, names_dead hdist hlive, hes]
      tauto
    · rw [hD'o a had]
      tauto
  have hno : ∀ b c, Proper dot dotdot b → ¬s.entry D e.dInodeNr b c := by
    rintro b c hb ⟨hdir, x, hx, hl, rfl, rfl⟩
    rcases hbare hdir.2 x hx hl with hstr | hstr
    · exact hb.1 hstr
    · exact hb.2 hstr
  have hcur' : s3.curDir = s.curDir := by rw [h3.curDir, h2.curDir, h1.curDir]
  refine ⟨D',
    ⟨⟨h3.sound, fun m hm => ?_⟩, fun m hm => ?_, hg.tree.remove hproper hwas hno halloc hisDir hentry, ?_⟩, hwas,
    halloc, hisDir, hentry, hcur', ?_, hf, fun m hm hmd hmn => ?_⟩
  · obtain ⟨hm, hmn⟩ := (hisDir m).1 hm
    refine h3.directory (h2a m hm.1 hmn) (h2.directory (h1a m hm.1) hmn ?_)
    by_cases hmd : m = d
    · rw [hmd, hD'd]
      exact hd1
    · rw [hD'o m hmd]
      exact h1.directory hm.1 hmd (hg.directory hm)
  · obtain ⟨hm, hmn⟩ := (hisDir m).1 hm
    by_cases hmd : m = d
    · rw [hmd, hD'd]
      exact distinct_dead hdist
    · rw [hD'o m hmd]
      exact hg.distinct m hm
  · rw [hcur', ← hcur]
    exact (hisDir d).2 ⟨hd, hdn⟩
  · rw [h3.stack, h2.stack, h1.stack]
  · exact ((h1.carries m hm hmd).trans (h2.carries (h1a m hm) hmn)).trans (h3.carries m (h2a m hm hmn))

/-- what `rm` does: it takes the entry away, and then the inode -/
theorem cmdRm_cases (hr : cmdRm s name = .ok (r, s')) :
    ∃ nr s1, removeDirent s s.curDir name = .ok (nr, s1) ∧ ((nr < 0 ∧ r = nr ∧ s' = s1) ∨ (0 ≤ nr ∧ r = 0 ∧
      ∃ s2 s3, getInode s1 nr = .ok s2 ∧ removeInode s2 nr = .ok s3 ∧ syncInode s3 s3.curDir = .ok s')) := by
  unfold cmdRm at hr
  rw [bind_eq_ok] at hr
  obtain ⟨⟨nr, s1⟩, hrm, hr⟩ := hr
  dsimp only at hr
  refine ⟨nr, s1, hrm, ?_⟩
  by_cases h0 : nr < 0
  · rw [if_pos h0] at hr
    cases hr
    exact Or.inl ⟨h0, rfl, rfl⟩
  rw [if_neg h0, bind_eq_ok] at hr
  obtain ⟨s2, hget, hr⟩ := hr
  rw [bind_eq_ok] at hr
  obtain ⟨s3, hremove, hr⟩ := hr
  rw [bind_eq_ok] at hr
  obtain ⟨s4, hsync, hr⟩ := hr
  cases hr
  exact Or.inr ⟨not_lt.1 h0, rfl, s2, s3, hget, hremove, hsync⟩

/-- **`rm`.** -/
theorem cmdRm_spec (hg : Graph s D) (hjunk : r < 0 → (∀ j, s.stack j = 0) ∨ s'.dirFails = [])
    (hr : cmdRm s name = .ok (r, s')) :
    (r = -EINVAL ∧ s' = s ∧ (name = dot ∨ name = dotdot)) ∨
      (Proper dot dotdot name ∧ ((r = -ENOENT ∧ s' = s ∧ ∀ m, ¬s.entry D s.curDir name m) ∨
        (∃ n, s.entry D s.curDir name n ∧
          ((r = -ENOTEMPTY ∧ Same s s' ∧ s.isDir n ∧ ¬Bare (D n)) ∨
          (r = 0 ∧ ∃ D', Deleted s s' D D' s.curDir n name))))) := by
  have hd := hg.cur
  obtain ⟨nr, s1, hrm, hrest⟩ := cmdRm_cases hr
  have hearly : nr < 0 → r = nr ∧ s' = s1 := fun hneg => (hrest.resolve_right fun hc => absurd hc.1 (not_le.2 hneg)).2
  have hjunk1 : nr < 0 → (∀ j, s.stack j = 0) ∨ s1.dirFails = [] := by
    intro hneg
    obtain ⟨rfl, rfl⟩ := hearly hneg
    exact hjunk hneg
  rcases removeDirent_spec (D := D) hg.sound hd.1 (hg.directory hd) (fun e he hl => hg.alloc_of_live hd he hl)
    (fun m hm ht => hg.directory ⟨hm, ht⟩) hjunk1 hrm with ⟨rfl, rfl, hdots⟩ | ⟨hdot, hdotdot, hcases⟩
  · obtain ⟨rfl, rfl⟩ := hearly (by decide)
    exact Or.inl ⟨rfl, rfl, hdots⟩
  right
  refine ⟨⟨hdot, hdotdot⟩, ?_⟩
  rcases hcases with ⟨rfl, rfl, hnone⟩ | ⟨pre, e, post, hes, hlive, hstr, -, hend⟩
  · left
    obtain ⟨rfl, rfl⟩ := hearly (by decide)
    refine ⟨rfl, rfl, ?_⟩
    rintro m ⟨-, e, he, hl, hk, -⟩
    exact hnone e he hl hk
  · right
    subst hstr
    have hmem : e ∈ D s.curDir := by rw [hes]; simp
    refine ⟨e.dInodeNr, ⟨hd, e, hmem, hlive, rfl, rfl⟩, ?_⟩
    rcases hend with ⟨rfl, hsame, ht, hnot⟩ | ⟨rfl, hbare, hf1, t, hsame, hedit, hd1, -⟩
    · obtain ⟨rfl, rfl⟩ := hearly (by decide)
      exact Or.inl ⟨rfl, hsame, ⟨hg.alloc_of_live hd hmem hlive, ht⟩, hnot⟩
    · right
      have hn := hg.alloc_of_live hd hmem hlive
      obtain ⟨h0, hlt⟩ := mem_range hg.sound.core.mem hn
      obtain ⟨-, rfl, s2, s3, hget, hremove, hsync⟩ := hrest.resolve_left fun hc => absurd hc.1 (not_lt.2 h0)
      have h1 : Alike s s1 {s.curDir} := (hsame.alike _).trans (hedit.alike (Set.mem_singleton _))
      obtain ⟨hsame2, -⟩ := getInode_same hedit.sound h0 hlt hget
      have h2 : Alike s s2 {s.curDir} := h1.trans (hsame2.alike _)
      have hgone := removeInode_spec h2.sound ((h2.alloc _).2 hn) hremove
      have hdn : s.curDir ≠ e.dInodeNr :=
        hg.tree.ne_of_proper ⟨hdot, hdotdot⟩ ⟨hd, e, hmem, hlive, rfl, rfl⟩
      have hcur3 : s3.curDir = s.curDir := by rw [hgone.curDir, h2.curDir]
      have hd3 : s3.alloc s.curDir := (hgone.alloc _).2 ⟨(h2.alloc _).2 hd.1, hdn⟩
      rw [hcur3] at hsync
      obtain ⟨hsame4, -⟩ := syncInode_same hgone.sound hd3 hsync
      have hd2 := hsame2.directory ((h1.alloc _).2 hd.1) hd1
      refine ⟨rfl, hg.deleted hd hes hlive ⟨hdot, hdotdot⟩ hbare rfl h2 hd2 hgone hsame4 ?_⟩
      rw [hsame4.dirFails, hgone.dirFails, hsame2.dirFails, hf1]

end OsLab.Testfs
