/-
References to in-memory inodes.

`testfs_get_inode` takes a reference and `testfs_put_inode` gives it back. `Balanced s c` says that the hash table has
no number twice and that `c` counts the references to each inode. The changes by which no inode enters or leaves memory
leave the counts alone (`Quiet`); the functions of `dir.c` and `file.c` give back what they take. One path does not:
`ls` of a regular file returns `-ENOTDIR` without `testfs_put_inode` (`ls_keeps_reference`).

`references_balance`: in every run in which no `ls` or `lsr` names a regular file, after every command the table holds
the current directory, once referenced, and nothing else.
-/
import Mathlib.Tactic
import OsLab.Lib.Run
import OsLab.Testfs.Moves

namespace OsLab.Testfs

open OsLab.Lib State
open Function (update update_self update_of_ne update_idem update_eq_self)

/-- the inodes in memory, with their reference counts -/
def State.refs (s : State) : List (ℤ × ℤ) := s.hash.map fun i => (i.iNr, i.iCount)

/-- the references to inode `nr` -/
def State.count (s : State) (nr : ℤ) : ℤ :=
  match s.find nr with
  | some i => i.iCount
  | none => 0

/-- no inode enters or leaves memory, no reference is taken or given back -/
structure Quiet (s s' : State) : Prop where
  refs : s'.refs = s.refs
  curDir : s'.curDir = s.curDir
  loads : s'.loads = s.loads

/-- no inode is twice in memory, and `c` counts the references -/
structure Balanced (s : State) (c : ℤ → ℤ) : Prop where
  nodup : (s.hash.map Inode.iNr).Nodup
  pos : ∀ i ∈ s.hash, 1 ≤ i.iCount
  loads : ∀ l ∈ s.loads, l.Nodup
  count : ∀ nr, s.count nr = c nr

theorem Quiet.refl (s : State) : Quiet s s := ⟨rfl, rfl, rfl⟩

theorem Quiet.trans {s t u : State} (h1 : Quiet s t) (h2 : Quiet t u) : Quiet s u :=
  ⟨h2.refs.trans h1.refs, h2.curDir.trans h1.curDir, h2.loads.trans h1.loads⟩

theorem find_refs (s : State) (nr : ℤ) :
    s.refs.find? (fun p => p.1 = nr) = (s.find nr).map fun i => (i.iNr, i.iCount) := by
  simp only [State.refs, State.find, List.find?_map, Function.comp_def]

theorem Quiet.count {s s' : State} (h : Quiet s s') (nr : ℤ) : s'.count nr = s.count nr := by
  have hfind := find_refs s' nr
  rw [h.refs, find_refs s nr] at hfind
  unfold State.count
  cases hs : s.find nr with
  | none =>
    cases hs' : s'.find nr with
    | none => rfl
    | some i => rw [hs, hs'] at hfind; cases hfind
  | some i =>
    cases hs' : s'.find nr with
    | none => rw [hs, hs'] at hfind; cases hfind
    | some j =>
      rw [hs, hs'] at hfind
      simp only [Option.map_some, Option.some.injEq, Prod.mk.injEq] at hfind
      exact hfind.2.symm

theorem nrs_refs (s : State) : s.hash.map Inode.iNr = s.refs.map Prod.fst := by
  simp [State.refs, List.map_map, Function.comp_def]

theorem Quiet.balanced {s s' : State} {c : ℤ → ℤ} (h : Quiet s s') (hb : Balanced s c) : Balanced s' c where
  nodup := by rw [nrs_refs, h.refs, ← nrs_refs]; exact hb.nodup
  pos i hi := by
    have hmem : (i.iNr, i.iCount) ∈ s.refs := by
      rw [← h.refs]; exact List.mem_map.2 ⟨i, hi, rfl⟩
    obtain ⟨j, hj, heq⟩ := List.mem_map.1 hmem
    have := hb.pos j hj
    simp only [Prod.mk.injEq] at heq
    omega
  loads := by rw [h.loads]; exact hb.loads
  count nr := by rw [h.count]; exact hb.count nr

/-! ## Functions that take no reference -/

section

variable {s : State}

theorem quiet_modify (s : State) (nr : ℤ) {f : Inode → Inode} (hf : ∀ i, (f i).iNr = i.iNr ∧ (f i).iCount = i.iCount) :
    Quiet s (s.modify nr f) := by
  refine ⟨?_, rfl, rfl⟩
  simp only [State.refs, State.modify, List.map_map]
  refine List.map_congr_left fun i _ => ?_
  simp only [Function.comp]
  split
  · rw [(hf i).1, (hf i).2]
  · rfl

theorem writeBlocks_quiet (s : State) (block : Mem) (start : ℤ) : Post (writeBlocks s block start) (Quiet s) := by
  unfold writeBlocks
  exact Post.ite (fun _ => Post.ok ⟨rfl, rfl, rfl⟩) fun _ => Post.error

theorem getBlockFreemap_quiet (s : State) : Post (getBlockFreemap s) fun r => Quiet s r.2 := by
  unfold getBlockFreemap
  refine Post.bind Post.trivial fun r _ => ?_
  cases r with
  | none => exact Post.pure (Quiet.refl s)
  | some r => exact Post.pure ⟨rfl, rfl, rfl⟩

theorem getInodeFreemap_quiet (s : State) : Post (getInodeFreemap s) fun r => Quiet s r.2 := by
  unfold getInodeFreemap
  refine Post.bind Post.trivial fun r _ => ?_
  cases r with
  | none => exact Post.pure (Quiet.refl s)
  | some r => exact Post.pure ⟨rfl, rfl, rfl⟩

theorem putBlockFreemap_quiet (s : State) (blockNr : ℕ) : Post (putBlockFreemap s blockNr) (Quiet s) := by
  unfold putBlockFreemap
  exact Post.bind Post.trivial fun b _ => Post.pure ⟨rfl, rfl, rfl⟩

theorem putInodeFreemap_quiet (s : State) (inodeNr : ℤ) : Post (putInodeFreemap s inodeNr) (Quiet s) := by
  unfold putInodeFreemap
  refine Post.bind Post.trivial fun b _ => ?_
  exact Post.ite (fun _ => Post.pure ⟨rfl, rfl, rfl⟩) fun _ => Post.throw

theorem allocBlock_quiet (s : State) : Post (allocBlock s) fun r => Quiet s r.2 := by
  unfold allocBlock
  refine Post.ite (fun _ => Post.pure (Quiet.refl s)) fun _ => ?_
  refine (getBlockFreemap_quiet s).bind fun r h1 => ?_
  exact Post.ite (fun _ => Post.pure h1) fun _ => Post.pure (h1.trans ⟨rfl, rfl, rfl⟩)

theorem freeBlock_quiet (s : State) (blockNr : ℤ) : Post (freeBlock s blockNr) (Quiet s) := by
  unfold freeBlock
  refine (writeBlocks_quiet s zeroMem blockNr).bind fun s1 h1 => ?_
  refine Post.ite (fun _ => Post.throw) fun _ => ?_
  refine (putBlockFreemap_quiet s1 _).bind fun s2 h2 => ?_
  exact Post.ite (fun _ => Post.pure ((h1.trans h2).trans ⟨rfl, rfl, rfl⟩)) fun _ => Post.throw

theorem Prim.quiet {s s' : State} (h : Prim false s s') : Quiet s s' := by
  cases h with
  | modify _ nr f hf => exact quiet_modify s nr hf
  | write start block _ => exact ⟨rfl, rfl, rfl⟩
  | allocBlock h => exact allocBlock_quiet s _ h
  | freeBlock h => exact freeBlock_quiet s _ _ h
  | getInodeFreemap h => exact getInodeFreemap_quiet s _ h
  | putInodeFreemap h => exact putInodeFreemap_quiet s _ _ h
  | stack f => exact ⟨rfl, rfl, rfl⟩
  | fails l => exact ⟨rfl, rfl, rfl⟩
  | print p => exact ⟨rfl, rfl, rfl⟩

theorem Moves.quiet {s s' : State} (h : Moves false s s') : Quiet s s' :=
  h.inv (fun _ _ hp hq => hq.trans hp.quiet) (Quiet.refl s)

/-! ## Taking and giving back a reference -/

theorem find_eraseP {l : List Inode} {nr : ℤ} (hnodup : (l.map Inode.iNr).Nodup) (m : ℤ) :
    (l.eraseP fun i => i.iNr = nr).find? (fun i => i.iNr = m) = if m = nr then none else l.find? fun i =>
    i.iNr = m := by
  induction l with
  | nil => simp
  | cons i l ih =>
    rw [List.map_cons, List.nodup_cons] at hnodup
    obtain ⟨hnot, hrest⟩ := hnodup
    by_cases hi : i.iNr = nr
    · rw [List.eraseP_cons_of_pos (by simpa using hi)]
      by_cases hm : m = nr
      · rw [if_pos hm, List.find?_eq_none]
        intro j hj hjm
        have hjm' : j.iNr = m := by simpa using hjm
        exact hnot (List.mem_map.2 ⟨j, hj, by rw [hjm', hm, hi]⟩)
      · have him : ¬ i.iNr = m := fun hc => hm (by rw [← hc, hi])
        rw [if_neg hm, List.find?_cons_of_neg (by simpa using him)]
    · rw [List.eraseP_cons_of_neg (by simpa using hi)]
      by_cases him : i.iNr = m
      · have hm : m ≠ nr := fun hc => hi (by rw [him, hc])
        rw [List.find?_cons_of_pos (by simpa using him), List.find?_cons_of_pos (by simpa using him), if_neg hm]
      · rw [List.find?_cons_of_neg (by simpa using him), List.find?_cons_of_neg (by simpa using him), ih hrest]

theorem find_iNr_eq {l : List Inode} {nr : ℤ} {i : Inode} (h : l.find? (fun i => i.iNr = nr) = some i) :
    i.iNr = nr := by
  simpa using List.find?_some h

/-- the counts after a change of the count of one inode -/
theorem balanced_modify {c : ℤ → ℤ} {nr k : ℤ} {i : Inode} (hb : Balanced s c) (hi : s.find nr = some i)
    (hk : 1 ≤ i.iCount + k) :
    Balanced (s.modify nr fun i => { i with iCount := i.iCount + k }) (update c nr (c nr + k)) := by
  have hfind : ∀ m, (s.modify nr fun i => { i with iCount := i.iCount + k }).find m =
      (s.find m).map fun i => if i.iNr = nr then { i with iCount := i.iCount + k } else i := by
    intro m
    simp only [State.find, State.modify, List.find?_map]
    congr 1
    refine congrArg (fun p => List.find? p s.hash) (funext fun j => ?_)
    simp only [Function.comp]
    split <;> rfl
  have hci : c nr = i.iCount := by rw [← hb.count nr]; simp [State.count, hi]
  refine ⟨?_, ?_, hb.loads, ?_⟩
  · have hmap : (s.modify nr fun i => { i with iCount := i.iCount + k }).hash.map Inode.iNr = s.hash.map Inode.iNr := by
      simp only [State.modify, List.map_map]
      refine List.map_congr_left fun j _ => ?_
      simp only [Function.comp]
      split <;> rfl
    rw [hmap]; exact hb.nodup
  · intro j hj
    obtain ⟨j0, hj0, rfl⟩ := List.mem_map.1 hj
    split
    · next hnr =>
      -- the number occurs once, so this is `i`
      have heq : j0 = i := by
        have hmem := List.mem_of_find?_eq_some hi
        exact List.inj_on_of_nodup_map hb.nodup hj0 hmem (hnr.trans (find_iNr_eq hi).symm)
      rw [heq]; exact hk
    · exact hb.pos j0 hj0
  · intro m
    unfold State.count
    rw [hfind m]
    by_cases hm : m = nr
    · subst hm
      rw [hi, update_self, hci]
      simp [find_iNr_eq hi]
    · rw [update_of_ne hm]
      have hcount := hb.count m
      unfold State.count at hcount
      cases hj : s.find m with
      | none => rw [hj] at hcount; exact hcount
      | some j =>
        have hjm : j.iNr ≠ nr := by rw [find_iNr_eq hj]; exact hm
        rw [hj] at hcount
        simpa [hjm] using hcount

theorem getInode_balanced {c : ℤ → ℤ} (hb : Balanced s c) (nr : ℤ) :
    Post (getInode s nr) fun s' => Balanced s' (update c nr (c nr + 1)) ∧ s'.curDir = s.curDir := by
  unfold getInode
  cases hi : s.find nr with
  | some i =>
    have hpos := hb.pos i (List.mem_of_find?_eq_some hi)
    exact Post.pure ⟨balanced_modify hb hi (by omega), rfl⟩
  | none =>
    refine Post.bind Post.trivial fun block _ => ?_
    have hnot : nr ∉ s.hash.map Inode.iNr := by
      intro hmem
      obtain ⟨j, hj, hjnr⟩ := List.mem_map.1 hmem
      have := List.find?_eq_none.1 hi j hj
      simp [hjnr] at this
    have hc : c nr = 0 := by rw [← hb.count nr]; simp [State.count, hi]
    refine Post.pure ⟨⟨?_, ?_, ?_, ?_⟩, rfl⟩
    · exact List.nodup_cons.2 ⟨hnot, hb.nodup⟩
    · intro j hj
      rcases List.mem_cons.1 hj with rfl | hj
      · exact le_rfl
      · exact hb.pos j hj
    · intro l hl
      rcases List.mem_append.1 hl with hl | hl
      · exact hb.loads l hl
      · rw [List.mem_singleton.1 hl]
        exact List.nodup_cons.2 ⟨hnot, hb.nodup⟩
    · intro m
      unfold State.count State.find
      by_cases hm : m = nr
      · subst hm
        rw [List.find?_cons_of_pos (by simp), update_self, hc]
        rfl
      · rw [List.find?_cons_of_neg (by simpa using Ne.symm hm), update_of_ne hm]
        exact hb.count m

theorem putInode_balanced {c : ℤ → ℤ} (hb : Balanced s c) (nr : ℤ) :
    Post (putInode s nr) fun s' => Balanced s' (update c nr (c nr - 1)) ∧ s'.curDir = s.curDir := by
  unfold putInode State.deref
  cases hi : s.find nr with
  | none => exact Post.error
  | some i =>
    refine Post.ite (fun _ => Post.throw) fun _ => ?_
    have hpos := hb.pos i (List.mem_of_find?_eq_some hi)
    have hc : c nr = i.iCount := by rw [← hb.count nr]; simp [State.count, hi]
    refine Post.ite (fun hzero => ?_) fun hzero => ?_
    · refine Post.pure ⟨⟨?_, ?_, hb.loads, ?_⟩, rfl⟩
      · exact hb.nodup.sublist (List.eraseP_sublist.map _)
      · exact fun j hj => hb.pos j (List.mem_of_mem_eraseP hj)
      · intro m
        unfold State.count State.find
        rw [find_eraseP hb.nodup]
        by_cases hm : m = nr
        · subst hm
          rw [if_pos rfl, update_self]
          simp only; omega
        · rw [if_neg hm, update_of_ne hm]
          exact hb.count m
    · have hmod := balanced_modify (k := -1) hb hi (by omega)
      exact Post.pure ⟨hmod, rfl⟩

/-! ## Functions that give back what they take -/

/-- the state after has the references `c` and the same current directory -/
def Back (c : ℤ → ℤ) (dir : ℤ) (s' : State) : Prop := Balanced s' c ∧ s'.curDir = dir

variable {c : ℤ → ℤ} {dir : ℤ}

theorem Back.quiet {s s' : State} (h : Back c dir s) (hq : Quiet s s') : Back c dir s' :=
  ⟨hq.balanced h.1, hq.curDir.trans h.2⟩

theorem Back.moves {s s' : State} (h : Back c dir s) (hm : Moves false s s') : Back c dir s' := h.quiet hm.quiet

theorem Back.get (h : Back c dir s) (nr : ℤ) : Post (getInode s nr) (Back (update c nr (c nr + 1)) dir) :=
  (getInode_balanced h.1 nr).mono fun _ h1 => ⟨h1.1, h1.2.trans h.2⟩

/-- the reference taken last is given back -/
theorem Back.put {nr : ℤ} (h : Back (update c nr (c nr + 1)) dir s) : Post (putInode s nr) (Back c dir) := by
  refine (putInode_balanced h.1 nr).mono fun s' h1 => ⟨?_, h1.2.trans h.2⟩
  have hc : update (update c nr (c nr + 1)) nr (update c nr (c nr + 1) nr - 1) = c := by
    rw [update_self, update_idem, show c nr + 1 - 1 = c nr by ring, update_eq_self]
  rw [← hc]; exact h1.1

theorem removeDirentAllowed_back (h : Back c dir s) (inodeNr : ℤ) :
    Post (removeDirentAllowed s inodeNr) fun r => Back c dir r.2 := by
  unfold removeDirentAllowed
  refine (h.get inodeNr).bind fun s1 h1 => ?_
  refine Post.bind Post.trivial fun i _ => ?_
  refine Post.ite (fun _ => ?_) fun _ => ?_
  · refine Post.bind Post.trivial fun ret _ => ?_
    exact h1.put.bind fun s2 h2 => Post.pair h2
  · refine Post.bind Post.trivial fun r _ => ?_
    refine Post.bind Post.trivial fun ret _ => ?_
    exact h1.put.bind fun s2 h2 => Post.pair h2

theorem removeDirent_back (h : Back c dir s) (d : ℤ) (name : List UInt8) :
    Post (removeDirent s d name) fun r => Back c dir r.2 := by
  unfold removeDirent
  refine Post.ite (fun _ => Post.pair h) fun _ => ?_
  refine Post.bind Post.trivial fun r _ => ?_
  obtain ⟨found, offset⟩ := r
  cases found with
  | none => exact Post.pair h
  | some e =>
    refine (removeDirentAllowed_back h e.dInodeNr).bind fun r1 h1 => ?_
    refine Post.ite (fun _ => Post.pair h1) fun _ => ?_
    refine (writeDir_moves false r1.2 d _ offset).bind fun r2 h2 => ?_
    exact Post.ite (fun _ => Post.pair (h1.moves h2)) fun _ => Post.pair (h1.moves h2)

theorem createEmptyDir_back (h : Back c dir s) (pInodeNr cdir : ℤ) :
    Post (createEmptyDir s pInodeNr cdir) fun r => Back c dir r.2 := by
  unfold createEmptyDir
  refine Post.bind Post.trivial fun i _ => ?_
  refine Post.ite (fun _ => Post.throw) fun _ => ?_
  refine (addDirent_moves false s cdir dot cdir).bind fun r1 h1 => ?_
  refine Post.ite (fun _ => Post.pair (h.moves h1)) fun _ => ?_
  refine (addDirent_moves false r1.2 cdir dotdot pInodeNr).bind fun r2 h2 => ?_
  refine Post.ite (fun _ => ?_) fun _ => Post.pair ((h.moves h1).moves h2)
  exact (removeDirent_back ((h.moves h1).moves h2) cdir dot).bind fun r3 h3 => Post.pair h3

theorem removeInode_back {nr : ℤ} (h : Back (update c nr (c nr + 1)) dir s) : Post (removeInode s nr) (Back c dir) := by
  unfold removeInode
  refine (freeBlocks_moves false s nr).bind fun s1 h1 => ?_
  refine Post.bind Post.trivial fun i _ => ?_
  refine Post.ite (fun _ => Post.throw) fun _ => ?_
  have h2 := h1.trans ((moves_setDinode false s1 nr fun _ => Dinode.zero).trans (moves_setDirty false _ nr))
  refine (putInodeFreemap_moves false _ nr).bind fun s3 h3 => ?_
  refine (syncInode_moves false s3 nr).bind fun s4 h4 => ?_
  exact (h.moves ((h2.trans h3).trans h4)).put

theorem linkInode_back {nr : ℤ} (h : Back (update c nr (c nr + 1)) dir s) (d : Option ℤ)
    (type : ℤ) (name : List UInt8) :
    Post (linkInode s d type name nr) fun r => Back c dir r.2 := by
  have hput : ∀ t, Back (update c nr (c nr + 1)) dir t →
      Post (do let s ← syncInode t nr; let s ← putInode s nr; return ((0 : ℤ), s)) fun r => Back c dir r.2 := by
    intro t ht
    refine (syncInode_moves false t nr).bind fun s1 h1 => ?_
    exact (ht.moves h1).put.bind fun s2 h2 => Post.pair h2
  unfold linkInode
  refine Post.ite_bind (fun _ => createEmptyDir_back h _ nr) (fun _ => Post.pure h) fun r hr => ?_
  refine Post.ite (fun _ => (removeInode_back hr).bind fun s1 h1 => Post.pair h1) fun _ => ?_
  cases d with
  | none => exact hput r.2 hr
  | some d =>
    refine (addDirent_moves false r.2 d name nr).bind fun r1 h1 => ?_
    refine Post.ite (fun _ => (removeInode_back (hr.moves h1)).bind fun s2 h2 => Post.pair h2) fun _ => ?_
    refine (syncInode_moves false r1.2 d).bind fun s2 h2 => ?_
    exact hput s2 ((hr.moves h1).moves h2)

theorem createInode_back (h : Back c dir s) (type : ℤ) :
    Post (createInode s type) fun r =>
      (r.1 < 0 ∧ Back c dir r.2.2) ∨ (r.1 = 0 ∧ Back (update c r.2.1 (c r.2.1 + 1)) dir r.2.2) := by
  unfold createInode
  refine (getInodeFreemap_moves false s).bind fun r h1 => ?_
  refine Post.ite (fun hneg => Post.pure (.inl ⟨hneg, h.moves h1⟩)) fun _ => ?_
  refine Post.ite (fun _ => ?_) fun _ => ?_
  · refine (putInodeFreemap_moves false r.2 r.1).bind fun s2 h2 => ?_
    exact Post.pure (.inl ⟨by simp [ENOSPC], (h.moves h1).moves h2⟩)
  · refine ((h.moves h1).get r.1).bind fun s2 h2 => ?_
    exact Post.pure (.inr ⟨rfl, h2.moves ((moves_setDinode false s2 r.1 _).trans (moves_setDirty false _ r.1))⟩)

theorem createFileOrDir_back (h : Back c dir s) (d : Option ℤ) (type : ℤ) (name : List UInt8) :
    Post (createFileOrDir s d type name) fun r => Back c dir r.2 := by
  have hrest : ∀ inodeNr : ℤ, Post (if 0 ≤ inodeNr then pure (-EEXIST, s) else createInode s type >>= fun r =>
      if r.1 < 0 then pure (r.1, r.2.2) else linkInode r.2.2 d type name r.2.1) fun r => Back c dir r.2 := by
    intro inodeNr
    refine Post.ite (fun _ => Post.pair h) fun _ => ?_
    refine (createInode_back h type).bind fun r hr => ?_
    rcases hr with ⟨hneg, hr⟩ | ⟨hzero, hr⟩
    · exact Post.ite (fun _ => Post.pair hr) fun hc => absurd hneg hc
    · exact Post.ite (fun hc => absurd hc (by omega)) fun _ => linkInode_back hr d type name
  unfold createFileOrDir
  cases d with
  | none => exact hrest (-ENOENT)
  | some d => exact Post.bind Post.trivial fun inodeNr _ => hrest inodeNr

theorem pwdLoop_back (fuel : ℕ) {s : State} {c : ℤ → ℤ} (h : Back c dir s) (nr : ℤ) :
    Post (pwdLoop fuel s nr) fun r => Back c dir r.2 := by
  induction fuel generalizing s c nr with
  | zero => exact Post.error
  | succ fuel ih =>
    rw [pwdLoop]
    refine Post.bind Post.trivial fun p _ => ?_
    refine Post.ite (fun _ => Post.throw) fun _ => ?_
    refine Post.ite (fun _ => Post.pair (h.quiet ⟨rfl, rfl, rfl⟩)) fun _ => ?_
    refine (h.get p).bind fun s1 h1 => ?_
    refine Post.bind Post.trivial fun d _ => ?_
    cases d with
    | none => exact Post.throw
    | some d =>
      refine (ih h1 p).bind fun r h2 => ?_
      refine h2.put.bind fun s3 h3 => ?_
      exact Post.pair (h3.quiet ⟨rfl, rfl, rfl⟩)

theorem lsLoop_back {sub : State → ℤ → Except Stop State}
    (hsub : ∀ (s : State) (c : ℤ → ℤ) (nr : ℤ), Back c dir s → Post (sub s nr) (Back c dir)) (recursive : Bool) (nr : ℤ)
    (fuel : ℕ) {s : State} (h : Back c dir s) (offset : ℤ) :
    Post (lsLoop sub recursive nr fuel s offset) (Back c dir) := by
  induction fuel generalizing s offset with
  | zero => exact Post.error
  | succ fuel ih =>
    rw [lsLoop]
    refine Post.bind Post.trivial fun i _ => ?_
    refine Post.bind Post.trivial fun r _ => ?_
    cases r with
    | none => exact Post.pure h
    | some r =>
      obtain ⟨e, next⟩ := r
      refine Post.ite (fun _ => ih h next) fun _ => ?_
      refine (h.get e.dInodeNr).bind fun s1 h1 => ?_
      refine Post.bind Post.trivial fun child _ => ?_
      have h2 : Back (update c e.dInodeNr (c e.dInodeNr + 1)) dir
          (s1.print (.entry e.str (child.dinode.iType = iDir))) := h1.quiet ⟨rfl, rfl, rfl⟩
      refine Post.ite (fun _ => ?_) fun _ => ?_
      · refine (hsub _ _ _ h2).bind fun s3 h3 => ?_
        exact h3.put.bind fun s4 h4 => ih h4 next
      · exact h2.put.bind fun s4 h4 => ih h4 next

theorem ls_back (h : Back c dir s) (nr : ℤ) (recursive : Bool) : Post (ls s nr recursive) (Back c dir) := by
  have hdepth : ∀ depth (s : State) (c : ℤ → ℤ) (nr : ℤ), Back c dir s →
      Post (lsDepth recursive depth s nr) (Back c dir) := by
    intro depth
    induction depth with
    | zero => exact fun _ _ _ _ => Post.error
    | succ depth ih =>
      intro s c nr h
      rw [lsDepth]
      exact Post.bind Post.trivial fun i _ => lsLoop_back ih recursive nr _ h 0
  exact hdepth _ s c nr h

/-! ## Commands -/

/-- the references when only the current directory is in memory -/
def onlyDir (dir : ℤ) : ℤ → ℤ := update (fun _ => 0) dir 1

/-- between commands: the current directory is in memory, once referenced, and nothing else -/
def AtRest (s : State) : Prop := Back (onlyDir s.curDir) s.curDir s

theorem AtRest.of_back {s s' : State} (h : Back (onlyDir s.curDir) s.curDir s') : AtRest s' := by
  unfold AtRest
  rw [h.2]; exact h

theorem getFileInode_back (h : Back c dir s) (d : ℤ) (name : List UInt8) :
    Post (getFileInode s d name) fun r =>
      (r.1 < 0 ∧ Back c dir r.2.2) ∨ (r.1 = 0 ∧ Back (update c r.2.1 (c r.2.1 + 1)) dir r.2.2) := by
  unfold getFileInode
  refine Post.bind Post.trivial fun nr _ => ?_
  refine Post.ite (fun hneg => Post.pure (.inl ⟨hneg, h⟩)) fun _ => ?_
  refine (h.get nr).bind fun s1 h1 => ?_
  refine Post.bind Post.trivial fun i _ => ?_
  refine Post.ite (fun _ => ?_) fun _ => Post.pure (.inr ⟨rfl, h1⟩)
  exact h1.put.bind fun s2 h2 => Post.pure (.inl ⟨by simp [EISDIR], h2⟩)

theorem cmdRead_back (h : Back c dir s) (name : List UInt8) (offset : Int64) (size : UInt64) :
    Post (cmdRead s name offset size) fun r => Back c dir r.2 := by
  unfold cmdRead
  refine Post.ite (fun _ => Post.pair h) fun _ => ?_
  refine (getFileInode_back h s.curDir name).bind fun r hr => ?_
  rcases hr with ⟨hneg, hr⟩ | ⟨hzero, hr⟩
  · exact Post.ite (fun _ => Post.pair hr) fun hc => absurd hneg hc
  · refine Post.ite (fun hc => absurd hc (by omega)) fun _ => ?_
    refine Post.bind Post.trivial fun i _ => ?_
    refine Post.ite (fun _ => hr.put.bind fun s1 h1 => Post.pair h1) fun _ => ?_
    refine Post.ite (fun _ => hr.put.bind fun s1 h1 => Post.pair h1) fun _ => ?_
    refine Post.bind Post.trivial fun r1 _ => ?_
    have h1 : Back (update c r.2.1 (c r.2.1 + 1)) dir
        (if 0 ≤ r1.1 then r.2.2.print (.data (r1.2.takeWhile fun c => c ≠ 0)) else r.2.2) := by
      split
      · exact hr.quiet ⟨rfl, rfl, rfl⟩
      · exact hr
    exact h1.put.bind fun s2 h2 => Post.pair h2

theorem cmdWrite_back (h : Back c dir s) (name : List UInt8) (offset : Int64) (buf : List UInt8) :
    Post (cmdWrite s name offset buf) fun r => Back c dir r.2 := by
  unfold cmdWrite writeFile
  refine Post.ite (fun _ => Post.pair h) fun _ => ?_
  refine (getFileInode_back h s.curDir name).bind fun r hr => ?_
  rcases hr with ⟨hneg, hr⟩ | ⟨hzero, hr⟩
  · exact Post.ite (fun _ => Post.pair hr) fun hc => absurd hneg hc
  · refine Post.ite (fun hc => absurd hc (by omega)) fun _ => ?_
    refine (writeData_moves false r.2.2 r.2.1 _ _ _).bind fun r1 h1 => ?_
    refine (syncInode_moves false r1.2 r.2.1).bind fun s2 h2 => ?_
    exact ((hr.moves h1).moves h2).put.bind fun s3 h3 => Post.pair h3

theorem cmdRm_back (h : Back c dir s) (name : List UInt8) : Post (cmdRm s name) fun r => Back c dir r.2 := by
  unfold cmdRm
  refine (removeDirent_back h s.curDir name).bind fun r h1 => ?_
  refine Post.ite (fun _ => Post.pair h1) fun _ => ?_
  refine (h1.get r.1).bind fun s2 h2 => ?_
  refine (removeInode_back h2).bind fun s3 h3 => ?_
  refine (syncInode_moves false s3 s3.curDir).bind fun s4 h4 => ?_
  exact Post.pair (h3.moves h4)

theorem cmdStat_back (h : Back c dir s) (name : List UInt8) : Post (cmdStat s name) fun r => Back c dir r.2 := by
  unfold cmdStat
  refine Post.bind Post.trivial fun nr _ => ?_
  refine Post.ite (fun _ => Post.pair h) fun _ => ?_
  refine (h.get nr).bind fun s1 h1 => ?_
  refine Post.bind Post.trivial fun i _ => ?_
  have h2 : Back (update c nr (c nr + 1)) dir
      (s1.print (.stat name nr i.dinode.iType i.dinode.iSize i.dinode.blockCount)) := h1.quiet ⟨rfl, rfl, rfl⟩
  exact h2.put.bind fun s3 h3 => Post.pair h3

/-- the reference moves from the old directory to the new one -/
theorem cmdCd_back (h : AtRest s) (name : List UInt8) : Post (cmdCd s name) fun r => AtRest r.2 := by
  unfold cmdCd
  refine Post.bind Post.trivial fun nr _ => ?_
  refine Post.ite (fun _ => Post.pair h) fun _ => ?_
  refine (Back.get h nr).bind fun s1 h1 => ?_
  refine Post.bind Post.trivial fun i _ => ?_
  refine Post.ite (fun _ => ?_) fun _ => ?_
  · exact h1.put.bind fun s2 h2 => Post.pair (AtRest.of_back h2)
  · refine (putInode_balanced h1.1 s1.curDir).bind fun s2 h2 => ?_
    refine Post.pure ⟨?_, rfl⟩
    have hc : update (update (onlyDir s.curDir) nr (onlyDir s.curDir nr + 1)) s1.curDir
        (update (onlyDir s.curDir) nr (onlyDir s.curDir nr + 1) s1.curDir - 1) = onlyDir nr := by
      rw [h1.2]
      funext m
      unfold onlyDir
      by_cases hm : m = s.curDir
      · subst hm
        by_cases hnr : s.curDir = nr
        · subst hnr; simp
        · simp [hnr]
      · by_cases hmn : m = nr
        · subst hmn; simp [hm]
        · simp [hm, hmn]
    have hb := h2.1
    rw [hc] at hb
    exact ⟨hb.nodup, hb.pos, hb.loads, hb.count⟩

/-- `ls` and `lsr` are given no regular file -/
def namesDir (s : State) (name : List UInt8) : Bool :=
  match dirNameToInodeNr s s.curDir name with
  | .error _ => true
  | .ok nr =>
    nr < 0 || match getInode s nr with
      | .error _ => true
      | .ok s' => (s'.find nr).all fun i => i.dinode.iType = iDir

def listsDirs (s : State) : Cmd → Bool
  | .ls name => namesDir s name.chars
  | .lsr name => namesDir s name.chars
  | _ => true

theorem cmdLs_back (h : Back c dir s) {name : List UInt8} (hdir : namesDir s name = true) (recursive : Bool) :
    Post (cmdLs s name recursive) fun r => Back c dir r.2 := by
  intro r hr
  rw [cmdLs, bind_eq_ok] at hr
  obtain ⟨nr, hnr, hr⟩ := hr
  split at hr
  · cases hr; exact h
  · next hpos =>
    rw [bind_eq_ok] at hr
    obtain ⟨s1, hs1, hr⟩ := hr
    rw [bind_eq_ok] at hr
    obtain ⟨i, hi, hr⟩ := hr
    have h1 := (h.get nr) s1 hs1
    have htype : i.dinode.iType = iDir := by
      unfold namesDir at hdir
      rw [hnr] at hdir
      simp only [hs1, Bool.or_eq_true, decide_eq_true_eq] at hdir
      rcases hdir with hneg | hall
      · exact absurd hneg hpos
      · unfold State.deref at hi
        cases hf : s1.find nr with
        | none => rw [hf] at hi; cases hi
        | some j =>
          rw [hf] at hi hall
          cases hi
          simpa using hall
    rw [if_pos htype] at hr
    have hpost : Post (do let s ← ls s1 nr recursive; let s ← putInode s nr; return ((0 : ℤ), s))
        fun r => Back c dir r.2 := by
      refine (ls_back h1 nr recursive).bind fun s2 h2 => ?_
      exact h2.put.bind fun s3 h3 => Post.pair h3
    exact hpost r hr

theorem exec_atRest (h : AtRest s) {op : Cmd} (hg : listsDirs s op = true) : Post (exec s op) fun r => AtRest r.2 := by
  cases op with
  | create name => exact (createFileOrDir_back h (some s.curDir) iFile name.chars).mono fun _ h1 => AtRest.of_back h1
  | mkdir name => exact (createFileOrDir_back h (some s.curDir) iDir name.chars).mono fun _ h1 => AtRest.of_back h1
  | rm name => exact (cmdRm_back h _).mono fun _ h1 => AtRest.of_back h1
  | write name offset data => exact (cmdWrite_back h _ _ _).mono fun _ h1 => AtRest.of_back h1
  | read name offset size => exact (cmdRead_back h _ _ _).mono fun _ h1 => AtRest.of_back h1
  | cd name => exact cmdCd_back h _
  | ls name => exact (cmdLs_back h hg false).mono fun _ h1 => AtRest.of_back h1
  | lsr name => exact (cmdLs_back h hg true).mono fun _ h1 => AtRest.of_back h1
  | stat name => exact (cmdStat_back h _).mono fun _ h1 => AtRest.of_back h1
  | pwd =>
    unfold exec cmdPwd pwd
    refine Post.bind ((pwdLoop_back _ h s.curDir).bind fun r h1 => Post.pure h1) fun s1 h1 => ?_
    exact Post.pair (AtRest.of_back h1)
  | bad => exact Post.ok h

/-- nothing is in memory when the device is opened -/
theorem initSuperBlock_back {dev : Dev} {stack : ℕ → ℤ} : Post (initSuperBlock dev stack) (Back (fun _ => 0) 0) := by
  unfold initSuperBlock
  refine Post.ite (fun _ => Post.throw) fun _ => ?_
  refine Post.ite (fun _ => Post.throw) fun _ => ?_
  refine Post.pure ⟨⟨List.nodup_nil, ?_, ?_, fun _ => rfl⟩, rfl⟩
  · intro i hi; cases hi
  · intro l hl; cases hl

/-- then the root directory is taken -/
theorem Back.root {s : State} (h : Back (fun _ => 0) 0 s) : Post (getInode s 0) AtRest := by
  refine (h.get 0).mono fun s1 h1 => ?_
  unfold AtRest onlyDir
  rw [h1.2]
  exact h1

theorem start_atRest {fsSizeMb : ℕ} {stack : ℕ → ℤ} : Post (start fsSizeMb stack) AtRest := by
  unfold start
  refine Post.bind Post.trivial fun dev _ => ?_
  exact initSuperBlock_back.bind fun s h => h.root

/-- at rest there is one inode in memory -/
theorem AtRest.hash (h : AtRest s) : ∃ i, s.hash = [i] ∧ i.iNr = s.curDir ∧ i.iCount = 1 := by
  have hb := h.1
  have hcount : ∀ i ∈ s.hash, i.iNr = s.curDir ∧ i.iCount = 1 := by
    intro i hi
    have hfind : s.find i.iNr = some i := by
      cases hf : s.find i.iNr with
      | none =>
        have := List.find?_eq_none.1 hf i hi
        simp at this
      | some j =>
        have hj := List.mem_of_find?_eq_some hf
        rw [List.inj_on_of_nodup_map hb.nodup hj hi (find_iNr_eq hf)]
    have hc := hb.count i.iNr
    have hpos := hb.pos i hi
    simp only [State.count, hfind, onlyDir] at hc
    by_cases hdir : i.iNr = s.curDir
    · rw [hdir, update_self] at hc; exact ⟨hdir, hc⟩
    · rw [update_of_ne hdir] at hc; omega
  have hdir : s.find s.curDir ≠ none := by
    intro hnone
    have hc := hb.count s.curDir
    simp [State.count, hnone, onlyDir] at hc
  obtain ⟨i, hi⟩ := Option.ne_none_iff_exists'.1 hdir
  have himem := List.mem_of_find?_eq_some hi
  refine ⟨i, ?_, hcount i himem⟩
  cases hl : s.hash with
  | nil => rw [hl] at himem; cases himem
  | cons a l =>
    cases l with
    | nil =>
      rw [hl] at himem
      rw [List.mem_singleton.1 himem]
    | cons b l =>
      have hab : a.iNr ≠ b.iNr := by
        have hn := hb.nodup
        rw [hl] at hn
        simp only [List.map_cons, List.nodup_cons, List.mem_cons, not_or] at hn
        exact hn.1.1
      have ha := (hcount a (by rw [hl]; simp)).1
      have hb' := (hcount b (by rw [hl]; simp)).1
      exact absurd (ha.trans hb'.symm) hab

/-- with the current directory the last inode is put -/
theorem AtRest.put_hash {s' : State} (h : AtRest s) (hr : putInode s s.curDir = .ok s') : s'.hash = [] := by
  obtain ⟨i, hi, hnr, hcount⟩ := h.hash
  have hfind : s.find s.curDir = some i := by simp [State.find, hi, hnr]
  simp only [putInode, State.deref, hfind, ok_bind, hcount, sub_self, if_true] at hr
  split at hr
  · cases hr
  · cases hr
    simp [hi, hnr]

end

/-- **References balance** in every run in which no `ls` or `lsr` names a regular file: after every command the hash
table holds the current directory alone, with one reference; no inode was ever twice in memory; and once the shell has
put the current directory the table is empty, as `inode_hash_destroy` asserts. -/
theorem references_balance (fsSizeMb : ℕ) (stack : ℕ → ℤ) (s0 s : State) (h0 : start fsSizeMb stack = .ok s0)
    (hrun : Run step listsDirs s0 s) :
    (∃ i, s.hash = [i] ∧ i.iNr = s.curDir ∧ i.iCount = 1) ∧ (∀ l ∈ s.loads, l.Nodup) ∧
      ∀ s', putInode s s.curDir = .ok s' → s'.hash = [] := by
  have hstep : ∀ t op t', AtRest t → listsDirs t op = true → step t op = .ok t' → AtRest t' := by
    intro t op t' h hg hs
    have hpost : Post (step t op) AtRest := by
      unfold step
      exact (exec_atRest h hg).bind fun r hr => Post.pure hr
    exact hpost t' hs
  have h := hrun.inv AtRest hstep (start_atRest s0 h0)
  exact ⟨h.hash, h.1.loads, fun s' hs' => h.put_hash hs'⟩

/-- the file name `f` -/
def tokenF : Token := ⟨[102], by decide, by decide⟩

/-- the name `.` -/
def tokenDot : Token := ⟨[46], by decide, by decide⟩

/-- a file is made and the directory listed -/
theorem references_balance_of_listing :
    ∃ s0 s, start 1 (fun _ => 0) = .ok s0 ∧ Run step listsDirs s0 s ∧ s.loads.length = 3 ∧
      ∃ i, s.hash = [i] ∧ i.iNr = s.curDir ∧ i.iCount = 1 := by
  have h : after (start 1 fun _ => 0) (fun s0 => passes step listsDirs (fun s => decide (s.loads.length = 3)) s0
      [.create tokenF, .ls tokenDot]) = true := by decide +kernel
  obtain ⟨s0, h0, hpass⟩ := exists_of_after h
  obtain ⟨s, hrun, hs⟩ := run_of_passes _ hpass
  exact ⟨s0, s, h0, hrun, of_decide_eq_true hs, (references_balance 1 _ s0 s h0 hrun).1⟩

/-- `ls f` of a regular file leaves it in memory -/
theorem ls_keeps_reference :
    ¬ ∀ (fsSizeMb : ℕ) (stack : ℕ → ℤ) (s0 s : State), validSize fsSizeMb → start fsSizeMb stack = .ok s0 →
      Run step anyStep s0 s → ∃ i, s.hash = [i] ∧ i.iNr = s.curDir ∧ i.iCount = 1 := by
  intro hall
  have h : after (start 1 fun _ => 0) (fun s0 => passes step anyStep (fun s => decide (s.hash.length = 2)) s0
      [.create tokenF, .ls tokenF]) = true := by decide +kernel
  obtain ⟨s0, h0, hpass⟩ := exists_of_after h
  obtain ⟨s, hrun, hs⟩ := run_of_passes _ hpass
  obtain ⟨i, hi, -⟩ := hall 1 _ s0 s ⟨le_rfl, by norm_num⟩ h0 hrun
  have hlen : s.hash.length = 2 := of_decide_eq_true hs
  rw [hi] at hlen
  cases hlen

end OsLab.Testfs
