/-
Inodes in memory and on disk, across the commands.

A call that changes an inode sets its dirty flag, and `testfs_sync_inode` writes the inode back. `Settled P X` says that
the inodes in memory outside of `X` are clean and that `P` relates them to those on disk. Here the commands are followed
through it: a new entry leaves the directory and the new inode outside until they are synchronized
(`linkInode_settles`), `rm` the directory (`cmdRm_settles`), `write` the file (`WriteCall.settles`). What a failed write
leaves of a directory and of a file is a hypothesis of these lemmas. Where `P` holds of any two dinodes, both are met in
every run in which no write to a directory fails (`run_clean`): between two commands no inode is dirty.
-/
import Mathlib.Tactic
import OsLab.Testfs.Runs

namespace OsLab.Testfs

open OsLab.Lib Function State

variable {s s' s0 s1 t u : State} {n m r d nr : ℤ} {i i' : Inode} {es : List Dirent}
  {name : List UInt8} {D : ℤ → List Dirent} {c : Cmd} {P : Dinode → Dinode → Prop} {X : Set ℤ}
  {fsSizeMb : ℕ} {stack : ℕ → ℤ}

/-! ## Calls that set the dirty flag -/

/-- inode `n`, if it is in memory, is dirty -/
def Flagged (n : ℤ) (s : State) : Prop := ∀ i, s.find n = some i → i.dirty = true

theorem Flagged.of_find (h : Flagged n s) (hfind : s'.find n = s.find n) : Flagged n s' := fun i hi => h i (hfind ▸ hi)

theorem flagged_setDirty (s : State) (n : ℤ) : Flagged n (s.setDirty n) := by
  intro i hi
  rw [find_setDirty, if_pos rfl] at hi
  obtain ⟨j, -, rfl⟩ := Option.map_eq_some_iff.1 hi
  rfl

theorem writeLoop_flags {buf : Lib.Mem} {start : ℤ} {size : ℕ} (fuel : ℕ) {blockNr : ℤ} {blockIx total rest : ℕ} :
    Post (writeLoop n buf start size fuel s blockNr blockIx total rest) fun r => 0 ≤ r.1 → Flagged n r.2 := by
  induction fuel generalizing s blockNr blockIx total rest with
  | zero => exact Post.error
  | succ fuel ih =>
    rw [writeLoop]
    refine Post.ite (fun _ => ?_) fun _ => ?_
    · refine Post.bind Post.trivial fun r1 _ => ?_
      refine Post.ite (fun hneg => ?_) fun _ => ?_
      · exact Post.ite (fun _ => Post.pure fun h0 => absurd hneg (not_lt.2 h0))
          fun _ => Post.pure fun h0 => absurd hneg (not_lt.2 h0)
      · exact Post.bind Post.trivial fun s2 _ => ih
    · unfold writeLast
      refine Post.bind Post.trivial fun r1 _ => ?_
      refine Post.ite (fun hneg => Post.pure fun h0 => absurd hneg (not_lt.2 h0)) fun _ => ?_
      exact Post.bind Post.trivial fun s2 _ => Post.pure fun _ => flagged_setDirty _ n

theorem writeDir_flags {buf : List UInt8} {start : ℤ} :
    Post (writeDir s n buf start) fun r => 0 ≤ r.1 → Flagged n r.2 := by
  unfold writeDir
  refine Post.bind Post.trivial fun i _ => ?_
  refine Post.bind (P := fun r => 0 ≤ r.1 → Flagged n r.2) ?_ fun r1 h1 => ?_
  · unfold writeData
    exact Post.ite (fun _ => Post.error) fun _ => writeLoop_flags _
  · refine Post.ite (fun hneg => ?_) fun _ => Post.pure h1
    exact Post.bind Post.trivial fun i' _ => Post.pure fun h0 => absurd hneg (not_lt.2 h0)

theorem addDirent_flags : Post (addDirent s n name nr) fun r => 0 ≤ r.1 → Flagged n r.2 := by
  have hwrite : ∀ len offset, Post (writeDirent s n name len nr offset) fun r => 0 ≤ r.1 → Flagged n r.2 := by
    intro len offset
    unfold writeDirent
    refine Post.ite (fun _ => Post.pure fun h0 => absurd h0 (by decide : ¬0 ≤ -ENOMEM)) fun _ => ?_
    exact Post.ite (fun _ => Post.throw) fun _ => Post.ite (fun _ => Post.throw) fun _ => writeDir_flags
  unfold addDirent
  refine Post.bind Post.trivial fun r1 _ => ?_
  obtain ⟨found, offset⟩ := r1
  cases found with
  | none =>
    refine Post.bind Post.trivial fun i _ => ?_
    exact Post.ite (fun _ => Post.throw) fun _ => hwrite _ _
  | some again =>
    cases again with
    | false => exact Post.pure fun h0 => absurd h0 (by decide : ¬0 ≤ -EEXIST)
    | true => exact hwrite _ _

theorem createEmptyDir_flags (hr : createEmptyDir s d n = .ok (r, s')) (h0 : 0 ≤ r) : Flagged n s' := by
  rcases createEmptyDir_cases hr with ⟨hneg, -⟩ | ⟨r1, s1, -, -, ⟨hneg, -⟩ | ⟨r2, h2, -, hadd⟩⟩
  · exact absurd hneg (not_lt.2 h0)
  · exact absurd hneg (not_lt.2 h0)
  · exact addDirent_flags _ hadd h2

theorem removeDirent_flags : Post (removeDirent s n name) fun r => 0 ≤ r.1 → Flagged n r.2 := by
  unfold removeDirent
  refine Post.ite (fun _ => Post.pure fun h0 => absurd h0 (by decide : ¬0 ≤ -EINVAL)) fun _ => ?_
  refine Post.bind Post.trivial fun r1 _ => ?_
  obtain ⟨found, offset⟩ := r1
  cases found with
  | none => exact Post.pure fun h0 => absurd h0 (by decide : ¬0 ≤ -ENOENT)
  | some e =>
    refine Post.bind Post.trivial fun r2 _ => ?_
    refine Post.ite (fun hneg => Post.pure fun h0 => absurd hneg (not_lt.2 h0)) fun _ => ?_
    refine writeDir_flags.bind fun r3 h3 => ?_
    exact Post.ite (fun h0 => Post.pure fun _ => h3 h0) fun hneg => Post.pure fun h0 => absurd h0 hneg

/-- a dirty inode is settled when it has been synchronized -/
theorem Flagged.settles (h : Flagged n s) (hs : Sound s) (hn : s.alloc n) (hP : ∀ d, P d d)
    (hset : Settled P (insert n X) s) (hr : syncInode s n = .ok s') : Settled P X s' :=
  syncInode_settles hs hn hP (fun i hi hclean => absurd (h i hi) (by rw [hclean]; decide)) hset hr

/-! ## The commands -/

theorem Edited.settled (h : Edited s s' n) (hn : n ∈ X) (hset : Settled P X s) : Settled P X s' := by
  intro m i hi hm
  have hmn : m ≠ n := fun hc => hm (hc ▸ hn)
  rw [h.disk m (h.sound.core.mem.range m i hi).2]
  rw [h.find m hmn] at hi
  exact hset m i hi hm

/-- what `testfs_create_file_or_dir` does with the inode `n` that it made: it is removed again, because of its own
entries or because of the entry in directory `d`, or both are synchronized -/
inductive LinkSteps (s s' : State) (d n type : ℤ) (name : List UInt8) (es : List Dirent) (r : ℤ) : Prop
  | unmade (s1 : State) : Edited s s1 n → Gone s1 s' n → LinkSteps s s' d n type name es r
  | refused (r1 : ℤ) (s1 s2 : State) :
    ((type = iDir ∧ createEmptyDir s d n = .ok (r1, s1)) ∨ (type ≠ iDir ∧ r1 = 0 ∧ s1 = s)) → 0 ≤ r1 → Edited s s1 n →
    Directory s1 d es → addDirent s1 d name n = .ok (r, s2) → r < 0 → Edited s1 s2 d → Directory s2 d es →
    s2.dirFails = s'.dirFails → Gone s2 s' n → LinkSteps s s' d n type name es r
  | linked (r1 r2 : ℤ) (s1 s2 s3 s4 : State) :
    ((type = iDir ∧ createEmptyDir s d n = .ok (r1, s1)) ∨ (type ≠ iDir ∧ r1 = 0 ∧ s1 = s)) → 0 ≤ r1 → Edited s s1 n →
    Directory s1 d es → addDirent s1 d name n = .ok (r2, s2) → 0 ≤ r2 → Edited s1 s2 d → Flagged d s2 →
    syncInode s2 d = .ok s3 → Same s2 s3 → s3.find n = s1.find n → Flagged n s3 → syncInode s3 n = .ok s4 → Same s3 s4 →
    Same s4 s' → LinkSteps s s' d n type name es r

theorem linkInode_steps {type : ℤ} (hs : Sound s) (hn : s.alloc n) (hd : s.alloc d) (hdn : d ≠ n)
    (hnew : type = iDir → Directory s n []) (hdir : Directory s d es) (hname : 0 ∉ name) (hflag : Flagged n s)
    (hcalm : r < 0 → Calm s s') (hr : linkInode s (some d) type name n = .ok (r, s')) :
    LinkSteps s s' d n type name es r := by
  obtain ⟨r1, s1, hmake, hrest⟩ := linkInode_cases hr
  have hcalm1 : r1 < 0 → Calm s s1 := by
    intro hneg
    rcases hrest with ⟨hr0, -, hremove⟩ | ⟨h0, -⟩
    · exact (hcalm hr0).of_fails (removeInode_fails s1 n _ hremove)
    · exact absurd hneg (not_lt.2 h0)
  -- the inode itself
  have hedit : Edited s s1 n := by
    rcases hmake with ⟨htype, hempty⟩ | ⟨-, -, rfl⟩
    · exact (createEmptyDir_spec hs hn (hnew htype) hd hcalm1 hempty).1
    · exact Edited.refl hs n
  have hn1 := (hedit.alloc n).2 hn
  rcases hrest with ⟨-, -, hremove⟩ | ⟨h1, r2, s2, hadd, hrest⟩
  · exact .unmade s1 hedit (removeInode_spec hedit.sound hn1 hremove)
  have hflag1 : Flagged n s1 := by
    rcases hmake with ⟨-, hempty⟩ | ⟨-, -, rfl⟩
    · exact createEmptyDir_flags hempty h1
    · exact hflag
  have hd1 := (hedit.alloc d).2 hd
  have hcalm2 : r2 < 0 → Calm s1 s2 := by
    intro hneg
    rcases hrest with ⟨hr0, -, hremove⟩ | ⟨h0, -⟩
    · exact ((hcalm hr0).of_fails (removeInode_fails s2 n _ hremove)).of_stack hedit.stack
    · exact absurd hneg (not_lt.2 h0)
  -- the entry in the directory
  have hdir1 : Directory s1 d es := hdir.still (hedit.still d hd hdn) hedit.grows
  obtain ⟨hedit2, hend⟩ := addDirent_spec hedit.sound hd1 hdir1 hname (inInt32_of_alloc hs hn) hcalm2 hadd
  have hd2 := (hedit2.alloc d).2 hd1
  have hn2 := (hedit2.alloc n).2 hn1
  rcases hrest with ⟨hneg, rfl, hremove⟩ | ⟨h2, rfl, s3, s4, hsync, hsync2, hput⟩
  · have hdir2 : Directory s2 d es := (hend.resolve_left fun hc => absurd hneg (not_lt.2 hc.1)).2.1
    exact .refused r1 s1 s2 hmake h1 hedit hdir1 hadd hneg hedit2 hdir2 (removeInode_fails s2 n _ hremove).symm
      (removeInode_spec hedit2.sound hn2 hremove)
  · obtain ⟨hsame3, -⟩ := syncInode_same hedit2.sound hd2 hsync
    have hfind3 : s3.find n = s1.find n := (syncInode_others hedit2.sound hsync hdn.symm).trans (hedit2.find n hdn.symm)
    obtain ⟨hsame4, -⟩ := syncInode_same hsame3.sound ((hsame3.alloc n).2 hn2) hsync2
    exact .linked r1 r2 s1 s2 s3 s4 hmake h1 hedit hdir1 hadd h2 hedit2 (addDirent_flags _ hadd h2) hsync hsame3 hfind3
      (hflag1.of_find hfind3) hsync2 hsame4 (putInode_same hsame4.sound hput)

/-- **`testfs_create_file_or_dir` after the inode was made.** -/
theorem linkInode_settles {type : ℤ} (hP : ∀ d, P d d) (hs : Sound s) (hn : s.alloc n) (hd : s.alloc d) (hdn : d ≠ n)
    (hnew : type = iDir → Directory s n []) (hdir : Directory s d es) (hname : 0 ∉ name) (hflag : Flagged n s)
    (hcalm : r < 0 → Calm s s')
    (hfail : ∀ r1 t u, ((type = iDir ∧ createEmptyDir s d n = .ok (r1, t)) ∨ (type ≠ iDir ∧ r1 = 0 ∧ t = s)) → 0 ≤ r1 →
      Edited s t n → addDirent t d name n = .ok (r, u) → r < 0 → u.dirFails = s'.dirFails → Settled P (insert n X) t →
        Settled P (insert n X) u)
    (hset : Settled P (insert n X) s) (hr : linkInode s (some d) type name n = .ok (r, s')) : Settled P X s' := by
  have hset1 : ∀ {s1}, Edited s s1 n → Settled P (insert n X) s1 := fun hedit => hedit.settled (Set.mem_insert n X) hset
  cases linkInode_steps hs hn hd hdn hnew hdir hname hflag hcalm hr with
  | unmade s1 hedit hgone => exact hgone.settles X P hP (hset1 hedit)
  | refused r1 s1 s2 hmake h1 hedit hdir1 hadd hneg hedit2 hdir2 hfails hgone =>
    exact hgone.settles X P hP (hfail r1 s1 s2 hmake h1 hedit hadd hneg hfails (hset1 hedit))
  | linked r1 r2 s1 s2 s3 s4 hmake h1 hedit hdir1 hadd h2 hedit2 hflag2 hsync hsame3 hfind3 hflag3
    hsync2 hsame4 hsame5 =>
    have hset2 : Settled P (insert d (insert n X)) s2 :=
      hedit2.settled (Set.mem_insert d _) ((hset1 hedit).mono (Set.subset_insert d _))
    have hd2 := (hedit2.alloc d).2 ((hedit.alloc d).2 hd)
    have hn3 := (hsame3.alloc n).2 ((hedit2.alloc n).2 ((hedit.alloc n).2 hn))
    have hset3 := hflag2.settles hedit2.sound hd2 hP hset2 hsync
    have hset4 := hflag3.settles hsame3.sound hn3 hP hset3 hsync2
    exact hsame5.settles X P hP hset4

/-- **`testfs_create_file_or_dir`.** -/
theorem createFileOrDir_settles {type : ℤ} (hP : ∀ d, P d d) (hg : Graph s D) (hd : s.isDir d)
    (htype : type = iFile ∨ type = iDir) (hname : 0 ∉ name) (hcalm : r < 0 → Calm s s')
    (hfail : ∀ n r1 s1 t u, Born s s1 n type →
      ((type = iDir ∧ createEmptyDir s1 d n = .ok (r1, t)) ∨ (type ≠ iDir ∧ r1 = 0 ∧ t = s1)) → 0 ≤ r1 →
      Edited s1 t n → addDirent t d name n = .ok (r, u) → r < 0 → u.dirFails = s'.dirFails → Settled P (insert n X) t →
        Settled P (insert n X) u)
    (hset : Settled P X s) (hr : createFileOrDir s (some d) type name = .ok (r, s')) : Settled P X s' := by
  obtain ⟨nr, -, ⟨-, -, rfl⟩ | ⟨-, r1, n, s1, hcreate, hrest⟩⟩ := createFileOrDir_cases hr
  · exact hset
  rcases createInode_spec hg.sound htype hcreate with ⟨rfl, hsame⟩ | ⟨rfl, hborn⟩
  · obtain ⟨-, -, rfl⟩ := hrest.resolve_right fun hc => absurd hc.1 (by decide)
    exact hsame.settles X P hP hset
  · obtain ⟨-, hlink⟩ := hrest.resolve_left fun hc => absurd hc.1 (by rw [← hc.2.1]; exact lt_irrefl 0)
    obtain ⟨hn1, hd1, hdn, hnew, hdir1⟩ := hborn.around hg hd
    have hflag : Flagged n s1 := by
      obtain ⟨j, hj, -, hdirty⟩ := hborn.find
      intro i hi
      rw [hj] at hi
      cases hi
      exact hdirty
    exact linkInode_settles hP hborn.sound hn1 hd1 hdn hnew hdir1 hname hflag
      (fun hneg => (hcalm hneg).of_stack hborn.stack) (fun r1 t u => hfail n r1 s1 t u hborn)
      (hborn.settles X P hP hset) hlink

/-- what `rm` does: nothing is changed, or an entry of the current directory is overwritten, the inode is removed and
the directory synchronized -/
inductive RmSteps (s s' : State) (D : ℤ → List Dirent) : Prop
  | kept : Same s s' → RmSteps s s' D
  | removed (n r : ℤ) (pre : List Dirent) (e : Dirent) (post : List Dirent) (t s1 s2 s3 : State) :
    s.alloc n → s.curDir ≠ n → D s.curDir = pre ++ e :: post → Same s t →
    writeDir t s.curDir e.dead.bytes (listing pre).length = .ok (r, s1) → 0 ≤ r → Edited t s1 s.curDir → Same s1 s2 →
    Gone s2 s3 n → s3.find s.curDir = s1.find s.curDir → Flagged s.curDir s3 →
    syncInode s3 s.curDir = .ok s' → RmSteps s s' D

theorem cmdRm_steps (hg : Graph s D) (hjunk : r < 0 → (∀ j, s.stack j = 0) ∨ s'.dirFails = [])
    (hr : cmdRm s name = .ok (r, s')) : RmSteps s s' D := by
  have hd := hg.cur
  obtain ⟨nr, s1, hrm, hrest⟩ := cmdRm_cases hr
  have hjunk1 : nr < 0 → (∀ j, s.stack j = 0) ∨ s1.dirFails = [] := by
    intro hneg
    obtain ⟨-, rfl, rfl⟩ := hrest.resolve_right fun hc => absurd hc.1 (not_le.2 hneg)
    exact hjunk hneg
  have hearly : nr < 0 → Same s s1 → RmSteps s s' D := by
    intro hneg h1
    obtain ⟨-, -, rfl⟩ := hrest.resolve_right fun hc => absurd hc.1 (not_le.2 hneg)
    exact .kept h1
  rcases removeDirent_spec (D := D) hg.sound hd.1 (hg.directory hd) (fun e he hl => hg.alloc_of_live hd he hl)
    (fun m hm ht => hg.directory ⟨hm, ht⟩) hjunk1 hrm with ⟨rfl, rfl, -⟩ | ⟨hdot, hdotdot, ⟨rfl, rfl, -⟩ | hcase⟩
  · exact hearly (by decide) (Same.refl hg.sound)
  · exact hearly (by decide) (Same.refl hg.sound)
  obtain ⟨pre, e, post, hes, hlive, hstr, -, ⟨rfl, hsame, -⟩ | ⟨rfl, -, -, t, hsame, hedit, -, r1, h1, hw⟩⟩ := hcase
  · exact hearly (by decide) hsame
  have hmem : e ∈ D s.curDir := by rw [hes]; simp
  have hn := hg.alloc_of_live hd hmem hlive
  obtain ⟨h0, hlt⟩ := mem_range hg.sound.core.mem hn
  obtain ⟨-, -, s2, s3, hget, hremove, hsync⟩ := hrest.resolve_left fun hc => absurd hc.1 (not_lt.2 h0)
  have hdn : s.curDir ≠ e.dInodeNr :=
    hg.tree.ne_of_proper ⟨hstr ▸ hdot, hstr ▸ hdotdot⟩ ⟨hd, e, hmem, hlive, rfl, rfl⟩
  obtain ⟨hsame2, -⟩ := getInode_same hedit.sound h0 hlt hget
  have hn2 : s2.alloc e.dInodeNr := (hsame2.alloc _).2 ((hedit.alloc _).2 ((hsame.alloc _).2 hn))
  have hgone := removeInode_spec hsame2.sound hn2 hremove
  have hfind3 : s3.find s.curDir = s1.find s.curDir := by
    rw [hgone.others _ hdn, getInode_others hedit.sound.core.geo h0 hlt hget hdn]
  have hcur3 : s3.curDir = s.curDir := by rw [hgone.curDir, hsame2.curDir, hedit.curDir, hsame.curDir]
  rw [hcur3] at hsync
  exact .removed e.dInodeNr r1 pre e post t s1 s2 s3 hn hdn hes hsame hw h1 hedit hsame2 hgone hfind3
    ((removeDirent_flags _ hrm h0 : Flagged s.curDir s1).of_find hfind3) hsync

/-- **`rm`.** -/
theorem cmdRm_settles (hP : ∀ d, P d d) (hg : Graph s D) (hjunk : r < 0 → (∀ j, s.stack j = 0) ∨ s'.dirFails = [])
    (hset : Settled P X s) (hr : cmdRm s name = .ok (r, s')) : Settled P X s' := by
  cases cmdRm_steps hg hjunk hr with
  | kept hsame => exact hsame.settles X P hP hset
  | removed n r pre e post t s1 s2 s3 hn hdn hes hsame hw h1 hedit hsame2 hgone hfind3 hflag3 hsync =>
    -- the directory is dirty until it is synchronized
    have hset1 : Settled P (insert s.curDir X) s1 :=
      hedit.settled (Set.mem_insert _ X) ((hsame.settles X P hP hset).mono (Set.subset_insert _ X))
    have hset3 : Settled P (insert s.curDir X) s3 :=
      hgone.settles _ P hP ((hsame2.settles _ P hP hset1).mono (Set.subset_insert _ _))
    have hd2 := (hsame2.alloc _).2 ((hedit.alloc _).2 ((hsame.alloc _).2 hg.cur.1))
    exact hflag3.settles hgone.sound ((hgone.alloc _).2 ⟨hd2, hdn⟩) hP hset3 hsync

/-- **`write`.** -/
theorem WriteCall.settles {buf : Lib.Mem} {start : ℤ} {size : ℕ} {s2 s3 : State}
    (h : WriteCall s s' D name buf start size r n s1 s2 s3) (hP : ∀ d, P d d) (hg : Graph s D)
    (hstack : ∀ j, s.stack j = 0) (hclean : ∀ i, s2.find n = some i → i.dirty = false → P i.dinode (s2.diskDinode n))
    (hset : Settled P X s) :
    Settled P X s' := by
  obtain ⟨i, hi, -⟩ := h.find hg
  obtain ⟨i', hgrew⟩ := h.grew hg hstack hi
  have h2 := hgrew.edited h.same.sound.core.mem
  have hn2 : s2.alloc n := (h2.alloc n).2 ((h.same.alloc n).2 (h.alloc hg))
  have hset2 : Settled P (insert n X) s2 :=
    h2.settled (Set.mem_insert n X) ((h.same.settles X P hP hset).mono (Set.subset_insert n X))
  have hset3 := syncInode_settles h2.sound hn2 hP hclean hset2 h.sync
  obtain ⟨h3, -⟩ := syncInode_same h2.sound hn2 h.sync
  exact (putInode_same h3.sound h.put).settles X P hP hset3

/-- the commands that change no file -/
theorem Moved.settles (h : Moved s s' n) (X : Set ℤ) : Settles X X s s' := h.same.settles X

/-! ## No inode is dirty -/

/-- the inodes in memory are clean -/
def Clean (s : State) : Prop := Settled (fun _ _ => True) ∅ s

theorem Clean.dirty (h : Clean s) (hi : s.find n = some i) : i.dirty = false := (h n i hi (Set.notMem_empty n)).1

theorem Clean.same (h : Clean s) (hs : Same s s') : Clean s' := hs.settles ∅ _ (fun _ => trivial) h

/-- after a command that wrote all it had to write to a directory -/
theorem exec_clean (hg : Graph s D) (hclean : Clean s) (hfails : s'.dirFails = [])
    (hwrite : c.isWrite = true → ∀ j, s.stack j = 0) (hr : exec s c = .ok (r, s')) : Clean s' := by
  have hcalm : Calm s s' := calm_of_nil hfails
  have hP : ∀ d : Dinode, (fun _ _ => True : Dinode → Dinode → Prop) d d := fun _ => trivial
  rcases exec_cases hg hr with ⟨-, hsame | ⟨n, -, hmoved⟩⟩ | ⟨type, name, -, htype, hcreate⟩ | ⟨name, rfl, hrm⟩ |
    ⟨name, offset, data, rfl, hw⟩
  · exact hclean.same hsame
  · exact hmoved.settles ∅ _ hP hclean
  · refine createFileOrDir_settles hP hg hg.cur htype name.noNul (fun _ => hcalm) ?_ hclean hcreate
    intro n r1 s1 t u hborn hmake h1 hedit hadd hneg hu hset
    -- the entry was refused before anything was written
    obtain ⟨hn1, hd1, hdn, -, hdir1⟩ := hborn.around hg hg.cur
    have hdir2 := hdir1.still (hedit.still _ hd1 hdn) hedit.grows
    obtain ⟨-, ⟨h0, -⟩ | ⟨-, -, ⟨-, -, rfl⟩ | ⟨-, -, rfl⟩ | hne⟩⟩ :=
      addDirent_spec hedit.sound ((hedit.alloc _).2 hd1) hdir2
      name.noNul (inInt32_of_alloc hborn.sound hn1) (fun _ => calm_of_nil (hu.trans hfails)) hadd
    · exact absurd hneg (not_lt.2 h0)
    · exact hset
    · exact hset
    · exact absurd (hu.trans hfails) hne
  · exact cmdRm_settles hP hg (fun _ => Or.inr hfails) hclean hrm
  · rcases writeFile_cases hg hw with ⟨-, hsame⟩ | ⟨n, s1, s2, s3, h⟩
    · exact hclean.same hsame
    · exact h.settles hP hg (hwrite rfl) (fun _ _ _ => trivial) hclean

theorem start_settled (hk : validSize fsSizeMb) (hr : start fsSizeMb stack = .ok s) (hP : ∀ d, P d d) :
    Settled P ∅ s := by
  obtain ⟨r1, s1, t, u, -, -, -, -, -, hu, -, -, hget⟩ := start_cases hk hr
  obtain ⟨hsame, -⟩ := getInode_same hu.sound (by decide) (by decide) hget
  refine hsame.settles ∅ P hP fun m i hi => ?_
  simp [State.find, hu.hash] at hi

/-- **Between two commands no inode is dirty**, if no write to a directory has failed. -/
theorem run_clean (hk : validSize fsSizeMb) (hstack : ∀ j, stack j = 0) (h0 : start fsSizeMb stack = .ok s0)
    (hrun : Run step dirsWritten s0 s) : Clean s := by
  obtain ⟨hg0, hst0, -⟩ := start_graph hk h0
  have hinv : (∃ D, Graph s D) ∧ (∀ j, s.stack j = 0) ∧ Clean s := by
    refine hrun.inv (fun s => (∃ D, Graph s D) ∧ (∀ j, s.stack j = 0) ∧ Clean s) ?_
      ⟨⟨_, hg0⟩, by rw [hst0]; exact hstack, start_settled hk h0 fun _ => trivial⟩
    rintro t c t' ⟨⟨D, hg⟩, hz, hclean⟩ hgood hstep
    have hfails := dirFails_of_dirsWritten hgood hstep
    obtain ⟨r, hr⟩ := step_eq_ok.1 hstep
    obtain ⟨hgraph, hst⟩ := exec_graph hg (calm_of_nil hfails) (fun _ => hz) hr
    exact ⟨hgraph, by rw [hst]; exact hz, exec_clean hg hclean hfails (fun _ => hz) hr⟩
  exact hinv.2.2

end OsLab.Testfs
