/-
The commands on the directory graph.

`create`, `mkdir` and `rm` change one entry (`Testfs.Graph`), `write` the data of one regular file, and the other
commands change no file at all (`Same`); `cd` moves the current directory to another directory. `exec_effect` puts them
together.
-/
import Mathlib.Tactic
import OsLab.Testfs.Graph

namespace OsLab.Testfs

open OsLab.Lib Function State

variable {s s' s'' : State} {n m r d : ℤ} {i i' : Inode} {es es' pre post : List Dirent} {e new : Dirent}
  {name k : List UInt8} {D : ℤ → List Dirent}

/-! ## Commands that read -/

theorem Same.of_eq (h : Sound s) (hsb : s'.sb = s.sb) (hdev : s'.dev = s.dev) (hif : s'.inodeFreemap = s.inodeFreemap)
    (hbf : s'.blockFreemap = s.blockFreemap) (hhash : s'.hash = s.hash) (hcur : s'.curDir = s.curDir)
    (hst : s'.stack = s.stack) (hdf : s'.dirFails = s.dirFails) : Same s s' := by
  have hdinode : ∀ m, s'.dinode m = s.dinode m := fun m => by
    simp only [State.dinode, State.find, State.diskDinode, hhash, hdev]
  have htree : ∀ m, s'.tree m = s.tree m := fun m => by simp only [State.tree, hdinode, hdev]
  have hcontent : ∀ m, s'.content m = s.content m := fun m => by simp only [State.content, hdinode, hdev]
  have hsettles : ∀ X, Settles X X s s' := by
    refine fun X => settles_of_find (fun m j hj => Or.inr ⟨j, ?_, rfl, rfl⟩) fun m => ?_
    · rw [← hj, State.find, State.find, hhash]
    · rw [State.diskDinode, State.diskDinode, hdev]
  refine ⟨h.of_eq hsb hdev hif hbf hhash, fun m => by simp only [State.alloc, hif], fun m _ => ?_, hcur,
    hst, hdf, by rw [hdev],
    by rw [hsb], by rw [hsb], hsettles, fun _ _ m _ _ => hdinode m, fun m _ => ⟨Or.inl (hdinode m), Or.inr ?_⟩⟩
  · exact ⟨by rw [hdinode], fun _ => by rw [hdinode], htree m, hcontent m⟩
  · rw [State.diskDinode, State.diskDinode, hdev]

theorem Same.print (h : Sound s) (p : Print) : Same s (s.print p) := Same.of_eq h rfl rfl rfl rfl rfl rfl rfl rfl

/-- `testfs_get_inode` on an inode in use -/
theorem Graph.get (hg : Graph s D) (hn : s.alloc n) : Post (getInode s n) fun s' =>
    Same s s' ∧ ∃ i, s'.find n = some i ∧ i.dinode = s.dinode n := by
  intro s' hget
  obtain ⟨h0, h1⟩ := mem_range hg.sound.core.mem hn
  exact getInode_same hg.sound h0 h1 hget

theorem Graph.put (hg : Graph s D) (n : ℤ) : Post (putInode s n) (Same s) := fun _ hput => putInode_same hg.sound hput

theorem Same.isDir (h : Same s s') (m : ℤ) : s'.isDir m ↔ s.isDir m := (h.alike ∅).isDir m

theorem Same.entry (h : Same s s') {a b : ℤ} : s'.entry D a k b ↔ s.entry D a k b := by
  unfold State.entry
  rw [h.isDir]

/-- what `testfs_dir_name_to_inode_nr` returns -/
theorem Graph.nameToInodeNr (hg : Graph s D) (hd : s.isDir d) : Post (dirNameToInodeNr s d name) fun nr =>
    (s.entry D d name nr ∧ 0 ≤ nr) ∨ (nr = -ENOENT ∧ ∀ m, ¬s.entry D d name m) := by
  intro nr hr
  obtain ⟨-, hnr⟩ := dirNameToInodeNr_eq (hg.directory hd) (hg.pos hd.1) hr
  cases hl : Testfs.lookup (D d) name with
  | some m =>
    rw [hl] at hnr
    rw [hnr]
    have hentry := (hg.lookup hd).1 hl
    exact Or.inl ⟨hentry, names_nonneg hentry.2⟩
  | none =>
    rw [hl] at hnr
    exact Or.inr ⟨hnr, (hg.lookup_none hd).1 hl⟩

theorem pwdLoop_same (fuel : ℕ) (hg : Graph s D) (hn : s.isDir n) : Post (pwdLoop fuel s n) fun r => Same s r.2 := by
  induction fuel generalizing s n with
  | zero => exact Post.error
  | succ fuel ih =>
    rw [pwdLoop]
    refine (hg.nameToInodeNr hn).bind fun p hp => ?_
    refine Post.ite (fun _ => Post.throw) fun hpos => ?_
    obtain ⟨hup, -⟩ : s.entry D n dotdot p ∧ 0 ≤ p := by
      rcases hp with hp | ⟨rfl, -⟩
      · exact hp
      · exact absurd (by decide) hpos
    refine Post.ite (fun _ => Post.pair (Same.print hg.sound _)) fun _ => ?_
    refine (hg.get (hg.tree.target n dotdot p hup)).bind fun s1 hs1 => ?_
    have h1 := hs1.1
    refine Post.bind Post.trivial fun x _ => ?_
    cases x with
    | none => exact Post.throw
    | some x =>
      have hg1 := hg.same h1
      refine (ih hg1 ((h1.isDir p).2 (hg.tree.up_dir hup))).bind fun r2 h2 => ?_
      refine ((hg1.same h2).put p).bind fun s3 h3 => ?_
      exact Post.pair (((h1.trans h2).trans h3).trans (Same.print h3.sound _))

theorem lsLoop_same {sub : State → ℤ → Except Stop State} {recursive : Bool} {fuel : ℕ}
    (hsub : ∀ t m, Graph t D → t.isDir m → Post (sub t m) (Same t)) (hg : Graph s D) (hn : s.isDir n)
    (hes : D n = pre ++ post) : Post (lsLoop sub recursive n fuel s (listing pre).length) (Same s) := by
  induction fuel generalizing s pre post with
  | zero => exact Post.error
  | succ fuel ih =>
    rw [lsLoop]
    refine Post.bind (P := fun i => i.dinode = s.dinode n) ?_ fun i hi => ?_
    · intro i hi
      rw [deref_eq_ok] at hi
      exact (dinode_of_find hi).symm
    rw [hi]
    have hd : Directory s n (pre ++ post) := hes ▸ hg.directory hn
    cases post with
    | nil =>
      rw [List.append_nil] at hd
      rw [nextDirent_end hd, ok_bind]
      exact Post.pure (Same.refl hg.sound)
    | cons e post =>
      rw [nextDirent_entry hd (hg.pos hn.1), ok_bind]
      dsimp only
      have hes' : D n = (pre ++ [e]) ++ post := by simpa using hes
      refine Post.ite (fun _ => ih hg hn hes') fun hlive => ?_
      have hm : s.alloc e.dInodeNr := hg.alloc_of_live hn (by rw [hes]; simp) (not_lt.1 hlive)
      refine (hg.get hm).bind fun s1 hs1 => ?_
      obtain ⟨h1, j, hj, hdj⟩ := hs1
      rw [deref_eq_ok.2 hj, ok_bind]
      have h2 := h1.trans (Same.print h1.sound (.entry e.str (j.dinode.iType = iDir)))
      have hg2 := hg.same h2
      -- the subdirectory, if it is listed
      have hrest : ∀ t, Same s t → Post (putInode t e.dInodeNr >>= fun u =>
          lsLoop sub recursive n fuel u (listing (pre ++ [e])).length) (Same s) := by
        intro t ht
        refine ((hg.same ht).put _).bind fun s4 h4 => ?_
        have h5 := ht.trans h4
        exact (ih (hg.same h5) ((h5.isDir n).2 hn) hes').mono fun _ h6 => h5.trans h6
      split_ifs with hrec
      · have hdir : s.isDir e.dInodeNr := ⟨hm, by rw [← hdj]; exact hrec.2.1⟩
        exact (hsub _ _ hg2 ((h2.isDir _).2 hdir)).bind fun s3 h3 => hrest s3 (h2.trans h3)
      · exact hrest _ h2

theorem ls_same (depth : ℕ) (recursive : Bool) (hg : Graph s D) (hn : s.isDir n) :
    Post (lsDepth recursive depth s n) (Same s) := by
  induction depth generalizing s n with
  | zero => exact Post.error
  | succ depth ih =>
    rw [lsDepth]
    refine Post.bind Post.trivial fun i _ => ?_
    have hes : D n = [] ++ D n := rfl
    exact lsLoop_same (fun t m ht hm => ih ht hm) hg hn hes

/-- what follows a lookup in the current directory: an error, or the inode of the name -/
theorem Graph.after_lookup {A : Type} {f : ℤ → Except Stop (ℤ × A)} {Q : ℤ × A → Prop} {a : A} (hg : Graph s D)
    (hnone : (∀ m, ¬s.entry D s.curDir name m) → Q (-ENOENT, a))
    (hsome : ∀ n, s.entry D s.curDir name n → Post (f n) Q) :
    Post (dirNameToInodeNr s s.curDir name >>= fun nr => if nr < 0 then pure (nr, a) else f nr) Q := by
  refine (hg.nameToInodeNr hg.cur).bind fun nr hnr => ?_
  rcases hnr with ⟨hentry, h0⟩ | ⟨rfl, hno⟩
  · rw [if_neg (not_lt.2 h0)]
    exact hsome nr hentry
  · rw [if_pos (by decide)]
    exact Post.pure (hnone hno)

theorem cmdLs_same (recursive : Bool) (hg : Graph s D) : Post (cmdLs s name recursive) fun r => Same s r.2 := by
  refine hg.after_lookup (fun _ => Same.refl hg.sound) fun n hn => ?_
  have ha := hg.tree.target _ _ _ hn
  refine (hg.get ha).bind fun s1 h1 => ?_
  obtain ⟨h1, i, hi, hdi⟩ := h1
  rw [deref_eq_ok.2 hi, ok_bind]
  refine Post.ite (fun ht => ?_) fun _ => Post.pair h1
  have hg1 := hg.same h1
  have hdir : s1.isDir n := (h1.isDir n).2 ⟨ha, by rw [← hdi]; exact ht⟩
  refine (ls_same _ recursive hg1 hdir).bind fun s2 h2 => ?_
  exact ((hg1.same h2).put n).bind fun s3 h3 => Post.pair ((h1.trans h2).trans h3)

theorem cmdPwd_same (hg : Graph s D) : Post (cmdPwd s) fun r => Same s r.2 := by
  unfold cmdPwd pwd
  refine Post.bind (P := Same s) ?_ fun s1 h1 => Post.pair h1
  exact (pwdLoop_same _ hg hg.cur).bind fun r1 h1 => Post.pure h1

theorem cmdStat_same (hg : Graph s D) : Post (cmdStat s name) fun r => Same s r.2 := by
  refine hg.after_lookup (fun _ => Same.refl hg.sound) fun n hn => ?_
  refine (hg.get (hg.tree.target _ _ _ hn)).bind fun s1 h1 => ?_
  obtain ⟨h1, i, hi, -⟩ := h1
  rw [deref_eq_ok.2 hi, ok_bind]
  have h2 := h1.trans (Same.print h1.sound (.stat name n i.dinode.iType i.dinode.iSize i.dinode.blockCount))
  exact ((hg.same h2).put n).bind fun s3 h3 => Post.pair (h2.trans h3)

/-- `testfs_get_file_inode` -/
theorem getFileInode_spec (hg : Graph s D) : Post (getFileInode s s.curDir name) fun r =>
    (r.1 < 0 ∧ Same s r.2.2) ∨ (r.1 = 0 ∧ getInode s r.2.1 = .ok r.2.2 ∧ Same s r.2.2 ∧ s.entry D s.curDir name r.2.1 ∧
      ¬s.isDir r.2.1 ∧ ∃ i, r.2.2.find r.2.1 = some i ∧ i.dinode = s.dinode r.2.1) := by
  refine hg.after_lookup (fun _ => Or.inl ⟨(by decide : -ENOENT < 0), Same.refl hg.sound⟩) fun n hn => ?_
  refine Post.bind (P := fun s1 => getInode s n = .ok s1) (fun _ h => h) fun s1 hget => ?_
  obtain ⟨h1, i, hi, hdi⟩ := hg.get (hg.tree.target _ _ _ hn) s1 hget
  rw [deref_eq_ok.2 hi, ok_bind]
  refine Post.ite (fun _ => ?_) fun hfile => ?_
  · exact ((hg.same h1).put n).bind fun s2 h2 => Post.pure (Or.inl ⟨(by decide : -EISDIR < 0), h1.trans h2⟩)
  · refine Post.pure (Or.inr ⟨rfl, hget, h1, hn, fun hc => hfile ?_, i, hi, hdi⟩)
    rw [hdi]
    exact hc.2

theorem cmdRead_same (offset : Int64) (size : UInt64) (hg : Graph s D) :
    Post (cmdRead s name offset size) fun r => Same s r.2 := by
  unfold cmdRead
  refine Post.ite (fun _ => Post.pair (Same.refl hg.sound)) fun _ => ?_
  refine (getFileInode_spec hg).bind fun r1 h1 => ?_
  obtain ⟨ret, nr, s1⟩ := r1
  rcases h1 with ⟨hneg, h1⟩ | ⟨rfl, -, h1, -, -, i, hi, -⟩
  · exact Post.ite (fun _ => Post.pair h1) fun hc => absurd hneg hc
  refine Post.ite (fun hc => absurd hc (lt_irrefl 0)) fun _ => ?_
  rw [deref_eq_ok.2 hi, ok_bind]
  have hg1 := hg.same h1
  refine Post.ite (fun _ => (hg1.put nr).bind fun s2 h2 => Post.pair (h1.trans h2)) fun _ => ?_
  refine Post.ite (fun _ => (hg1.put nr).bind fun s2 h2 => Post.pair (h1.trans h2)) fun _ => ?_
  refine Post.bind Post.trivial fun r2 _ => ?_
  have hput : ∀ t, Same s1 t → Post (putInode t nr >>= fun u => pure (r2.1, u)) fun r => Same s r.2 := fun t ht =>
    ((hg1.same ht).put nr).bind fun s3 h3 => Post.pair ((h1.trans ht).trans h3)
  dsimp only
  split_ifs
  · exact hput _ (Same.print h1.sound _)
  · exact hput _ (Same.refl h1.sound)

/-! ## `cd` and `write` -/

/-- the current directory is another one -/
structure Moved (s s' : State) (n : ℤ) : Prop where
  same : Same s { s' with curDir := s.curDir }
  curDir : s'.curDir = n

theorem Moved.graph (h : Moved s s' n) (hg : Graph s D) (hn : s.isDir n) : Graph s' D := by
  have hg' := hg.same h.same
  have hdirs : Dirs s' D := ⟨hg'.sound.of_eq rfl rfl rfl rfl rfl, fun m hm =>
    let hd := hg'.directory hm; ⟨hd.1, hd.2, hd.3, hd.4, hd.5, hd.6⟩⟩
  refine ⟨hdirs, hg'.distinct, hg'.tree, ?_⟩
  rw [h.curDir]
  exact (h.same.isDir n).2 hn

/-- **`cd`.** -/
theorem cmdCd_spec (hg : Graph s D) : Post (cmdCd s name) fun r =>
    (r.1 < 0 ∧ Same s r.2) ∨ (r.1 = 0 ∧ ∃ n, s.entry D s.curDir name n ∧ s.isDir n ∧ Moved s r.2 n) := by
  refine hg.after_lookup (fun _ => Or.inl ⟨(by decide : -ENOENT < 0), Same.refl hg.sound⟩) fun n hn => ?_
  have ha := hg.tree.target _ _ _ hn
  refine (hg.get ha).bind fun s1 h1 => ?_
  obtain ⟨h1, i, hi, hdi⟩ := h1
  rw [deref_eq_ok.2 hi, ok_bind]
  refine Post.ite (fun _ => ?_) fun hdir => ?_
  · exact ((hg.same h1).put n).bind fun s2 h2 => Post.pure (Or.inl ⟨(by decide : -ENOTDIR < 0), h1.trans h2⟩)
  · refine ((hg.same h1).put s1.curDir).bind fun s2 h2 => ?_
    refine Post.pure (Or.inr ⟨rfl, n, hn, ⟨ha, by rw [← hdi]; exact not_not.1 hdir⟩, ?_, rfl⟩)
    have h3 := h1.trans h2
    exact h3.trans (Same.of_eq h3.sound rfl rfl rfl rfl rfl h3.curDir.symm rfl rfl)

/-- the data of regular file `n` changed -/
structure Modified (s s' : State) (n : ℤ) : Prop where
  alike : Alike s s' {n}
  dirFails : s'.dirFails = s.dirFails

theorem Modified.graph (h : Modified s s' n) (hg : Graph s D) (hn : ¬s.isDir n) : Graph s' D :=
  hg.alike h.alike fun _ hm hdir => absurd (Set.mem_singleton_iff.1 hm ▸ hdir) hn

/-- what `write` does with a file: it is taken into memory, written, synchronized and put back -/
structure WriteCall (s s' : State) (D : ℤ → List Dirent) (name : List UInt8) (buf : Lib.Mem)
    (start : ℤ) (size : ℕ) (r n : ℤ) (s1 s2 s3 : State) : Prop where
  nonneg : 0 ≤ start
  entry : s.entry D s.curDir name n
  file : ¬s.isDir n
  found : getFileInode s s.curDir name = .ok (0, n, s1)
  get : getInode s n = .ok s1
  same : Same s s1
  write : writeData s1 n buf start size = .ok (r, s2)
  sync : syncInode s2 n = .ok s3
  put : putInode s3 n = .ok s'

theorem writeFile_cases {offset : Int64} {buf : Lib.Mem} {size : ℕ} (hg : Graph s D)
    (hr : writeFile s name offset buf size = .ok (r, s')) :
    (r < 0 ∧ Same s s') ∨ ∃ n s1 s2 s3, WriteCall s s' D name buf offset.toInt size r n s1 s2 s3 := by
  unfold writeFile at hr
  by_cases h0 : offset.toInt < 0
  · rw [if_pos h0] at hr
    cases hr
    exact Or.inl ⟨by decide, Same.refl hg.sound⟩
  rw [if_neg h0] at hr
  obtain ⟨⟨ret, n, s1⟩, hfile, hr⟩ := bind_eq_ok.1 hr
  rcases getFileInode_spec hg _ hfile with ⟨hneg, h1⟩ | ⟨hret, hget, h1, hn, hnot, -⟩
  · dsimp only at hneg hr
    rw [if_pos hneg] at hr
    cases hr
    exact Or.inl ⟨hneg, h1⟩
  · dsimp only at hret hr
    rw [hret, if_neg (lt_irrefl 0)] at hr
    obtain ⟨⟨r2, s2⟩, hw, hr⟩ := bind_eq_ok.1 hr
    obtain ⟨s3, hsync, hr⟩ := bind_eq_ok.1 hr
    obtain ⟨s4, hput, hr⟩ := bind_eq_ok.1 hr
    cases hr
    obtain rfl : ret = 0 := hret
    exact Or.inr ⟨n, s1, s2, s3, not_lt.1 h0, hn, hnot, hfile, hget, h1, hw, hsync, hput⟩

namespace WriteCall

variable {buf : Lib.Mem} {start : ℤ} {size : ℕ} {s1 s2 s3 : State}

theorem alloc (h : WriteCall s s' D name buf start size r n s1 s2 s3) (hg : Graph s D) : s.alloc n :=
  hg.tree.target _ _ _ h.entry

/-- the inode in memory -/
theorem find (h : WriteCall s s' D name buf start size r n s1 s2 s3) (hg : Graph s D) :
    ∃ i, s1.find n = some i ∧ i.dinode = s.dinode n := (hg.get (h.alloc hg) _ h.get).2

theorem grew (h : WriteCall s s' D name buf start size r n s1 s2 s3) (hg : Graph s D) (hstack : ∀ j, s.stack j = 0)
    (hi : s1.find n = some i) : ∃ i', Grew s1 s2 n i i' := by
  obtain ⟨i1, hi1, hdi⟩ := h.find hg
  obtain rfl : i = i1 := Option.some.inj (hi.symm.trans hi1)
  refine writeData_grew (h.same.sound.core.change n) ((h.same.alloc n).2 (h.alloc hg)) hi h.same.sound.inside
    (fun _ => by rw [h.same.stack]; exact hstack) (fun _ hd => absurd ⟨h.alloc hg, ?_⟩ h.file) h.write
  rw [← hdi]
  exact hd

theorem modified (h : WriteCall s s' D name buf start size r n s1 s2 s3) (hg : Graph s D)
    (hstack : ∀ j, s.stack j = 0) :
    Modified s s' n := by
  obtain ⟨i, hi, -⟩ := h.find hg
  obtain ⟨i', hgrew⟩ := h.grew hg hstack hi
  have h2 := hgrew.edited h.same.sound.core.mem
  obtain ⟨h3, -⟩ := syncInode_same h2.sound ((h2.alloc n).2 ((h.same.alloc n).2 (h.alloc hg))) h.sync
  have h4 := h3.trans (putInode_same h3.sound h.put)
  constructor
  · exact ((h.same.alike _).trans (h2.alike (Set.mem_singleton n))).trans (h4.alike _)
  · rw [h4.dirFails, hgrew.touch.frame.dirFails, h.same.dirFails]

end WriteCall

/-- **`write`.** -/
theorem writeFile_spec {offset : Int64} {buf : Lib.Mem} {size : ℕ} (hg : Graph s D) (hstack : ∀ j, s.stack j = 0) :
    Post (writeFile s name offset buf size) fun r =>
      (r.1 < 0 ∧ Same s r.2) ∨ ∃ n, s.entry D s.curDir name n ∧ ¬s.isDir n ∧ Modified s r.2 n := by
  rintro ⟨r, s'⟩ hr
  rcases writeFile_cases hg hr with hsame | ⟨n, s1, s2, s3, h⟩
  · exact Or.inl hsame
  · exact Or.inr ⟨n, h.entry, h.file, h.modified hg hstack⟩

/-! ## All commands -/

/-- a `write` command -/
def Cmd.isWrite : Cmd → Bool
  | .write .. => true
  | _ => false

/-- the name that a command gives to a new inode, and the type of the inode -/
def Cmd.makes : Cmd → Option (ℤ × Token)
  | .create name => some (iFile, name)
  | .mkdir name => some (iDir, name)
  | _ => none

/-- the commands that make an inode -/
theorem makes_eq {c : Cmd} {type : ℤ} {name : Token} (h : c.makes = some (type, name)) :
    (c = .create name ∧ type = iFile) ∨ (c = .mkdir name ∧ type = iDir) := by
  cases c with
  | create =>
    simp only [Cmd.makes, Option.some.injEq, Prod.mk.injEq] at h
    obtain ⟨rfl, rfl⟩ := h
    exact Or.inl ⟨rfl, rfl⟩
  | mkdir =>
    simp only [Cmd.makes, Option.some.injEq, Prod.mk.injEq] at h
    obtain ⟨rfl, rfl⟩ := h
    exact Or.inr ⟨rfl, rfl⟩
  | _ => cases h

/-- the name that a command takes away -/
def Cmd.removes : Cmd → Option Token
  | .rm name => some name
  | _ => none

/-- what a command does to the directories -/
inductive Effect (s : State) (D : ℤ → List Dirent) (c : Cmd) (r : ℤ) (s' : State) : Prop
  | kept : Graph s' D → (∀ m, s'.isDir m ↔ s.isDir m) → s'.stack = s.stack →
    (r < 0 ∨ (c.makes = none ∧ c.removes = none)) → Effect s D c r s'
  | created (type : ℤ) (name : Token) (n : ℤ) (D' : ℤ → List Dirent) : c.makes = some (type, name) → r = 0 →
    Created s s' D D' s.curDir n type name.chars → Effect s D c r s'
  | deleted (name : Token) (n : ℤ) (D' : ℤ → List Dirent) : c.removes = some name → r = 0 →
    Deleted s s' D D' s.curDir n name.chars → Effect s D c r s'

/-- a command reads, or it goes to another directory, or it is one of those that change files -/
theorem exec_cases {c : Cmd} (hg : Graph s D) (hr : exec s c = .ok (r, s')) :
    ((c.makes = none ∧ c.removes = none ∧ c.isWrite = false) ∧ (Same s s' ∨ ∃ n, s.isDir n ∧ Moved s s' n)) ∨
      (∃ type name, c.makes = some (type, name) ∧ (type = iFile ∨ type = iDir) ∧
        createFileOrDir s (some s.curDir) type name.chars = .ok (r, s')) ∨
      (∃ name, c = .rm name ∧ cmdRm s name.chars = .ok (r, s')) ∨
      ∃ name offset data, c = .write name offset data ∧ cmdWrite s name.chars offset data.chars = .ok (r, s') := by
  cases c with
  | create name => exact Or.inr (Or.inl ⟨iFile, name, rfl, Or.inl rfl, hr⟩)
  | mkdir name => exact Or.inr (Or.inl ⟨iDir, name, rfl, Or.inr rfl, hr⟩)
  | rm name => exact Or.inr (Or.inr (Or.inl ⟨name, rfl, hr⟩))
  | write name offset data => exact Or.inr (Or.inr (Or.inr ⟨name, offset, data, rfl, hr⟩))
  | read name offset size => exact Or.inl ⟨⟨rfl, rfl, rfl⟩, Or.inl (cmdRead_same offset size hg (r, s') hr)⟩
  | cd name =>
    rcases cmdCd_spec hg (r, s') hr with ⟨-, h⟩ | ⟨-, n, -, hdir, hmoved⟩
    · exact Or.inl ⟨⟨rfl, rfl, rfl⟩, Or.inl h⟩
    · exact Or.inl ⟨⟨rfl, rfl, rfl⟩, Or.inr ⟨n, hdir, hmoved⟩⟩
  | ls name => exact Or.inl ⟨⟨rfl, rfl, rfl⟩, Or.inl (cmdLs_same false hg (r, s') hr)⟩
  | lsr name => exact Or.inl ⟨⟨rfl, rfl, rfl⟩, Or.inl (cmdLs_same true hg (r, s') hr)⟩
  | stat name => exact Or.inl ⟨⟨rfl, rfl, rfl⟩, Or.inl (cmdStat_same hg (r, s') hr)⟩
  | pwd => exact Or.inl ⟨⟨rfl, rfl, rfl⟩, Or.inl (cmdPwd_same hg (r, s') hr)⟩
  | bad =>
    cases hr
    exact Or.inl ⟨⟨rfl, rfl, rfl⟩, Or.inl (Same.refl hg.sound)⟩

/-- **What every command does.** -/
theorem exec_effect {c : Cmd} (hg : Graph s D) (hcalm : Calm s s') (hwrite : c.isWrite = true → ∀ j, s.stack j = 0)
    (hr : exec s c = .ok (r, s')) : Effect s D c r s' := by
  have hsame : Same s s' → (r < 0 ∨ (c.makes = none ∧ c.removes = none)) → Effect s D c r s' :=
    fun h => .kept (hg.same h) h.isDir h.stack
  rcases exec_cases hg hr
    with ⟨⟨hm, hrm, -⟩, h | ⟨n, hdir, hmoved⟩⟩ | ⟨type, name, hmakes, htype, hr⟩ | ⟨name, rfl, hr⟩ |
    ⟨name, offset, data, rfl, hr⟩
  · exact hsame h (Or.inr ⟨hm, hrm⟩)
  · exact .kept (hmoved.graph hg hdir) hmoved.same.isDir hmoved.same.stack (Or.inr ⟨hm, hrm⟩)
  · rcases createFileOrDir_spec hg hg.cur htype name.noNul (fun _ => hcalm) hr with
      ⟨rfl, rfl, -⟩ | ⟨-, ⟨hneg, hg', halike, -⟩ | ⟨rfl, n, D', hcreated⟩⟩
    · exact hsame (Same.refl hg.sound) (Or.inl (by decide))
    · exact .kept hg' halike.isDir halike.stack (Or.inl hneg)
    · exact .created type name n D' hmakes rfl hcreated
  · rcases cmdRm_spec hg (fun _ => hcalm.junk) hr with
      ⟨rfl, rfl, -⟩ | ⟨-, ⟨rfl, rfl, -⟩ | ⟨n, -, ⟨rfl, h, -⟩ | ⟨rfl, D', hdel⟩⟩⟩
    · exact hsame (Same.refl hg.sound) (Or.inl (by decide))
    · exact hsame (Same.refl hg.sound) (Or.inl (by decide))
    · exact hsame h (Or.inl (by decide))
    · exact .deleted name n D' rfl rfl hdel
  · rcases writeFile_spec hg (hwrite rfl) (r, s') hr with ⟨-, h⟩ | ⟨n, -, hfile, hmod⟩
    · exact hsame h (Or.inr ⟨rfl, rfl⟩)
    · exact .kept (hmod.graph hg hfile) hmod.alike.isDir hmod.alike.stack (Or.inr ⟨rfl, rfl⟩)

/-- every command keeps the directory graph -/
theorem exec_graph {c : Cmd} (hg : Graph s D) (hcalm : Calm s s') (hwrite : c.isWrite = true → ∀ j, s.stack j = 0)
    (hr : exec s c = .ok (r, s')) : (∃ D', Graph s' D') ∧ s'.stack = s.stack := by
  cases exec_effect hg hcalm hwrite hr with
  | kept hg' _ hstack _ => exact ⟨⟨D, hg'⟩, hstack⟩
  | created type name n D' _ _ h => exact ⟨⟨D', h.graph⟩, h.stack⟩
  | deleted name n D' _ _ h => exact ⟨⟨D', h.graph⟩, h.stack⟩

end OsLab.Testfs
