/-
Sessions of `testfs`.

`main` of `testfs.c` reads commands until the end of its input, puts the current directory back and closes the super
block; the next session reads the file system from the device and begins in the root directory. `Op` is a command or the
end of a session with the beginning of the next one. Over any number of sessions on a new file system, every command
returns and prints what `Fs.Does` allows for files under paths, and the files of the device are those files
(`sessions_keep_files`). The test on the commands is that of `Testfs.Mirror`, and `plain` for the arguments of `read`
and `write`.
-/
import OsLab.Lib.Simulation
import OsLab.Testfs.Refines

namespace OsLab.Testfs

open OsLab.Lib Function State

variable {s s' s0 t u v : State} {n m : ℤ} {D : ℤ → List Dirent} {fs fs' : Fs} {dev : Dev}
  {fsSizeMb : ℕ} {stack : ℕ → ℤ}

/-! ## The program -/

/-- the end of `main`, and its beginning -/
def reopen (s : State) : Except Stop State := do
  let t ← putInode s s.curDir
  let dev ← closeSuperBlock t
  let u ← initSuperBlock dev s.stack
  getInode u 0

inductive Op where
  | cmd (c : Cmd)
  | reopen

/-- what an operation returns and prints -/
def Op.exec (s : State) : Op → Except Stop ((ℤ × List Print) × State)
  | .cmd c => do
    let (r, s') ← Testfs.exec s c
    return ((r, s'.out.drop s.out.length), s')
  | .reopen => do
    let s' ← Testfs.reopen s
    return ((0, []), s')

/-- the test on the state before an operation -/
def Op.good (s : State) : Op → Bool
  | .cmd c => mirrored s c && plain c
  | .reopen => true

/-- what an operation may do -/
def Op.Does (fs : Fs) : Op → ℤ × List Print → Fs → Prop
  | .cmd c, r, fs' => fs.Does c r fs'
  | .reopen, r, fs' => r = (0, []) ∧ fs' = { fs with cwd := [] }

/-! ## Closing and opening -/

/-- the device that is closed is the one that is opened -/
theorem reopened_of_close (hs : Sound s) (hput : putInode s s.curDir = .ok t) (hclose : closeSuperBlock t = .ok dev)
    (hinit : initSuperBlock dev stack = .ok u) : Image t dev ∧ Reopened t u ∧ u.dev = dev ∧ u.stack = stack := by
  have hsame := putInode_same hs hput
  obtain ⟨hhash, himage⟩ := closeSuperBlock_image hsame.sound.core.geo hclose
  have hnone : ∀ m j, t.find m = some j → j.dirty = false := by
    intro m j hj
    simp [State.find, hhash] at hj
  exact ⟨himage, hsame.sound.reopen himage hnone hinit⟩

/-- the files after the device was closed and opened -/
theorem reopen_before (h : Before s D fs) (hr : reopen s = .ok v) : Before v D { fs with cwd := [] } := by
  have hg := h.graph
  unfold reopen at hr
  obtain ⟨t, hput, hr⟩ := bind_eq_ok.1 hr
  obtain ⟨dev, hclose, hr⟩ := bind_eq_ok.1 hr
  obtain ⟨u, hinit, hget⟩ := bind_eq_ok.1 hr
  have hsame := putInode_same hg.sound hput
  obtain ⟨himage, hu, hdev, hstack⟩ := reopened_of_close hg.sound hput hclose hinit
  have hfind : ∀ m, u.find m = none := fun m => by simp [State.find, hu.hash]
  -- the same files, but for the current directory
  set w : State := { u with curDir := t.curDir } with hw
  have halike : Alike t w ∅ := by
    refine ⟨hu.sound.of_eq rfl rfl rfl rfl rfl, hu.alloc, fun m hm => (hu.still m hm).type,
      fun m hm _ => ?_, rfl, ?_, ?_, fun m hm _ => ⟨Or.inr (hu.dinode m), Or.inr ?_⟩⟩
    · exact ⟨(hu.still m hm).type, (hu.still m hm).size, (hu.still m hm).tree, (hu.still m hm).content⟩
    · rw [hsame.stack]
      exact hstack
    · rw [hw, hdev, himage.nblocks]
    · rw [← hu.dinode]
      exact (dinode_of_none (hfind m)).symm
  have hall := (hsame.alike ∅).trans halike
  have hgw : Graph w D := hg.alike hall fun m hm => absurd hm (Set.notMem_empty m)
  have hvw : Views w D fs := h.views.alike hg hall h.resting.dinode fun m hm => absurd hm (Set.notMem_empty m)
  have hcur : u.isDir u.curDir := by
    rw [hu.curDir]
    exact hgw.tree.rootDir
  have hgu : Graph u D := ⟨⟨hu.sound, fun m hm => let hd := hgw.directory hm; ⟨hd.1, hd.2, hd.3, hd.4, hd.5, hd.6⟩⟩,
    hgw.distinct, hgw.tree, hcur⟩
  have hvu : Views u D { fs with cwd := [] } := ⟨hvw.node, leads_nil_iff.2 hu.curDir⟩
  have hlast : Same u v := (hgu.get (hu.curDir ▸ hcur.1) v hget).1
  have hdisk : OnDisk u := fun m => dinode_of_none (hfind m)
  refine ⟨hgu.same hlast, hvu.same hgu hlast hdisk, ⟨_, hgu.same hlast⟩, ?_, ?_, ?_, ?_⟩
  · rw [hlast.stack, hstack]
    exact h.resting.stack
  · rw [hlast.dirFails, hu.dirFails]
    exact fun x hx => absurd hx List.not_mem_nil
  · exact (initSuperBlock_back u hinit).root v hget
  · refine hlast.settles ∅ Eq (fun _ => rfl) fun m i hi => ?_
    rw [hfind m] at hi
    cases hi

/-! ## Sessions -/

/-- the files `fs` are on the device -/
def HasFiles (s : State) (fs : Fs) : Prop := ∃ D, Before s D fs

theorem op_simulates : Simulates Op.exec Op.good HasFiles Op.Does := by
  rintro s fs o r t ⟨D, h⟩ hgood hr
  cases o with
  | cmd c =>
    obtain ⟨hmirrored, hplain⟩ := Bool.and_eq_true_iff.1 hgood
    obtain ⟨⟨r, t⟩, hexec, hr⟩ := bind_eq_ok.1 hr
    cases hr
    obtain ⟨out, fs', D', hout, hdoes, hg', hv'⟩ := exec_answers h hmirrored hplain _ hexec
    refine ⟨fs', ?_, D', hg', hv', exec_resting h.resting hmirrored hexec⟩
    rw [hout, List.drop_left]
    exact hdoes
  | reopen =>
    obtain ⟨t, hreopen, hr⟩ := bind_eq_ok.1 hr
    cases hr
    exact ⟨_, ⟨rfl, rfl⟩, D, reopen_before h hreopen⟩

theorem start_hasFiles (hk : validSize fsSizeMb) (hstack : ∀ j, stack j = 0) (h0 : start fsSizeMb stack = .ok s0) :
    HasFiles s0 Fs.empty := by
  obtain ⟨hg, hv⟩ := start_views hk h0
  exact ⟨_, hg, hv, start_resting hk hstack h0⟩

/-- **Over any number of sessions, `testfs` keeps files under paths.** -/
theorem sessions_keep_files {l : List (Op × ℤ × List Print)} (hk : validSize fsSizeMb) (hstack : ∀ j, stack j = 0)
    (h0 : start fsSizeMb stack = .ok s0) (hcalls : Calls Op.exec Op.good s0 l s) :
    ∃ fs D, History Op.Does Fs.empty l fs ∧ Graph s D ∧ Views s D fs := by
  obtain ⟨fs, hhistory, D, h⟩ := op_simulates.history (start_hasFiles hk hstack h0) hcalls
  exact ⟨fs, D, hhistory, h.graph, h.views⟩

/-- a file and a directory are made in one session, and the file is read in the next -/
def twoSessions : List (Op × ℤ × List Print) :=
  [(.cmd (.mkdir tokenF), 0, []), (.cmd (.create tokenG), 0, []), (.cmd (.write tokenG 0 tokenF), 1, []),
    (.cmd (.cd tokenF), 0, []), (.reopen, 0, []), (.cmd (.read tokenG 0 1), 1, [.data tokenF.chars])]

theorem exists_twoSessions : ∃ s0 s, start 1 (fun _ => 0) = .ok s0 ∧ Calls Op.exec Op.good s0 twoSessions s := by
  have h : after (start 1 fun _ => 0) (fun s0 => replays Op.exec Op.good
      (fun rs _ => decide (rs = twoSessions.map Prod.snd)) [] s0 (twoSessions.map Prod.fst)) = true := by decide +kernel
  obtain ⟨s0, h0, h⟩ := exists_of_after h
  obtain ⟨l, s, hcalls, hops, hres⟩ := calls_of_replays h
  have hl : l = twoSessions := by
    rw [← List.zip_unzip l, List.unzip_eq_map]
    exact (congrArg₂ List.zip hops (of_decide_eq_true hres)).trans (List.zip_unzip twoSessions)
  exact ⟨s0, s, h0, hl ▸ hcalls⟩

theorem sessions_keep_files_of_two : ∃ s0 s, start 1 (fun _ => 0) = .ok s0 ∧ Calls Op.exec Op.good s0 twoSessions s ∧
    ∃ fs D, History Op.Does Fs.empty twoSessions fs ∧ Graph s D ∧ Views s D fs := by
  obtain ⟨s0, s, h0, hcalls⟩ := exists_twoSessions
  exact ⟨s0, s, h0, hcalls, sessions_keep_files ⟨le_rfl, by norm_num⟩ (fun _ => rfl) h0 hcalls⟩

end OsLab.Testfs
