/-
The files as a map from paths.

`view n` is what inode `n` is to a user, `leads p n` says that the path `p` leads to it from the root. `Views s D fs`
relates a state to the files under their paths: `fs` has the nodes that paths lead to, and its current directory is the
path of the current directory. The lemmas follow the changes of the directory graph: files that are as before
(`Views.alike`), one path more (`Views.created`), one path less (`Views.deleted`), another file at the end of a path
(`Views.modified`).
-/
import OsLab.Lib.Paths
import OsLab.Testfs.Mirror
import OsLab.Testfs.Paths

namespace OsLab.Testfs

open OsLab.Lib Function State

variable {s s' s1 : State} {n m d type r : ℤ} {D D' : ℤ → List Dirent} {fs : Fs} {p : Path}
  {v : Node} {k name : List UInt8} {X : Set ℤ} {fsSizeMb : ℕ} {stack : ℕ → ℤ}

/-- what inode `n` is to a user -/
def State.view (s : State) (n : ℤ) : Node :=
  if (s.dinode n).iType = iDir then .dir else .file (s.dinode n).iSize (s.content n)

/-- the path `p` leads from the root to inode `n` -/
def State.leads (s : State) (D : ℤ → List Dirent) (p : Path) (n : ℤ) : Prop := Leads (down dot dotdot (s.entry D)) 0 p n

/-- the files under their paths -/
structure Views (s : State) (D : ℤ → List Dirent) (fs : Fs) : Prop where
  node : ∀ p v, fs.node p = some v ↔ ∃ n, s.leads D p n ∧ s.view n = v
  cwd : s.leads D fs.cwd s.curDir

/-! ## Nodes -/

theorem view_of_dir (h : s.isDir n) : s.view n = .dir := if_pos h.2

theorem view_of_file (h : (s.dinode n).iType ≠ iDir) : s.view n = .file (s.dinode n).iSize (s.content n) := if_neg h

theorem view_eq_file {size : ℤ} {data : Lib.Mem} (h : s.view n = .file size data) :
    (s.dinode n).iType ≠ iDir ∧ size = (s.dinode n).iSize ∧ data = s.content n := by
  unfold State.view at h
  split_ifs at h with ht
  obtain ⟨hsize, hdata⟩ := Node.file.inj h
  exact ⟨ht, hsize.symm, hdata.symm⟩

theorem view_type (hs : Sound s) (hn : s.alloc n) : (s.view n).type = (s.dinode n).iType := by
  unfold State.view
  split_ifs with ht
  · exact ht.symm
  · exact ((hs.core.mem.typed n hn).resolve_right ht).symm

theorem view_congr (htype : (s'.dinode n).iType = (s.dinode n).iType)
    (hfile : (s.dinode n).iType ≠ iDir → s'.dinode n = s.dinode n ∧ s'.content n = s.content n) :
    s'.view n = s.view n := by
  unfold State.view
  rw [htype]
  split_ifs with ht
  · rfl
  · rw [(hfile ht).1, (hfile ht).2]

/-- every inode is on disk as it is in memory -/
def OnDisk (s : State) : Prop := ∀ m, s.dinode m = s.diskDinode m

/-- an inode that is on disk as in memory is read and written back as it is -/
theorem Carries.dinode_eq (h : Carries s s' m) (hm : s.dinode m = s.diskDinode m) : s'.dinode m = s.dinode m := by
  rcases h.mem with heq | heq
  · exact heq
  · rw [heq, hm]

/-! ## Paths -/

theorem Graph.leads_alloc (hg : Graph s D) (hp : s.leads D p n) : s.alloc n := hg.tree.node_of_leads hp

theorem Graph.leads_unique (hg : Graph s D) (hn : s.leads D p n) (hm : s.leads D p m) : n = m :=
  hg.tree.target_unique hn hm

theorem Views.of_leads (h : Views s D fs) (hp : s.leads D p n) : fs.node p = some (s.view n) :=
  (h.node p _).2 ⟨n, hp, rfl⟩

/-- the entries of a directory -/
theorem Views.child_iff (h : Views s D fs) (hg : Graph s D) (hp : s.leads D p n) :
    fs.node (p ++ [k]) = some v ↔ Proper dot dotdot k ∧ ∃ m, s.entry D n k m ∧ s.view m = v := by
  rw [h.node]
  constructor
  · rintro ⟨m, hm, hv⟩
    obtain ⟨q, hq, hk, he⟩ := leads_concat_iff.1 hm
    obtain rfl := hg.leads_unique hq hp
    exact ⟨hk, m, he, hv⟩
  · rintro ⟨hk, m, he, hv⟩
    exact ⟨m, leads_concat_iff.2 ⟨n, hp, hk, he⟩, hv⟩

/-- a name in the current directory -/
theorem Views.resolve_some (h : Views s D fs) (hg : Graph s D) (he : s.entry D s.curDir k n) :
    ∃ p, fs.resolve k = some p ∧ s.leads D p n := by
  unfold Fs.resolve
  by_cases hdot : k = dot
  · subst hdot
    obtain rfl := hg.tree.unique _ _ _ _ he (hg.tree.self _ hg.cur)
    exact ⟨fs.cwd, if_pos rfl, h.cwd⟩
  rw [if_neg hdot]
  by_cases hdotdot : k = dotdot
  · subst hdotdot
    exact ⟨_, if_pos rfl, hg.tree.leads_up h.cwd he⟩
  rw [if_neg hdotdot]
  have hp : s.leads D (fs.cwd ++ [k]) n := leads_concat_iff.2 ⟨_, h.cwd, ⟨hdot, hdotdot⟩, he⟩
  exact ⟨_, by rw [h.of_leads hp]; rfl, hp⟩

theorem Views.resolve_none (h : Views s D fs) (hg : Graph s D) (hfree : ∀ m, ¬s.entry D s.curDir k m) :
    fs.resolve k = none := by
  have hk := hg.proper_of_free hg.cur hfree
  unfold Fs.resolve
  rw [if_neg hk.1, if_neg hk.2, Option.map_eq_none_iff, Option.eq_none_iff_forall_not_mem]
  intro v hv
  obtain ⟨-, m, he, -⟩ := (h.child_iff hg h.cwd).1 hv
  exact hfree m he

/-! ## Changes -/

/-- the same paths, with the same files at their ends -/
theorem Views.congr (h : Views s D fs) (hg : Graph s D) (hleads : ∀ p n, s'.leads D' p n ↔ s.leads D p n)
    (hview : ∀ n, s.alloc n → s'.view n = s.view n) (hcur : s'.curDir = s.curDir) : Views s' D' fs := by
  refine ⟨fun p v => ?_, ?_⟩
  · rw [h.node]
    constructor
    · rintro ⟨n, hn, hv⟩
      exact ⟨n, (hleads p n).2 hn, (hview n (hg.leads_alloc hn)).trans hv⟩
    · rintro ⟨n, hn, hv⟩
      have hn' := (hleads p n).1 hn
      exact ⟨n, hn', (hview n (hg.leads_alloc hn')).symm.trans hv⟩
  · rw [hleads, hcur]
    exact h.cwd

theorem Alike.entry_eq (halike : Alike s s' X) (D : ℤ → List Dirent) : s'.entry D = s.entry D := by
  funext a k b
  unfold State.entry
  rw [halike.isDir]

theorem Alike.leads_iff (halike : Alike s s' X) : s'.leads D p n ↔ s.leads D p n := by
  unfold State.leads
  rw [halike.entry_eq]

/-- outside of directories nothing has changed -/
theorem Alike.view (halike : Alike s s' X) (hdisk : OnDisk s) (hX : ∀ m ∈ X, s.isDir m) (hm : s.alloc m) :
    s'.view m = s.view m := by
  refine view_congr (halike.type m hm) fun hfile => ?_
  have hmX : m ∉ X := fun hc => hfile (hX m hc).2
  exact ⟨(halike.carries m hm hmX).dinode_eq (hdisk m), (halike.still m hm hmX).content⟩

/-- a step that left the names and the regular files alone -/
theorem Views.alike (h : Views s D fs) (hg : Graph s D) (halike : Alike s s' X) (hdisk : OnDisk s)
    (hX : ∀ m ∈ X, s.isDir m) : Views s' D fs :=
  h.congr hg (fun _ _ => halike.leads_iff) (fun _ hm => halike.view hdisk hX hm) halike.curDir

theorem Views.same (h : Views s D fs) (hg : Graph s D) (hsame : Same s s') (hdisk : OnDisk s) : Views s' D fs :=
  h.alike hg (hsame.alike ∅) hdisk fun _ hm => absurd hm (Set.notMem_empty _)

/-- the current directory is another one -/
theorem Views.moved (h : Views s D fs) (hg : Graph s D) (hmoved : Moved s s' n) (hdisk : OnDisk s)
    (hp : s.leads D p n) :
    Views s' D { fs with cwd := p } := by
  have hsame := h.same hg hmoved.same hdisk
  refine ⟨hsame.node, ?_⟩
  rw [hmoved.curDir]
  exact (hmoved.same.alike ∅).leads_iff.2 hp

/-- the end of one path is another file -/
theorem Views.modified (h : Views s D fs) (hg : Graph s D) (hmod : Modified s s' n) (hdisk : OnDisk s)
    (hp : s.leads D p n) (hv : s'.view n = v) : Views s' D (fs.set p (some v)) := by
  refine ⟨fun q w => ?_, ?_⟩
  · by_cases hq : q = p
    · subst hq
      rw [Fs.set_self]
      constructor
      · intro heq
        obtain rfl := Option.some.inj heq
        exact ⟨n, hmod.alike.leads_iff.2 hp, hv⟩
      · rintro ⟨m, hm, rfl⟩
        obtain rfl := hg.leads_unique (hmod.alike.leads_iff.1 hm) hp
        rw [hv]
    · have hother : ∀ m, s.leads D q m → s'.view m = s.view m := by
        intro m hm
        have hmn : m ∉ ({n} : Set ℤ) := by
          rintro rfl
          exact hq (hg.tree.path_unique hm hp)
        have ha := hg.leads_alloc hm
        refine view_congr (hmod.alike.type m ha) fun _ => ?_
        exact ⟨(hmod.alike.carries m ha hmn).dinode_eq (hdisk m), (hmod.alike.still m ha hmn).content⟩
      rw [Fs.set_of_ne hq, h.node]
      constructor
      · rintro ⟨m, hm, rfl⟩
        exact ⟨m, hmod.alike.leads_iff.2 hm, hother m hm⟩
      · rintro ⟨m, hm, rfl⟩
        have hm' := hmod.alike.leads_iff.1 hm
        exact ⟨m, hm', (hother m hm').symm⟩
  · rw [hmod.alike.curDir]
    exact hmod.alike.leads_iff.2 h.cwd

/-! ## New and removed files -/

/-- one path more -/
theorem Views.created (h : Views s D fs) (hg : Graph s D) (hnew : Created s s' D D' s.curDir n type name)
    (hfree : ∀ m, ¬s.entry D s.curDir name m) (hview : ∀ m, s.alloc m → s'.view m = s.view m) (hv : s'.view n = v) :
    Views s' D' (fs.set (fs.cwd ++ [name]) (some v)) := by
  have hname := hg.proper_of_free hg.cur hfree
  have hleads : ∀ p m, s'.leads D' p m ↔ s.leads D p m ∨ (m = n ∧ p = fs.cwd ++ [name]) := by
    intro p m
    refine (hg.tree.leads_add_iff hname hg.cur hnew.fresh hnew.entry).trans
      (or_congr_right (and_congr_right fun _ => ?_))
    constructor
    · rintro ⟨ls, hls, rfl⟩
      rw [hg.tree.path_unique hls h.cwd]
    · rintro rfl
      exact ⟨fs.cwd, h.cwd, rfl⟩
  have hfresh : ∀ m, ¬s.leads D (fs.cwd ++ [name]) m := by
    intro m hm
    obtain ⟨q, hq, -, he⟩ := leads_concat_iff.1 hm
    exact hfree m (hg.leads_unique hq h.cwd ▸ he)
  refine ⟨fun p w => ?_, ?_⟩
  · by_cases hp : p = fs.cwd ++ [name]
    · subst hp
      rw [Fs.set_self]
      constructor
      · intro heq
        exact ⟨n, (hleads _ n).2 (Or.inr ⟨rfl, rfl⟩), hv.trans (Option.some.inj heq)⟩
      · rintro ⟨m, hm, rfl⟩
        obtain ⟨rfl, -⟩ := ((hleads _ m).1 hm).resolve_left (hfresh m)
        rw [hv]
    · rw [Fs.set_of_ne hp, h.node]
      constructor
      · rintro ⟨m, hm, rfl⟩
        exact ⟨m, (hleads p m).2 (Or.inl hm), hview m (hg.leads_alloc hm)⟩
      · rintro ⟨m, hm, rfl⟩
        have hm' := ((hleads p m).1 hm).resolve_right fun hc => hp hc.2
        exact ⟨m, hm', (hview m (hg.leads_alloc hm')).symm⟩
  · rw [hnew.curDir]
    exact (hleads _ _).2 (Or.inl h.cwd)

/-- what is removed has no entries -/
theorem Deleted.bare (h : Deleted s s' D D' d n name) (hg : Graph s D) (hk : Proper dot dotdot k) :
    ¬s.entry D n k m := by
  intro he
  have hmn : m ≠ n := (hg.tree.ne_of_proper hk he).symm
  have hm0 : m ≠ 0 := by
    rintro rfl
    exact hg.tree.rootFree n k hk he
  -- the entry of a file that stays is in a directory that stays
  obtain ⟨a, b, hb, he'⟩ := h.graph.tree.named m ((h.alloc m).2 ⟨hg.tree.target _ _ _ he, hmn⟩) hm0
  obtain ⟨he', han, -⟩ := (h.entry a b m).1 he'
  exact han (hg.tree.once _ _ _ _ _ hb hk he' he).1

/-- a file without blocks has no bytes -/
theorem content_of_zero (h : SamePtrs Dinode.zero (s.dinode n)) : s.content n = zeroMem := by
  funext o
  have hphys : s.phys n (o / 8192) = 0 := by
    unfold State.phys
    split_ifs
    · exact tree_zero h _
    · rfl
  rw [content_eq, hphys]
  rfl

/-- **`create` and `mkdir` that succeed.** -/
theorem createFileOrDir_makes (hg : Graph s D) (hdisk : OnDisk s)
    (htype : type = iFile ∨ type = iDir) (hname : 0 ∉ name)
    (hr : createFileOrDir s (some s.curDir) type name = .ok (0, s')) :
    ∃ n D', Created s s' D D' s.curDir n type name ∧ (∀ m, s.alloc m → s'.view m = s.view m) ∧
      s'.view n = Node.new type := by
  have hd := hg.cur
  obtain ⟨nr, hlook, hmake⟩ := createFileOrDir_cases hr
  obtain ⟨-, hnr⟩ := dirNameToInodeNr_eq (hg.directory hd) (hg.pos hd.1) hlook
  obtain ⟨hneg, r1, n, s1, hcreate, hlink⟩ := hmake.resolve_left fun hc => absurd hc.2.1 (by decide)
  have hfree : ∀ m, ¬s.entry D s.curDir name m := by
    refine (hg.lookup_none hd).1 ?_
    cases hl : Testfs.lookup (D s.curDir) name with
    | none => rfl
    | some m =>
      rw [hl, Option.getD_some] at hnr
      exact absurd (names_nonneg ((hg.lookup hd).1 hl).2) (by omega)
  obtain ⟨h0, hr1⟩ := hlink.resolve_left fun hc => lt_irrefl _ hc.1
  obtain ⟨rfl, hborn⟩ := (createInode_spec hg.sound htype hcreate).resolve_left fun hc =>
    absurd h0 (not_le.2 (by rw [hc.1]; decide))
  obtain ⟨hn1, hd1, hdn, hnew, hdir1⟩ := hborn.around hg hd
  obtain ⟨-, hlinked⟩ := (linkInode_spec hborn.sound hn1 hd1 hdn hnew hdir1 hname
    (fun hc => absurd hc (lt_irrefl 0)) hr1).resolve_right fun hc => lt_irrefl 0 hc.1
  obtain ⟨D', hmade⟩ := hlinked.created hborn hg hd hname (hg.proper_of_free hd hfree) hfree
  refine ⟨n, D', hmade, fun m hm => ?_, ?_⟩
  · by_cases hmd : m = s.curDir
    · subst hmd
      rw [view_of_dir hd, view_of_dir ((hmade.isDir _).2 (Or.inl hd))]
    · have hmn : m ≠ n := fun hc => hborn.fresh (hc ▸ hm)
      have hdinode := (hmade.carries m hm hmd).dinode_eq (hdisk m)
      have hstill := hlinked.alike.still m ((hborn.alloc m).2 (Or.inl hm)) (by simp [hmn, hmd])
      exact view_congr (by rw [hdinode]) fun _ => ⟨hdinode, hstill.content.trans (hborn.still m hm).content⟩
  · rcases htype with rfl | rfl
    · have hfile : iFile ≠ iDir := by decide
      have htype' : (s'.dinode n).iType ≠ iDir := by
        rw [hlinked.alike.type n hn1, hborn.type]
        exact hfile
      have hptrs : SamePtrs Dinode.zero (s'.dinode n) := by
        rcases (hlinked.carries hfile).mem with heq | heq
        · obtain ⟨i, hi, hdi, -⟩ := hborn.find
          rw [heq, dinode_of_find hi, hdi]
          exact ⟨rfl, rfl, rfl⟩
        · rw [heq, hborn.disk, (hg.sound.core.mem.fresh n hn1.1 (hborn.sound.core.mem.allocRange n hn1) hborn.fresh).1]
          exact ⟨rfl, rfl, rfl⟩
      rw [view_of_file htype', (hmade.size hfile).1, content_of_zero hptrs]
      rfl
    · exact view_of_dir ((hmade.isDir n).2 (Or.inr ⟨rfl, rfl⟩))

/-- one path less -/
theorem Views.deleted (h : Views s D fs) (hg : Graph s D) (hgone : Deleted s s' D D' s.curDir n name)
    (hname : Proper dot dotdot name) (hview : ∀ m, s.alloc m → m ≠ n → s'.view m = s.view m) :
    Views s' D' (fs.set (fs.cwd ++ [name]) none) := by
  have hp : s.leads D (fs.cwd ++ [name]) n := leads_concat_iff.2 ⟨_, h.cwd, hname, hgone.was⟩
  have hleads : ∀ p m, s'.leads D' p m ↔ s.leads D p m ∧ m ≠ n := fun p m =>
    hg.tree.leads_remove_iff hname hgone.was (fun _ _ hb => hgone.bare hg hb) hgone.entry
  refine ⟨fun p w => ?_, ?_⟩
  · by_cases heq : p = fs.cwd ++ [name]
    · subst heq
      rw [Fs.set_self]
      constructor
      · intro hc
        cases hc
      · rintro ⟨m, hm, -⟩
        obtain ⟨hm, hmn⟩ := (hleads _ m).1 hm
        exact absurd (hg.leads_unique hm hp) hmn
    · rw [Fs.set_of_ne heq, h.node]
      constructor
      · rintro ⟨m, hm, rfl⟩
        have hmn : m ≠ n := by
          rintro rfl
          exact heq (hg.tree.path_unique hm hp)
        exact ⟨m, (hleads p m).2 ⟨hm, hmn⟩, hview m (hg.leads_alloc hm) hmn⟩
      · rintro ⟨m, hm, rfl⟩
        obtain ⟨hm, hmn⟩ := (hleads p m).1 hm
        exact ⟨m, hm, (hview m (hg.leads_alloc hm) hmn).symm⟩
  · rw [hgone.curDir]
    exact (hleads _ _).2 ⟨h.cwd, hg.tree.ne_of_proper hname hgone.was⟩

/-- nothing lies below the path of what is removed -/
theorem Views.no_child (h : Views s D fs) (hg : Graph s D) (hgone : Deleted s s' D D' s.curDir n name)
    (hname : Proper dot dotdot name) (k : List UInt8) : fs.node (fs.cwd ++ [name] ++ [k]) = none := by
  have hp : s.leads D (fs.cwd ++ [name]) n := leads_concat_iff.2 ⟨_, h.cwd, hname, hgone.was⟩
  rw [Option.eq_none_iff_forall_not_mem]
  intro v hv
  obtain ⟨hk, m, he, -⟩ := (h.child_iff hg hp).1 hv
  exact hgone.bare hg hk he

/-- **`rm` that succeeds.** -/
theorem Deleted.view (h : Deleted s s' D D' s.curDir n name) (hg : Graph s D) (hdisk : OnDisk s)
    (hr : cmdRm s name = .ok (0, s')) (hm : s.alloc m) (hmn : m ≠ n) : s'.view m = s.view m := by
  by_cases hmd : m = s.curDir
  · subst hmd
    rw [view_of_dir hg.cur, view_of_dir ((h.isDir _).2 ⟨hg.cur, hmn⟩)]
  have hdinode := (h.carries m hm hmd hmn).dinode_eq (hdisk m)
  refine view_congr (by rw [hdinode]) fun _ => ⟨hdinode, ?_⟩
  have hn : s.alloc n := hg.tree.target _ _ _ h.was
  rcases cmdRm_steps hg (fun hc => absurd hc (lt_irrefl 0)) hr with
    hsame | ⟨n', r, pre, e, post, t, s1, s2, s3, -, hdn, -, h1, -, -, h2, h3, h4, -, -, hsync⟩
  · exact absurd rfl ((h.alloc n).1 ((hsame.alloc n).2 hn)).2
  · have hm1 := (h1.alloc m).2 hm
    have hm2 := (h3.alloc m).2 ((h2.alloc m).2 hm1)
    have hcur := (h4.alloc _).2 ⟨(h3.alloc _).2 ((h2.alloc _).2 ((h1.alloc _).2 hg.cur.1)), hdn⟩
    obtain ⟨h5, -⟩ := syncInode_same h4.sound hcur hsync
    -- the inode that was removed is the one that is not in use any more
    have hmn' : m ≠ n' := by
      rintro rfl
      have hs' := (h.alloc m).2 ⟨hm, hmn⟩
      exact ((h4.alloc m).1 ((h5.alloc m).1 hs')).2 rfl
    have hm3 := (h4.alloc m).2 ⟨hm2, hmn'⟩
    rw [(h5.still m hm3).content, (h4.still m hm2 hmn').content, (h3.still m ((h2.alloc m).2 hm1)).content,
      (h2.still m hm1 hmd).content, (h1.still m hm).content]

/-! ## A new file system -/

theorem start_views (hk : validSize fsSizeMb) (h0 : start fsSizeMb stack = .ok s) :
    Graph s (fun _ => newDir 0 0) ∧ Views s (fun _ => newDir 0 0) Fs.empty := by
  obtain ⟨hg, -, -⟩ := start_graph hk h0
  have hcur : s.curDir = 0 := (start_root hk h0).2.2.2.2.1
  have hroot : s.isDir 0 := hcur ▸ hg.cur
  have hnone : ∀ a k b, ¬down dot dotdot (s.entry fun _ => newDir 0 0) a k b := by
    intro a k b hstep
    obtain ⟨hk, -, he⟩ := hstep
    rcases (names_newDir (le_refl 0) (le_refl 0)).1 he with ⟨rfl, -⟩ | ⟨rfl, -⟩
    · exact hk.1 rfl
    · exact hk.2 rfl
  have hleads : ∀ p n, s.leads (fun _ => newDir 0 0) p n ↔ p = [] ∧ n = 0 := by
    intro p n
    rcases List.eq_nil_or_concat' p with rfl | ⟨p, k, rfl⟩
    · simp [State.leads, leads_nil_iff]
    · constructor
      · intro hp
        obtain ⟨q, -, hstep⟩ := leads_concat_iff.1 hp
        exact absurd hstep (hnone q k n)
      · rintro ⟨hp, -⟩
        simp at hp
  refine ⟨hg, fun p v => ?_, (hleads _ _).2 ⟨rfl, hcur⟩⟩
  simp only [hleads]
  by_cases hp : p = []
  · subst hp
    simp [Fs.empty, view_of_dir hroot]
  · simp [Fs.empty, hp]

end OsLab.Testfs
