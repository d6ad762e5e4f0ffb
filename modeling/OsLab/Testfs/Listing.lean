/-
What `pwd` and `ls` print.

`pwd` prints the path of a directory (`pwdLoop_prints`): the way up along `..` is the path read backwards, and the entry
that `testfs_find_dirent` finds for a directory in its parent is the last name of its path. `ls` prints every name of a
directory once, each with whether it stands for a directory, and `lsr` prints after the name of a directory what is in
it, but not below `.` and `..` (`lsDepth_prints`).
-/
import OsLab.Testfs.Views

namespace OsLab.Testfs

open OsLab.Lib Function State

variable {s s0 t : State} {n m : ℤ} {D : ℤ → List Dirent} {fs : Fs} {p : Path} {es pre post : List Dirent} {e : Dirent}
  {recursive : Bool} {fuel : ℕ} {k : List UInt8} {b : Bool}

/-! ## Inodes that are taken and put back -/

theorem Graph.get_out (hg : Graph s D) (hn : s.alloc n) : Post (getInode s n) fun t =>
    Same s t ∧ t.out = s.out ∧ ∃ i, t.find n = some i ∧ i.dinode = s.dinode n := by
  intro t ht
  obtain ⟨hsame, hi⟩ := hg.get hn t ht
  exact ⟨hsame, getInode_out s n t ht, hi⟩

theorem Graph.put_out (hg : Graph s D) (n : ℤ) : Post (putInode s n) fun t => Same s t ∧ t.out = s.out := fun t ht =>
  ⟨hg.put n t ht, putInode_out s n t ht⟩

/-! ## `testfs_pwd` -/

/-- two directories are not the parents of each other -/
theorem Graph.ne_dotdot (hg : Graph s D) (hn : s.entry D n dotdot m) (hne : m ≠ n) : ¬s.entry D m dotdot n := by
  intro hm
  obtain ⟨ks, hks⟩ := hg.tree.exists_path (hg.tree.dirNode n hn.1)
  have hup := hg.tree.leads_up (hg.tree.leads_up hks hn) hm
  have hlen := congrArg List.length (hg.tree.path_unique hks hup)
  have hnil : ks = [] := by
    rw [List.length_dropLast, List.length_dropLast] at hlen
    exact List.length_eq_zero_iff.1 (by omega)
  -- then it is the root, which is its own parent
  subst hnil
  exact hne ((hg.leads_unique hks (hg.tree.leads_up hks hn)).symm)

/-- the entry for a directory in its parent has the last name of its path -/
theorem Graph.leads_concat (hg : Graph s D) (hn : s.entry D n dotdot m) (hne : m ≠ n) (he : s.entry D m k n)
    (hp : s.leads D p n) : ∃ q, p = q ++ [k] ∧ s.leads D q m := by
  have hk : Proper dot dotdot k := by
    constructor
    · rintro rfl
      exact hne (hg.tree.unique _ _ _ _ (hg.tree.self m he.1) he)
    · rintro rfl
      exact hg.ne_dotdot hn hne he
  have hq := hg.tree.leads_up hp hn
  exact ⟨p.dropLast, hg.tree.path_unique hp (leads_concat_iff.2 ⟨m, hq, hk, he⟩), hq⟩

/-- `testfs_find_dirent` finds nothing but an entry for the inode -/
theorem Graph.findDirent (hg : Graph s D) (hn : s.isDir n) (hm : 0 ≤ m) : Post (findDirent s n m) fun r =>
    ∀ e, r = some e → s.entry D n e.str m := by
  intro r hr e he
  subst he
  unfold Testfs.findDirent at hr
  obtain ⟨⟨a, o⟩, hscan, hr⟩ := bind_eq_ok.1 hr
  obtain ⟨-, rfl, -⟩ := scan_eq (hg.directory hn) (hg.pos hn.1) hscan
  obtain ⟨x, hx, hfound⟩ := List.exists_of_findSome?_eq_some (Except.ok.inj hr)
  obtain ⟨hnr, hxe⟩ := Option.ite_none_right_eq_some.1 hfound
  obtain rfl := Option.some.inj hxe
  exact ⟨hn, x, hx, by rw [Dirent.live, hnr]; exact hm, rfl, hnr⟩

/-- **What `testfs_pwd` prints.** -/
theorem pwdLoop_prints (fuel : ℕ) (hg : Graph s D) (hn : s.isDir n) (hp : s.leads D p n) :
    Post (pwdLoop fuel s n) fun r => r.1 = (p.length == 0) ∧ r.2.out = s.out ++ printed p := by
  induction fuel generalizing s n p with
  | zero => exact Post.error
  | succ fuel ih =>
    rw [pwdLoop]
    refine (hg.nameToInodeNr hn).bind fun q hq => ?_
    refine Post.ite (fun _ => Post.throw) fun hpos => ?_
    have hup : s.entry D n dotdot q := (hq.resolve_right fun hc => hpos (by rw [hc.1]; decide)).1
    refine Post.ite (fun heq => Post.pure ?_) fun hne => ?_
    · subst heq
      obtain rfl := hg.tree.eq_root_of_up_self hup
      obtain rfl : p = [] := hg.tree.path_unique hp .nil
      exact ⟨rfl, rfl⟩
    have hdir := hg.tree.up_dir hup
    refine (hg.get_out hdir.1).bind fun t ht => ?_
    obtain ⟨hsame, hout, -⟩ := ht
    have hg1 := hg.same hsame
    refine (hg1.findDirent ((hsame.isDir q).2 hdir) hn.1.1).bind fun r hr => ?_
    cases r with
    | none => exact Post.throw
    | some e =>
      have he : s.entry D q e.str n := hsame.entry.1 (hr e rfl)
      obtain ⟨names, rfl, hnames⟩ := hg.leads_concat hup hne he hp
      refine (ih hg1 ((hsame.isDir q).2 hdir) ((hsame.alike ∅).leads_iff.2 hnames)).bind fun r1 h1 => ?_
      obtain ⟨hfirst, hout1⟩ := h1
      refine (putInode_out r1.2 q).bind fun u hu => Post.pure ?_
      rw [printed_concat, State.print, hu, hout1, hout, hfirst]
      refine ⟨?_, by simp⟩
      simp

/-! ## `testfs_ls` -/

/-- the names of entries in use, each with whether it stands for a directory -/
def State.names (s : State) (es : List Dirent) : List (List UInt8 × Bool) :=
  (es.filter fun e => e.live).map fun e => (e.str, decide ((s.dinode e.dInodeNr).iType = iDir))

theorem names_cons_live (h : e.live) :
    s.names (e :: es) = (e.str, decide ((s.dinode e.dInodeNr).iType = iDir)) :: s.names es := by
  simp [State.names, h]

theorem names_cons_dead (h : ¬e.live) : s.names (e :: es) = s.names es := by simp [State.names, h]

theorem mem_names (hn : s.isDir n) :
    (k, b) ∈ s.names (D n) ↔ ∃ m, s.entry D n k m ∧ b = (s.view m).isDir := by
  have hdir : ∀ m, decide ((s.dinode m).iType = iDir) = (s.view m).isDir := by
    intro m
    unfold State.view
    split_ifs with ht <;> simp [ht, Node.isDir]
  constructor
  · intro hk
    obtain ⟨e, he, heq⟩ := List.mem_map.1 hk
    obtain ⟨hmem, hlive⟩ := List.mem_filter.1 he
    obtain ⟨rfl, rfl⟩ := Prod.mk.inj heq
    exact ⟨e.dInodeNr, ⟨hn, e, hmem, of_decide_eq_true hlive, rfl, rfl⟩, hdir _⟩
  · rintro ⟨m, ⟨-, e, hmem, hlive, rfl, rfl⟩, rfl⟩
    exact List.mem_map.2 ⟨e, List.mem_filter.2 ⟨hmem, decide_eq_true hlive⟩, by rw [hdir]⟩

/-- the names of a directory are the entries at its path -/
theorem Views.entries (h : Views s D fs) (hg : Graph s D) (hp : s.leads D p n) (hn : s.isDir n) :
    fs.Entries p (s.names (D n)) := by
  refine ⟨?_, fun k b => ?_⟩
  · unfold State.names
    rw [List.map_map, List.Nodup, List.pairwise_map]
    refine ((hg.distinct n hn).filter _).imp_of_mem fun ha hb hab => ?_
    exact hab (of_decide_eq_true (List.mem_filter.1 ha).2) (of_decide_eq_true (List.mem_filter.1 hb).2)
  · rw [mem_names hn]
    constructor
    · rintro ⟨m, he, rfl⟩
      by_cases hdot : k = dot
      · subst hdot
        obtain rfl := hg.tree.unique _ _ _ _ he (hg.tree.self n hn)
        exact Or.inl ⟨Or.inl rfl, by rw [view_of_dir hn]; rfl⟩
      by_cases hdotdot : k = dotdot
      · subst hdotdot
        exact Or.inl ⟨Or.inr rfl, by rw [view_of_dir (hg.tree.up_dir he)]; rfl⟩
      · exact Or.inr ⟨s.view m, (h.child_iff hg hp).2 ⟨⟨hdot, hdotdot⟩, m, he, rfl⟩, rfl⟩
    · rintro (⟨rfl | rfl, rfl⟩ | ⟨v, hv, rfl⟩)
      · exact ⟨n, hg.tree.self n hn, by rw [view_of_dir hn]; rfl⟩
      · obtain ⟨m, hm⟩ := hg.tree.up n hn
        exact ⟨m, hm, by rw [view_of_dir (hg.tree.up_dir hm)]; rfl⟩
      · obtain ⟨-, m, he, rfl⟩ := (h.child_iff hg hp).1 hv
        exact ⟨m, he, rfl⟩

/-- what a call that lists a directory one step further down prints -/
def SubLists (s0 : State) (D : ℤ → List Dirent) (fs : Fs) (recursive : Bool)
    (sub : State → ℤ → Except Stop State) : Prop :=
  ∀ t m q, Same s0 t → s0.isDir m → s0.leads D q m →
    Post (sub t m) fun u => Same t u ∧ ∃ out, u.out = t.out ++ out ∧ fs.Lists recursive q out

theorem lsLoop_prints {sub : State → ℤ → Except Stop State} (hsub : SubLists s0 D fs recursive sub) (hg : Graph s0 D)
    (hp : s0.leads D p n) (hn : s0.isDir n) (hs : Same s0 s) (hes : D n = pre ++ post) :
    Post (lsLoop sub recursive n fuel s (listing pre).length) fun t =>
      Same s t ∧ ∃ out, t.out = s.out ++ out ∧ fs.Prints recursive p (s0.names post) out := by
  induction fuel generalizing s pre post with
  | zero => exact Post.error
  | succ fuel ih =>
    have hgs := hg.same hs
    have hns := (hs.isDir n).2 hn
    rw [lsLoop]
    refine Post.bind (P := fun i => i.dinode = s.dinode n) (fun i hi => ?_) fun i hi => ?_
    · rw [deref_eq_ok] at hi
      exact (dinode_of_find hi).symm
    rw [hi]
    have hd : Directory s n (pre ++ post) := hes ▸ hgs.directory hns
    cases post with
    | nil =>
      rw [List.append_nil] at hd
      rw [nextDirent_end hd, ok_bind]
      exact Post.pure ⟨Same.refl hs.sound, [], by simp, .nil p⟩
    | cons e post =>
      rw [nextDirent_entry hd (hgs.pos hns.1), ok_bind]
      dsimp only
      have hes' : D n = (pre ++ [e]) ++ post := by simpa using hes
      refine Post.ite (fun hdead => ?_) fun hlive => ?_
      · rw [names_cons_dead (not_le.2 hdead)]
        exact ih hs hes'
      have hlive : e.live := not_lt.1 hlive
      rw [names_cons_live hlive]
      have hm : s0.alloc e.dInodeNr := hg.alloc_of_live hn (by rw [hes]; simp) hlive
      have hm' := (hs.alloc _).2 hm
      refine (hgs.get_out hm').bind fun s1 h1 => ?_
      obtain ⟨h1, hout1, j, hj, hdj⟩ := h1
      rw [deref_eq_ok.2 hj, ok_bind]
      have htype : (j.dinode.iType = iDir) ↔ (s0.dinode e.dInodeNr).iType = iDir := by rw [hdj, (hs.still _ hm).type]
      have h2 := h1.trans (Same.print h1.sound (.entry e.str (decide (j.dinode.iType = iDir))))
      have hb : decide (j.dinode.iType = iDir) = decide ((s0.dinode e.dInodeNr).iType = iDir) :=
        decide_eq_decide.2 htype
      rw [hb] at h2 ⊢
      set s2 := s1.print (.entry e.str (decide ((s0.dinode e.dInodeNr).iType = iDir))) with hs2
      have hout2 : s2.out = s.out ++ [.entry e.str (decide ((s0.dinode e.dInodeNr).iType = iDir))] := by
        rw [hs2, State.print, hout1]
      -- the entries behind this one
      have hrest : ∀ t inner, Same s t → t.out = s2.out ++ inner → Post (putInode t e.dInodeNr >>= fun u =>
          lsLoop sub recursive n fuel u (listing (pre ++ [e])).length) fun u => Same s u ∧
            ∃ out, u.out = s2.out ++ inner ++ out ∧ fs.Prints recursive p (s0.names post) out := by
        intro t inner ht hout
        refine ((hgs.same ht).put_out _).bind fun u hu => ?_
        have hsu := ht.trans hu.1
        refine (ih (hs.trans hsu) hes').mono fun v hv => ?_
        obtain ⟨hsame, out, hv, hprints⟩ := hv
        exact ⟨hsu.trans hsame, out, by rw [hv, hu.2, hout], hprints⟩
      have henters : (recursive = true ∧ j.dinode.iType = iDir ∧ e.named dot = false ∧ e.named dotdot = false) ↔
          Fs.enters recursive e.str (decide ((s0.dinode e.dInodeNr).iType = iDir)) := by
        simp [Fs.enters, Dirent.named, htype]
      rw [if_congr henters rfl rfl]
      by_cases hrec : Fs.enters recursive e.str (decide ((s0.dinode e.dInodeNr).iType = iDir))
      · rw [if_pos hrec]
        obtain ⟨-, hdir, hproper⟩ := id hrec
        have hpath : s0.leads D (p ++ [e.str]) e.dInodeNr :=
          leads_concat_iff.2 ⟨n, hp, hproper, hn, e, by rw [hes]; simp, hlive, rfl, rfl⟩
        refine (hsub s2 _ _ (hs.trans h2) ⟨hm, of_decide_eq_true hdir⟩ hpath).bind fun u hu => ?_
        obtain ⟨hsame, inner, hinner, l, hl, hprints⟩ := hu
        refine (hrest u inner (h2.trans hsame) hinner).mono fun v hv => ?_
        obtain ⟨hv, out, hout, hrest⟩ := hv
        exact ⟨hv, _, by rw [hout, hout2]; simp, .deep hrec hl hprints hrest⟩
      · rw [if_neg hrec]
        refine (hrest s2 [] h2 (by simp)).mono fun v hv => ?_
        obtain ⟨hv, out, hout, hrest⟩ := hv
        exact ⟨hv, _, by rw [hout, hout2]; simp, .shallow hrec hrest⟩

/-- **What `testfs_ls` prints.** -/
theorem lsDepth_prints (depth : ℕ) (h : Views s0 D fs) (hg : Graph s0 D) :
    SubLists s0 D fs recursive (lsDepth recursive depth) := by
  induction depth with
  | zero => exact fun _ _ _ _ _ _ => Post.error
  | succ depth ih =>
    intro s n p hs hn hp
    rw [lsDepth]
    refine Post.bind Post.trivial fun i _ => ?_
    have hes : D n = [] ++ D n := rfl
    refine (lsLoop_prints ih hg hp hn hs hes).mono fun t ht => ?_
    obtain ⟨hsame, out, hout, hprints⟩ := ht
    exact ⟨hsame, out, hout, _, h.entries hg hp hn, hprints⟩

end OsLab.Testfs
