/-
Walking the directory tree: `testfs_pwd` and `testfs_ls`.

`testfs_pwd` goes up along `..` and looks for the entry of each directory in its parent; `ls` goes down. Both take
inodes into memory and put them back, so they return only if every inode is clean and referenced as often as it was
taken. With the directory graph (`Testfs.Graph`) and the clean inodes (`Testfs.Settle`) the recursions end, since the
way up is shorter than the number of inodes, and every entry they look for is there (`pwdLoop_ok`, `lsDepth_ok`). The
names that `pwd` prints lead back from the root to the current directory (`directories_are_a_tree`). Where
`indirect_allocated` reads as something else than 0, a write to a file can reach the root directory (`pwd_aborts`).
-/
import Mathlib.Tactic
import OsLab.Testfs.Fresh
import OsLab.Testfs.Settle

namespace OsLab.Testfs

open OsLab.Lib Function State Relation

variable {s s' s0 t : State} {n m p d dir : ℤ} {i : Inode} {es pre post : List Dirent} {e : Dirent} {k : List UInt8}
  {names : List (List UInt8)} {D : ℤ → List Dirent} {c : ℤ → ℤ} {j fuel depth : ℕ} {recursive : Bool} {fsSizeMb : ℕ}
  {stack : ℕ → ℤ}

/-! ## References -/

theorem Balanced.nonneg (h : Balanced s c) (m : ℤ) : 0 ≤ c m := by
  rw [← h.count m, State.count]
  cases hi : s.find m with
  | none => exact le_refl 0
  | some i => exact le_trans zero_le_one (h.pos i (List.mem_of_find?_eq_some hi))

/-- an inode with a reference is in memory -/
theorem Balanced.find (h : Balanced s c) (hm : 1 ≤ c m) : ∃ i, s.find m = some i := by
  rw [← h.count m, State.count] at hm
  cases hi : s.find m with
  | none =>
    rw [hi] at hm
    exact absurd hm (by norm_num)
  | some i => exact ⟨i, rfl⟩

theorem le_update_succ (h : 1 ≤ c n) : 1 ≤ update c m (c m + 1) n := by
  by_cases hnm : n = m
  · rw [hnm, update_self, ← hnm]
    omega
  · rw [update_of_ne hnm]
    exact h

/-- the references are counted, and there is one to the current directory -/
def Referenced (s : State) : Prop := ∃ c, Balanced s c ∧ 1 ≤ c s.curDir

theorem Back.referenced {t : State} (h : Back c s.curDir t) (hc : 1 ≤ c s.curDir) : Referenced t :=
  ⟨c, h.1, by rw [h.2]; exact hc⟩

/-- a regular file that `ls` is given keeps its reference -/
theorem cmdLs_referenced (h : Back c s.curDir s) (hc : 1 ≤ c s.curDir) :
    Post (cmdLs s k recursive) fun r => Referenced r.2 := by
  unfold cmdLs
  refine Post.bind Post.trivial fun nr _ => ?_
  refine Post.ite (fun _ => Post.pure (h.referenced hc)) fun _ => ?_
  refine (h.get nr).bind fun s1 h1 => ?_
  refine Post.bind Post.trivial fun i _ => ?_
  refine Post.ite (fun _ => ?_) fun _ => Post.pure (h1.referenced (le_update_succ hc))
  refine (ls_back h1 nr recursive).bind fun s2 h2 => ?_
  exact h2.put.bind fun s3 h3 => Post.pure (h3.referenced hc)

/-- the new directory is taken before the old one is put -/
theorem cmdCd_referenced (h : Back c s.curDir s) (hc : 1 ≤ c s.curDir) : Post (cmdCd s k) fun r => Referenced r.2 := by
  unfold cmdCd
  refine Post.bind Post.trivial fun nr _ => ?_
  refine Post.ite (fun _ => Post.pure (h.referenced hc)) fun _ => ?_
  refine (h.get nr).bind fun s1 h1 => ?_
  refine Post.bind Post.trivial fun i _ => ?_
  refine Post.ite (fun _ => h1.put.bind fun s2 h2 => Post.pure (h2.referenced hc)) fun _ => ?_
  refine (putInode_balanced h1.1 s1.curDir).bind fun s2 h2 => ?_
  refine Post.pure ⟨_, ⟨h2.1.nodup, h2.1.pos, h2.1.loads, h2.1.count⟩, ?_⟩
  have hnr := h.1.nonneg nr
  rw [h1.2]
  change 1 ≤ update (update c nr (c nr + 1)) s.curDir (update c nr (c nr + 1) s.curDir - 1) nr
  by_cases heq : nr = s.curDir
  · rw [heq, update_self, update_self]
    omega
  · rw [update_of_ne heq, update_self]
    omega

/-- every command keeps the current directory in memory -/
theorem exec_referenced (h : Referenced s) (op : Cmd) : Post (exec s op) fun r => Referenced r.2 := by
  obtain ⟨c, hb, hc⟩ := h
  have h : Back c s.curDir s := ⟨hb, rfl⟩
  cases op with
  | create name => exact (createFileOrDir_back h (some s.curDir) iFile name.chars).mono fun _ h1 => h1.referenced hc
  | mkdir name => exact (createFileOrDir_back h (some s.curDir) iDir name.chars).mono fun _ h1 => h1.referenced hc
  | rm name => exact (cmdRm_back h _).mono fun _ h1 => h1.referenced hc
  | write name offset data => exact (cmdWrite_back h _ _ _).mono fun _ h1 => h1.referenced hc
  | read name offset size => exact (cmdRead_back h _ _ _).mono fun _ h1 => h1.referenced hc
  | cd name => exact cmdCd_referenced h hc
  | ls name => exact cmdLs_referenced h hc
  | lsr name => exact cmdLs_referenced h hc
  | stat name => exact (cmdStat_back h _).mono fun _ h1 => h1.referenced hc
  | pwd =>
    unfold exec cmdPwd Testfs.pwd
    refine Post.bind ((pwdLoop_back _ h s.curDir).bind fun r h1 => Post.pure h1) fun s1 h1 => ?_
    exact Post.pure (h1.referenced hc)
  | bad => exact Post.ok (h.referenced hc)

theorem run_referenced {good : State → Cmd → Bool} (h0 : start fsSizeMb stack = .ok s0) (hrun : Run step good s0 s) :
    Referenced s := by
  refine hrun.inv Referenced (fun t op t' ht _ hstep => ?_) ?_
  · obtain ⟨r, hr⟩ := step_eq_ok.1 hstep
    exact exec_referenced ht op _ hr
  · have hrest : AtRest s0 := start_atRest s0 h0
    exact ⟨_, hrest.1, by rw [onlyDir, update_self]⟩

/-! ## Calls that return -/

theorem getInode_out (s : State) (n : ℤ) : Post (getInode s n) fun s' => s'.out = s.out := by
  unfold getInode
  cases s.find n with
  | none => exact Post.bind Post.trivial fun _ _ => Post.pure rfl
  | some i => exact Post.pure rfl

theorem putInode_out (s : State) (n : ℤ) : Post (putInode s n) fun s' => s'.out = s.out := by
  unfold putInode
  refine Post.bind Post.trivial fun i _ => ?_
  exact Post.ite (fun _ => Post.throw) fun _ => Post.ite (fun _ => Post.pure rfl) fun _ => Post.pure rfl

/-- `testfs_put_inode` returns: the inode is in memory and clean -/
theorem Clean.put_ok (h : Clean s) (hi : s.find n = some i) : ∃ t, putInode s n = .ok t := by
  unfold putInode
  rw [deref_eq_ok.2 hi, ok_bind, if_neg (by rw [h.dirty hi]; decide)]
  split_ifs
  · exact ⟨_, rfl⟩
  · exact ⟨_, rfl⟩

/-- an inode is taken and put back -/
structure Taken (s t : State) (n : ℤ) (c : ℤ → ℤ) (dir : ℤ) : Prop where
  same : Same s t
  clean : Clean t
  back : Back (update c n (c n + 1)) dir t
  out : t.out = s.out

theorem Graph.get_ok (hg : Graph s D) (hclean : Clean s) (hb : Back c dir s) (hn : s.alloc n) :
    ∃ t i, getInode s n = .ok t ∧ Taken s t n c dir ∧ t.find n = some i ∧ i.dinode = s.dinode n := by
  obtain ⟨h0, h1⟩ := mem_range hg.sound.core.mem hn
  obtain ⟨t, ht⟩ := getInode_ok hg.sound.core.geo h0 h1
  obtain ⟨hsame, i, hi, hdi⟩ := hg.get hn t ht
  exact ⟨t, i, ht, ⟨hsame, hclean.same hsame, hb.get n t ht, getInode_out s n t ht⟩, hi, hdi⟩

/-- what was taken last can be put -/
theorem Back.put_ok {n : ℤ} (hb : Back (update c n (c n + 1)) dir s) (hg : Graph s D)
    (hclean : Clean s) (hn : 0 ≤ c n) :
    ∃ t, putInode s n = .ok t ∧ Same s t ∧ Clean t ∧ Back c dir t ∧ t.out = s.out := by
  obtain ⟨i, hi⟩ := hb.1.find (m := n) (by rw [update_self]; omega)
  obtain ⟨t, ht⟩ := hclean.put_ok hi
  have hsame := hg.put n t ht
  exact ⟨t, ht, hsame, hclean.same hsame, hb.put t ht, putInode_out s n t ht⟩

theorem Graph.dirNameToInodeNr_found (hg : Graph s D) (hi : s.find d = some i) (hn : s.entry D d k n) :
    dirNameToInodeNr s d k = .ok n := by
  rw [dirNameToInodeNr_ok (hg.directory hn.1) (hg.pos hn.1.1) hi, (hg.lookup hn.1).2 hn]
  rfl

/-- `testfs_find_dirent` finds an entry for an inode that has one -/
theorem Graph.findDirent_ok (hg : Graph s D) (hi : s.find d = some i) (hn : s.entry D d k n) :
    ∃ e, findDirent s d n = .ok (some e) ∧ s.entry D d e.str n := by
  obtain ⟨hd, x, hx, hlive, -, hnr⟩ := hn
  cases hfind : (D d).find? fun e => e.dInodeNr = n with
  | none =>
    have hno := List.find?_eq_none.1 hfind x hx
    simp [hnr] at hno
  | some e =>
    have hen : e.dInodeNr = n := by simpa using List.find?_some hfind
    refine ⟨e, by rw [Testfs.findDirent_ok (hg.directory hd) (hg.pos hd.1) hi, hfind], hd, e,
      List.mem_of_find?_eq_some hfind, ?_, rfl, hen⟩
    unfold Dirent.live
    rw [hen, ← hnr]
    exact hlive

theorem Same.entry_eq (h : Same s t) (D : ℤ → List Dirent) : t.entry D = s.entry D := by
  funext a b c
  exact propext h.entry

/-! ## `testfs_pwd` -/

/-- what `testfs_pwd` prints of a path -/
def printed (names : List (List UInt8)) : List Print := .root :: names.mapIdx fun k name => .component (k == 0) name

theorem printed_concat (names : List (List UInt8)) (name : List UInt8) :
    printed (names ++ [name]) = printed names ++ [.component (names.length == 0) name] := by
  simp [printed, List.mapIdx_append]

/-- **`testfs_pwd` returns** for a directory in memory, and what it prints leads from the root to the directory. -/
theorem pwdLoop_ok (hg : Graph s D) (hclean : Clean s) (hb : Back c dir s) (hc : 1 ≤ c n) (hn : s.isDir n)
    (hj : Depth dotdot 0 (s.entry D) n j) (hfuel : j < fuel) :
    ∃ t names, pwdLoop fuel s n = .ok (decide (n = 0), t) ∧ t.out = s.out ++ printed names ∧
      Leads (s.entry D) 0 names n ∧ (names.length = 0 ↔ n = 0) := by
  induction fuel generalizing s c n j with
  | zero => omega
  | succ fuel ih =>
    obtain ⟨i, hi⟩ := hb.1.find hc
    rw [pwdLoop]
    cases hj with
    | root =>
      refine ⟨s.print .root, [], ?_, rfl, .nil, by simp⟩
      rw [hg.dirNameToInodeNr_found hi hg.tree.rootUp, ok_bind, if_neg (lt_irrefl 0), if_pos rfl]
      rfl
    | @up _ p j hne hup hj =>
      have hpdir := hg.tree.up_dir hup
      have hpn : p ≠ n := fun hc => hne (hg.tree.eq_root_of_up_self (hc ▸ hup))
      obtain ⟨-, -, k, -, hk⟩ := (hg.tree.up_cases hup).resolve_left fun hc => hne hc.1
      rw [hg.dirNameToInodeNr_found hi hup, ok_bind, if_neg (not_lt.2 (names_nonneg hup.2)), if_neg hpn]
      -- the parent is taken, and has an entry for the directory
      obtain ⟨s1, i1, hget, h1, hi1, -⟩ := hg.get_ok hclean hb hpdir.1
      have hg1 := hg.same h1.same
      have hentry := h1.same.entry_eq D
      obtain ⟨e, hfind, he⟩ := hg1.findDirent_ok hi1 (n := n) (k := k) (by rw [hentry]; exact hk)
      rw [hget, ok_bind, hfind, ok_bind]
      obtain ⟨s2, names, hloop, hout, hleads, hnil⟩ :=
        ih hg1 h1.clean h1.back (by rw [update_self]; have := hb.1.nonneg p; omega)
        ((h1.same.isDir p).2 hpdir) (by rw [hentry]; exact hj) (by omega)
      have h2 := pwdLoop_same fuel hg1 ((h1.same.isDir p).2 hpdir) _ hloop
      have hb2 := pwdLoop_back fuel h1.back p _ hloop
      obtain ⟨s3, hput, -, -, -, hout3⟩ := Back.put_ok hb2 (hg1.same h2) (h1.clean.same h2) (hb.1.nonneg p)
      rw [hentry] at hleads he
      refine ⟨s3.print (.component (decide (p = 0)) e.str), names ++ [e.str], ?_, ?_, .snoc hleads he, ?_⟩
      · dsimp only
        rw [hloop, ok_bind]
        dsimp only
        rw [hput, ok_bind, decide_eq_false hne]
        rfl
      · rw [printed_concat, ← List.append_assoc, ← h1.out, ← hout, ← hout3]
        unfold State.print
        simp only [List.append_cancel_left_eq, List.cons.injEq, and_true, Print.component.injEq]
        rw [Bool.eq_iff_iff, decide_eq_true_eq, beq_iff_eq, hnil]
      · rw [List.length_append]
        exact iff_of_false (by simp) hne

/-- names looked up one after the other with `testfs_dir_name_to_inode_nr`, from directory `d` on -/
def lookups (s : State) (d : ℤ) (names : List (List UInt8)) : Except Stop (ℤ × State) :=
  names.foldlM (fun r name => do
    let s ← getInode r.2 r.1
    let n ← dirNameToInodeNr s r.1 name
    let s ← putInode s r.1
    return (n, s)) (d, s)

theorem lookups_ok (hg : Graph s D) (hclean : Clean s) (hb : Back c dir s) (hn : Leads (s.entry D) d names n) :
    ∃ t, lookups s d names = .ok (n, t) ∧ Same s t ∧ Clean t ∧ Back c dir t := by
  induction hn with
  | nil => exact ⟨s, rfl, Same.refl hg.sound, hclean, hb⟩
  | @snoc names p n k _ hk ih =>
    obtain ⟨t, hrest, hsame, hclean1, hb1⟩ := ih
    have hg1 := hg.same hsame
    obtain ⟨t2, i, hget, h2, hi, -⟩ := hg1.get_ok hclean1 hb1 ((hsame.alloc p).2 hk.1.1)
    have hg2 := hg1.same h2.same
    have hlook := hg2.dirNameToInodeNr_found hi (k := k) (n := n) (by rw [h2.same.entry_eq, hsame.entry_eq]; exact hk)
    obtain ⟨t3, hput, hsame3, hclean3, hb3, -⟩ := Back.put_ok h2.back hg2 h2.clean (hb1.1.nonneg p)
    refine ⟨t3, ?_, (hsame.trans h2.same).trans hsame3, hclean3, hb3⟩
    unfold lookups at hrest ⊢
    rw [List.foldlM_append, hrest, ok_bind, List.foldlM_cons, hget, ok_bind, hlook, ok_bind, hput, ok_bind]
    rfl

/-! ## `testfs_ls` -/

/-- a call that lists a directory one step further down returns -/
def Lists (sub : State → ℤ → Except Stop State) (D : ℤ → List Dirent) (dir : ℤ) (j : ℕ) : Prop :=
  ∀ t m c, Graph t D → Clean t → Back c dir t → 1 ≤ c m → t.isDir m → Depth dotdot 0 (t.entry D) m j →
    ∃ u, sub t m = .ok u ∧ Same t u ∧ Back c dir u

theorem lsLoop_ok {sub : State → ℤ → Except Stop State} (hsub : Lists sub D dir (j + 1))
    (hg : Graph s D) (hclean : Clean s) (hb : Back c dir s) (hc : 1 ≤ c n) (hn : s.isDir n)
    (hj : Depth dotdot 0 (s.entry D) n j) (hes : D n = pre ++ post) (hfuel : (listing post).length < fuel) :
    ∃ t, lsLoop sub recursive n fuel s (listing pre).length = .ok t ∧ Same s t ∧ Back c dir t := by
  induction fuel generalizing s pre post with
  | zero => omega
  | succ fuel ih =>
    obtain ⟨i, hi⟩ := hb.1.find hc
    have hd : Directory s n (pre ++ post) := hes ▸ hg.directory hn
    rw [lsLoop, deref_eq_ok.2 hi, ok_bind, ← dinode_of_find hi]
    cases post with
    | nil =>
      rw [List.append_nil] at hd
      rw [nextDirent_end hd, ok_bind]
      exact ⟨s, rfl, Same.refl hg.sound, hb⟩
    | cons e post =>
      have hes' : D n = (pre ++ [e]) ++ post := by simpa using hes
      have hfuel' : (listing post).length < fuel := by
        rw [listing_cons, List.length_append, Dirent.bytes_length] at hfuel
        omega
      rw [nextDirent_entry hd (hg.pos hn.1), ok_bind]
      dsimp only
      by_cases hdead : e.dInodeNr < 0
      · rw [if_pos hdead]
        exact ih hg hclean hb hn hj hes' hfuel'
      rw [if_neg hdead]
      have hmem : e ∈ D n := by rw [hes]; simp
      have hm : s.alloc e.dInodeNr := hg.alloc_of_live hn hmem (not_lt.1 hdead)
      have hnonneg := hb.1.nonneg e.dInodeNr
      obtain ⟨s1, i1, hget, h1, hi1, hdi1⟩ := hg.get_ok hclean hb hm
      rw [hget, ok_bind, deref_eq_ok.2 hi1, ok_bind]
      set s2 := s1.print (.entry e.str (i1.dinode.iType = iDir)) with hs2
      have hprint := Same.print h1.same.sound (.entry e.str (i1.dinode.iType = iDir))
      have h2 : Same s s2 := h1.same.trans hprint
      have hb2 : Back (update c e.dInodeNr (c e.dInodeNr + 1)) dir s2 := h1.back.quiet ⟨rfl, rfl, rfl⟩
      -- the rest of the directory, after the subdirectory
      have hrest : ∀ t, Same s t → Back (update c e.dInodeNr (c e.dInodeNr + 1)) dir t →
          ∃ u,
            (putInode t e.dInodeNr >>= fun u => lsLoop sub recursive n fuel u (listing (pre ++ [e])).length) = .ok u ∧
            Same s u ∧ Back c dir u := by
        intro t ht hbt
        obtain ⟨t1, hput, hsame, hclean1, hb1, -⟩ := Back.put_ok hbt (hg.same ht) (hclean.same ht) hnonneg
        have h3 := ht.trans hsame
        obtain ⟨u, hu, hsame', hbu⟩ := ih (hg.same h3) hclean1 hb1 ((h3.isDir n).2 hn) (by rw [h3.entry_eq]; exact hj)
          hes' hfuel'
        exact ⟨u, by rw [hput, ok_bind, hu], h3.trans hsame', hbu⟩
      split_ifs with hrec
      · obtain ⟨-, htype, hdot, hdotdot⟩ := hrec
        have hmdir : s.isDir e.dInodeNr := ⟨hm, by rw [← hdi1]; exact htype⟩
        have hproper : Proper dot dotdot e.str := ⟨of_decide_eq_false hdot, of_decide_eq_false hdotdot⟩
        have hchild := hj.child hg.tree hproper ⟨hn, e, hmem, not_lt.1 hdead, rfl, rfl⟩ hmdir
        obtain ⟨u, hu, hsame, hbu⟩ := hsub s2 e.dInodeNr _ (hg.same h2) (hclean.same h2) hb2
          (by rw [update_self]; omega) ((h2.isDir _).2 hmdir) (by rw [h2.entry_eq]; exact hchild)
        rw [hu, ok_bind]
        exact hrest u (h2.trans hsame) hbu
      · exact hrest s2 h2 hb2

/-- **`testfs_ls` returns** for a directory in memory. -/
theorem lsDepth_ok (hg : Graph s D) (hclean : Clean s) (hb : Back c dir s) (hc : 1 ≤ c n) (hn : s.isDir n)
    (hj : Depth dotdot 0 (s.entry D) n j) (hdepth : 16385 ≤ depth + j) :
    ∃ t, lsDepth recursive depth s n = .ok t ∧ Same s t ∧ Back c dir t := by
  induction depth generalizing s c n j with
  | zero =>
    have hrange : ∀ d, s.isDir d → d ∈ Finset.Ico (0 : ℤ) 16384 := fun d hd =>
      Finset.mem_Ico.2 (mem_range hg.sound.core.mem hd.1)
    have hlt := hj.lt_card hg.tree hrange hn
    rw [Int.card_Ico] at hlt
    omega
  | succ depth ih =>
    obtain ⟨i, hi⟩ := hb.1.find hc
    have hsize := (hg.directory hn).size
    rw [dinode_of_find hi] at hsize
    rw [lsDepth, deref_eq_ok.2 hi, ok_bind]
    have hsub : Lists (lsDepth recursive depth) D dir (j + 1) := fun t m c hg hclean hb hc hm hj =>
      ih hg hclean hb hc hm hj (by omega)
    exact lsLoop_ok hsub hg hclean hb hc hn hj (List.nil_append (D n)).symm (by rw [hsize]; simp)

/-! ## The tree -/

/-- entry number `k` of directory `d` is in use for inode `n`, under another name than `.` and `..` -/
def State.holds (s : State) (D : ℤ → List Dirent) (d : ℤ) (k : ℕ) (n : ℤ) : Prop :=
  s.isDir d ∧ ∃ e, (D d)[k]? = some e ∧ e.live ∧ Proper dot dotdot e.str ∧ e.dInodeNr = n

/-- The directories have the entries `D`; these are a tree, and `pwd` and `ls` can walk it. -/
structure Walkable (s : State) (D : ℤ → List Dirent) : Prop where
  directory : ∀ n, s.isDir n → Directory s n (D n)
  live : ∀ d e, s.isDir d → e ∈ D d → e.live → s.alloc e.dInodeNr
  held : ∀ n, s.isDir n → n ≠ 0 → ∃ d k, s.holds D d k n ∧ lookup (D n) dotdot = some d ∧
    ∀ d' k', s.holds D d' k' n → d' = d ∧ k' = k
  up : ∀ n, s.isDir n → ReflTransGen (fun a b => s.isDir a ∧ lookup (D a) dotdot = some b) n 0
  cur : s.isDir s.curDir
  pwd : ∃ s' names t, Testfs.pwd s s.curDir = .ok s' ∧ s'.out = s.out ++ printed names ∧
    lookups s 0 names = .ok (s.curDir, t)
  ls : ∀ n recursive, s.isDir n → ∃ t u s', getInode s n = .ok t ∧
    Testfs.ls t n recursive = .ok u ∧ putInode u n = .ok s'

theorem Distinct.index_unique {a b : Dirent} {x y : ℕ} (h : Distinct es) (hx : es[x]? = some a) (hy : es[y]? = some b)
    (ha : a.live) (hb : b.live) (hstr : a.str = b.str) : x = y := by
  obtain ⟨hxl, rfl⟩ := List.getElem?_eq_some_iff.1 hx
  obtain ⟨hyl, rfl⟩ := List.getElem?_eq_some_iff.1 hy
  have hpair := List.pairwise_iff_getElem.1 h
  rcases lt_trichotomy x y with hlt | heq | hlt
  · exact absurd hstr (hpair x y hxl hyl hlt ha hb)
  · exact heq
  · exact absurd hstr.symm (hpair y x hyl hxl hlt hb ha)

/-- a directory other than the root has one entry, in its parent -/
theorem Graph.held (hg : Graph s D) (hn : s.isDir n) (hne : n ≠ 0) : ∃ d k, s.holds D d k n ∧
    Testfs.lookup (D n) dotdot = some d ∧ ∀ d' k', s.holds D d' k' n → d' = d ∧ k' = k := by
  obtain ⟨d, name, hproper, hentry⟩ := hg.tree.named n hn.1 hne
  have hparent := hg.tree.parent d name n hproper hentry hn
  obtain ⟨hd, e, he, hlive, rfl, hnr⟩ := hentry
  obtain ⟨x, hx⟩ := List.getElem?_of_mem he
  refine ⟨d, x, ⟨hd, e, hx, hlive, hproper, hnr⟩, (hg.lookup hn).2 hparent, ?_⟩
  rintro d' y ⟨hd', f, hy, hlive', hproper', hnr'⟩
  have hf : s.entry D d' f.str n := ⟨hd', f, List.mem_of_getElem? hy, hlive', rfl, hnr'⟩
  obtain ⟨rfl, hstr⟩ := hg.tree.once d' f.str d e.str n hproper' hproper hf ⟨hd, e, he, hlive, rfl, hnr⟩
  exact ⟨rfl, (hg.distinct d' hd).index_unique hy hx hlive' hlive hstr⟩

theorem Graph.walkable (hg : Graph s D) (hclean : Clean s) (href : Referenced s) : Walkable s D := by
  obtain ⟨c, hb, hc⟩ := href
  have hback : Back c s.curDir s := ⟨hb, rfl⟩
  refine ⟨hg.dirs.dirs, fun d e hd he hlive => hg.alloc_of_live hd he hlive,
    fun n hn hne => hg.held hn hne, fun n hn => ?_, hg.cur, ?_, fun n recursive hn => ?_⟩
  · exact ReflTransGen.mono (fun a b hab => ⟨hab.1, (hg.lookup hab.1).2 hab⟩) _ _ (hg.tree.reach n hn)
  · obtain ⟨j, hj⟩ := Depth.exists_of_dir hg.tree hg.cur
    have hrange : ∀ d, s.isDir d → d ∈ Finset.Ico (0 : ℤ) 16384 := fun d hd =>
      Finset.mem_Ico.2 (mem_range hg.sound.core.mem hd.1)
    have hlt := hj.lt_card hg.tree hrange hg.cur
    rw [Int.card_Ico] at hlt
    have hfuel : j < nrInodeBlocks * inodesPerBlock + 1 := by
      unfold nrInodeBlocks inodesPerBlock
      omega
    obtain ⟨t, names, hloop, hout, hleads, -⟩ := pwdLoop_ok hg hclean hback hc hg.cur hj hfuel
    obtain ⟨u, hu, -⟩ := lookups_ok hg hclean hback hleads
    refine ⟨t, names, u, ?_, hout, hu⟩
    rw [Testfs.pwd, hloop, ok_bind]
    rfl
  · obtain ⟨t, i, hget, h1, -, -⟩ := hg.get_ok hclean hback hn.1
    obtain ⟨j, hj⟩ := Depth.exists_of_dir hg.tree hn
    have hg1 := hg.same h1.same
    have hdepth : 16385 ≤ nrInodeBlocks * inodesPerBlock + 1 + j := by
      unfold nrInodeBlocks inodesPerBlock
      omega
    obtain ⟨u, hls, hsame, hb2⟩ : ∃ u, ls t n recursive = .ok u ∧ Same t u ∧ Back _ _ u :=
      lsDepth_ok hg1 h1.clean h1.back (by rw [update_self]; have := hb.nonneg n; omega) ((h1.same.isDir n).2 hn)
        (by rw [h1.same.entry_eq]; exact hj) hdepth
    obtain ⟨s', hput, -⟩ := Back.put_ok hb2 (hg1.same hsame) (h1.clean.same hsame) (hb.nonneg n)
    exact ⟨t, u, s', hget, hls, hput⟩

/-- **The directories are a tree, and `pwd` is right.** -/
theorem directories_are_a_tree (hk : validSize fsSizeMb) (hstack : ∀ j, stack j = 0)
    (h0 : start fsSizeMb stack = .ok s0) (hrun : Run step dirsWritten s0 s) : ∃ D, Walkable s D := by
  obtain ⟨⟨D, hg⟩, -⟩ := run_graph hk hstack h0 hrun
  exact ⟨D, hg.walkable (run_clean hk hstack h0 hrun) (run_referenced h0 hrun)⟩

/-- in a directory below the root -/
theorem directories_are_a_tree_below :
    ∃ s0 s, start 1 (fun _ => 0) = .ok s0 ∧ Run step dirsWritten s0 s ∧ s.curDir = 1 ∧ ∃ D, Walkable s D := by
  have h : after (start 1 fun _ => 0) (fun s0 => passes step dirsWritten (fun s => decide (s.curDir = 1)) s0
      [.mkdir tokenF, .cd tokenF]) = true := by decide +kernel
  obtain ⟨s0, h0, hpass⟩ := exists_of_after h
  obtain ⟨s, hrun, hcur⟩ := run_of_passes _ hpass
  exact ⟨s0, s, h0, hrun, of_decide_eq_true hcur, directories_are_a_tree ⟨le_rfl, by norm_num⟩ (fun _ => rfl) h0 hrun⟩

/-- a token with the byte 146, the number of the first data block -/
def tokenRoot : Token := ⟨[146], by decide, by decide⟩

/-- With 128 blocks in use, a write to `f` behind its last indirect block fails, and a stale 1 in `indirect_allocated`
frees the second-level block that is there. It becomes the data block of `g`, which stores the number 146 at its
beginning: the data block of the root directory. A write to `f` then goes to the entry `..` of the root, and `pwd` fails
its assertion. -/
theorem pwd_aborts :
    ¬ ∀ (fsSizeMb : ℕ) (stack : ℕ → ℤ) (s0 s : State), validSize fsSizeMb → start fsSizeMb stack = .ok s0 →
      Run step dirsWritten s0 s → ∃ D, Walkable s D := by
  intro hall
  have h : after (start 1 fun _ => 1) (fun s0 => after (step s0 (.create tokenF)) fun s1 => decide (s1.dirFails = []) &&
      after (step s1 (.write tokenF 16859136 tokenF)) fun s2 => decide (s2.dirFails = []) &&
      after (step s2 (.create tokenG)) fun s3 => decide (s3.dirFails = []) &&
      after (fillStep s3 tokenF.chars 0 (123 * 8192 - 1)) fun s4 => decide (s4.dirFails = []) &&
      after (step s4 (.write tokenF 16867328 tokenF)) fun s5 => decide (s5.dirFails = []) &&
      after (step s5 (.write tokenG 0 tokenRoot)) fun s6 => decide (s6.dirFails = []) &&
      after (step s6 (.write tokenF 16859150 tokenF)) fun s7 => decide (s7.dirFails = []) &&
      !after (pwd s7 s7.curDir) fun _ => true) = true := by decide +kernel
  obtain ⟨s0, h0, h⟩ := exists_of_after h
  obtain ⟨s1, h1, h⟩ := exists_of_after h
  rw [Bool.and_eq_true, decide_eq_true_eq] at h
  obtain ⟨hf1, h⟩ := h
  obtain ⟨s2, h2, h⟩ := exists_of_after h
  rw [Bool.and_eq_true, decide_eq_true_eq] at h
  obtain ⟨hf2, h⟩ := h
  obtain ⟨s3, h3, h⟩ := exists_of_after h
  rw [Bool.and_eq_true, decide_eq_true_eq] at h
  obtain ⟨hf3, h⟩ := h
  obtain ⟨s4, h4, h⟩ := exists_of_after h
  rw [Bool.and_eq_true, decide_eq_true_eq] at h
  obtain ⟨hf4, h⟩ := h
  obtain ⟨s5, h5, h⟩ := exists_of_after h
  rw [Bool.and_eq_true, decide_eq_true_eq] at h
  obtain ⟨hf5, h⟩ := h
  obtain ⟨s6, h6, h⟩ := exists_of_after h
  rw [Bool.and_eq_true, decide_eq_true_eq] at h
  obtain ⟨hf6, h⟩ := h
  obtain ⟨s7, h7, h⟩ := exists_of_after h
  rw [Bool.and_eq_true, decide_eq_true_eq] at h
  obtain ⟨hf7, h⟩ := h
  rw [← step_fill] at h4
  have hrun : Run step dirsWritten s0 s7 := run_step (run_step (run_step (run_step (run_step (run_step (run_step
    (.refl s0) h1 hf1) h2 hf2) h3 hf3) h4 hf4) h5 hf5) h6 hf6) h7 hf7
  obtain ⟨D, hwalk⟩ := hall 1 _ s0 s7 ⟨le_rfl, by norm_num⟩ h0 hrun
  obtain ⟨s', names, t, hpwd, -⟩ := hwalk.pwd
  rw [hpwd] at h
  cases h

end OsLab.Testfs
