/-
A directory as a map from names to inodes.

`Maps` is what the directories are for: each one maps names to inode numbers. `create` and `mkdir` add a name for the
inode they make, `rm` takes a name away, and every other command leaves the maps alone. `directory_is_map`: along every
run, what `testfs_dir_name_to_inode_nr` finds in the bytes of a directory is what its map says.
-/
import Mathlib.Tactic
import OsLab.Testfs.Runs

namespace OsLab.Testfs

open OsLab.Lib Function State

variable {s s' s0 s1 : State} {n m r d : ℤ} {D : ℤ → List Dirent} {c : Cmd} {fsSizeMb : ℕ} {stack : ℕ → ℤ}
  {name k : List UInt8}

/-! ## The abstract directories -/

/-- the inode that a directory has for a name -/
abbrev Maps := ℤ → List UInt8 → Option ℤ

/-- a directory with nothing in it -/
def emptyMap (n p : ℤ) : List UInt8 → Option ℤ := update (update (fun _ => none) dotdot (some p)) dot (some n)

/-- a new file system -/
def rootMaps : Maps := fun _ => emptyMap 0 0

/-- the inode in use after a command and not before it -/
def newInode (s s' : State) : ℤ :=
  match (List.range s'.inodeFreemap.nbits).find? fun j => s'.inodeFreemap.isset j && !s.inodeFreemap.isset j with
  | some j => j
  | none => -1

/-- the directories after a command that returned `r` -/
def Maps.next (M : Maps) (s : State) (c : Cmd) (r : ℤ) (s' : State) : Maps :=
  if r ≠ 0 then M
  else match c with
    | .create name => update M s.curDir (update (M s.curDir) name.chars (some (newInode s s')))
    | .mkdir name =>
      update (update M (newInode s s') (emptyMap (newInode s s') s.curDir)) s.curDir
        (update (M s.curDir) name.chars (some (newInode s s')))
    | .rm name => update M s.curDir (update (M s.curDir) name.chars none)
    | _ => M

/-- a command on the file system and on the abstract directories -/
def mapStep (p : State × Maps) (c : Cmd) : Except Stop (State × Maps) := do
  let (r, s') ← exec p.1 c
  return (s', p.2.next p.1 c r s')

/-- no write to a directory fails; file data is written only if `writes` says so -/
def mapGood (writes : Bool) (p : State × Maps) (c : Cmd) : Bool := dirsWritten p.1 c && (writes || !c.isWrite)

theorem of_mapGood {writes : Bool} {M : Maps} (hgood : mapGood writes (s, M) c = true) :
    dirsWritten s c = true ∧ (c.isWrite = true → writes = true) := by
  unfold mapGood at hgood
  rw [Bool.and_eq_true, Bool.or_eq_true] at hgood
  refine ⟨hgood.1, fun hc => hgood.2.resolve_right ?_⟩
  rw [hc]
  exact Bool.false_ne_true

/-! ## The directories of the file system -/

/-- the entries are those of the maps -/
def Reflects (s : State) (D : ℤ → List Dirent) (M : Maps) : Prop :=
  ∀ d, s.isDir d → ∀ k n, M d k = some n ↔ s.entry D d k n

/-- the bit that a new inode sets -/
theorem newInode_eq (hs : Sound s) (hs' : Sound s') (hfresh : ¬s.alloc n)
    (halloc : ∀ m, s'.alloc m ↔ s.alloc m ∨ m = n) :
    newInode s s' = n := by
  have hn : s'.alloc n := (halloc n).2 (Or.inr rfl)
  have hbit : ∀ t, Sound t → ∀ j < 65536, t.inodeFreemap.isset j = true ↔ t.alloc j := by
    intro t ht j hj
    unfold State.alloc
    rw [Int.toNat_natCast, Bitmap.mem_bits, ht.core.geo.inodeBits]
    constructor
    · intro hset
      exact ⟨by omega, hj, hset⟩
    · intro hmem
      exact hmem.2.2
  have hlt : n.toNat < 65536 := by
    obtain ⟨h0, h1⟩ := mem_range hs'.core.mem hn
    omega
  have hpred : ∀ j < 65536, (s'.inodeFreemap.isset j && !s.inodeFreemap.isset j) = true ↔ (j : ℤ) = n := by
    intro j hj
    rw [Bool.and_eq_true, Bool.not_eq_true', hbit s' hs' j hj, ← Bool.not_eq_true, hbit s hs j hj, halloc]
    constructor
    · rintro ⟨hj | hj, hnot⟩
      · exact absurd hj hnot
      · exact hj
    · intro hj
      exact ⟨Or.inr hj, hj ▸ hfresh⟩
  have hbits := hs'.core.geo.inodeBits
  unfold newInode
  cases hfind : (List.range s'.inodeFreemap.nbits).find? fun j =>
    s'.inodeFreemap.isset j && !s.inodeFreemap.isset j with
  | some j =>
    have hj := List.mem_range.1 (List.mem_of_find?_eq_some hfind)
    have hset := List.find?_some hfind
    exact (hpred j (hbits ▸ hj)).1 hset
  | none =>
    rw [List.find?_eq_none] at hfind
    exact absurd ((hpred n.toNat hlt).2 (Int.toNat_of_nonneg hn.1)) (hfind _ (List.mem_range.2 (hbits ▸ hlt)))

theorem emptyMap_eq_some : emptyMap n d k = some m ↔ (k = dot ∧ m = n) ∨ (k = dotdot ∧ m = d) := by
  unfold emptyMap
  by_cases h1 : k = dot
  · subst h1
    rw [update_self]
    simp [dot_ne_dotdot, eq_comm]
  · rw [update_of_ne h1]
    by_cases h2 : k = dotdot
    · subst h2
      rw [update_self]
      simp [dot_ne_dotdot.symm, eq_comm]
    · rw [update_of_ne h2]
      simp [h1, h2]

/-- a name was added to the map of directory `d` -/
theorem Created.reflects {type : ℤ} {D' : ℤ → List Dirent} {M M' : Maps} (h : Created s s' D D' d n type name)
    (hd : s.isDir d) (hM : Reflects s D M) (hfree : ∀ x, ¬s.entry D d name x)
    (hself : M' d = update (M d) name (some n)) (hnew : type = iDir → M' n = emptyMap n d)
    (hother : ∀ a, s.isDir a → a ≠ d → M' a = M a) : Reflects s' D' M' := by
  intro a ha b c
  rw [h.entry]
  have hdn : d ≠ n := fun hc => h.fresh (hc ▸ hd.1)
  rcases (h.isDir a).1 ha with hold | ⟨htype, rfl⟩
  · have han : a ≠ n := fun hc => h.fresh (hc ▸ hold.1)
    by_cases had : a = d
    · subst had
      rw [hself]
      by_cases hb : b = name
      · subst hb
        rw [update_self]
        simp only [hfree c, han, false_or, false_and, and_false, or_false, true_and, Option.some.injEq, eq_comm]
      · rw [update_of_ne hb, hM a hold]
        simp only [hb, han, false_and, and_false, or_false]
    · rw [hother a hold had, hM a hold]
      simp only [had, han, false_and, and_false, or_false]
  · rw [hnew htype, emptyMap_eq_some]
    have hnot : ¬s.entry D a b c := fun hc => h.fresh hc.1.1
    simp only [hnot, hdn.symm, htype, false_and, false_or, true_and]

/-- a name was taken out of the map of directory `d` -/
theorem Deleted.reflects {D' : ℤ → List Dirent} {M M' : Maps} (h : Deleted s s' D D' d n name) (hM : Reflects s D M)
    (hself : M' d = update (M d) name none) (hother : ∀ a, a ≠ d → M' a = M a) : Reflects s' D' M' := by
  intro a ha b c
  obtain ⟨hold, han⟩ := (h.isDir a).1 ha
  rw [h.entry]
  by_cases had : a = d
  · subst had
    rw [hself]
    by_cases hb : b = name
    · subst hb
      rw [update_self]
      simp
    · rw [update_of_ne hb, hM a hold]
      simp only [hb, han, and_false, not_false_eq_true, and_true, ne_eq]
  · rw [hother a had, hM a hold]
    simp only [had, han, false_and, not_false_eq_true, and_true, ne_eq]

/-- a step of a run, and the directories after it -/
theorem exec_reflects {M : Maps} (hg : Graph s D) (hM : Reflects s D M) (hf : s'.dirFails = [])
    (hwrite : c.isWrite = true → ∀ j, s.stack j = 0) (hr : exec s c = .ok (r, s')) :
    s'.stack = s.stack ∧ ∃ D', Graph s' D' ∧ Reflects s' D' (M.next s c r s') := by
  cases exec_effect hg (calm_of_nil hf) hwrite hr with
  | kept hg' hisDir hstack hwhy =>
    have hnext : M.next s c r s' = M := by
      unfold Maps.next
      rcases hwhy with hneg | ⟨hmakes, hremoves⟩
      · rw [if_pos hneg.ne]
      · split_ifs with h0
        · rfl
        · cases c with
          | create name => cases hmakes
          | mkdir name => cases hmakes
          | rm name => cases hremoves
          | _ => rfl
    rw [hnext]
    refine ⟨hstack, D, hg', fun a ha b x => ?_⟩
    rw [hM a ((hisDir a).1 ha)]
    unfold State.entry
    rw [hisDir a]
  | created type name n D' hmakes hr0 h =>
    have hnew := newInode_eq hg.sound h.graph.sound h.fresh h.alloc
    have hne : n ≠ s.curDir := fun hc => h.fresh (hc ▸ hg.cur.1)
    have hfree : ∀ x, ¬s.entry D s.curDir name.chars x := by
      intro x hx
      have hx' : s'.entry D' s.curDir name.chars x := (h.entry ..).2 (Or.inl hx)
      have hn' : s'.entry D' s.curDir name.chars n := (h.entry ..).2 (Or.inr (Or.inl ⟨rfl, rfl, rfl⟩))
      have hxn : x = n := h.graph.tree.unique _ _ _ _ hx' hn'
      exact h.fresh (hxn ▸ hg.tree.target _ _ _ hx)
    refine ⟨h.stack, D', h.graph, ?_⟩
    unfold Maps.next
    rw [if_neg (not_not.2 hr0)]
    cases c with
    | create name' =>
      cases hmakes
      dsimp only
      rw [hnew]
      refine h.reflects hg.cur hM hfree (update_self ..) (fun hc => absurd hc (by decide)) fun a _ ha => ?_
      rw [update_of_ne ha]
    | mkdir name' =>
      cases hmakes
      dsimp only
      rw [hnew]
      refine h.reflects hg.cur hM hfree (update_self ..) (fun _ => ?_) fun a ha had => ?_
      · rw [update_of_ne hne, update_self]
      · have han : a ≠ n := fun hc => h.fresh (hc ▸ ha.1)
        rw [update_of_ne had, update_of_ne han]
    | _ => cases hmakes
  | deleted name n D' hremoves hr0 h =>
    refine ⟨h.stack, D', h.graph, ?_⟩
    unfold Maps.next
    rw [if_neg (not_not.2 hr0)]
    cases c with
    | rm name' =>
      cases hremoves
      refine h.reflects hM (update_self ..) fun a ha => ?_
      dsimp only
      rw [update_of_ne ha]
    | _ => cases hremoves

theorem start_reflects (hk : validSize fsSizeMb) (h0 : start fsSizeMb stack = .ok s0) :
    Reflects s0 (fun _ => newDir 0 0) rootMaps := by
  obtain ⟨hg, -, -⟩ := start_graph hk h0
  intro d hd k n
  unfold rootMaps State.entry
  rw [emptyMap_eq_some, names_newDir (le_refl 0) (le_refl 0)]
  exact (and_iff_right hd).symm

/-- along every run the entries are those of the maps -/
theorem run_reflects {writes : Bool} {M : Maps} (hk : validSize fsSizeMb) (hstack : writes = true → ∀ j, stack j = 0)
    (h0 : start fsSizeMb stack = .ok s0) (hrun : Run mapStep (mapGood writes) (s0, rootMaps) (s, M)) :
    s.stack = stack ∧ ∃ D, Graph s D ∧ Reflects s D M := by
  obtain ⟨hg, hst, -⟩ := start_graph hk h0
  have hinit : s0.stack = stack ∧ ∃ D, Graph s0 D ∧ Reflects s0 D rootMaps :=
    ⟨hst, fun _ => newDir 0 0, hg, start_reflects hk h0⟩
  refine hrun.inv (fun p => p.1.stack = stack ∧ ∃ D, Graph p.1 D ∧ Reflects p.1 D p.2) ?_ hinit
  rintro ⟨t, M⟩ c ⟨t', M'⟩ ⟨hst, D, hg, hM⟩ hgood hstep
  obtain ⟨hdirs, hwrites⟩ := of_mapGood hgood
  unfold mapStep at hstep
  rw [bind_eq_ok] at hstep
  obtain ⟨⟨r, u⟩, hexec, hstep⟩ := hstep
  cases hstep
  have hf := dirFails_of_dirsWritten hdirs (step_eq_ok.2 ⟨r, hexec⟩)
  have hwrite : c.isWrite = true → ∀ j, t.stack j = 0 := by
    intro hc
    rw [show t.stack = stack from hst]
    exact hstack (hwrites hc)
  obtain ⟨hst', hnext⟩ := exec_reflects hg hM hf hwrite hexec
  exact ⟨hst'.trans hst, hnext⟩

/-! ## What the commands return -/

/-- `testfs_dir_name_to_inode_nr` on a directory in memory -/
theorem Graph.nameToInodeNr_ok (hg : Graph s D) (hd : s.isDir d) (hget : getInode s d = .ok s1) (k : List UInt8) :
    dirNameToInodeNr s1 d k = .ok ((Testfs.lookup (D d) k).getD (-ENOENT)) := by
  obtain ⟨hsame, i, hi, -⟩ := hg.get hd.1 s1 hget
  have hg1 := hg.same hsame
  exact dirNameToInodeNr_ok (hg1.directory ((hsame.isDir d).2 hd)) (hg1.pos ((hsame.alloc d).2 hd.1)) hi k

theorem Reflects.lookup {M : Maps} (hM : Reflects s D M) (hg : Graph s D) (hd : s.isDir d) (k : List UInt8) :
    Testfs.lookup (D d) k = M d k := by
  refine Option.ext fun n => ?_
  rw [hg.lookup hd, hM d hd]

/-- the name that a command gives or takes away -/
def Cmd.edits (c : Cmd) (name : Token) : Prop := c.makes.map Prod.snd = some name ∨ c.removes = some name

/-- the other names stand for what they did -/
theorem Effect.entry_of_other (h : Effect s D c r s') (hd : s.isDir d) (hd' : s'.isDir d)
    (hother : ∀ name, c.edits name → ¬(d = s.curDir ∧ k = name.chars)) :
    ∃ D', Graph s' D' ∧ ∀ n, s'.entry D' d k n ↔ s.entry D d k n := by
  cases h with
  | kept hg' hisDir _ _ =>
    refine ⟨D, hg', fun n => ?_⟩
    unfold State.entry
    rw [hisDir]
  | created type name n D' hmakes _ h =>
    have hdn : d ≠ n := fun hc => h.fresh (hc ▸ hd.1)
    refine ⟨D', h.graph, fun x => ?_⟩
    have hnot := hother name (Or.inl (by rw [hmakes]; rfl))
    rw [h.entry]
    constructor
    · rintro (hx | ⟨h1, h2, -⟩ | ⟨-, hc, -⟩)
      · exact hx
      · exact absurd ⟨h1, h2⟩ hnot
      · exact absurd hc hdn
    · exact Or.inl
  | deleted name n D' hremoves _ h =>
    refine ⟨D', h.graph, fun x => ?_⟩
    have hdn : d ≠ n := ((h.isDir d).1 hd').2
    rw [h.entry]
    exact and_iff_left ⟨hdn, hother name (Or.inr hremoves)⟩

theorem createFileOrDir_eexist {type : ℤ} {name : Token} (hg : Graph s D) (hmakes : c.makes = some (type, name))
    (hf : s'.dirFails = []) (hr : exec s c = .ok (r, s')) : r = -EEXIST ↔ ∃ n, s.entry D s.curDir name.chars n := by
  have hspec : (type = iFile ∨ type = iDir) → createFileOrDir s (some s.curDir) type name.chars = .ok (r, s') →
      (r = -EEXIST ↔ ∃ n, s.entry D s.curDir name.chars n) := by
    intro htype hr
    rcases createFileOrDir_spec hg hg.cur htype name.noNul (fun _ => calm_of_nil hf) hr with
      ⟨rfl, -, hn⟩ | ⟨hfree, hcases⟩
    · exact iff_of_true rfl hn
    · refine iff_of_false (fun hc => ?_) fun ⟨n, hn⟩ => hfree n hn
      rcases hcases with ⟨-, -, -, ⟨h, -⟩ | ⟨h, -⟩ | h⟩ | ⟨h, -⟩
      · rw [h] at hc
        exact absurd hc (by decide)
      · rw [h] at hc
        exact absurd hc (by decide)
      · exact h hf
      · rw [h] at hc
        exact absurd hc (by decide)
  cases c with
  | create name' =>
    cases hmakes
    exact hspec (Or.inl rfl) hr
  | mkdir name' =>
    cases hmakes
    exact hspec (Or.inr rfl) hr
  | _ => cases hmakes

theorem cmdRm_errors {name : List UInt8} (hg : Graph s D) (hf : s'.dirFails = []) (hr : cmdRm s name = .ok (r, s')) :
    (r = -EINVAL ↔ name = dot ∨ name = dotdot) ∧ (r = -ENOENT ↔ ∀ n, ¬s.entry D s.curDir name n) := by
  rcases cmdRm_spec hg (fun _ => Or.inr hf) hr with ⟨rfl, -, hdots⟩ | ⟨hproper, hcases⟩
  · refine ⟨iff_of_true rfl hdots, iff_of_false (by decide) fun hno => ?_⟩
    obtain ⟨h1, h2⟩ := hg.proper_of_free hg.cur hno
    exact hdots.elim h1 h2
  · have hnot : ¬(name = dot ∨ name = dotdot) := fun hc => hc.elim hproper.1 hproper.2
    rcases hcases with ⟨rfl, -, hno⟩ | ⟨n, hn, ⟨rfl, -⟩ | ⟨rfl, -⟩⟩
    · exact ⟨iff_of_false (by decide) hnot, iff_of_true rfl hno⟩
    · exact ⟨iff_of_false (by decide) hnot, iff_of_false (by decide) fun hno => hno n hn⟩
    · exact ⟨iff_of_false (by decide) hnot, iff_of_false (by decide) fun hno => hno n hn⟩

/-- **A directory is a map from names to inodes.** -/
theorem directory_is_map {writes : Bool} {M : Maps} (hk : validSize fsSizeMb)
    (hstack : writes = true → ∀ j, stack j = 0) (h0 : start fsSizeMb stack = .ok s0)
    (hrun : Run mapStep (mapGood writes) (s0, rootMaps) (s, M)) :
    (∀ d, s.isDir d → ∃ es, Directory s d es ∧ Distinct es) ∧
    (∀ d s1 name, s.isDir d → getInode s d = .ok s1 →
      dirNameToInodeNr s1 d name = .ok ((M d name).getD (-ENOENT)) ∧ ∀ n, M d name = some n → 0 ≤ n) ∧
    (∀ c type name r s', c.makes = some (type, name) → exec s c = .ok (r, s') → s'.dirFails = [] →
      (r = -EEXIST ↔ M s.curDir name.chars ≠ none)) ∧
    (∀ name r s', exec s (.rm name) = .ok (r, s') → s'.dirFails = [] →
      (r = -EINVAL ↔ name.chars = dot ∨ name.chars = dotdot) ∧ (r = -ENOENT ↔ M s.curDir name.chars = none)) ∧
    ∀ c r s' d k, exec s c = .ok (r, s') → mapGood writes (s, M) c = true → s.isDir d → s'.isDir d →
      (∀ name, c.edits name → ¬(d = s.curDir ∧ k = name.chars)) →
      ∀ t t', getInode s d = .ok t → getInode s' d = .ok t' → dirNameToInodeNr t' d k = dirNameToInodeNr t d k := by
  obtain ⟨hst, D, hg, hM⟩ := run_reflects hk hstack h0 hrun
  have hmapped : ∀ k, M s.curDir k ≠ none ↔ ∃ n, s.entry D s.curDir k n := by
    intro k
    rw [Option.ne_none_iff_exists']
    exact exists_congr fun n => hM _ hg.cur k n
  refine ⟨fun d hd => ⟨D d, hg.directory hd, hg.distinct d hd⟩, fun d s1 name hd hget => ⟨?_, fun n hn => ?_⟩,
    fun c type name r s' hmakes hr hf => ?_, fun name r s' hr hf => ?_,
    fun c r s' d k hr hgood hd hd' hother t t' hget hget' => ?_⟩
  · rw [hg.nameToInodeNr_ok hd hget, hM.lookup hg hd]
  · exact (hg.tree.target _ _ _ ((hM d hd name n).1 hn)).1
  · rw [createFileOrDir_eexist hg hmakes hf hr, hmapped]
  · obtain ⟨h1, h2⟩ := cmdRm_errors hg hf hr
    refine ⟨h1, ?_⟩
    rw [h2, ← not_iff_not, not_forall_not]
    exact (hmapped _).symm
  · obtain ⟨hdirs, hwrites⟩ := of_mapGood hgood
    have hf := dirFails_of_dirsWritten hdirs (step_eq_ok.2 ⟨r, hr⟩)
    have hwrite : c.isWrite = true → ∀ j, s.stack j = 0 := by
      intro hc
      rw [hst]
      exact hstack (hwrites hc)
    obtain ⟨D', hg', hsame⟩ := (exec_effect hg (calm_of_nil hf) hwrite hr).entry_of_other hd hd' hother
    rw [hg.nameToInodeNr_ok hd hget, hg'.nameToInodeNr_ok hd' hget']
    have hlookup : Testfs.lookup (D' d) k = Testfs.lookup (D d) k := by
      refine Option.ext fun n => ?_
      rw [hg.lookup hd, hg'.lookup hd', hsame]
    rw [hlookup]

/-- two files, and the first one removed again -/
theorem directory_is_map_after_rm :
    ∃ s0 s M s1, start 1 (fun _ => 7) = .ok s0 ∧ Run mapStep (mapGood false) (s0, rootMaps) (s, M) ∧
      getInode s 0 = .ok s1 ∧ dirNameToInodeNr s1 0 tokenG.chars = .ok 2 ∧
      dirNameToInodeNr s1 0 tokenF.chars = .ok (-ENOENT) := by
  have h : after (start 1 fun _ => 7) (fun s0 => passes mapStep (mapGood false) (fun p =>
      decide (p.1.alloc 0 ∧ (p.1.dinode 0).iType = iDir) &&
        (decide (p.2 0 tokenF.chars = none ∧ p.2 0 tokenG.chars = some 2) &&
        after (getInode p.1 0) fun _ => true)) (s0, rootMaps)
      [.create tokenF, .create tokenG, .rm tokenF]) = true := by decide +kernel
  obtain ⟨s0, h0, hpass⟩ := exists_of_after h
  obtain ⟨⟨s, M⟩, hrun, hs⟩ := run_of_passes _ hpass
  simp only [Bool.and_eq_true, decide_eq_true_eq] at hs
  obtain ⟨hd, ⟨hF, hG⟩, hs⟩ := hs
  obtain ⟨s1, hget, -⟩ := exists_of_after hs
  have hmap := (directory_is_map ⟨le_rfl, by norm_num⟩ (fun hc => absurd hc Bool.false_ne_true) h0 hrun).2.1 0 s1
  refine ⟨s0, s, M, s1, h0, hrun, hget, ?_, ?_⟩
  · rw [(hmap tokenG.chars hd hget).1, hG]
    rfl
  · rw [(hmap tokenF.chars hd hget).1, hF]
    rfl

end OsLab.Testfs
