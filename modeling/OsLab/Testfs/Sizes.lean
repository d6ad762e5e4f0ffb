/-
The sizes of all files.

`Covered`: the size of every file covers its blocks (`Testfs.Cover`), in memory and on disk. The commands are followed
through it: a new entry leaves the directory and the new inode outside until they are synchronized, `rm` the directory,
`write` the file. `covering` is the test on the state before a command that what it writes leaves an end that covers the
blocks; in every run in which every command passes it, the sizes cover the blocks (`size_covers_blocks`).
`write_uncovers_block` is a run with a write that leaves a block behind the end.
-/
import Mathlib.Tactic
import OsLab.Testfs.Cover
import OsLab.Testfs.Mirror

namespace OsLab.Testfs

open OsLab.Lib Function State

variable {s s' s0 s1 t : State} {n d r : ℤ} {i : Inode} {es : List Dirent} {name : List UInt8} {D : ℤ → List Dirent}
  {c : Cmd} {buf : Lib.Mem} {k fsSizeMb : ℕ} {stack : ℕ → ℤ} {X : Set ℤ}

/-! ## Files that are covered -/

/-- outside of `X`, the size of every file covers its blocks, in memory and on disk -/
def Covered (X : Set ℤ) (s : State) : Prop :=
  ∀ m, s.alloc m → m ∉ X → Covers (s.tree m) (s.dinode m).iSize ∧ Covers (s.tree m) (s.diskDinode m).iSize

theorem Covered.mono {Y : Set ℤ} (h : Covered X s) (hXY : X ⊆ Y) : Covered Y s :=
  fun m hm hmY => h m hm fun hc => hmY (hXY hc)

/-- an inode that was not changed but for being read or written back -/
theorem Carries.covers {m : ℤ} (h : Carries s s' m) (htree : s'.tree m = s.tree m)
    (hcov : Covers (s.tree m) (s.dinode m).iSize ∧ Covers (s.tree m) (s.diskDinode m).iSize) :
    Covers (s'.tree m) (s'.dinode m).iSize ∧ Covers (s'.tree m) (s'.diskDinode m).iSize := by
  rw [htree]
  constructor
  · rcases h.mem with heq | heq
    · rw [heq]
      exact hcov.1
    · rw [heq]
      exact hcov.2
  · rcases h.disk with heq | heq
    · rw [heq]
      exact hcov.1
    · rw [heq]
      exact hcov.2

theorem Same.covered (h : Same s s') (hcov : Covered X s) : Covered X s' := by
  intro m hm hmX
  have hm0 := (h.alloc m).1 hm
  exact (h.carries m hm0).covers (h.still m hm0).tree (hcov m hm0 hmX)

theorem Edited.covered (h : Edited s s' n) (hn : n ∈ X) (hcov : Covered X s) : Covered X s' := by
  intro m hm hmX
  have hm0 := (h.alloc m).1 hm
  have hmn : m ≠ n := fun hc => hmX (hc ▸ hn)
  exact (h.carries hm0 hmn).covers (h.still m hm0 hmn).tree (hcov m hm0 hmX)

theorem Gone.covered (h : Gone s s' n) (hcov : Covered (insert n X) s) : Covered X s' := by
  intro m hm hmX
  obtain ⟨hm0, hmn⟩ := (h.alloc m).1 hm
  refine (h.carries hm0 hmn).covers (h.still m hm0 hmn).tree (hcov m hm0 ?_)
  rw [Set.mem_insert_iff, not_or]
  exact ⟨hmn, hmX⟩

theorem Born.covered {type : ℤ} (h : Born s s' n type) (hcov : Covered X s) : Covered (insert n X) s' := by
  intro m hm hmX
  rw [Set.mem_insert_iff, not_or] at hmX
  obtain ⟨hmn, hmX⟩ := hmX
  have hm0 := ((h.alloc m).1 hm).resolve_right hmn
  exact (h.carries hmn).covers (h.still m hm0).tree (hcov m hm0 hmX)

/-- a dirty inode is covered when it has been synchronized -/
theorem Flagged.covered (hflag : Flagged n s) (hs : Sound s) (hn : s.alloc n) (hheld : Held n s)
    (hcov : Covered (insert n X) s) (hr : syncInode s n = .ok s') : Covered X s' := by
  obtain ⟨hsame, i, i', hi, hi', heq, -⟩ := syncInode_same hs hn hr
  obtain ⟨j, hj, hcovers⟩ := hheld
  obtain rfl : i = j := Option.some.inj (hi.symm.trans hj)
  intro m hm hmX
  have hm0 := (hsame.alloc m).1 hm
  by_cases hmn : m = n
  · subst hmn
    have hset : Settled Eq (insert m {m}ᶜ) s := fun k _ _ hk => by simp at hk
    obtain ⟨-, hdisk⟩ := hflag.settles hs hn (fun _ => rfl) hset hr m i' hi' (by simp)
    rw [dinode_of_find hi', ← hdisk, heq, (hsame.still m hm0).tree]
    exact ⟨hcovers, hcovers⟩
  · refine (hsame.carries m hm0).covers (hsame.still m hm0).tree (hcov m hm0 ?_)
    rw [Set.mem_insert_iff, not_or]
    exact ⟨hmn, hmX⟩

/-- a new inode has no blocks and no bytes -/
theorem Born.held {type : ℤ} (h : Born s s' n type) : Held n s' := by
  obtain ⟨j, hj, hdj, -⟩ := h.find
  have htree : s'.tree n = fun _ => 0 := by
    rw [tree_of_find hj, hdj]
    exact funext (tree_zero ⟨rfl, rfl, rfl⟩)
  refine ⟨j, hj, ?_⟩
  rw [hdj, htree]
  have hnot : ¬10 + 2048 < blocksOf 0 := by decide
  exact ⟨fun b _ hne => absurd rfl hne, fun hne => absurd rfl hne, fun hne => absurd rfl hne,
    fun hlt => absurd hlt hnot⟩

/-! ## The commands -/

/-- **`testfs_create_file_or_dir` after the inode was made.** -/
theorem linkInode_covered {type : ℤ} (hs : Sound s) (hn : s.alloc n) (hd : s.alloc d) (hdn : d ≠ n)
    (hnew : type = iDir → Directory s n []) (hdir : Directory s d es) (hname : 0 ∉ name) (hflag : Flagged n s)
    (hheld : Held n s) (hfirst : s.tree n (.direct 0) = 0) (hstack : ∀ j, s.stack j = 0) (hcalm : r < 0 → Calm s s')
    (hholds : Holds (s.tree d) (s.sb.usedBlockCount + if type = iDir then 1 else 0) s.sb.maxFsBlocks es name)
    (hdX : d ∉ X) (hcov : Covered (insert n X) s) (hr : linkInode s (some d) type name n = .ok (r, s')) :
    Covered X s' := by
  have hcov1 : ∀ {s1}, Edited s s1 n → Covered (insert n X) s1 := fun hedit => hedit.covered (Set.mem_insert n X) hcov
  have hdnX : d ∉ insert n X := by
    rw [Set.mem_insert_iff, not_or]
    exact ⟨hdn, hdX⟩
  -- the test, when the inode was made
  have hmade : ∀ {r1 s1},
      ((type = iDir ∧ createEmptyDir s d n = .ok (r1, s1)) ∨ (type ≠ iDir ∧ r1 = 0 ∧ s1 = s)) → 0 ≤ r1 →
      Edited s s1 n → Holds (s1.tree d) s1.sb.usedBlockCount s1.sb.maxFsBlocks es name := by
    intro r1 s1 hmake h1 hedit
    obtain ⟨-, hused⟩ := made_calm hs hn hd hnew hfirst hstack hmake
    obtain ⟨-, hused, hmax⟩ := hused h1
    rw [hused, hmax, (hedit.still d hd hdn).tree]
    exact hholds
  cases linkInode_steps hs hn hd hdn hnew hdir hname hflag hcalm hr with
  | unmade s1 hedit hgone => exact hgone.covered (hcov1 hedit)
  | refused r1 s1 s2 hmake h1 hedit hdir1 hadd hneg hedit2 hdir2 hfails hgone =>
    have hd1 := (hedit.alloc d).2 hd
    obtain ⟨hmem1, hdisk1⟩ := hcov1 hedit d hd1 hdnX
    have hsize : (s2.dinode d).iSize = (s1.dinode d).iSize := hdir2.size.trans hdir1.size.symm
    have htree := addDirent_refused hedit.sound hd1 hdir1 hname (inInt32_of_alloc hs hn)
      (by rw [hedit.stack]; exact hstack) (hmade hmake h1 hedit) hmem1 hadd hneg hsize
    refine hgone.covered fun m hm hmX => ?_
    by_cases hmd : m = d
    · subst hmd
      rw [htree, hsize, hedit2.disk m (hedit.sound.core.mem.allocRange m hd1)]
      exact ⟨hmem1, hdisk1⟩
    · refine hedit2.covered (Set.mem_insert d _) ((hcov1 hedit).mono (Set.subset_insert d _)) m hm ?_
      rw [Set.mem_insert_iff, not_or]
      exact ⟨hmd, hmX⟩
  | linked r1 r2 s1 s2 s3 s4 hmake h1 hedit hdir1 hadd h2 hedit2 hflag2 hsync hsame3 hfind3 hflag3
    hsync2 hsame4 hsame5 =>
    have hd1 := (hedit.alloc d).2 hd
    have hd2 := (hedit2.alloc d).2 hd1
    have hn1 := (hedit.alloc n).2 hn
    have hn2 := (hedit2.alloc n).2 hn1
    have hheld1 : Held n s1 := by
      rcases hmake with ⟨htype, hempty⟩ | ⟨-, -, rfl⟩
      · exact createEmptyDir_held hs hn (hnew htype) hheld.covers hempty h1
      · exact hheld
    have hheld2 := addDirent_held hedit.sound hd1 hdir1 (fun hnone => (hmade hmake h1 hedit hnone).1)
      (hcov1 hedit d hd1 hdnX).1 hadd h2
    have hcov2 : Covered (insert d (insert n X)) s2 :=
      hedit2.covered (Set.mem_insert d _) ((hcov1 hedit).mono (Set.subset_insert d _))
    have hcov3 := hflag2.covered hedit2.sound hd2 hheld2 hcov2 hsync
    have hheld3 : Held n s3 := by
      refine hheld1.of_eq hfind3 ?_
      rw [(hsame3.still n hn2).tree, (hedit2.still n hn1 hdn.symm).tree]
    exact hsame5.covered (hflag3.covered hsame3.sound ((hsame3.alloc n).2 hn2) hheld3 hcov3 hsync2)

/-- A new entry of the current directory, before which `k` blocks are taken, passes the test. -/
def entrySpans (s : State) (name : List UInt8) (k : ℕ) : Bool :=
  let size := (s.dinode s.curDir).iSize
  !(appends s name && inodeLeft s && decide (name.length + 9 < 2 ^ 31)) ||
    decide (Spans (s.tree s.curDir) (s.sb.usedBlockCount + k) s.sb.maxFsBlocks size size (name.length + 9))

theorem Born.holds {type : ℤ} (h : Born s t n type) (hg : Graph s D) (hi : s.find s.curDir = some i)
    (htorn : torn s name k = false) (hspan : entrySpans s name k = true) :
    Holds (s.tree s.curDir) (s.sb.usedBlockCount + k) s.sb.maxFsBlocks (D s.curDir) name := by
  have hdir := hg.directory hg.cur
  intro hnone
  refine ⟨(h.whole hg hi htorn hnone).1, fun hlen => ?_⟩
  simp only [entrySpans, appends_of_none hdir (hg.pos hg.cur.1) hi hnone, h.inodeLeft hg.sound, decide_eq_true hlen,
    Bool.and_self, Bool.not_true, Bool.false_or, decide_eq_true_eq, hdir.size] at hspan
  exact hspan

/-- **`testfs_create_file_or_dir`.** -/
theorem createFileOrDir_covered {type : ℤ} (hg : Graph s D) (hstack : ∀ j, s.stack j = 0)
    (htype : type = iFile ∨ type = iDir) (hname : 0 ∉ name) (htorn : torn s name (if type = iDir then 1 else 0) = false)
    (hspan : entrySpans s name (if type = iDir then 1 else 0) = true) (hzero : ∀ x ∈ s'.dirFails, x = 0)
    (hcov : Covered ∅ s) (hr : createFileOrDir s (some s.curDir) type name = .ok (r, s')) : Covered ∅ s' := by
  obtain ⟨nr, hlookup, ⟨-, -, rfl⟩ | ⟨-, r1, n, s1, hcreate, hrest⟩⟩ := createFileOrDir_cases hr
  · exact hcov
  obtain ⟨⟨i, hi⟩, -⟩ := dirNameToInodeNr_eq (hg.directory hg.cur) (hg.pos hg.cur.1) hlookup
  rcases createInode_spec hg.sound htype hcreate with ⟨rfl, hsame⟩ | ⟨rfl, hborn⟩
  · obtain ⟨-, -, rfl⟩ := hrest.resolve_right fun hc => absurd hc.1 (by decide)
    exact hsame.covered hcov
  obtain ⟨-, hlink⟩ := hrest.resolve_left fun hc => absurd hc.1 (by rw [← hc.2.1]; exact lt_irrefl 0)
  obtain ⟨hn1, hd1, hdn, hnew, hdir1⟩ := hborn.around hg hg.cur
  have hstack1 : ∀ j, s1.stack j = 0 := by
    rw [hborn.stack]
    exact hstack
  have hflag : Flagged n s1 := by
    obtain ⟨j, hj, -, hdirty⟩ := hborn.find
    intro i hi
    rw [hj] at hi
    cases hi
    exact hdirty
  refine linkInode_covered hborn.sound hn1 hd1 hdn hnew hdir1 hname hflag hborn.held hborn.first hstack1
    (fun _ => ⟨hzero, Or.inl hstack1⟩) ?_ (Set.notMem_empty _) (hborn.covered hcov) hlink
  rw [(hborn.still s.curDir hg.cur.1).tree, hborn.used, hborn.max]
  exact hborn.holds hg hi htorn hspan

/-- **`rm`.** -/
theorem cmdRm_covered (hg : Graph s D) (hstack : ∀ j, s.stack j = 0) (hcov : Covered ∅ s)
    (hr : cmdRm s name = .ok (r, s')) :
    Covered ∅ s' := by
  cases cmdRm_steps hg (fun _ => Or.inl hstack) hr with
  | kept hsame => exact hsame.covered hcov
  | removed n r pre e post t s1 s2 s3 hn hdn hes hsame hw h1 hedit hsame2 hgone hfind3 hflag3 hsync =>
    have hdir := hg.directory hg.cur
    have hdt := (hsame.alloc _).2 hg.cur.1
    have hd1 := (hedit.alloc _).2 hdt
    have hd2 := (hsame2.alloc _).2 hd1
    have hcovt := hsame.covered hcov
    -- the entry is overwritten
    have hmem : e ∈ D s.curDir := by rw [hes]; simp
    have hstart : (listing pre).length < 2 ^ 32 := by
      have hsmall := hdir.small
      rw [hes, listing_append, List.length_append] at hsmall
      omega
    have hbytes : e.dead.bytes.length = e.bytes.length := by simp only [Dirent.bytes_length, Dirent.dead]
    have hheld1 : Held s.curDir s1 := writeDir_held hsame.sound hdt (Dirent.bytes_pos _)
      (by rw [hbytes]; exact (hdir.wf e hmem).bytes_lt) hstart (hcovt _ hdt (Set.notMem_empty _)).1 hw h1
    have hheld3 : Held s.curDir s3 := by
      refine hheld1.of_eq hfind3 ?_
      rw [(hgone.still _ hd2 hdn).tree, (hsame2.still _ hd1).tree]
    -- the directory is dirty until it is synchronized
    have hcov1 : Covered (insert s.curDir ∅) s1 := hedit.covered (Set.mem_insert _ _) (hcovt.mono (Set.empty_subset _))
    have hcov3 : Covered (insert s.curDir ∅) s3 := hgone.covered ((hsame2.covered hcov1).mono (Set.subset_insert _ _))
    exact hflag3.covered hgone.sound ((hgone.alloc _).2 ⟨hd2, hdn⟩) hheld3 hcov3 hsync

/-- A write passes the test, or it changes nothing of a file that leaves memory after it. -/
def writeSpans (s : State) (name : List UInt8) (start : ℤ) (len : ℕ) : Bool :=
  match dirNameToInodeNr s s.curDir name with
  | .ok n => decide (start < 0 ∨ n < 0 ∨ (s.dinode n).iType = iDir ∨
      Spans (s.tree n) s.sb.usedBlockCount s.sb.maxFsBlocks (s.dinode n).iSize start len) ||
    ((s.find n).isNone && decide (Untouched (s.tree n) s.sb.usedBlockCount s.sb.maxFsBlocks start len))
  | .error _ => true

section

variable {start : ℤ} {len : ℕ} {s2 s3 : State}

theorem WriteCall.looked (h : WriteCall s s' D name buf start len r n s1 s2 s3) :
    dirNameToInodeNr s s.curDir name = .ok n := by
  have hfound := h.found
  unfold getFileInode at hfound
  obtain ⟨nr, hnr, hfound⟩ := bind_eq_ok.1 hfound
  split_ifs at hfound with hneg
  · cases hfound
    exact absurd hneg (lt_irrefl 0)
  · obtain ⟨t, -, hfound⟩ := bind_eq_ok.1 hfound
    obtain ⟨j, -, hfound⟩ := bind_eq_ok.1 hfound
    split_ifs at hfound
    · obtain ⟨u, -, hfound⟩ := bind_eq_ok.1 hfound
      cases hfound
    · cases hfound
      exact hnr

/-- what the test says about a file that is written -/
theorem WriteCall.spans (h : WriteCall s s' D name buf start len r n s1 s2 s3) (hg : Graph s D)
    (hspan : writeSpans s name start len = true) :
    Spans (s.tree n) s.sb.usedBlockCount s.sb.maxFsBlocks (s.dinode n).iSize start len ∨
      (s.find n = none ∧ Untouched (s.tree n) s.sb.usedBlockCount s.sb.maxFsBlocks start len) := by
  have h0 : 0 ≤ n := (h.alloc hg).1
  have hfile : (s.dinode n).iType ≠ iDir := fun hc => h.file ⟨h.alloc hg, hc⟩
  simp only [writeSpans, h.looked, not_lt.2 h.nonneg, not_lt.2 h0, hfile, false_or, Bool.or_eq_true, decide_eq_true_eq,
    Bool.and_eq_true, Option.isNone_iff_eq_none] at hspan
  exact hspan

/-- a file that was not in memory, and was not changed, is not in memory after it -/
theorem WriteCall.dropped (h : WriteCall s s' D name buf start len r n s1 s2 s3) (hg : Graph s D)
    (hstack : ∀ j, s.stack j = 0) (hnone : s.find n = none)
    (hun : Untouched (s.tree n) s.sb.usedBlockCount s.sb.maxFsBlocks start len) :
    s'.find n = none ∧ s'.dev = s2.dev ∧ s2.tree n = s1.tree n := by
  have hsame := h.same
  have hn1 := (hsame.alloc n).2 (h.alloc hg)
  obtain ⟨h0, hlt⟩ := mem_range hg.sound.core.mem (h.alloc hg)
  have hstack1 : ∀ j, s1.stack j = 0 := by
    rw [hsame.stack]
    exact hstack
  rcases getInode_cases hg.sound.core.geo h0 hlt h.get with ⟨j, hj, -⟩ | ⟨-, hs1⟩
  · rw [hnone] at hj
    cases hj
  have hi : s1.find n = some ⟨s.diskDinode n, false, n, 1⟩ := by
    rw [hs1, find_cons, if_pos rfl]
  obtain ⟨i', hgrew⟩ := h.grew hg hstack hi
  rw [← (hsame.still n (h.alloc hg)).tree, ← hsame.used, ← hsame.max] at hun
  have hclean := writeData_untouched (hsame.sound.core.change n) hn1 hi hsame.sound.inside hstack1 h.write
    hun rfl hgrew.touch.new
  have hkept := writeData_kept (hsame.sound.core.change n) hn1 hi hsame.sound.inside hstack1 h.write
    hgrew.touch.new hclean
  have h2 := hgrew.edited hsame.sound.core.mem
  -- nothing is written back
  obtain ⟨j, hj, ⟨-, hs3⟩ | ⟨hdirty, -⟩⟩ := syncInode_cases h2.sound.core.geo h2.sound.core.mem h.sync
  swap
  · rw [hgrew.touch.new] at hj
    cases hj
    rw [hclean] at hdirty
    cases hdirty
  have hput := h.put
  rw [hs3] at hput
  unfold putInode at hput
  rw [deref_eq_ok.2 hgrew.touch.new, ok_bind, if_neg (by rw [hclean]; decide),
    if_pos (by rw [hgrew.touch.count]; rfl)] at hput
  cases hput
  refine ⟨?_, rfl, hkept⟩
  exact (find_eraseP h2.sound.core.mem.nodup n).trans (if_pos rfl)

/-- **`write`.** -/
theorem WriteCall.covered (h : WriteCall s s' D name buf start len r n s1 s2 s3) (hg : Graph s D)
    (hstack : ∀ j, s.stack j = 0) (hspan : writeSpans s name start len = true) (hcov : Covered ∅ s) : Covered ∅ s' := by
  have hsame := h.same
  have hcore := hsame.sound.core.change n
  have hn1 := (hsame.alloc n).2 (h.alloc hg)
  have hstack1 : ∀ j, s1.stack j = 0 := by
    rw [hsame.stack]
    exact hstack
  obtain ⟨i, hi, hdi⟩ := h.find hg
  obtain ⟨i', hgrew⟩ := h.grew hg hstack hi
  have h2 := hgrew.edited hsame.sound.core.mem
  have hn2 := (h2.alloc n).2 hn1
  obtain ⟨h3, -⟩ := syncInode_same h2.sound hn2 h.sync
  have hput := putInode_same h3.sound h.put
  have hcov1 := hsame.covered hcov
  have hcov2 : Covered {n} s2 := h2.covered (Set.mem_singleton n) (hcov1.mono (Set.empty_subset _))
  obtain ⟨hmem, hdisk⟩ := hcov1 n hn1 (Set.notMem_empty n)
  have hlt := hsame.sound.core.mem.allocRange n hn1
  rcases h.spans hg hspan with hspan | ⟨hnone, hun⟩
  · rw [← (hsame.still n (h.alloc hg)).tree, ← hsame.used, ← hsame.max, ← hdi] at hspan
    rw [dinode_of_find hi] at hmem
    obtain ⟨j, hj, hcovers⟩ := writeData_covers hcore hn1 hi hsame.sound.inside hstack1 h.write hmem hspan
    obtain rfl : i' = j := Option.some.inj (hgrew.touch.new.symm.trans hj)
    cases hdirty : i'.dirty with
    | true =>
      have hflag : Flagged n s2 := by
        intro k hk
        rw [hj] at hk
        cases hk
        exact hdirty
      rw [← insert_empty_eq n] at hcov2
      exact hput.covered (hflag.covered h2.sound hn2 ⟨i', hj, hcovers⟩ hcov2 h.sync)
    | false =>
      -- no block was taken, so the inode on disk covers the blocks too
      have hkept := writeData_kept hcore hn1 hi hsame.sound.inside hstack1 h.write hj hdirty
      refine hput.covered (h3.covered fun m hm _ => ?_)
      by_cases hmn : m = n
      · subst hmn
        rw [dinode_of_find hj, h2.disk m hlt]
        exact ⟨hcovers, by rwa [hkept]⟩
      · exact hcov2 m hm hmn
  · obtain ⟨hfind, hdev, hkept⟩ := h.dropped hg hstack hnone hun
    have hcov' : Covered {n} s' := hput.covered (h3.covered hcov2)
    intro m hm _
    by_cases hmn : m = n
    · subst hmn
      have hdisk' : s'.diskDinode m = s1.diskDinode m := by
        rw [← h2.disk m hlt]
        unfold State.diskDinode
        rw [hdev]
      have htree : s'.tree m = s1.tree m := by
        rw [(hput.still m ((h3.alloc m).2 hn2)).tree, (h3.still m hn2).tree, hkept]
      rw [dinode_of_none hfind, hdisk', htree]
      exact ⟨hdisk, hdisk⟩
    · exact hcov' m hm hmn

end

/-! ## Runs -/

/-- every write leaves an end that covers the blocks -/
def spanning (s : State) : Cmd → Bool
  | .create name => entrySpans s name.chars 0
  | .mkdir name => entrySpans s name.chars 1
  | .write name offset data => writeSpans s name.chars offset.toInt data.chars.length
  | _ => true

theorem spanning_of_makes {type : ℤ} {name : Token} (hmakes : c.makes = some (type, name))
    (hgood : spanning s c = true) :
    entrySpans s name.chars (if type = iDir then 1 else 0) = true := by
  rcases makes_eq hmakes with ⟨rfl, rfl⟩ | ⟨rfl, rfl⟩
  · rw [if_neg (by decide)]
    exact hgood
  · rw [if_pos rfl]
    exact hgood

theorem exec_covered (hg : Graph s D) (hstack : ∀ j, s.stack j = 0) (hzero : ∀ x ∈ s'.dirFails, x = 0)
    (htorn : untorn s c = true) (hspan : spanning s c = true) (hcov : Covered ∅ s) (hr : exec s c = .ok (r, s')) :
    Covered ∅ s' := by
  rcases exec_cases hg hr with ⟨-, hsame | ⟨n, -, hmoved⟩⟩ | ⟨type, name, hmakes, htype, hcreate⟩ | ⟨name, rfl, hrm⟩ |
    ⟨name, offset, data, rfl, hw⟩
  · exact hsame.covered hcov
  · exact hmoved.same.covered hcov
  · exact createFileOrDir_covered hg hstack htype name.noNul (torn_of_makes hmakes htorn)
      (spanning_of_makes hmakes hspan) hzero
      hcov hcreate
  · exact cmdRm_covered hg hstack hcov hrm
  · rcases writeFile_cases hg hw with ⟨-, hsame⟩ | ⟨n, s1, s2, s3, hcall⟩
    · exact hsame.covered hcov
    · exact hcall.covered hg hstack hspan hcov

/-- a new file system: the root directory has its two entries in one block -/
theorem start_covered (hk : validSize fsSizeMb) (h0 : start fsSizeMb stack = .ok s) : Covered ∅ s := by
  obtain ⟨r1, s1, t, u, hinit, hroot, -, -, -, hu, -, -, hget⟩ := start_cases hk h0
  obtain ⟨hk1, hk2⟩ := hk
  have hblank := initSuperBlock_blank (by omega) hinit
  obtain ⟨v, w, x, hborn, hempty, hedit, -, hsync, hput⟩ := createRoot_cases hblank (by omega) hroot
  have hv : v.alloc 0 := (hborn.alloc 0).2 (Or.inr rfl)
  have hw : w.alloc 0 := (hedit.alloc 0).2 hv
  have hcov : Covered (insert 0 ∅) w := by
    have hnone : Covered ∅ s1 := fun m hm => absurd hm (hblank.unused m)
    exact hedit.covered (Set.mem_insert 0 _) (hborn.covered hnone)
  have hheld : Held 0 w := createEmptyDir_held hborn.sound hv hborn.directory hborn.held.covers hempty le_rfl
  have hcov3 := (createEmptyDir_flags hempty le_rfl).covered hedit.sound hw hheld hcov hsync
  obtain ⟨hsame, -⟩ := syncInode_same hedit.sound hw hsync
  have hcovt : Covered ∅ t := (putInode_same hsame.sound hput).covered hcov3
  -- the device is closed and opened
  obtain ⟨hget, -⟩ := getInode_same hu.sound (by decide) (by decide) hget
  refine hget.covered fun m hm hmX => ?_
  have hmt := (hu.alloc m).1 hm
  have hnone : u.find m = none := by simp [State.find, hu.hash]
  rw [← dinode_of_none hnone, hu.dinode, (hu.still m hmt).tree]
  exact ⟨(hcovt m hmt hmX).2, (hcovt m hmt hmX).2⟩

/-- the tests on a command: no entry is torn, and every write leaves an end that covers the blocks -/
def covering (s : State) (c : Cmd) : Bool := untorn s c && spanning s c

/-- **The size of a file covers its blocks.** -/
theorem size_covers_blocks (hk : validSize fsSizeMb) (hstack : ∀ j, stack j = 0) (h0 : start fsSizeMb stack = .ok s0)
    (hrun : Run step covering s0 s) (hn : s.alloc n) : Covers (s.tree n) (s.dinode n).iSize := by
  obtain ⟨hg, hst, hf⟩ := start_graph hk h0
  have hinv : (∃ D, Graph s D) ∧ (∀ j, s.stack j = 0) ∧ (∀ x ∈ s.dirFails, x = 0) ∧ Covered ∅ s := by
    refine hrun.inv (fun t => (∃ D, Graph t D) ∧ (∀ j, t.stack j = 0) ∧ (∀ x ∈ t.dirFails, x = 0) ∧ Covered ∅ t) ?_
      ⟨⟨_, hg⟩, by rw [hst]; exact hstack, by rw [hf]; exact fun x hx => absurd hx List.not_mem_nil,
       start_covered hk h0⟩
    rintro t c t' ⟨⟨D, hg⟩, hz, hf, hcov⟩ hgood hstep
    obtain ⟨r, hexec⟩ := step_eq_ok.1 hstep
    unfold covering at hgood
    rw [Bool.and_eq_true] at hgood
    obtain ⟨htorn, hspan⟩ := hgood
    have hf' : ∀ x ∈ t'.dirFails, x = 0 := fun x hx => (exec_calm hg hz htorn hexec x hx).elim (hf x) id
    obtain ⟨hg', hst'⟩ := exec_graph hg ⟨hf', Or.inl hz⟩ (fun _ => hz) hexec
    exact ⟨hg', by rw [hst']; exact hz, hf', exec_covered hg hz hf' htorn hspan hcov hexec⟩
  exact (hinv.2.2.2 n hn (Set.notMem_empty n)).1

/-- a file is written -/
theorem size_covers_blocks_of_write :
    ∃ s0 s, start 1 (fun _ => 0) = .ok s0 ∧ Run step covering s0 s ∧ s.sb.usedBlockCount = 2 ∧ s.alloc 1 ∧
      Covers (s.tree 1) (s.dinode 1).iSize := by
  have h : after (start 1 fun _ => 0) (fun s0 => passes step covering (fun s =>
      decide (s.sb.usedBlockCount = 2 ∧ s.alloc 1)) s0 [.create tokenF, .write tokenF 0 tokenG]) = true := by
        decide +kernel
  obtain ⟨s0, h0, hpass⟩ := exists_of_after h
  obtain ⟨s, hrun, hs⟩ := run_of_passes _ hpass
  obtain ⟨hused, hn⟩ := of_decide_eq_true hs
  exact ⟨s0, s, h0, hrun, hused, hn, size_covers_blocks ⟨le_rfl, by norm_num⟩ (fun _ => rfl) h0 hrun hn⟩

/-- One block is left, and a write to an empty file needs three. The first one is taken, the second one is refused, and
the file still has no bytes. -/
theorem write_uncovers_block :
    ¬ ∀ (fsSizeMb : ℕ) (stack : ℕ → ℤ) (s0 s : State) (n : ℤ), validSize fsSizeMb → (∀ j, stack j = 0) →
      start fsSizeMb stack = .ok s0 → Run step anyStep s0 s → s.alloc n → Covers (s.tree n) (s.dinode n).iSize := by
  intro hall
  have h : after (start 1 fun _ => 0) (fun s0 => after (step s0 (.create tokenF)) fun s1 =>
      after (fillStep s1 tokenF.chars 0 (125 * 8192 - 1)) fun s2 => after (step s2 (.create tokenG)) fun s3 =>
        after (fillStep s3 tokenG.chars 0 (2 * 8192)) fun s =>
          decide (s.alloc 2 ∧ (s.dinode 2).iSize = 0 ∧ (s.dinode 2).iBlockNr 0 ≠ 0)) = true := by decide +kernel
  obtain ⟨s0, h0, h⟩ := exists_of_after h
  obtain ⟨s1, h1, h⟩ := exists_of_after h
  obtain ⟨s2, h2, h⟩ := exists_of_after h
  obtain ⟨s3, h3, h⟩ := exists_of_after h
  obtain ⟨s, h4, h⟩ := exists_of_after h
  rw [← step_fill] at h2 h4
  obtain ⟨hn, hsize, hblock⟩ := of_decide_eq_true h
  have hrun : Run step anyStep s0 s := ((((Run.refl s0).tail _ rfl h1).tail _ rfl h2).tail _ rfl h3).tail _ rfl h4
  have hcov := hall 1 _ s0 s 2 ⟨le_rfl, by norm_num⟩ (fun _ => rfl) h0 hrun hn
  have hlt := hcov.mapped 0 (by decide) hblock
  rw [hsize] at hlt
  exact absurd hlt (by decide)

end OsLab.Testfs
