/-
Memory and disk.

Between two commands the inodes in memory are those on disk, and closing and opening the device gives the same file
system (`Mirrors`). Commands that change an inode synchronize it on the exits on which they succeed. Three commands do
not keep it:
- `create` and `mkdir`, where the new entry goes behind the last one and only some of its blocks can be had: the blocks
  that were taken set the dirty flag of the directory, and it is not synchronized (`soiled`);
- the same, where the end of the directory moves to a torn entry (`torn`);
- `ls` of a regular file, which leaves the inode in memory: the table of inodes is not empty when it is destroyed.
In every run without them memory and disk agree (`memory_mirrors_disk`). `create_soils_directory` is a run of the first
kind.
-/
import Mathlib.Tactic
import OsLab.Testfs.Append
import OsLab.Testfs.Walk

namespace OsLab.Testfs

open OsLab.Lib Function State

variable {s s' s0 t u : State} {n d r nr : ℤ} {i : Inode} {es : List Dirent} {name : List UInt8} {D : ℤ → List Dirent}
  {c : Cmd} {dev : Dev} {X : Set ℤ} {fsSizeMb : ℕ} {stack : ℕ → ℤ}

/-! ## An entry that is refused -/

/-- The blocks of a new entry behind the entries `es` can all be had, or none can. -/
def Spared (T : Slot → ℤ) (used max : ℕ) (es : List Dirent) (name : List UInt8) : Prop :=
  es.findSome? (addHere name (name.length + 1)) = none → name.length + 9 < 2 ^ 31 → used < max →
    used + need T ((listing es).length / 8192) (lastBlock (listing es).length (name.length + 9) + 1) ≤ max

/-- no block was taken, not even for a time -/
theorem Spared.not_dirties {q : ℕ} (h : Spared (s.tree n) s.sb.usedBlockCount s.sb.maxFsBlocks es name)
    (hnone : es.findSome? (addHere name (name.length + 1)) = none) (hlen : name.length + 9 < 2 ^ 31)
    (hsmall : (listing es).length < 2 ^ 32) (hi : i.dirty = false)
    (hq : q ≤ lastBlock (listing es).length (name.length + 9)) (hstops : Stops s n (listing es).length q) :
    ¬Dirties s n i (listing es).length q := by
  have hbelow : q < maxBlockNr := by
    rw [maxBlockNr_eq]
    unfold lastBlock at hq
    omega
  have hrefused : s.sb.maxFsBlocks < s.sb.usedBlockCount + need (s.tree n) ((listing es).length / 8192) (q + 1) := by
    by_contra hle
    exact hstops.refused ⟨hbelow, by omega⟩
  have hmono : need (s.tree n) ((listing es).length / 8192) (q + 1) ≤
      need (s.tree n) ((listing es).length / 8192) (lastBlock (listing es).length (name.length + 9) + 1) :=
    need_mono (by omega)
  have hfull : ¬s.sb.usedBlockCount < s.sb.maxFsBlocks := by
    intro hlt
    have hle := h hnone hlen hlt
    omega
  rintro (hdirty | htook | ⟨-, hlt⟩)
  · exact absurd hdirty (by rw [hi]; decide)
  · -- the block before the one that is refused could be had
    have hfirst : (listing es).length / 8192 < q := by
      by_contra hle
      refine htook (Finset.card_eq_zero.2 (Finset.eq_empty_of_forall_notMem fun τ hτ => ?_))
      obtain ⟨⟨b, hb, -⟩, -⟩ := mem_gaps.1 hτ
      omega
    obtain ⟨-, hhad⟩ := hstops.before (q - 1) (by omega) (by omega)
    rw [Nat.sub_add_cancel (by omega)] at hhad
    omega
  · exact hfull hlt

/-- **An entry that is refused leaves the directory as it is on disk.** -/
theorem addDirent_settled (hs : Sound s) (hd : s.alloc d) (h : Directory s d es) (hname : 0 ∉ name) (hnr : InInt32 nr)
    (hstack : ∀ j, s.stack j = 0) (hwhole : Whole (s.tree d) s.sb.usedBlockCount s.sb.maxFsBlocks es name)
    (hspared : Spared (s.tree d) s.sb.usedBlockCount s.sb.maxFsBlocks es name) (hcalm : Calm s u)
    (hset : Settled Eq X s) (hdX : d ∉ X) (hr : addDirent s d name nr = .ok (r, u))
    (hneg : r < 0) : Settled Eq X u := by
  obtain ⟨hedit, -⟩ := addDirent_spec hs hd h hname hnr (fun _ => hcalm) hr
  rcases addDirent_cases (hs.core.acc.nonneg_of_tree hd) h hr with
    ⟨rfl, -⟩ | ⟨hlt, ⟨hnone, hend, hw⟩ | ⟨pre, e, post, rfl, -, hsame, hw⟩⟩
  · exact hset
  · have hbytes := entryOfName_bytes name nr
    have hlen : name.length + 9 < 2 ^ 31 := (hwhole hnone).1.resolve_right (by omega)
    obtain ⟨i, i', t, k, hi, hi', hbroken, rfl⟩ := writeDir_broken hs hd hstack (by omega) hend hw hneg
    rw [hbytes] at hbroken
    obtain ⟨hclean, hdisk⟩ := hset d i hi hdX
    have hsize := h.size
    rw [dinode_of_find hi] at hsize
    have heq := hbroken.end_eq (hs.core.change d) hd hi' hsize fun q hq hstops hmoving =>
      hwhole.stops hnone h.small hlen hq hstops hmoving
    obtain ⟨hstops, hle, -⟩ := hbroken.stops (hs.core.change d) hd
    obtain ⟨-, j, hleft⟩ := hbroken.left (hs.core.change d) hd
    obtain rfl : i' = j := Option.some.inj (hi'.symm.trans hleft.find)
    have hclean' : i'.dirty = false := by
      rw [← Bool.not_eq_true, hleft.dirty]
      exact hspared.not_dirties hnone hlen h.small hclean hle hstops
    have hdinode : i'.dinode = i.dinode := by rw [hleft.clean hclean', heq]
    intro m j hj hm
    by_cases hmd : m = d
    · subst hmd
      obtain rfl : j = i' := Option.some.inj (hj.symm.trans hi')
      rw [hedit.disk m (hs.core.mem.allocRange m hd), hdinode]
      exact ⟨hclean', hdisk⟩
    · refine hedit.settled (Set.mem_insert d X) (hset.mono (Set.subset_insert d X)) m j hj fun hc => ?_
      exact (Set.mem_insert_iff.1 hc).elim hmd hm
  · have heq : (entryOfName name nr).name.length = e.name.length := by rw [entryOfName_length, hsame]
    obtain ⟨h0, -⟩ := replace_entry hs hd h (entryOfName_wf hname hnr (by rw [heq]; exact (h.wf e (by simp)).short)) heq
      (fun _ => Or.inl hstack) hw
    exact absurd hneg (not_lt.2 h0)

/-! ## The test on the state before a command -/

/-- Some, but not all, of the blocks of a new entry of the current directory can be had, after `k` blocks were taken. -/
def soiled (s : State) (name : List UInt8) (k : ℕ) : Bool :=
  let size := (s.dinode s.curDir).iSize.toNat
  let last := lastBlock size (name.length + 9)
  appends s name && inodeLeft s && decide (name.length + 9 < 2 ^ 31 ∧ s.sb.usedBlockCount + k < s.sb.maxFsBlocks ∧
    s.sb.maxFsBlocks < s.sb.usedBlockCount + k + need (s.tree s.curDir) (size / 8192) (last + 1))

/-- no directory is left dirty -/
def unsoiled (s : State) : Cmd → Bool
  | .create name => !soiled s name.chars 0
  | .mkdir name => !soiled s name.chars 1
  | _ => true

theorem soiled_of_makes {type : ℤ} {name : Token} (hmakes : c.makes = some (type, name)) (hgood : unsoiled s c = true) :
    soiled s name.chars (if type = iDir then 1 else 0) = false := by
  rcases makes_eq hmakes with ⟨rfl, rfl⟩ | ⟨rfl, rfl⟩
  · rw [if_neg (by decide)]
    simpa [unsoiled] using hgood
  · rw [if_pos rfl]
    simpa [unsoiled] using hgood

/-- no entry is refused half way, and `ls` is given no regular file -/
def mirrored (s : State) (c : Cmd) : Bool := listsDirs s c && untorn s c && unsoiled s c

/-- where there is a number for a new inode, the test says that all blocks of a new entry can be had, or none -/
theorem Born.spared {type : ℤ} {k : ℕ} (h : Born s t n type) (hg : Graph s D) (hi : s.find s.curDir = some i)
    (hsoiled : soiled s name k = false) :
    Spared (s.tree s.curDir) (s.sb.usedBlockCount + k) s.sb.maxFsBlocks (D s.curDir) name := by
  have hdir := hg.directory hg.cur
  have hsize : (s.dinode s.curDir).iSize.toNat = (listing (D s.curDir)).length := by rw [hdir.size, Int.toNat_natCast]
  intro hnone hlen hlt
  simp only [soiled, appends_of_none hdir (hg.pos hg.cur.1) hi hnone, h.inodeLeft hg.sound, hsize, Bool.true_and,
    decide_eq_false_iff_not, not_and, not_lt] at hsoiled
  exact hsoiled hlen hlt

/-! ## The commands -/

/-- `create` and `mkdir` -/
theorem createFileOrDir_settled {type : ℤ} (hg : Graph s D) (hstack : ∀ j, s.stack j = 0)
    (hi : s.find s.curDir = some i) (htype : type = iFile ∨ type = iDir) (hname : 0 ∉ name)
    (htorn : torn s name (if type = iDir then 1 else 0) = false)
    (hsoiled : soiled s name (if type = iDir then 1 else 0) = false) (hzero : ∀ x ∈ s'.dirFails, x = 0)
    (hset : Settled Eq ∅ s) (hr : createFileOrDir s (some s.curDir) type name = .ok (r, s')) : Settled Eq ∅ s' := by
  refine createFileOrDir_settles (fun _ => rfl) hg hg.cur htype hname (fun _ => ⟨hzero, Or.inl hstack⟩) ?_ hset hr
  intro n r1 s1 t u hborn hmake h1 hedit hadd hneg hu hset1
  obtain ⟨hn1, hd1, hdn, hnew, hdir1⟩ := hborn.around hg hg.cur
  have hstack1 : ∀ j, s1.stack j = 0 := by
    rw [hborn.stack]
    exact hstack
  have hstack2 : ∀ j, t.stack j = 0 := by
    rw [hedit.stack]
    exact hstack1
  obtain ⟨-, hmade⟩ := made_calm hborn.sound hn1 hd1 hnew hborn.first hstack1 hmake
  obtain ⟨-, hused, hmax⟩ := hmade h1
  have hstill := hedit.still _ hd1 hdn
  have htree : t.tree s.curDir = s.tree s.curDir := by rw [hstill.tree, (hborn.still _ hg.cur.1).tree]
  have hcalm : Calm t u := ⟨by rw [hu]; exact hzero, Or.inl hstack2⟩
  refine addDirent_settled hedit.sound ((hedit.alloc _).2 hd1) (hdir1.still hstill hedit.grows) hname
    (inInt32_of_alloc hborn.sound hn1) hstack2 ?_ ?_ hcalm hset1 ?_ hadd hneg
  · rw [htree, hused, hmax, hborn.used, hborn.max]
    exact hborn.whole hg hi htorn
  · rw [htree, hused, hmax, hborn.used, hborn.max]
    exact hborn.spared hg hi hsoiled
  · rw [Set.mem_insert_iff, not_or]
    exact ⟨hdn, Set.notMem_empty _⟩

/-- `write`, if no file is in memory before it -/
theorem WriteCall.settled {buf : Lib.Mem} {start : ℤ} {size : ℕ} {s1 s2 s3 : State}
    (h : WriteCall s s' D name buf start size r n s1 s2 s3) (hg : Graph s D)
    (hstack : ∀ j, s.stack j = 0) (hrest : AtRest s') (hcur : s'.curDir ≠ n) (hset : Settled Eq ∅ s) :
    Settled Eq ∅ s' := by
  obtain ⟨i, hi, -⟩ := h.find hg
  obtain ⟨i', hgrew⟩ := h.grew hg hstack hi
  have h2 := hgrew.edited h.same.sound.core.mem
  have hP : ∀ d : Dinode, d = d := fun _ => rfl
  have hset1 := h.same.settles ∅ Eq hP hset
  have hset2 : Settled Eq {n} s2 := h2.settled (Set.mem_singleton n) (hset1.mono (Set.empty_subset _))
  obtain ⟨h3, -⟩ := syncInode_same h2.sound ((h2.alloc n).2 ((h.same.alloc n).2 (h.alloc hg))) h.sync
  have hset' : Settled Eq {n} s' := (putInode_same h3.sound h.put).settles _ Eq hP (h3.settles _ Eq hP hset2)
  -- the file is not in memory any more
  intro m j hj hm
  obtain ⟨i, hhash, hnr, -⟩ := hrest.hash
  refine hset' m j hj fun hc => hcur ?_
  unfold State.find at hj
  rw [hhash] at hj
  have heq := List.find?_some hj
  rw [List.mem_singleton.1 (List.mem_of_find?_eq_some hj)] at heq
  rw [← hnr, of_decide_eq_true heq]
  exact hc

/-- between two commands -/
structure Resting (s : State) : Prop where
  graph : ∃ D, Graph s D
  stack : ∀ j, s.stack j = 0
  fails : ∀ x ∈ s.dirFails, x = 0
  rest : AtRest s
  settled : Settled Eq ∅ s

theorem exec_resting (h : Resting s) (hgood : mirrored s c = true) (hr : exec s c = .ok (r, s')) : Resting s' := by
  obtain ⟨D, hg⟩ := h.graph
  unfold mirrored at hgood
  rw [Bool.and_eq_true, Bool.and_eq_true] at hgood
  obtain ⟨⟨hlists, htorn⟩, hsoiled⟩ := hgood
  have hzero : ∀ x ∈ s'.dirFails, x = 0 := fun x hx => (exec_calm hg h.stack htorn hr x hx).elim (h.fails x) id
  obtain ⟨hgraph, hst⟩ := exec_graph hg ⟨hzero, Or.inl h.stack⟩ (fun _ => h.stack) hr
  have hrest : AtRest s' := exec_atRest h.rest hlists _ hr
  refine ⟨hgraph, by rw [hst]; exact h.stack, hzero, hrest, ?_⟩
  have hP : ∀ d : Dinode, d = d := fun _ => rfl
  rcases exec_cases hg hr with ⟨-, hsame | ⟨n, -, hmoved⟩⟩ | ⟨type, name, hmakes, htype, hcreate⟩ | ⟨name, rfl, hrm⟩ |
    ⟨name, offset, data, rfl, hw⟩
  · exact hsame.settles ∅ Eq hP h.settled
  · exact hmoved.settles ∅ Eq hP h.settled
  · obtain ⟨i, hi⟩ := h.rest.1.find (m := s.curDir) (by rw [onlyDir, update_self])
    exact createFileOrDir_settled hg h.stack hi htype name.noNul (torn_of_makes hmakes htorn)
      (soiled_of_makes hmakes hsoiled)
      hzero h.settled hcreate
  · exact cmdRm_settles hP hg (fun _ => Or.inl h.stack) h.settled hrm
  · rcases writeFile_cases hg hw with ⟨-, hsame⟩ | ⟨n, s1, s2, s3, hcall⟩
    · exact hsame.settles ∅ Eq hP h.settled
    · have hcur : s'.curDir = s.curDir := (cmdWrite_back h.rest name.chars offset data.chars _ hw).2
      refine hcall.settled hg h.stack hrest (fun hc => hcall.file ?_) h.settled
      rw [← hc, hcur]
      exact hg.cur

theorem start_resting (hk : validSize fsSizeMb) (hstack : ∀ j, stack j = 0) (h0 : start fsSizeMb stack = .ok s) :
    Resting s := by
  obtain ⟨hg, hst, hfails⟩ := start_graph hk h0
  refine ⟨⟨_, hg⟩, by rw [hst]; exact hstack, ?_, start_atRest s h0, start_settled hk h0 fun _ => rfl⟩
  rw [hfails]
  exact fun x hx => absurd hx List.not_mem_nil

theorem run_resting (hk : validSize fsSizeMb) (hstack : ∀ j, stack j = 0) (h0 : start fsSizeMb stack = .ok s0)
    (hrun : Run step mirrored s0 s) : Resting s := by
  refine hrun.inv Resting (fun t c t' ht hgood hstep => ?_) (start_resting hk hstack h0)
  obtain ⟨r, hr⟩ := step_eq_ok.1 hstep
  exact exec_resting ht hgood hr

/-! ## Closing and opening the device -/

/-- `u` has the files of `s` -/
structure Reread (s u : State) : Prop where
  sb : u.sb = s.sb
  inodeFreemap : u.inodeFreemap.bits = s.inodeFreemap.bits
  blockFreemap : u.blockFreemap.bits = s.blockFreemap.bits
  dinode : ∀ n, u.dinode n = s.dinode n
  content : ∀ n, s.alloc n → u.content n = s.content n

/-- Memory and disk agree: no inode can fail the assertion of `testfs_put_inode`, and the file system can be closed and
read back. -/
structure Mirrors (s : State) : Prop where
  clean : ∀ n i, s.find n = some i → i.dirty = false ∧ i.dinode = s.diskDinode n
  disk : Disk s
  put : ∀ n i, s.find n = some i → ∃ t, putInode s n = .ok t
  taken : ∀ n, s.alloc n → ∃ t u, getInode s n = .ok t ∧ putInode t n = .ok u
  reopen : ∀ stack, ∃ t dev u, putInode s s.curDir = .ok t ∧ closeSuperBlock t = .ok dev ∧
    initSuperBlock dev stack = .ok u ∧
    Reread s u

theorem Resting.clean (h : Resting s) : Clean s := fun m i hi hm => ⟨(h.settled m i hi hm).1, trivial⟩

theorem Resting.dinode (h : Resting s) (n : ℤ) : s.dinode n = s.diskDinode n := by
  cases hi : s.find n with
  | none => exact dinode_of_none hi
  | some i =>
    rw [dinode_of_find hi]
    exact (h.settled n i hi (Set.notMem_empty n)).2

theorem closeSuperBlock_ok (h : t.hash = []) : ∃ dev, closeSuperBlock t = .ok dev := by
  have hhash : ¬(writeSuperBlock t).hash ≠ [] := not_not.2 h
  unfold closeSuperBlock
  dsimp only
  rw [if_neg hhash]
  exact ⟨_, rfl⟩

/-- a synchronized inode can be put -/
theorem syncInode_put (hr : syncInode t n = .ok u) : putInode u n ≠ .error .abort := by
  have hclean : ∀ i, u.find n = some i → i.dirty = false := by
    intro i hi
    unfold syncInode at hr
    obtain ⟨j, hj, hr⟩ := bind_eq_ok.1 hr
    rw [deref_eq_ok] at hj
    split_ifs at hr with hdirty
    · obtain ⟨block, -, hr⟩ := bind_eq_ok.1 hr
      obtain ⟨t1, -, hr⟩ := bind_eq_ok.1 hr
      cases hr
      rw [find_modify (f := fun i => { i with dirty := false }) fun _ => rfl, if_pos rfl] at hi
      obtain ⟨k, -, rfl⟩ := Option.map_eq_some_iff.1 hi
      rfl
    · cases hr
      rw [hj] at hi
      cases hi
      exact Bool.not_eq_true _ ▸ hdirty
  unfold putInode
  cases hi : u.find n with
  | none =>
    simp [State.deref, hi, bind, Except.bind]
  | some i =>
    rw [deref_eq_ok.2 hi, ok_bind, if_neg (by rw [hclean i hi]; decide)]
    split_ifs <;> simp [pure, Except.pure]

/-- **The file system is read back as it was.** -/
theorem Resting.reopen (h : Resting s) (hcount : s.sb.usedInodeCount < 2 ^ 32) (stack : ℕ → ℤ) :
    ∃ t dev u, putInode s s.curDir = .ok t ∧ closeSuperBlock t = .ok dev ∧
    initSuperBlock dev stack = .ok u ∧ Reread s u := by
  obtain ⟨D, hg⟩ := h.graph
  obtain ⟨i, hi⟩ := h.rest.1.find (m := s.curDir) (by rw [onlyDir, update_self])
  obtain ⟨t, hput⟩ := h.clean.put_ok hi
  have hsame := putInode_same hg.sound hput
  obtain ⟨dev, hclose⟩ := closeSuperBlock_ok (h.rest.put_hash hput)
  obtain ⟨hhash, himage⟩ := closeSuperBlock_image hsame.sound.core.geo hclose
  obtain ⟨u, hinit⟩ := hsame.sound.initSuperBlock_ok himage stack
  have hnone : ∀ m j, t.find m = some j → j.dirty = false := by
    intro m j hj
    simp [State.find, hhash] at hj
  obtain ⟨hu, -, -⟩ := hsame.sound.reopen himage hnone hinit
  refine ⟨t, dev, u, hput, hclose, hinit, ?_⟩
  -- `testfs_put_inode` changes the table only
  have hmeta : t.sb = s.sb ∧ t.inodeFreemap = s.inodeFreemap ∧ t.blockFreemap = s.blockFreemap ∧ t.dev = s.dev := by
    obtain ⟨j, -, -, rfl | rfl⟩ := putInode_cases hput
    · exact ⟨rfl, rfl, rfl, rfl⟩
    · exact ⟨rfl, rfl, rfl, rfl⟩
  obtain ⟨hsb, hinodes, hblocks, hdev⟩ := hmeta
  refine ⟨?_, by rw [hu.inodeBits, hinodes], by rw [hu.blockBits, hblocks], fun n => ?_, fun n hn => ?_⟩
  · rw [hu.sb, hsb, Nat.mod_eq_of_lt hcount]
  · rw [hu.dinode, h.dinode]
    unfold State.diskDinode
    rw [hdev]
  · rw [(hu.still n ((hsame.alloc n).2 hn)).content, (hsame.still n hn).content]

/-- **Memory and disk agree between commands.** The assertion of `testfs_put_inode` cannot fail after
`testfs_sync_inode`, and it cannot fail for an inode that is in memory between two commands, or is read into it. -/
theorem memory_mirrors_disk (hk : validSize fsSizeMb) (hstack : ∀ j, stack j = 0) (h0 : start fsSizeMb stack = .ok s0)
    (hrun : Run step mirrored s0 s) :
    Mirrors s ∧ ∀ t u n, syncInode t n = .ok u → putInode u n ≠ .error .abort := by
  have h := run_resting hk hstack h0 hrun
  obtain ⟨D, hg⟩ := h.graph
  have hcounted : Counted s := counted_of_run hk h0 (hrun.mono fun _ _ _ => rfl) (Moves.refl s)
  have hcard : s.inodeFreemap.bits.card ≤ 65536 := by
    rw [← hg.sound.core.geo.inodeBits]
    exact Bitmap.card_bits_le _
  refine ⟨⟨fun n i hi => h.settled n i hi (Set.notMem_empty n), hg.sound.core.disk,
    fun n i hi => h.clean.put_ok hi, fun n hn => ?_, h.reopen (by rw [hcounted.inodes]; omega)⟩, fun t u n hsync => ?_⟩
  · obtain ⟨t, i, hget, h1, hi, -⟩ := hg.get_ok h.clean h.rest hn
    obtain ⟨u, hput⟩ := h1.clean.put_ok hi
    exact ⟨t, u, hget, hput⟩
  · exact syncInode_put hsync

/-- a file is written in a directory below the root -/
theorem memory_mirrors_disk_below :
    ∃ s0 s, start 1 (fun _ => 0) = .ok s0 ∧ Run step mirrored s0 s ∧ s.curDir = 1 ∧
    s.sb.usedBlockCount = 3 ∧ Mirrors s := by
  have h : after (start 1 fun _ => 0) (fun s0 => passes step mirrored (fun s =>
      decide (s.curDir = 1 ∧ s.sb.usedBlockCount = 3)) s0
        [.mkdir tokenF, .cd tokenF, .create tokenG, .write tokenG 0 tokenF]) = true := by decide +kernel
  obtain ⟨s0, h0, hpass⟩ := exists_of_after h
  obtain ⟨s, hrun, hs⟩ := run_of_passes _ hpass
  obtain ⟨hcur, hused⟩ := of_decide_eq_true hs
  exact ⟨s0, s, h0, hrun, hcur, hused, (memory_mirrors_disk ⟨le_rfl, by norm_num⟩ (fun _ => rfl) h0 hrun).1⟩

/-- One block is left, and a file with a name of 16400 bytes needs two for its entry. The first one is taken and stays
in the root directory, whose inode is dirty after the command. -/
theorem create_soils_directory :
    ¬ ∀ (fsSizeMb : ℕ) (stack : ℕ → ℤ) (s0 s : State), validSize fsSizeMb → (∀ j, stack j = 0) →
      start fsSizeMb stack = .ok s0 → Run step anyStep s0 s → Mirrors s := by
  intro hall
  have h : after (start 1 fun _ => 0) (fun s0 => after (step s0 (.create tokenF)) fun s1 =>
      after (fillStep s1 tokenF.chars 0 (125 * 8192 - 1)) fun s2 => after (step s2 (.create (fill 16399))) fun s =>
        (s.find 0).any fun i => i.dirty) = true := by decide +kernel
  obtain ⟨s0, h0, h⟩ := exists_of_after h
  obtain ⟨s1, h1, h⟩ := exists_of_after h
  obtain ⟨s2, h2, h⟩ := exists_of_after h
  obtain ⟨s, h3, h⟩ := exists_of_after h
  rw [← step_fill] at h2
  have hrun : Run step anyStep s0 s := (((Run.refl s0).tail _ rfl h1).tail _ rfl h2).tail _ rfl h3
  have hmirrors := hall 1 _ s0 s ⟨le_rfl, by norm_num⟩ (fun _ => rfl) h0 hrun
  obtain ⟨i, hi, hdirty⟩ := (Option.any_eq_true _ _).1 h
  obtain ⟨hclean, -⟩ := hmirrors.clean 0 i hi
  rw [hclean] at hdirty
  cases hdirty

end OsLab.Testfs
