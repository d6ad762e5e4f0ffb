/-
Every command does what it is for.

`Answers fs c s (r, s')`: the command `c` returned `r` in state `s`, it printed something, and `Fs.Does` allows this for
the files `fs`; the files after it are those of `s'`. One lemma for each command of `testfs` follows its text;
`exec_answers` puts them together.
-/
import OsLab.Testfs.Listing
import OsLab.Testfs.Maximum
import OsLab.Testfs.Range
import OsLab.Testfs.Silent

namespace OsLab.Testfs

open OsLab.Lib Function State

variable {s s' s1 s2 s3 t : State} {n m r : ℤ} {D : ℤ → List Dirent} {fs : Fs} {p : Path} {c : Cmd} {out : List Print}
  {name : List UInt8} {i : Inode} {buf : Lib.Mem} {start : ℤ} {size : ℕ}

/-- the command did what it is for -/
def Answers (fs : Fs) (c : Cmd) (s : State) (r : ℤ × State) : Prop :=
  ∃ out fs' D', r.2.out = s.out ++ out ∧ fs.Does c (r.1, out) fs' ∧ Graph r.2 D' ∧ Views r.2 D' fs'

/-- the state before a command -/
structure Before (s : State) (D : ℤ → List Dirent) (fs : Fs) : Prop where
  graph : Graph s D
  views : Views s D fs
  resting : Resting s

/-- a command that changed no file -/
theorem Before.same (h : Before s D fs) (hsame : Same s s') (hout : s'.out = s.out ++ out)
    (hdoes : fs.Does c (r, out) fs) :
    Answers fs c s (r, s') :=
  ⟨out, fs, D, hout, hdoes, h.graph.same hsame, h.views.same h.graph hsame h.resting.dinode⟩

/-- and printed nothing -/
theorem Before.quiet (h : Before s D fs) (hsame : Same s s') (hout : s'.out = s.out) (hdoes : fs.Does c (r, []) fs) :
    Answers fs c s (r, s') := h.same hsame (by rw [hout, List.append_nil]) hdoes

/-! ## `create`, `mkdir` and `rm` -/

theorem createFileOrDir_answers {type : ℤ} {name : Token} (h : Before s D fs) (hmakes : c.makes = some (type, name))
    (htype : type = iFile ∨ type = iDir) (hcalm : Calm s s')
    (hr : createFileOrDir s (some s.curDir) type name.chars = .ok (r, s')) : Answers fs c s (r, s') := by
  have hg := h.graph
  have hout : s'.out = s.out := createFileOrDir_silent s s.curDir type name.chars _ hr
  rcases createFileOrDir_spec hg hg.cur htype name.noNul (fun _ => hcalm) hr with
    ⟨rfl, rfl, m, he⟩ | ⟨hfree, ⟨hneg, hg', halike, -⟩ | ⟨rfl, -⟩⟩
  · obtain ⟨p, hp, -⟩ := h.views.resolve_some hg he
    exact h.quiet (Same.refl hg.sound) rfl (.taken hmakes hp)
  · have hviews := h.views.alike hg halike h.resting.dinode fun m hm => Set.mem_singleton_iff.1 hm ▸ hg.cur
    exact ⟨[], fs, D, by rw [hout, List.append_nil], .full hmakes (h.views.resolve_none hg hfree) hneg, hg', hviews⟩
  · obtain ⟨n, D', hmade, hold, hnew⟩ := createFileOrDir_makes hg h.resting.dinode htype name.noNul hr
    exact ⟨[], _, D', by rw [hout, List.append_nil], .made hmakes (h.views.resolve_none hg hfree), hmade.graph,
      h.views.created hg hmade hfree hold hnew⟩

theorem cmdRm_answers {name : Token} (h : Before s D fs) (hr : cmdRm s name.chars = .ok (r, s')) :
    Answers fs (.rm name) s (r, s') := by
  have hg := h.graph
  have hout : s'.out = s.out := cmdRm_silent s name.chars _ hr
  rcases cmdRm_spec hg (fun _ => Or.inl h.resting.stack) hr with
    ⟨rfl, rfl, hdots⟩ | ⟨hname, ⟨rfl, rfl, hfree⟩ | ⟨n, he, ⟨rfl, hsame, hdir, hfull⟩ | ⟨rfl, D', hgone⟩⟩⟩
  · exact h.quiet (Same.refl hg.sound) rfl (.rmDots hdots)
  · exact h.quiet (Same.refl hg.sound) rfl (.rmAbsent hname (h.views.resolve_none hg hfree))
  · have hp : s.leads D (fs.cwd ++ [name.chars]) n := leads_concat_iff.2 ⟨_, h.views.cwd, hname, he⟩
    -- an entry that `rm` counts
    unfold Bare at hfull
    push Not at hfull
    obtain ⟨e, hmem, hlive, hdot, hdotdot⟩ := hfull
    have hchild := (h.views.child_iff (k := e.str) hg hp).2 ⟨⟨hdot, hdotdot⟩, _, ⟨hdir, e, hmem, hlive, rfl, rfl⟩, rfl⟩
    exact h.quiet hsame hout (.rmFull hname (view_of_dir hdir ▸ h.views.of_leads hp) hchild)
  · have hp : s.leads D (fs.cwd ++ [name.chars]) n := leads_concat_iff.2 ⟨_, h.views.cwd, hname, he⟩
    refine ⟨[], _, D', by rw [hout, List.append_nil], .removed hname (h.views.of_leads hp)
      (h.views.no_child hg hgone hname), hgone.graph, ?_⟩
    exact h.views.deleted hg hgone hname fun m hm hmn => hgone.view hg h.resting.dinode hr hm hmn

/-! ## Commands on a name -/

/-- what follows a lookup: the name is not there, or the inode is taken -/
theorem Before.after_lookup {f : ℤ → Except Stop (ℤ × State)} {k : List UInt8} (h : Before s D fs)
    (hfinds : c.finds = some k) (hsome : ∀ n p, s.entry D s.curDir k n → fs.resolve k = some p → s.leads D p n →
    Post (f n) (Answers fs c s)) :
    Post (dirNameToInodeNr s s.curDir k >>= fun nr => if nr < 0 then pure (nr, s) else f nr) (Answers fs c s) := by
  refine h.graph.after_lookup (fun hfree => ?_) fun n he => ?_
  · exact h.quiet (Same.refl h.graph.sound) rfl (.absent hfinds (h.views.resolve_none h.graph hfree))
  · obtain ⟨p, hp, hleads⟩ := h.views.resolve_some h.graph he
    exact hsome n p he hp hleads

theorem cmdCd_answers {name : Token} (h : Before s D fs) : Post (cmdCd s name.chars) (Answers fs (.cd name) s) := by
  refine h.after_lookup rfl fun n p he hp hleads => ?_
  have hg := h.graph
  have ha := hg.leads_alloc hleads
  refine (hg.get_out ha).bind fun s1 h1 => ?_
  obtain ⟨h1, hout1, i, hi, hdi⟩ := h1
  have hg1 := hg.same h1
  rw [deref_eq_ok.2 hi, ok_bind, hdi]
  refine Post.ite (fun hfile => ?_) fun hdir => ?_
  · refine (hg1.put_out n).bind fun s2 h2 => Post.pure ?_
    have hnode := view_of_file hfile ▸ h.views.of_leads hleads
    exact h.quiet (h1.trans h2.1) (h2.2.trans hout1) (.notDir rfl rfl hp hnode)
  · have hdir : s.isDir n := ⟨ha, not_not.1 hdir⟩
    refine (hg1.put_out s1.curDir).bind fun s2 h2 => Post.pure ?_
    have h3 := h1.trans h2.1
    have hmoved : Moved s { s2 with curDir := n } n :=
      ⟨h3.trans (Same.of_eq h3.sound rfl rfl rfl rfl rfl h3.curDir.symm rfl rfl), rfl⟩
    refine ⟨[], _, D, ?_, .cd hp (view_of_dir hdir ▸ h.views.of_leads hleads), hmoved.graph hg hdir,
      h.views.moved hg hmoved h.resting.dinode hleads⟩
    rw [List.append_nil]
    exact h2.2.trans hout1

theorem cmdLs_answers {k : List UInt8} {recursive : Bool} (h : Before s D fs) (hlist : c.listing = some (k, recursive))
    (hfinds : c.finds = some k) (hwants : c.wants = some iDir) : Post (cmdLs s k recursive) (Answers fs c s) := by
  refine h.after_lookup hfinds fun n p he hp hleads => ?_
  have hg := h.graph
  have ha := hg.leads_alloc hleads
  refine (hg.get_out ha).bind fun s1 h1 => ?_
  obtain ⟨h1, hout1, i, hi, hdi⟩ := h1
  rw [deref_eq_ok.2 hi, ok_bind, hdi]
  refine Post.ite (fun hdir => ?_) fun hfile => Post.pure ?_
  · have hdir : s.isDir n := ⟨ha, hdir⟩
    refine (lsDepth_prints _ h.views hg s1 n p h1 hdir hleads).bind fun s2 h2 => ?_
    obtain ⟨h2, out, hout2, hlists⟩ := h2
    have h12 := h1.trans h2
    refine ((hg.same h12).put_out n).bind fun s3 h3 => Post.pure ?_
    exact h.same (h12.trans h3.1) (by rw [h3.2, hout2, hout1])
      (.ls hlist hp (view_of_dir hdir ▸ h.views.of_leads hleads) hlists)
  · have hnode := view_of_file hfile ▸ h.views.of_leads hleads
    exact h.quiet h1 hout1 (.notDir hfinds hwants hp hnode)

theorem cmdStat_answers {name : Token} (h : Before s D fs) :
    Post (cmdStat s name.chars) (Answers fs (.stat name) s) := by
  refine h.after_lookup rfl fun n p he hp hleads => ?_
  have hg := h.graph
  have ha := hg.leads_alloc hleads
  refine (hg.get_out ha).bind fun s1 h1 => ?_
  obtain ⟨h1, hout1, i, hi, hdi⟩ := h1
  rw [deref_eq_ok.2 hi, ok_bind, hdi]
  have h2 :=
    h1.trans (Same.print h1.sound (.stat name.chars n (s.dinode n).iType (s.dinode n).iSize (s.dinode n).blockCount))
  refine ((hg.same h2).put_out n).bind fun s3 h3 => Post.pure ?_
  refine h.same (h2.trans h3.1) (by rw [h3.2, State.print, hout1]) ?_
  rw [← view_type hg.sound ha]
  refine .stat hp (h.views.of_leads hleads) fun z data hv => ?_
  exact (view_eq_file hv).2.1.symm

theorem cmdPwd_answers (h : Before s D fs) : Post (cmdPwd s) (Answers fs .pwd s) := by
  intro r hr
  have hsame := cmdPwd_same h.graph r hr
  unfold cmdPwd pwd at hr
  obtain ⟨s1, hloop, hr⟩ := bind_eq_ok.1 hr
  obtain ⟨r1, hloop, hs1⟩ := bind_eq_ok.1 hloop
  obtain ⟨-, hout⟩ := pwdLoop_prints _ h.graph h.graph.cur h.views.cwd r1 hloop
  cases hs1
  cases hr
  exact h.same hsame hout .pwd

/-! ## `read` -/

theorem toInt32_block {z : ℤ} (h0 : 0 ≤ z) (h1 : z < 2 ^ 43) : toInt32 (z / 8192) = z / 8192 :=
  toInt32_of_mem ⟨by omega, by omega⟩

/-- a loop that ends with an error was to read behind the maximum -/
theorem readLoop_refused {start total fuel : ℕ} {buf l : List UInt8} (hpos : ∀ σ, 0 ≤ s.tree n σ)
    (hend : start + size < 2 ^ 43) (htotal : total ≤ size) (hneg : r < 0) (h31 : size < 2 ^ 31)
    (h : readLoop s (s.dinode n) start size fuel total buf = .ok (r, l)) :
    r = -EFBIG ∧ (maxBlockNr * 8192 : ℤ) < start + size := by
  induction fuel generalizing total buf with
  | zero => cases h
  | succ fuel ih =>
    rw [readLoop] at h
    split_ifs at h with hmore
    · obtain ⟨⟨r1, blk⟩, hread, h⟩ := bind_eq_ok.1 h
      dsimp only at h
      rw [toInt32_block (by omega) (by omega)] at hread
      obtain ⟨-, ⟨hle, hr1⟩ | ⟨-, hr1, -⟩⟩ := readBlock_spec hpos hread
      · rw [if_pos (by rw [hr1]; decide)] at h
        cases h
        exact ⟨hr1, by omega⟩
      · rw [if_neg (by rw [hr1]; exact not_lt.2 (hpos _))] at h
        exact ih (by omega) h
    · cases h
      rw [toInt32_of_mem ⟨by omega, by omega⟩] at hneg
      omega

/-- **A read inside the file** returns its bytes, or it is refused because it asks for a block behind the maximum. -/
theorem readData_answers {start : ℕ} {l : List UInt8} (hpos : ∀ σ, 0 ≤ s.tree n σ)
    (hin : (start + size : ℤ) ≤ (s.dinode n).iSize) (hend : start + size < 2 ^ 43) (h31 : size < 2 ^ 31)
    (h : readData s (s.dinode n) start size = .ok (r, l)) :
    (r = size ∧ l = slice (s.content n) start size) ∨
      (r = -EFBIG ∧ (maxBlockNr * 8192 : ℤ) < start + max size 1) := by
  have hlen : readLen s n start size = size := by
    unfold readLen
    omega
  by_cases hblocks : ∀ b, Touched start (readLen s n start size) b → b < maxBlockNr ∧ Reach s n b
  · have hok := readData_ok hpos (by omega) h31 hblocks
    rw [h, hlen] at hok
    obtain ⟨rfl, rfl⟩ := Prod.mk.inj (Except.ok.inj hok)
    exact Or.inl ⟨rfl, rfl⟩
  right
  rw [hlen] at hblocks
  rw [readData_inside (by omega) hin (by omega)] at h
  split_ifs at h with hlong hbig
  · by_cases hneg : r < 0
    · obtain ⟨hr, hfar⟩ := readLoop_refused hpos hend (Nat.zero_le _) hneg h31 h
      exact ⟨hr, by omega⟩
    · refine absurd (fun b hb => ?_) hblocks
      exact reach_of_readLoop hpos hend (not_lt.1 hneg) h (by omega) b (by simpa using hb)
  · obtain ⟨⟨r1, blk⟩, hread, h⟩ := bind_eq_ok.1 h
    dsimp only at h
    rw [toInt32_block (by omega) (by omega)] at hread
    obtain ⟨-, ⟨hle, hr1⟩ | ⟨hlt, hr1, -⟩⟩ := readBlock_spec hpos hread
    · rw [if_pos (by rw [hr1]; decide)] at h
      cases h
      exact ⟨hr1, by omega⟩
    · refine absurd (fun b hb => ?_) hblocks
      obtain ⟨h1, h2⟩ := hb
      obtain rfl : b = start / 8192 := by omega
      exact ⟨by omega, reach_of_readBlock (by omega) hpos (by simpa using hread)⟩

/-- the arguments of a command: the end of a read or a write is below 2^43, and its length is an `int` -/
def plain : Cmd → Bool
  | .read _ offset size => decide (offset.toInt + size.toNat < 2 ^ 43 ∧ size.toNat < 2 ^ 31)
  | .write _ offset data => decide (offset.toInt + data.chars.length < 2 ^ 43 ∧ data.chars.length < 2 ^ 31)
  | _ => true

/-- `testfs_get_file_inode` -/
theorem Before.getFileInode {f : ℤ × ℤ × State → Except Stop (ℤ × State)} {k : List UInt8} (h : Before s D fs)
    (hfinds : c.finds = some k) (hwants : c.wants = some iFile)
    (hsome : ∀ n s1 p, s.entry D s.curDir k n → getInode s n = .ok s1 →
    Testfs.getFileInode s s.curDir k = .ok (0, n, s1) →
      fs.resolve k = some p → s.leads D p n → (s.dinode n).iType ≠ iDir → Post (f (0, n, s1)) (Answers fs c s)) :
    Post (Testfs.getFileInode s s.curDir k >>= fun x => if x.1 < 0 then pure (x.1, x.2.2) else f x)
    (Answers fs c s) := by
  intro r hr
  obtain ⟨⟨ret, nr, s1⟩, hget, hr⟩ := bind_eq_ok.1 hr
  have hg := h.graph
  have hfound := hget
  unfold Testfs.getFileInode at hget
  obtain ⟨nr', hlook, hget⟩ := bind_eq_ok.1 hget
  rcases hg.nameToInodeNr hg.cur _ hlook with ⟨he, h0⟩ | ⟨rfl, hfree⟩
  · rw [if_neg (not_lt.2 h0)] at hget
    obtain ⟨t, ht, hget⟩ := bind_eq_ok.1 hget
    obtain ⟨p, hp, hleads⟩ := h.views.resolve_some hg he
    have ha := hg.leads_alloc hleads
    obtain ⟨h1, hout1, i, hi, hdi⟩ := hg.get_out ha t ht
    rw [deref_eq_ok.2 hi, ok_bind, hdi] at hget
    split_ifs at hget with hdir
    · obtain ⟨u, hput, hget⟩ := bind_eq_ok.1 hget
      obtain ⟨h2, hout2⟩ := (hg.same h1).put_out _ u hput
      cases hget
      cases hr
      exact h.quiet (h1.trans h2) (hout2.trans hout1)
        (.isDir hfinds hwants hp (view_of_dir ⟨ha, hdir⟩ ▸ h.views.of_leads hleads))
    · cases hget
      exact hsome _ _ p he ht hfound hp hleads hdir r hr
  · cases hget
    cases hr
    exact h.quiet (Same.refl hg.sound) rfl (.absent hfinds (h.views.resolve_none hg hfree))

theorem cmdRead_answers {name : Token} {offset : Int64} {size : UInt64} (h : Before s D fs)
    (hplain : plain (.read name offset size) = true) :
    Post (cmdRead s name.chars offset size) (Answers fs (.read name offset size) s) := by
  obtain ⟨hend, h31⟩ := of_decide_eq_true hplain
  have hg := h.graph
  unfold cmdRead
  refine Post.ite (fun hneg => ?_) fun h0 => ?_
  · exact Post.pure (h.quiet (Same.refl hg.sound) rfl (.negative hneg))
  have h0 := not_lt.1 h0
  refine h.getFileInode (if_neg (not_lt.2 h0)) rfl fun n s1 p he hget _ hp hleads hfile => ?_
  have ha := hg.leads_alloc hleads
  obtain ⟨h1, hout1, i, hi, hdi⟩ := hg.get_out ha s1 hget
  have hg1 := hg.same h1
  have hnode := view_of_file hfile ▸ h.views.of_leads hleads
  rw [deref_eq_ok.2 hi, ok_bind, hdi, toInt_sum h0 (by omega)]
  refine Post.ite (fun hbehind => ?_) fun hin => ?_
  · exact (hg1.put_out n).bind fun s2 h2 => Post.pure
      (h.quiet (h1.trans h2.1) (h2.2.trans hout1) (.readBehind h0 hp hnode hbehind))
  refine Post.ite (fun hbig => absurd hbig ?_) fun _ => ?_
  · rw [UInt64.toNat_add, UInt64.toNat_one]
    omega
  have hdn : s.dinode n = s1.dinode n := (hdi.symm.trans (dinode_of_find hi).symm)
  obtain ⟨o, ho⟩ := Int.eq_ofNat_of_zero_le h0
  rw [ho, hdn] at hin ⊢
  rw [ho] at hend
  have hread : Post (readData s1 (s1.dinode n) o size.toNat) fun x =>
      (x.1 = (size.toNat : ℤ) ∧ x.2 = slice (s.content n) o size.toNat) ∨
        (x.1 = -EFBIG ∧ (maxBlockNr * 8192 : ℤ) < o + max size.toNat 1) := by
    intro x hx
    rw [← (h1.still n ha).content]
    exact readData_answers (hg1.pos ((h1.alloc n).2 ha)) (by omega) (by omega) h31 hx
  refine hread.bind fun x hx => ?_
  obtain ⟨ret, l⟩ := x
  dsimp only at hx ⊢
  rcases hx with ⟨hx1, hx2⟩ | ⟨hx1, hfar⟩
  · rw [if_pos (by omega)]
    have h2 := h1.trans (Same.print h1.sound (.data (l.takeWhile fun c => c ≠ 0)))
    refine ((hg.same h2).put_out n).bind fun s3 h3 => Post.pure ?_
    refine h.same (h2.trans h3.1) (by rw [h3.2, State.print, hout1]) ?_
    rw [hx1, hx2]
    have hdoes : fs.Does (.read name offset size) _ fs := .read h0 hp hnode (by rw [hdn, ho]; omega)
    rw [ho] at hdoes
    exact hdoes
  · rw [if_neg (by rw [hx1]; decide)]
    refine (hg1.put_out n).bind fun s3 h3 => Post.pure ?_
    rw [hx1]
    exact h.quiet (h1.trans h3.1) (h3.2.trans hout1) (.readFar h0 hp hnode (by rw [hdn, ho]; omega) (by rw [ho]; omega))

/-! ## `write` -/

/-- an inode that is written back is on disk as it was in memory -/
theorem Flagged.stored (h : Flagged n s) (hs : Sound s) (hn : s.alloc n) (hr : syncInode s n = .ok s') :
    s'.dinode n = s.dinode n ∧ s'.diskDinode n = s.dinode n := by
  obtain ⟨-, i, i', hi, hi', heq, -⟩ := syncInode_same hs hn hr
  have hset : Settled Eq (insert n {n}ᶜ) s := fun k _ _ hk => by simp at hk
  obtain ⟨-, hdisk⟩ := h.settles hs hn (fun _ => rfl) hset hr n i' hi' (by simp)
  rw [dinode_of_find hi', dinode_of_find hi, ← hdisk, heq]
  exact ⟨rfl, rfl⟩

theorem writePos_of_lt (h0 : 0 ≤ start) (h1 : start < 2 ^ 43) : writePos start = start.toNat := by
  unfold writePos
  rw [toInt32_block h0 h1]
  omega

/-- **The file after a write**: all bytes are in it, or the first ones. -/
theorem WriteCall.view (h : WriteCall s s' D name buf start size r n s1 s2 s3) (hg : Graph s D) (hrest : Resting s)
    (hend : start + size < 2 ^ 43) (h31 : size < 2 ^ 31) (hpos : 0 < size) :
    (r = size ∧ start + size ≤ maxBlockNr * 8192 ∧
        s'.view n = .file (max (s.dinode n).iSize (start + size)) (copy (s.content n) start.toNat buf 0 size)) ∨
      ((r = -EFBIG ∨ r = -ENOSPC) ∧ ∃ k < size, ∃ size',
        (size' = (s.dinode n).iSize ∨ size' = max (s.dinode n).iSize (start + k)) ∧
          s'.view n = .file size' (copy (s.content n) start.toNat buf 0 k)) := by
  have h0 := h.nonneg
  have ha := h.alloc hg
  obtain ⟨i, hi, hdi⟩ := h.find hg
  obtain ⟨i', hgrew⟩ := h.grew hg hrest.stack hi
  have hsound := h.same.sound
  have hn1 := (h.same.alloc n).2 ha
  have hedit := hgrew.edited hsound.core.mem
  have hn2 := (hedit.alloc n).2 hn1
  obtain ⟨h3, -⟩ := syncInode_same hedit.sound hn2 h.sync
  have hput := putInode_same h3.sound h.put
  have h4 := h3.trans hput
  have hcontent1 : s1.content n = s.content n := (h.same.still n ha).content
  have hcontent : s'.content n = s2.content n := (h4.still n hn2).content
  have hfile : (s'.dinode n).iType ≠ iDir := by
    rw [(h4.still n hn2).type, hedit.type, (h.same.still n ha).type]
    exact fun hc => h.file ⟨ha, hc⟩
  have hview : ∀ z c, (s'.dinode n).iSize = z → s2.content n = c → s'.view n = .file z c := by
    rintro z c rfl rfl
    rw [view_of_file hfile, hcontent]
  -- the inode on disk before it is synchronized
  have hdisk : s2.diskDinode n = s.dinode n := by
    rw [hedit.disk n (hsound.core.mem.allocRange n hn1)]
    rcases (h.same.carries n ha).disk with heq | heq
    · exact heq
    · rw [heq, hrest.dinode]
  have hstack : r = -ENOSPC → 10 ≤ (writePos start + max (size % 2 ^ 32) 1 - 1) / 8192 → ∀ j, s1.stack j = 0 := by
    intro _ _
    rw [h.same.stack]
    exact hrest.stack
  obtain ⟨-, hwrite⟩ := writeData_spec (hsound.core.change n) hn1 hi hsound.inside hstack h.write
  rw [writePos_of_lt h0 (by omega), Nat.mod_eq_of_lt (by omega)] at hwrite
  rcases hwrite with ⟨hdone, -⟩ | hbroken
  · left
    obtain ⟨hdata, hsize⟩ := hdone.left hn1 (by omega)
    rw [if_pos hpos, hdi] at hsize
    obtain ⟨t, i1, -, hlast, hr, hs2⟩ := hdone
    have hflag : Flagged n s2 := hs2 ▸ flagged_setDirty _ n
    obtain ⟨hmem, hstored⟩ := hflag.stored hedit.sound hn2 h.sync
    have hdn : s'.dinode n = s2.dinode n := by
      rw [(hput.carries n ((h3.alloc n).2 hn2)).dinode_eq (hmem.trans hstored.symm), hmem]
    refine ⟨by rw [hr, toInt32_of_mem ⟨by omega, by omega⟩], by omega, hview _ _ (by rw [hdn, hsize]) ?_⟩
    rw [hdata, hcontent1]
  · right
    obtain ⟨hdata, -⟩ := hbroken.left (hsound.core.change n) hn1
    have hsize := hbroken.iSize (hsound.core.change n) hn1
    rw [hdi] at hsize
    rw [hcontent1] at hdata
    obtain ⟨t, i1, -, hle, hk, hwhy⟩ := hbroken
    refine ⟨?_, totalWritten s1 n buf start size, by omega, (s'.dinode n).iSize, ?_, hview _ _ rfl hdata⟩
    · rcases hwhy with ⟨hr, -⟩ | ⟨hr, -⟩
      · exact Or.inl hr
      · exact Or.inr hr
    · rcases (h4.carries n hn2).mem with heq | heq
      · rw [heq]
        exact hsize
      · rw [heq, hdisk]
        exact Or.inl rfl

theorem cmdWrite_answers {name data : Token} {offset : Int64} (h : Before s D fs)
    (hplain : plain (.write name offset data) = true) :
    Post (cmdWrite s name.chars offset data.chars) (Answers fs (.write name offset data) s) := by
  obtain ⟨hend, h31⟩ := of_decide_eq_true hplain
  have hg := h.graph
  unfold cmdWrite writeFile
  refine Post.ite (fun hneg => ?_) fun h0 => ?_
  · exact Post.pure (h.quiet (Same.refl hg.sound) rfl (.negative hneg))
  have h0 := not_lt.1 h0
  refine h.getFileInode (if_neg (not_lt.2 h0)) rfl fun n s1 p he hget hfound hp hleads hfile => ?_
  rintro ⟨r, s'⟩ hr
  obtain ⟨h1, hout1, -⟩ := hg.get_out (hg.leads_alloc hleads) s1 hget
  obtain ⟨⟨r1, s2⟩, hwrite, hr⟩ := bind_eq_ok.1 hr
  obtain ⟨s3, hsync, hr⟩ := bind_eq_ok.1 hr
  obtain ⟨s4, hput, hr⟩ := bind_eq_ok.1 hr
  cases hr
  have hcall : WriteCall s s' D name.chars (bytes data.chars) offset.toInt data.chars.length r n s1 s2 s3 :=
    ⟨h0, he, fun hc => hfile hc.2, hfound, hget, h1, hwrite, hsync, hput⟩
  have hout : s'.out = s.out ++ [] := by
    rw [List.append_nil, putInode_out s3 n s' hput, syncInode_silent s2 n s3 hsync,
      writeData_silent s1 n _ _ _ _ hwrite, hout1]
  have hmod := hcall.modified hg h.resting.stack
  have hnode := view_of_file hfile ▸ h.views.of_leads hleads
  have hgraph := hmod.graph hg hcall.file
  have hpos : 0 < data.chars.length := List.length_pos_of_ne_nil data.nonempty
  rcases hcall.view hg h.resting hend h31 hpos with ⟨rfl, hmax, hview⟩ | ⟨hr, k, hk, size', hsize, hview⟩
  · exact ⟨[], _, D, hout, .write h0 hmax hp hnode, hgraph, h.views.modified hg hmod h.resting.dinode hleads hview⟩
  · exact ⟨[], _, D, hout, .writeShort h0 hp hnode hr hk hsize, hgraph,
      h.views.modified hg hmod h.resting.dinode hleads hview⟩

/-! ## All commands -/

/-- **Every command does what it is for.** -/
theorem exec_answers (h : Before s D fs) (hgood : mirrored s c = true) (hplain : plain c = true) :
    Post (exec s c) (Answers fs c s) := by
  rintro ⟨r, s'⟩ hr
  have hafter := exec_resting h.resting hgood hr
  have hcalm : Calm s s' := ⟨hafter.fails, Or.inl h.resting.stack⟩
  cases c with
  | create name => exact createFileOrDir_answers h rfl (Or.inl rfl) hcalm hr
  | mkdir name => exact createFileOrDir_answers h rfl (Or.inr rfl) hcalm hr
  | rm name => exact cmdRm_answers h hr
  | write name offset data => exact cmdWrite_answers h hplain _ hr
  | read name offset size => exact cmdRead_answers h hplain _ hr
  | cd name => exact cmdCd_answers h _ hr
  | ls name => exact cmdLs_answers h rfl rfl rfl _ hr
  | lsr name => exact cmdLs_answers h rfl rfl rfl _ hr
  | stat name => exact cmdStat_answers h _ hr
  | pwd => exact cmdPwd_answers h _ hr
  | bad =>
    cases hr
    exact h.quiet (Same.refl h.graph.sound) rfl .bad

end OsLab.Testfs
