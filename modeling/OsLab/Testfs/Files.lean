/-
What a user of `testfs` can rely on.

The results are about sessions (`Testfs.Sessions`), and their proofs about `Fs.Does` alone.
- The tree is what the return codes tell (`sessions_tree`): from the commands that returned 0 one can say which paths
  there are, which of them are directories, and what `pwd` prints.
- What was written is read back (`sessions_read_back`), after any commands and sessions in between that write to and
  remove no file of this name.
-/
import OsLab.Testfs.Sessions

namespace OsLab.Testfs

open OsLab.Lib Function State

variable {s s' s0 : State} {fs fs' : Fs} {c : Cmd} {o : Op} {r : ℤ × List Print} {l l' : List (Op × ℤ × List Print)}
  {p q : Path} {k name : List UInt8} {v : Node} {fsSizeMb : ℕ} {stack : ℕ → ℤ}

/-! ## Closed trees -/

/-- what is above a path, and where one is, is a directory -/
structure Fs.Closed (fs : Fs) : Prop where
  root : fs.node [] = some .dir
  above : ∀ p k, fs.node (p ++ [k]) ≠ none → fs.node p = some .dir
  cwd : fs.node fs.cwd = some .dir

theorem Fs.empty_closed : Fs.empty.Closed := by
  refine ⟨by simp [Fs.empty], fun p k hp => ?_, by simp [Fs.empty]⟩
  simp [Fs.empty] at hp

/-- what a name stands for if it is a file -/
theorem Fs.Closed.resolve_file {size : ℤ} {data : Lib.Mem} (h : fs.Closed) (hp : fs.resolve k = some p)
    (hv : fs.node p = some (.file size data)) : Proper dot dotdot k ∧ p = fs.cwd ++ [k] := by
  have hnot : ∀ q, fs.node q = some .dir → q ≠ p := by
    rintro q hq rfl
    rw [hq] at hv
    cases hv
  unfold Fs.resolve at hp
  split_ifs at hp with hdot hdotdot
  · exact absurd (Option.some.inj hp) (hnot _ h.cwd)
  · refine absurd (Option.some.inj hp) (hnot _ ?_)
    rcases List.eq_nil_or_concat' fs.cwd with hnil | ⟨q, x, hq⟩
    · rw [hnil]
      exact h.root
    · rw [hq, List.dropLast_concat]
      exact h.above q x (by rw [← hq, h.cwd]; simp)
  · obtain ⟨w, -, rfl⟩ := Option.map_eq_some_iff.1 hp
    exact ⟨⟨hdot, hdotdot⟩, rfl⟩

theorem Fs.resolve_none (h : fs.resolve k = none) : fs.node (fs.cwd ++ [k]) = none := by
  unfold Fs.resolve at h
  split_ifs at h
  exact Option.map_eq_none_iff.1 h

/-- one path changes, and it is not where one is -/
theorem Fs.Closed.set {w : Option Node} (h : fs.Closed) (hroot : q ≠ []) (hcwd : q ≠ fs.cwd)
    (habove : ∀ p k, q = p ++ [k] → w ≠ none → fs.node p = some .dir) (hbelow : ∀ k, fs.node (q ++ [k]) = none) :
    (fs.set q w).Closed := by
  refine ⟨?_, fun p k hp => ?_, ?_⟩
  · rw [Fs.set_of_ne hroot.symm]
    exact h.root
  · have hpq : p ≠ q := by
      rintro rfl
      rw [Fs.set_of_ne (by simp)] at hp
      exact hp (hbelow k)
    rw [Fs.set_of_ne hpq]
    by_cases hk : p ++ [k] = q
    · subst hk
      rw [Fs.set_self] at hp
      exact habove p k rfl hp
    · rw [Fs.set_of_ne hk] at hp
      exact h.above p k hp
  · rw [Fs.set_cwd, Fs.set_of_ne hcwd.symm]
    exact h.cwd

/-- a file changes -/
theorem Fs.Closed.set_file {size : ℤ} {data : Lib.Mem} {w : Node} (h : fs.Closed)
    (hq : fs.node q = some (.file size data)) :
    (fs.set q (some w)).Closed := by
  have hdir : ∀ p, fs.node p = some .dir → q ≠ p := by
    rintro p hp rfl
    rw [hp] at hq
    cases hq
  refine h.set (hdir _ h.root) (hdir _ h.cwd) (fun p k hpk _ => h.above p k ?_) fun k => ?_
  · rw [← hpk, hq]
    simp
  · by_contra hk
    exact hdir q (h.above q k hk) rfl

theorem Fs.Does.closed (h : fs.Does c r fs') (hfs : fs.Closed) : fs'.Closed := by
  cases h with
  | made _ hfree =>
    have hnone := Fs.resolve_none hfree
    refine hfs.set (by simp) (by simp) (fun p k hpk _ => ?_) fun k => ?_
    · obtain ⟨rfl, -⟩ := List.append_inj' hpk rfl
      exact hfs.cwd
    · by_contra hk
      rw [hfs.above _ k hk] at hnone
      cases hnone
  | removed _ _ hbelow => exact hfs.set (by simp) (by simp) (fun _ _ _ hw => absurd rfl hw) hbelow
  | cd _ hp => exact ⟨hfs.root, hfs.above, hp⟩
  | write _ _ _ hp => exact hfs.set_file hp
  | writeShort _ _ hp => exact hfs.set_file hp
  | _ => exact hfs

theorem Op.Does.closed (h : o.Does fs r fs') (hfs : fs.Closed) : fs'.Closed := by
  cases o with
  | cmd c => exact Fs.Does.closed h hfs
  | reopen =>
    obtain ⟨-, rfl⟩ := h
    exact ⟨hfs.root, hfs.above, hfs.root⟩

theorem history_closed (h : History Op.Does fs l fs') (hfs : fs.Closed) : fs'.Closed := by
  induction h with
  | nil => exact hfs
  | snoc _ hdoes ih => exact hdoes.closed ih

/-! ## The tree -/

/-- which paths there are, each with whether it is a directory, and where one is -/
structure Tree where
  kind : Path → Option Bool
  cwd : Path

def Fs.tree (fs : Fs) : Tree := ⟨fun p => (fs.node p).map Node.isDir, fs.cwd⟩

namespace Tree

variable (t : Tree)

/-- where a name leads from a directory -/
def goto (name : List UInt8) : Path :=
  if name = dot then t.cwd else if name = dotdot then t.cwd.dropLast else t.cwd ++ [name]

def set (name : List UInt8) (b : Option Bool) : Tree := { t with kind := update t.kind (t.cwd ++ [name]) b }

/-- the tree after a command that returned `r` -/
def next (x : Op × ℤ × List Print) : Tree :=
  match x.1 with
  | .reopen => { t with cwd := [] }
  | .cmd c => if x.2.1 ≠ 0 then t else match c with
    | .create name => t.set name.chars (some false)
    | .mkdir name => t.set name.chars (some true)
    | .rm name => t.set name.chars none
    | .cd name => { t with cwd := t.goto name.chars }
    | _ => t

end Tree

/-- the tree that a list of commands and return codes tells -/
def treeOf (l : List (Op × ℤ × List Print)) : Tree := l.foldl Tree.next Fs.empty.tree

theorem Fs.tree_set (fs : Fs) (name : List UInt8) (v : Option Node) :
    (fs.set (fs.cwd ++ [name]) v).tree = fs.tree.set name (v.map Node.isDir) := by
  unfold Fs.tree Tree.set
  congr 1
  funext p
  by_cases hp : p = fs.cwd ++ [name]
  · subst hp
    simp
  · simp [hp]

/-- a file that is written stays a file -/
theorem Fs.tree_set_file {size size' : ℤ} {data data' : Lib.Mem} (h : fs.node p = some (.file size data)) :
    (fs.set p (some (.file size' data'))).tree = fs.tree := by
  unfold Fs.tree
  congr 1
  funext q
  by_cases hq : q = p
  · subst hq
    simp [h, Node.isDir]
  · simp [hq]

theorem Fs.goto_of_resolve (h : fs.resolve k = some p) : fs.tree.goto k = p := by
  unfold Fs.resolve at h
  unfold Tree.goto
  split_ifs at h ⊢
  · exact Option.some.inj h
  · exact Option.some.inj h
  · obtain ⟨v, -, hp⟩ := Option.map_eq_some_iff.1 h
    exact hp

theorem Fs.Does.tree (h : fs.Does c r fs') : fs'.tree = fs.tree.next (.cmd c, r) := by
  have hfail : ∀ (c : Cmd) {z : ℤ} {out : List Print}, z < 0 →
    fs.tree = fs.tree.next (.cmd c, (z, out)) := fun _ z out hz =>
    (if_pos (ne_of_lt hz)).symm
  cases h with
  | taken => exact hfail _ (by decide)
  | full _ _ hneg => exact hfail _ hneg
  | made hmakes =>
    rw [Fs.tree_set]
    rcases makes_eq hmakes with ⟨rfl, rfl⟩ | ⟨rfl, rfl⟩ <;> rfl
  | rmDots => exact hfail _ (by decide)
  | rmAbsent => exact hfail _ (by decide)
  | rmFull => exact hfail _ (by decide)
  | removed => exact Fs.tree_set ..
  | negative => exact hfail _ (by decide)
  | absent => exact hfail _ (by decide)
  | notDir => exact hfail _ (by decide)
  | isDir => exact hfail _ (by decide)
  | cd hp =>
    rw [← Fs.goto_of_resolve hp]
    rfl
  | ls hlist =>
    cases c with
    | ls => rfl
    | lsr => rfl
    | _ => cases hlist
  | stat => rfl
  | readBehind => exact hfail _ (by decide)
  | readFar => exact hfail _ (by decide)
  | read => exact (ite_self _).symm
  | write _ _ _ hp =>
    rw [Fs.tree_set_file hp]
    exact (ite_self _).symm
  | writeShort _ _ hp =>
    rw [Fs.tree_set_file hp]
    exact (ite_self _).symm
  | pwd => rfl
  | bad => exact hfail _ (by decide)

theorem history_tree (h : History Op.Does fs l fs') : fs'.tree = l.foldl Tree.next fs.tree := by
  induction h with
  | nil => rfl
  | @snoc l b d o r _ hdoes ih =>
    rw [List.foldl_append, ← ih]
    cases o with
    | cmd c => exact Fs.Does.tree hdoes
    | reopen =>
      obtain ⟨-, rfl⟩ := hdoes
      rfl

namespace Tree

variable (t : Tree)

/-- the names in a directory, each with whether it stands for a directory -/
def Lists (p : Path) (out : List Print) : Prop :=
  ∃ l : List (List UInt8 × Bool), (l.map Prod.fst).Nodup ∧ out = l.map (fun x => .entry x.1 x.2) ∧
    ∀ k b, (k, b) ∈ l ↔ ((k = dot ∨ k = dotdot) ∧ b = true) ∨ t.kind (p ++ [k]) = some b

/-- what a command on a directory returns -/
def enter (name : List UInt8) : ℤ :=
  match t.kind (t.goto name) with
  | none => -ENOENT
  | some false => -ENOTDIR
  | some true => 0

end Tree

/-- what a name stands for -/
theorem Fs.Closed.resolve_eq (h : fs.Closed) :
    fs.resolve k = (fs.tree.kind (fs.tree.goto k)).map fun _ => fs.tree.goto k := by
  have hcwd : fs.node fs.tree.cwd = some .dir := h.cwd
  unfold Fs.resolve Tree.goto
  split_ifs with hdot hdotdot
  · simp [Fs.tree, h.cwd]
  · have hup : fs.node fs.cwd.dropLast = some .dir := by
      rcases List.eq_nil_or_concat' fs.cwd with hnil | ⟨q, x, hq⟩
      · rw [hnil]
        exact h.root
      · rw [hq, List.dropLast_concat]
        exact h.above q x (by rw [← hq, h.cwd]; simp)
    simp [Fs.tree, hup]
  · simp [Fs.tree, comp_def]

theorem Fs.Closed.absent (h : fs.Closed) (hk : fs.resolve k = none) : fs.tree.kind (fs.tree.goto k) = none := by
  rw [h.resolve_eq] at hk
  exact Option.map_eq_none_iff.1 hk

/-- `ls` prints the entries and nothing below them -/
theorem Fs.Prints.flat {names : List (List UInt8 × Bool)} {out : List Print} (h : fs.Prints false p names out) :
    out = names.map fun x => .entry x.1 x.2 := by
  induction h with
  | nil => rfl
  | shallow _ _ ih => rw [ih, List.map_cons]
  | deep hin => exact absurd hin.1 (by decide)

theorem Fs.Lists.names {out : List Print} (h : fs.Lists false p out) : fs.tree.Lists p out := by
  obtain ⟨names, hnames, hprints⟩ := h
  refine ⟨names, hnames.once, hprints.flat, fun k b => ?_⟩
  rw [hnames.mem]
  simp [Fs.tree, eq_comm]

/-- no file of this name is written to or removed -/
def Op.Spares (name : List UInt8) : Op → Prop
  | .cmd (.write k _ _) => k.chars ≠ name
  | .cmd (.rm k) => k.chars ≠ name
  | _ => True

theorem Op.Does.keeps {size : ℤ} {data : Lib.Mem} (h : o.Does fs r fs') (hfs : fs.Closed) (ho : o.Spares k)
    (hp : fs.node (p ++ [k]) = some (.file size data)) : fs'.node (p ++ [k]) = some (.file size data) := by
  have hother : ∀ q x v, x ≠ k → (fs.set (q ++ [x]) v).node (p ++ [k]) = some (.file size data) := by
    intro q x v hx
    rw [Fs.set_of_ne, hp]
    intro hc
    exact hx (List.cons.inj (List.append_inj' hc rfl).2).1.symm
  cases o with
  | reopen =>
    obtain ⟨-, rfl⟩ := h
    exact hp
  | cmd c =>
    cases h with
    | made _ hfree =>
      rw [Fs.set_of_ne, hp]
      intro hc
      rw [hc, Fs.resolve_none hfree] at hp
      cases hp
    | removed => exact hother _ _ _ ho
    | write _ _ hq hv =>
      obtain ⟨-, rfl⟩ := hfs.resolve_file hq hv
      exact hother _ _ _ ho
    | writeShort _ hq hv =>
      obtain ⟨-, rfl⟩ := hfs.resolve_file hq hv
      exact hother _ _ _ ho
    | _ => exact hp

theorem history_keeps {size : ℤ} {data : Lib.Mem} (h : History Op.Does fs l fs') (hfs : fs.Closed)
    (hl : ∀ x ∈ l, x.1.Spares k) (hp : fs.node (p ++ [k]) = some (.file size data)) :
    fs'.node (p ++ [k]) = some (.file size data) := by
  induction h with
  | nil => exact hp
  | snoc h hdoes ih =>
    have hold := ih fun x hx => hl x (List.mem_append_left _ hx)
    exact hdoes.keeps (history_closed h hfs) (hl (_, _) (List.mem_append_right _ List.mem_cons_self)) hold

/-! ## What was written is read back -/

/-- a write that succeeds -/
theorem Fs.Does.written {name data : Token} {offset : Int64}
    (h : fs.Does (.write name offset data) r fs') (hfs : fs.Closed) (hr : 0 ≤ r.1) :
    ∃ size old, Proper dot dotdot name.chars ∧ 0 ≤ offset.toInt ∧
      offset.toInt + data.chars.length ≤ maxBlockNr * 8192 ∧ fs.node (fs.cwd ++ [name.chars]) = some (.file size old) ∧
      fs' = fs.set (fs.cwd ++ [name.chars]) (some (.file (max size (offset.toInt + data.chars.length))
        (copy old offset.toInt.toNat (bytes data.chars) 0 data.chars.length))) := by
  cases h with
  | write h0 hmax hp hv =>
    obtain ⟨hname, rfl⟩ := hfs.resolve_file hp hv
    exact ⟨_, _, hname, h0, hmax, hv, rfl⟩
  | writeShort _ _ _ hneg =>
    rcases hneg with rfl | rfl
    · exact absurd hr (by decide)
    · exact absurd hr (by decide)
  | taken hmakes => cases hmakes
  | full hmakes => cases hmakes
  | made hmakes => cases hmakes
  | negative => exact absurd hr (by decide)
  | absent => exact absurd hr (by decide)
  | notDir => exact absurd hr (by decide)
  | isDir => exact absurd hr (by decide)
  | ls hlist => cases hlist

/-- a read inside a file -/
theorem Fs.Does.read_eq {name : Token} {offset : Int64} {len : UInt64} {size : ℤ} {data : Lib.Mem}
    (h : fs.Does (.read name offset len) r fs') (hp : fs.resolve name.chars = some p)
    (hv : fs.node p = some (.file size data)) (h0 : 0 ≤ offset.toInt) (hin : offset.toInt + len.toNat ≤ size)
    (hmax : offset.toInt + max len.toNat 1 ≤ (maxBlockNr * 8192 : ℤ)) :
    r = ((len.toNat : ℤ), [.data ((slice data offset.toInt.toNat len.toNat).takeWhile fun c => c ≠ 0)]) := by
  have hsame : ∀ {q size' data'}, fs.resolve name.chars = some q → fs.node q = some (.file size' data') →
      size' = size ∧ data' = data := by
    intro q size' data' hq hv'
    obtain rfl := Option.some.inj (hp.symm.trans hq)
    exact Node.file.inj (Option.some.inj (hv'.symm.trans hv))
  cases h with
  | read _ hq hv' =>
    obtain ⟨-, rfl⟩ := hsame hq hv'
    rfl
  | readBehind _ hq hv' hbehind =>
    obtain ⟨rfl, -⟩ := hsame hq hv'
    omega
  | readFar _ hq hv' _ hfar => omega
  | taken hmakes => cases hmakes
  | full hmakes => cases hmakes
  | made hmakes => cases hmakes
  | negative hneg => exact absurd hneg (not_lt.2 h0)
  | absent hfinds hfree =>
    rw [Cmd.finds, if_neg (not_lt.2 h0)] at hfinds
    obtain rfl := Option.some.inj hfinds
    rw [hp] at hfree
    cases hfree
  | notDir _ hwants => cases hwants
  | isDir hfinds _ hq hv' =>
    rw [Cmd.finds, if_neg (not_lt.2 h0)] at hfinds
    obtain rfl := Option.some.inj hfinds
    obtain rfl := Option.some.inj (hp.symm.trans hq)
    rw [hv] at hv'
    cases hv'
  | ls hlist => cases hlist

/-- a part of what was copied -/
theorem slice_copy {old : Lib.Mem} {d : List UInt8} {o o' n : ℕ} (h1 : o ≤ o') (h2 : o' + n ≤ o + d.length) :
    slice (copy old o (bytes d) 0 d.length) o' n = (d.drop (o' - o)).take n := by
  unfold slice
  refine List.ext_getElem (by simp; omega) fun j hj hj' => ?_
  rw [List.length_map, List.length_range] at hj
  rw [List.getElem_map, List.getElem_range, copy_of_mem (by omega) (by omega), List.getElem_take,
    List.getElem_drop, bytes, Nat.zero_add, List.getD_eq_getElem _ _ (by omega)]
  congr 1
  omega

/-- **What was written is read back.** Between the write and the read there may be any commands and sessions that write
to and remove no file of this name; the read is made in the directory in which the write was made. -/
theorem sessions_read_back {name data : Token} {offset offset' : Int64} {len : UInt64} {w : ℤ} {out : List Print}
    (hk : validSize fsSizeMb) (hstack : ∀ j, stack j = 0) (h0 : start fsSizeMb stack = .ok s0)
    (hcalls : Calls Op.exec Op.good s0 (l ++ [(.cmd (.write name offset data), w, out)] ++ l' ++
      [(.cmd (.read name offset' len), r)]) s) (hw : 0 ≤ w) (hspares : ∀ x ∈ l', x.1.Spares name.chars)
    (hcwd : (treeOf (l ++ [(.cmd (.write name offset data), w, out)] ++ l')).cwd = (treeOf l).cwd)
    (hle : offset.toInt ≤ offset'.toInt) (hlen : 0 < len.toNat)
    (hend : offset'.toInt + len.toNat ≤ offset.toInt + data.chars.length) :
    r = ((len.toNat : ℤ), [.data ((data.chars.drop (offset'.toInt - offset.toInt).toNat).take len.toNat)]) := by
  obtain ⟨fs4, hhistory, -⟩ := op_simulates.history (start_hasFiles hk hstack h0) hcalls
  obtain ⟨fs3, h3, hread⟩ := history_concat_iff.1 hhistory
  obtain ⟨fs2, h2, h23⟩ := h3.split
  obtain ⟨fs1, h1, hwrite⟩ := history_concat_iff.1 h2
  have hclosed := history_closed h1 Fs.empty_closed
  obtain ⟨size, old, hname, h0, hmax, hv, rfl⟩ := Fs.Does.written hwrite hclosed hw
  have hkept := history_keeps h23 (hclosed.set_file hv) hspares (Fs.set_self ..)
  have hdir : fs3.cwd = fs1.cwd := by
    have htree3 := history_tree h3
    have htree1 := history_tree h1
    calc fs3.cwd = (treeOf (l ++ [(Op.cmd (.write name offset data), w, out)] ++ l')).cwd := congrArg Tree.cwd htree3
      _ = (treeOf l).cwd := hcwd
      _ = fs1.cwd := (congrArg Tree.cwd htree1).symm
  have hresolve : fs3.resolve name.chars = some (fs1.cwd ++ [name.chars]) := by
    rw [Fs.resolve, if_neg hname.1, if_neg hname.2, hdir, hkept]
    rfl
  have heq := Fs.Does.read_eq hread hresolve hkept (by omega) (by omega) (by omega)
  have hoff : offset'.toInt.toNat - offset.toInt.toNat = (offset'.toInt - offset.toInt).toNat := by omega
  rw [heq, slice_copy (by omega) (by omega), hoff]
  -- a token has no byte 0
  rw [List.takeWhile_eq_self_iff.2 fun c hc => ?_]
  have hmem := List.mem_of_mem_drop (List.mem_of_mem_take hc)
  exact decide_eq_true fun hzero => data.noNul (hzero ▸ hmem)

/-- a byte that was written in one session is read in the next -/
theorem sessions_read_back_of_two : ∃ s0 s, start 1 (fun _ => 0) = .ok s0 ∧ Calls Op.exec Op.good s0 twoSessions s ∧
    ((1 : ℤ), [Print.data tokenF.chars]) = (((1 : UInt64).toNat : ℤ), [Print.data ((tokenF.chars.drop 0).take 1)]) := by
  obtain ⟨s0, s, h0, hcalls⟩ := exists_twoSessions
  have hparts : Calls Op.exec Op.good s0 (twoSessions.take 2 ++ [(.cmd (.write tokenG 0 tokenF), 1, [])] ++
      [(.cmd (.cd tokenF), 0, []), (.reopen, 0, [])] ++ [(.cmd (.read tokenG 0 1), 1, [.data tokenF.chars])]) s :=
      hcalls
  refine ⟨s0, s, h0, hcalls, ?_⟩
  exact sessions_read_back ⟨le_rfl, by norm_num⟩ (fun _ => rfl) h0 hparts (by decide)
    (by simp [Op.Spares]) (by decide) le_rfl
    (by decide) (by decide)

end OsLab.Testfs
