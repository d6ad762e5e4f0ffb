/-
Commands that print nothing.

`create`, `mkdir`, `rm` and `write` leave the output as it is (`createFileOrDir_silent`, `cmdRm_silent`,
`writeData_silent`): none of the functions that change a file prints. The proofs follow the text of the functions, from
the blocks up.
-/
import OsLab.Testfs.Walk

namespace OsLab.Testfs

open OsLab.Lib State

variable {s t u : State} {nr : ℤ}

/-- the output is what it was -/
def Silent (s s' : State) : Prop := s'.out = s.out

theorem Silent.trans (h : Silent s t) (h' : Silent t u) : Silent s u := Eq.trans h' h

/-! ## Blocks -/

theorem writeBlocks_silent (s : State) (block : Lib.Mem) (b : ℤ) : Post (writeBlocks s block b) (Silent s) :=
  Post.ite (fun _ => Post.ok rfl) fun _ => Post.error

theorem allocBlockForInode_silent (s : State) (nr : ℤ) : Post (allocBlockForInode s nr) fun r => Silent s r.2 := by
  have hmap : Post (getBlockFreemap s) fun r => Silent s r.2 := by
    unfold getBlockFreemap
    refine Post.bind Post.trivial fun found _ => ?_
    cases found with
    | none => exact Post.pair rfl
    | some p => exact Post.pair rfl
  have halloc : Post (allocBlock s) fun r => Silent s r.2 := by
    unfold allocBlock
    refine Post.ite (fun _ => Post.pair rfl) fun _ => ?_
    exact hmap.bind fun r h => Post.ite (fun _ => Post.pair h) fun _ => Post.pair h
  exact halloc.bind fun r h => Post.ite (fun _ => Post.pair h) fun _ => Post.pair h

theorem freeBlockFromInode_silent (s : State) (nr b : ℤ) : Post (freeBlockFromInode s nr b) (Silent s) := by
  have hmap : ∀ t k, Silent s t → Post (putBlockFreemap t k) (Silent s) := fun t k ht =>
    Post.bind Post.trivial fun _ _ => Post.pure ht
  have hfree : Post (freeBlock s b) (Silent s) := by
    refine (writeBlocks_silent s zeroMem b).bind fun s1 h1 => ?_
    refine Post.ite (fun _ => Post.throw) fun _ => ?_
    exact (hmap s1 _ h1).bind fun s2 h2 => Post.ite (fun _ => Post.pure h2) fun _ => Post.throw
  exact Post.ite (fun _ => Post.pure rfl) fun _ => hfree.bind fun s1 h1 => Post.pure h1

theorem silent_indirectAllocated (s : State) (assigned : Bool) : Silent s (indirectAllocated s assigned).2 := by
  cases assigned
  · rfl
  · rfl

theorem allocateDirect_silent (s : State) (nr : ℤ) (b : Fin 10) :
    Post (allocateDirect s nr b) fun r => Silent s r.2 := by
  unfold allocateDirect
  refine Post.bind Post.trivial fun i _ => ?_
  refine Post.ite (fun _ => Post.throw) fun _ => ?_
  exact (allocBlockForInode_silent s nr).bind fun r h1 => Post.ite (fun _ => Post.pair h1) fun _ => Post.pair h1

theorem allocateInIndirect_silent (s : State) (nr : ℤ) (b : ℕ) (indirect : Lib.Mem) (assigned : Bool) :
    Post (allocateInIndirect s nr b indirect assigned) fun r => Silent s r.2 := by
  unfold allocateInIndirect
  refine Post.ite (fun _ => Post.throw) fun _ => ?_
  refine (allocBlockForInode_silent s nr).bind fun r h1 => ?_
  refine Post.bind Post.trivial fun i _ => ?_
  refine Post.ite (fun _ => ?_) fun _ => ?_
  · exact (writeBlocks_silent r.2 _ _).bind fun s2 h2 => Post.pair (h1.trans h2)
  · have h2 := h1.trans (silent_indirectAllocated r.2 assigned)
    refine Post.ite (fun _ => ?_) fun _ => Post.pair h2
    exact (freeBlockFromInode_silent _ nr _).bind fun s3 h3 => Post.pair (h2.trans h3)

theorem allocateIndirect_silent (s : State) (nr : ℤ) (b : ℕ) :
    Post (allocateIndirect s nr b) fun r => Silent s r.2 := by
  unfold allocateIndirect
  refine Post.bind Post.trivial fun i _ => ?_
  refine Post.ite (fun _ => ?_) fun _ => Post.bind Post.trivial fun _ _ => allocateInIndirect_silent s nr b _ false
  refine (allocBlockForInode_silent s nr).bind fun r h1 => ?_
  refine Post.ite (fun _ => Post.pair h1) fun _ => ?_
  exact (allocateInIndirect_silent _ nr b zeroMem true).mono fun _ h2 => h1.trans h2

theorem allocateLeaf_silent (s : State) (nr : ℤ) (b : ℕ) (dindirect indirect : Lib.Mem)
    (dindirectAllocated assigned : Bool) :
    Post (allocateLeaf s nr b dindirect indirect dindirectAllocated assigned) fun r => Silent s r.2 := by
  unfold allocateLeaf
  refine (allocBlockForInode_silent s nr).bind fun r h1 => ?_
  refine Post.bind Post.trivial fun i _ => ?_
  refine Post.ite (fun _ => ?_) fun _ => ?_
  · refine (writeBlocks_silent r.2 _ _).bind fun s2 h2 => ?_
    exact (writeBlocks_silent s2 _ _).bind fun s3 h3 => Post.pair ((h1.trans h2).trans h3)
  · have hrest : ∀ s2, Silent r.2 s2 → Post (if (indirectAllocated s2 assigned).1 then do
          let s ← freeBlockFromInode (indirectAllocated s2 assigned).2 nr (s32At dindirect (4 * (b / 2048)))
          pure (r.1, s)
        else pure (r.1, (indirectAllocated s2 assigned).2)) fun r => Silent s r.2 := by
      intro s2 h2
      have h3 := (h1.trans h2).trans (silent_indirectAllocated s2 assigned)
      refine Post.ite (fun _ => ?_) fun _ => Post.pair h3
      exact (freeBlockFromInode_silent _ nr _).bind fun s4 h4 => Post.pair (h3.trans h4)
    cases dindirectAllocated with
    | false => exact hrest r.2 rfl
    | true => exact (freeBlockFromInode_silent r.2 nr _).bind fun s2 h2 => hrest _ h2

theorem allocateInDindirect_silent (s : State) (nr : ℤ) (b : ℕ) (dindirect : Lib.Mem) (dindirectAllocated : Bool) :
    Post (allocateInDindirect s nr b dindirect dindirectAllocated) fun r => Silent s r.2 := by
  unfold allocateInDindirect
  refine Post.ite (fun _ => ?_) fun _ => Post.bind Post.trivial fun _ _ =>
    allocateLeaf_silent s nr b dindirect _ _ false
  refine (allocBlockForInode_silent s nr).bind fun r h1 => ?_
  refine Post.ite (fun _ => Post.pair h1) fun _ => ?_
  exact (allocateLeaf_silent r.2 nr b _ zeroMem dindirectAllocated true).mono fun _ h2 => h1.trans h2

theorem allocateDindirect_silent (s : State) (nr : ℤ) (b : ℕ) :
    Post (allocateDindirect s nr b) fun r => Silent s r.2 := by
  unfold allocateDindirect
  refine Post.bind Post.trivial fun i _ => ?_
  refine Post.ite (fun _ => ?_) fun _ => Post.bind Post.trivial fun _ _ => allocateInDindirect_silent s nr b _ false
  refine (allocBlockForInode_silent s nr).bind fun r h1 => ?_
  refine Post.ite (fun _ => Post.pair h1) fun _ => ?_
  exact (allocateInDindirect_silent _ nr b zeroMem true).mono fun _ h2 => h1.trans h2

theorem allocateBlock_silent (s : State) (nr logBlockNr : ℤ) :
    Post (allocateBlock s nr logBlockNr) fun r => Silent s r.2.2 := by
  have hnew : Post (allocateNew s nr logBlockNr.toNat) fun r => Silent s r.2 := by
    unfold allocateNew
    split
    · exact allocateDirect_silent s nr _
    · exact Post.ite (fun _ => allocateIndirect_silent s nr _) fun _ => allocateDindirect_silent s nr _
  unfold allocateBlock
  refine Post.ite (fun _ => Post.pure rfl) fun _ => ?_
  refine Post.bind Post.trivial fun i _ => ?_
  refine Post.bind Post.trivial fun r _ => ?_
  exact Post.ite (fun _ => Post.pure rfl) fun _ => hnew.bind fun r h1 => Post.pure h1

/-! ## Data -/

theorem writeLast_silent (s : State) (nr : ℤ) (buf : Lib.Mem) (start : ℤ) (size : ℕ) (blockNr : ℤ)
    (blockIx total rest : ℕ) :
    Post (writeLast s nr buf start size blockNr blockIx total rest) fun r => Silent s r.2 := by
  unfold writeLast
  refine (allocateBlock_silent s nr _).bind fun r h1 => ?_
  refine Post.ite (fun _ => Post.pair h1) fun _ => ?_
  refine (writeBlocks_silent r.2.2 _ _).bind fun s2 h2 => Post.pair ?_
  have h3 : Silent s2 (if 0 < size then growTo s2 nr (start + size) else s2) := by
    split
    · rfl
    · rfl
  exact (h1.trans h2).trans h3

theorem writeData_silent (s : State) (nr : ℤ) (buf : Lib.Mem) (start : ℤ) (size : ℕ) :
    Post (writeData s nr buf start size) fun r => Silent s r.2 := by
  have hloop : ∀ (fuel : ℕ) (t : State) (blockNr : ℤ) (blockIx total rest : ℕ),
      Post (writeLoop nr buf start size fuel t blockNr blockIx total rest) fun r => Silent t r.2 := by
    intro fuel
    induction fuel with
    | zero => exact fun _ _ _ _ _ => Post.error
    | succ fuel ih =>
      intro t blockNr blockIx total rest
      rw [writeLoop]
      refine Post.ite (fun _ => ?_) fun _ => writeLast_silent t nr buf start size blockNr blockIx total rest
      refine (allocateBlock_silent t nr _).bind fun r h1 => ?_
      refine Post.ite (fun _ => Post.ite (fun _ => Post.pair h1) fun _ => Post.pair h1) fun _ => ?_
      refine (writeBlocks_silent r.2.2 _ _).bind fun s2 h2 => ?_
      exact (ih s2 _ _ _ _).mono fun _ h3 => (h1.trans h2).trans h3
  exact Post.ite (fun _ => Post.error) fun _ => hloop _ s _ _ _ _

theorem freeEntries_silent (s : State) (nr : ℤ) (block : Lib.Mem) (e : ℤ) :
    Post (freeEntries s nr block e) (Silent s) :=
  Post.foldlM _ s rfl fun t _ ht => (freeBlockFromInode_silent t nr _).mono fun _ h => Silent.trans ht h

theorem freeIndirect_silent (s : State) (nr e : ℤ) : Post (freeIndirect s nr e) (Silent s) := by
  unfold freeIndirect
  refine Post.bind Post.trivial fun i _ => ?_
  refine Post.ite (fun _ => ?_) fun _ => Post.pure rfl
  refine Post.ite (fun _ => Post.throw) fun _ => ?_
  refine Post.bind Post.trivial fun block _ => ?_
  refine (freeEntries_silent s nr block e).bind fun s1 h1 => ?_
  exact (freeBlockFromInode_silent s1 nr _).bind fun s2 h2 => Post.pure (h1.trans h2)

theorem freeDindirect_silent (s : State) (nr e : ℤ) : Post (freeDindirect s nr e) (Silent s) := by
  have hsecond : ∀ block t k, Post (freeSecond nr block e t k) (Silent t) := by
    intro block t k
    unfold freeSecond
    refine Post.ite (fun _ => Post.pure rfl) fun _ => ?_
    refine Post.bind Post.trivial fun second _ => ?_
    refine (freeEntries_silent t nr second _).bind fun s1 h1 => ?_
    exact (freeBlockFromInode_silent s1 nr _).mono fun _ h2 => h1.trans h2
  unfold freeDindirect
  refine Post.ite (fun _ => ?_) fun _ => Post.pure rfl
  refine Post.bind Post.trivial fun i _ => ?_
  refine Post.bind Post.trivial fun block _ => ?_
  have hloop : Post ((List.range 2048).foldlM (freeSecond nr block e) s) (Silent s) :=
    Post.foldlM _ s rfl fun t k ht => (hsecond block t k).mono fun _ h => Silent.trans ht h
  refine hloop.bind fun s1 h1 => ?_
  exact (freeBlockFromInode_silent s1 nr _).bind fun s2 h2 => Post.pure (h1.trans h2)

theorem freeBlocks_silent (s : State) (nr : ℤ) : Post (freeBlocks s nr) (Silent s) := by
  have hdirect : ∀ e t k, Post (freeDirect nr e t k) (Silent t) := by
    intro e t k
    unfold freeDirect
    refine Post.ite (fun _ => ?_) fun _ => Post.pure rfl
    refine Post.bind Post.trivial fun i _ => ?_
    refine Post.ite (fun _ => Post.pure rfl) fun _ => ?_
    exact (freeBlockFromInode_silent t nr _).bind fun s1 h1 => Post.pure h1
  have hloop : ∀ e, Post ((List.finRange 10).foldlM (freeDirect nr e) s) (Silent s) := fun e =>
    Post.foldlM _ s rfl fun t k ht => (hdirect e t k).mono fun _ h => Silent.trans ht h
  unfold freeBlocks
  refine Post.bind Post.trivial fun i _ => ?_
  refine (hloop _).bind fun s1 h1 => ?_
  refine (freeIndirect_silent s1 nr _).bind fun s2 h2 => ?_
  exact (freeDindirect_silent s2 nr _).bind fun s3 h3 => Post.pure ((h1.trans h2).trans h3)

/-! ## Inodes -/

theorem syncInode_silent (s : State) (nr : ℤ) : Post (syncInode s nr) (Silent s) := by
  unfold syncInode
  refine Post.bind Post.trivial fun i _ => ?_
  refine Post.ite (fun _ => ?_) fun _ => Post.pure rfl
  refine Post.bind Post.trivial fun block _ => ?_
  have hwrite : Post (writeInodeBlock s nr (Dinode.put block (inodeToBlockOffset nr) i.dinode)) (Silent s) :=
    Post.bind Post.trivial fun b _ => writeBlocks_silent s _ _
  exact hwrite.bind fun s1 h1 => Post.pure h1

theorem putInodeFreemap_silent (s : State) (nr : ℤ) : Post (putInodeFreemap s nr) (Silent s) := by
  unfold putInodeFreemap
  exact Post.bind Post.trivial fun b _ => Post.ite (fun _ => Post.pure rfl) fun _ => Post.throw

theorem createInode_silent (s : State) (type : ℤ) : Post (createInode s type) fun r => Silent s r.2.2 := by
  have hmap : Post (getInodeFreemap s) fun r => Silent s r.2 := by
    unfold getInodeFreemap
    refine Post.bind Post.trivial fun found _ => ?_
    cases found with
    | none => exact Post.pair rfl
    | some p => exact Post.pair rfl
  unfold createInode
  refine hmap.bind fun r h1 => ?_
  refine Post.ite (fun _ => Post.pure h1) fun _ => Post.ite (fun _ => ?_) fun _ => ?_
  · exact (putInodeFreemap_silent r.2 r.1).bind fun s2 h2 => Post.pure (h1.trans h2)
  · exact Post.bind (getInode_out r.2 r.1) fun s2 h2 => Post.pure (h1.trans h2)

theorem removeInode_silent (s : State) (nr : ℤ) : Post (removeInode s nr) (Silent s) := by
  unfold removeInode
  refine (freeBlocks_silent s nr).bind fun s1 h1 => ?_
  refine Post.bind Post.trivial fun i _ => ?_
  refine Post.ite (fun _ => Post.throw) fun _ => ?_
  refine (putInodeFreemap_silent _ nr).bind fun s3 h3 => ?_
  refine (syncInode_silent s3 nr).bind fun s4 h4 => ?_
  exact Post.mono (putInode_out s4 nr) fun s5 h5 => ((h1.trans h3).trans h4).trans h5

/-! ## Directories -/

theorem writeDir_silent (s : State) (nr : ℤ) (buf : List UInt8) (start : ℤ) :
    Post (writeDir s nr buf start) fun r => Silent s r.2 := by
  unfold writeDir
  refine Post.bind Post.trivial fun i _ => ?_
  refine (writeData_silent s nr _ start _).bind fun r h1 => ?_
  exact Post.ite (fun _ => Post.bind Post.trivial fun _ _ => Post.pair h1) fun _ => Post.pair h1

theorem addDirent_silent (s : State) (dir : ℤ) (name : List UInt8) (nr : ℤ) :
    Post (addDirent s dir name nr) fun r => Silent s r.2 := by
  have hwrite : ∀ len offset, Post (writeDirent s dir name len nr offset) fun r => Silent s r.2 := by
    intro len offset
    unfold writeDirent
    refine Post.ite (fun _ => Post.pair rfl) fun _ => Post.ite (fun _ => Post.throw) fun _ => ?_
    exact Post.ite (fun _ => Post.throw) fun _ => writeDir_silent s dir _ _
  unfold addDirent
  refine Post.bind Post.trivial fun r _ => ?_
  obtain ⟨found, offset⟩ := r
  cases found with
  | none => exact Post.bind Post.trivial fun i _ => Post.ite (fun _ => Post.throw) fun _ => hwrite _ _
  | some again =>
    cases again with
    | false => exact Post.pair rfl
    | true => exact hwrite _ _

theorem removeDirent_silent (s : State) (dir : ℤ) (name : List UInt8) :
    Post (removeDirent s dir name) fun r => Silent s r.2 := by
  have hallowed : ∀ nr, Post (removeDirentAllowed s nr) fun r => Silent s r.2 := by
    intro nr
    unfold removeDirentAllowed
    refine Post.bind (getInode_out s nr) fun s1 h1 => ?_
    refine Post.bind Post.trivial fun i _ => ?_
    have hput : ∀ ret : ℤ, Post (do let s ← putInode s1 nr; return (ret, s)) fun r => Silent s r.2 := fun ret =>
      Post.bind (putInode_out s1 nr) fun s2 h2 => Post.pair (Eq.trans h2 h1)
    refine Post.ite (fun _ => Post.bind Post.trivial fun ret _ => hput ret) fun _ => ?_
    exact Post.bind Post.trivial fun r _ => Post.bind Post.trivial fun ret _ => hput ret
  unfold removeDirent
  refine Post.ite (fun _ => Post.pair rfl) fun _ => ?_
  refine Post.bind Post.trivial fun r _ => ?_
  obtain ⟨found, offset⟩ := r
  cases found with
  | none => exact Post.pair rfl
  | some e =>
    refine (hallowed e.dInodeNr).bind fun r1 h1 => ?_
    refine Post.ite (fun _ => Post.pair h1) fun _ => ?_
    refine (writeDir_silent r1.2 dir _ offset).bind fun r2 h2 => ?_
    exact Post.ite (fun _ => Post.pair (h1.trans h2)) fun _ => Post.pair (h1.trans h2)

theorem createEmptyDir_silent (s : State) (pInodeNr cdir : ℤ) :
    Post (createEmptyDir s pInodeNr cdir) fun r => Silent s r.2 := by
  unfold createEmptyDir
  refine Post.bind Post.trivial fun i _ => ?_
  refine Post.ite (fun _ => Post.throw) fun _ => ?_
  refine (addDirent_silent s cdir dot cdir).bind fun r1 h1 => ?_
  refine Post.ite (fun _ => Post.pair h1) fun _ => ?_
  refine (addDirent_silent r1.2 cdir dotdot pInodeNr).bind fun r2 h2 => ?_
  refine Post.ite (fun _ => ?_) fun _ => Post.pair (h1.trans h2)
  exact (removeDirent_silent r2.2 cdir dot).bind fun r3 h3 => Post.pair ((h1.trans h2).trans h3)

theorem linkInode_silent (s : State) (d : Option ℤ) (type : ℤ) (name : List UInt8) (nr : ℤ) :
    Post (linkInode s d type name nr) fun r => Silent s r.2 := by
  have hput : ∀ t, Silent s t →
      Post (do let s ← syncInode t nr; let s ← putInode s nr; return ((0 : ℤ), s)) fun r => Silent s r.2 := by
    intro t ht
    refine (syncInode_silent t nr).bind fun s1 h1 => ?_
    exact Post.bind (putInode_out s1 nr) fun s2 h2 => Post.pair ((ht.trans h1).trans h2)
  have hdrop : ∀ (ret : ℤ) t, Silent s t → Post (do let s ← removeInode t nr; return (ret, s)) fun r => Silent s r.2 :=
    fun ret t ht => (removeInode_silent t nr).bind fun s1 h1 => Post.pair (ht.trans h1)
  unfold linkInode
  refine Post.ite_bind (fun _ => createEmptyDir_silent s _ nr) (fun _ => Post.pure rfl) fun r hr => ?_
  refine Post.ite (fun _ => hdrop r.1 r.2 hr) fun _ => ?_
  cases d with
  | none => exact hput r.2 hr
  | some d =>
    refine (addDirent_silent r.2 d name nr).bind fun r1 h1 => ?_
    refine Post.ite (fun _ => hdrop r1.1 r1.2 (Silent.trans hr h1)) fun _ => ?_
    exact (syncInode_silent r1.2 d).bind fun s2 h2 => hput s2 ((Silent.trans hr h1).trans h2)

/-! ## Commands -/

/-- **`create` and `mkdir`.** -/
theorem createFileOrDir_silent (s : State) (d type : ℤ) (name : List UInt8) :
    Post (createFileOrDir s (some d) type name) fun r => Silent s r.2 := by
  unfold createFileOrDir
  refine Post.bind Post.trivial fun inodeNr _ => ?_
  refine Post.ite (fun _ => Post.pair rfl) fun _ => ?_
  refine (createInode_silent s type).bind fun r h1 => ?_
  refine Post.ite (fun _ => Post.pair h1) fun _ => ?_
  exact (linkInode_silent r.2.2 (some d) type name r.2.1).mono fun _ h2 => h1.trans h2

/-- **`rm`.** -/
theorem cmdRm_silent (s : State) (name : List UInt8) : Post (cmdRm s name) fun r => Silent s r.2 := by
  unfold cmdRm
  refine (removeDirent_silent s s.curDir name).bind fun r h1 => ?_
  refine Post.ite (fun _ => Post.pair h1) fun _ => ?_
  refine Post.bind (getInode_out r.2 r.1) fun s2 h2 => ?_
  refine (removeInode_silent s2 r.1).bind fun s3 h3 => ?_
  exact (syncInode_silent s3 s3.curDir).bind fun s4 h4 => Post.pair (((h1.trans h2).trans h3).trans h4)

end OsLab.Testfs
