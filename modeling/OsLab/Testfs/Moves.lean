/-
What the functions of the file system do to a state, as a sequence of elementary changes.

`Prim` lists the changes: fields of an inode in memory, a write to the device, a block or an inode number taken or given
back, and, where inodes may enter and leave memory (`Prim true`), a reference taken or given back. Every function of
`read_write.c` and `dir.c` and every command is a sequence of them (`exec_moves`), so what every change keeps holds
along every run (`run_inv`), also in runs where writes fail and where memory that was not set is read.
-/
import Mathlib.Tactic
import OsLab.Lib.Run
import OsLab.Testfs.Model

namespace OsLab.Testfs

open OsLab.Lib State

/-- the elementary changes of a state; the index says whether inodes may enter or leave memory -/
inductive Prim : Bool → State → State → Prop
  | modify {k : Bool} (s : State) (nr : ℤ) (f : Inode → Inode) (hf : ∀ i, (f i).iNr = i.iNr ∧ (f i).iCount = i.iCount) :
    Prim k s (s.modify nr f)
  | write {k : Bool} (s : State) (start : ℤ) (block : Mem) :
    0 ≤ start → Prim k s { s with dev := s.dev.write start block }
  | allocBlock {k : Bool} {s s' : State} {r : ℤ} : Testfs.allocBlock s = .ok (r, s') → Prim k s s'
  | freeBlock {k : Bool} {s s' : State} {b : ℤ} : Testfs.freeBlock s b = .ok s' → Prim k s s'
  | getInodeFreemap {k : Bool} {s s' : State} {r : ℤ} : Testfs.getInodeFreemap s = .ok (r, s') → Prim k s s'
  | putInodeFreemap {k : Bool} {s s' : State} {nr : ℤ} : Testfs.putInodeFreemap s nr = .ok s' → Prim k s s'
  | stack {k : Bool} (s : State) (f : ℕ → ℤ) : Prim k s { s with stack := f }
  | fails {k : Bool} (s : State) (l : List ℤ) : Prim k s { s with dirFails := l }
  | print {k : Bool} (s : State) (p : Print) : Prim k s (s.print p)
  | getInode {s s' : State} {nr : ℤ} : Testfs.getInode s nr = .ok s' → Prim true s s'
  | putInode {s s' : State} {nr : ℤ} : Testfs.putInode s nr = .ok s' → Prim true s s'
  | curDir (s : State) (nr : ℤ) : Prim true s { s with curDir := nr }

/-- a sequence of changes -/
def Moves (k : Bool) : State → State → Prop := Relation.ReflTransGen (Prim k)

variable {k : Bool} {s t u : State}

theorem Moves.refl (s : State) : Moves k s s := Relation.ReflTransGen.refl

theorem Moves.trans (h1 : Moves k s t) (h2 : Moves k t u) : Moves k s u := Relation.ReflTransGen.trans h1 h2

theorem Prim.moves (h : Prim k s t) : Moves k s t := Relation.ReflTransGen.single h

/-- what every change keeps, a sequence keeps -/
theorem Moves.inv {I : State → Prop} (h : Moves k s t) (hI : ∀ s t, Prim k s t → I s → I t) (hs : I s) : I t := by
  induction h with
  | refl => exact hs
  | tail _ hp ih => exact hI _ _ hp ih

/-! ## Functions that take no reference -/

variable (k)

theorem moves_modify (s : State) (nr : ℤ) {f : Inode → Inode} (hf : ∀ i, (f i).iNr = i.iNr ∧ (f i).iCount = i.iCount) :
    Moves k s (s.modify nr f) := (Prim.modify s nr f hf).moves

theorem moves_setDinode (s : State) (nr : ℤ) (f : Dinode → Dinode) : Moves k s (s.setDinode nr f) :=
  moves_modify k s nr fun _ => ⟨rfl, rfl⟩

theorem moves_setDirty (s : State) (nr : ℤ) : Moves k s (s.setDirty nr) := moves_modify k s nr fun _ => ⟨rfl, rfl⟩

theorem writeBlocks_moves (s : State) (block : Mem) (start : ℤ) : Post (writeBlocks s block start) (Moves k s) := by
  unfold writeBlocks
  exact Post.ite (fun h => Post.ok (Prim.write s start block h).moves) fun _ => Post.error

theorem allocBlock_moves (s : State) : Post (allocBlock s) fun r => Moves k s r.2 :=
  fun _ h => (Prim.allocBlock h).moves

theorem freeBlock_moves (s : State) (blockNr : ℤ) : Post (freeBlock s blockNr) (Moves k s) :=
  fun _ h => (Prim.freeBlock h).moves

theorem getInodeFreemap_moves (s : State) : Post (getInodeFreemap s) fun r => Moves k s r.2 :=
  fun _ h => (Prim.getInodeFreemap h).moves

theorem putInodeFreemap_moves (s : State) (inodeNr : ℤ) : Post (putInodeFreemap s inodeNr) (Moves k s) :=
  fun _ h => (Prim.putInodeFreemap h).moves

theorem syncInode_moves (s : State) (nr : ℤ) : Post (syncInode s nr) (Moves k s) := by
  unfold syncInode
  refine Post.bind Post.trivial fun i _ => ?_
  refine Post.ite (fun _ => ?_) fun _ => Post.pure (Moves.refl s)
  refine Post.bind Post.trivial fun block _ => ?_
  have hwrite : Post (writeInodeBlock s nr (Dinode.put block (inodeToBlockOffset nr) i.dinode)) (Moves k s) := by
    unfold writeInodeBlock
    exact Post.bind Post.trivial fun b _ => writeBlocks_moves k s _ _
  refine hwrite.bind fun s1 h1 => ?_
  exact Post.pure (h1.trans (moves_modify k s1 nr fun _ => ⟨rfl, rfl⟩))

theorem allocBlockForInode_moves (s : State) (nr : ℤ) : Post (allocBlockForInode s nr) fun r => Moves k s r.2 := by
  unfold allocBlockForInode
  refine (allocBlock_moves k s).bind fun r h1 => ?_
  refine Post.ite (fun _ => ?_) fun _ => Post.pure h1
  exact Post.pure ((h1.trans (moves_setDinode k r.2 nr _)).trans (moves_setDirty k _ nr))

theorem freeBlockFromInode_moves (s : State) (nr phyBlockNr : ℤ) :
    Post (freeBlockFromInode s nr phyBlockNr) (Moves k s) := by
  unfold freeBlockFromInode
  refine Post.ite (fun _ => Post.pure (Moves.refl s)) fun _ => ?_
  refine (freeBlock_moves k s phyBlockNr).bind fun s1 h1 => ?_
  exact Post.pure ((h1.trans (moves_setDinode k s1 nr _)).trans (moves_setDirty k _ nr))

theorem moves_indirectAllocated (s : State) (assigned : Bool) : Moves k s (indirectAllocated s assigned).2 := by
  unfold indirectAllocated
  split
  · exact Moves.refl s
  · exact (Prim.stack _ _).moves

theorem allocateDirect_moves (s : State) (nr : ℤ) (b : Fin 10) :
    Post (allocateDirect s nr b) fun r => Moves k s r.2 := by
  unfold allocateDirect
  refine Post.bind Post.trivial fun i _ => ?_
  refine Post.ite (fun _ => Post.throw) fun _ => ?_
  refine (allocBlockForInode_moves k s nr).bind fun r h1 => ?_
  exact Post.ite (fun _ => Post.pair (h1.trans (moves_setDinode k r.2 nr _))) fun _ => Post.pair h1

theorem allocateInIndirect_moves (s : State) (nr : ℤ) (b : ℕ) (indirect : Mem) (assigned : Bool) :
    Post (allocateInIndirect s nr b indirect assigned) fun r => Moves k s r.2 := by
  unfold allocateInIndirect
  refine Post.ite (fun _ => Post.throw) fun _ => ?_
  refine (allocBlockForInode_moves k s nr).bind fun r h1 => ?_
  refine Post.bind Post.trivial fun i _ => ?_
  refine Post.ite (fun _ => ?_) fun _ => ?_
  · refine (writeBlocks_moves k r.2 _ _).bind fun s2 h2 => ?_
    exact Post.pure (h1.trans h2)
  · have h2 := h1.trans (moves_indirectAllocated k r.2 assigned)
    refine Post.ite (fun _ => ?_) fun _ => Post.pure h2
    refine (freeBlockFromInode_moves k _ nr _).bind fun s3 h3 => ?_
    exact Post.pair ((h2.trans h3).trans (moves_setDinode k s3 nr _))

theorem allocateIndirect_moves (s : State) (nr : ℤ) (b : ℕ) :
    Post (allocateIndirect s nr b) fun r => Moves k s r.2 := by
  unfold allocateIndirect
  refine Post.bind Post.trivial fun i _ => ?_
  refine Post.ite (fun _ => ?_) fun _ => ?_
  · refine (allocBlockForInode_moves k s nr).bind fun r h1 => ?_
    refine Post.ite (fun _ => Post.pure h1) fun _ => ?_
    have h2 := h1.trans (moves_setDinode k r.2 nr fun d => { d with iIndirect := r.1 })
    exact (allocateInIndirect_moves k _ nr b zeroMem true).mono fun _ h3 => h2.trans h3
  · exact Post.bind Post.trivial fun indirect _ => allocateInIndirect_moves k s nr b indirect false

theorem allocateLeaf_moves (s : State) (nr : ℤ) (b : ℕ) (dindirect indirect : Mem)
    (dindirectAllocated assigned : Bool) :
    Post (allocateLeaf s nr b dindirect indirect dindirectAllocated assigned) fun r => Moves k s r.2 := by
  unfold allocateLeaf
  refine (allocBlockForInode_moves k s nr).bind fun r h1 => ?_
  refine Post.bind Post.trivial fun i _ => ?_
  refine Post.ite (fun _ => ?_) fun _ => ?_
  · refine (writeBlocks_moves k r.2 _ _).bind fun s2 h2 => ?_
    refine (writeBlocks_moves k s2 _ _).bind fun s3 h3 => ?_
    exact Post.pure ((h1.trans h2).trans h3)
  · have hrest : ∀ s2, Moves k r.2 s2 → Post (if (indirectAllocated s2 assigned).1 then do
          let s ← freeBlockFromInode (indirectAllocated s2 assigned).2 nr (s32At dindirect (4 * (b / 2048)))
          pure (r.1, s)
        else pure (r.1, (indirectAllocated s2 assigned).2)) fun r => Moves k s r.2 := by
      intro s2 h2
      have h3 := (h1.trans h2).trans (moves_indirectAllocated k s2 assigned)
      refine Post.ite (fun _ => ?_) fun _ => Post.pair h3
      refine (freeBlockFromInode_moves k _ nr _).bind fun s4 h4 => ?_
      exact Post.pair (h3.trans h4)
    cases dindirectAllocated with
    | false => exact hrest r.2 (Moves.refl _)
    | true =>
      refine (freeBlockFromInode_moves k r.2 nr _).bind fun s2 h2 => ?_
      exact hrest _ (h2.trans (moves_setDinode k s2 nr _))

theorem allocateInDindirect_moves (s : State) (nr : ℤ) (b : ℕ) (dindirect : Mem) (dindirectAllocated : Bool) :
    Post (allocateInDindirect s nr b dindirect dindirectAllocated) fun r => Moves k s r.2 := by
  unfold allocateInDindirect
  refine Post.ite (fun _ => ?_) fun _ => ?_
  · refine (allocBlockForInode_moves k s nr).bind fun r h1 => ?_
    refine Post.ite (fun _ => Post.pure h1) fun _ => ?_
    exact (allocateLeaf_moves k r.2 nr b _ zeroMem dindirectAllocated true).mono fun _ h2 => h1.trans h2
  · exact Post.bind Post.trivial fun indirect _ =>
      allocateLeaf_moves k s nr b dindirect indirect dindirectAllocated false

theorem allocateDindirect_moves (s : State) (nr : ℤ) (b : ℕ) :
    Post (allocateDindirect s nr b) fun r => Moves k s r.2 := by
  unfold allocateDindirect
  refine Post.bind Post.trivial fun i _ => ?_
  refine Post.ite (fun _ => ?_) fun _ => ?_
  · refine (allocBlockForInode_moves k s nr).bind fun r h1 => ?_
    refine Post.ite (fun _ => Post.pure h1) fun _ => ?_
    have h2 := h1.trans (moves_setDinode k r.2 nr fun d => { d with iDindirect := r.1 })
    exact (allocateInDindirect_moves k _ nr b zeroMem true).mono fun _ h3 => h2.trans h3
  · exact Post.bind Post.trivial fun dindirect _ => allocateInDindirect_moves k s nr b dindirect false

theorem allocateBlock_moves (s : State) (nr logBlockNr : ℤ) :
    Post (allocateBlock s nr logBlockNr) fun r => Moves k s r.2.2 := by
  unfold allocateBlock
  refine Post.ite (fun _ => Post.pure (Moves.refl s)) fun _ => ?_
  refine Post.bind Post.trivial fun i _ => ?_
  refine Post.bind Post.trivial fun r _ => ?_
  refine Post.ite (fun _ => Post.pure (Moves.refl s)) fun _ => ?_
  have hnew : Post (allocateNew s nr logBlockNr.toNat) fun r => Moves k s r.2 := by
    unfold allocateNew
    split
    · exact allocateDirect_moves k s nr _
    · exact Post.ite (fun _ => allocateIndirect_moves k s nr _) fun _ => allocateDindirect_moves k s nr _
  exact hnew.bind fun r h1 => Post.pure h1

theorem writeLast_moves (s : State) (nr : ℤ) (buf : Mem) (start : ℤ) (size : ℕ) (blockNr : ℤ) (blockIx total rest : ℕ) :
    Post (writeLast s nr buf start size blockNr blockIx total rest) fun r => Moves k s r.2 := by
  unfold writeLast
  refine (allocateBlock_moves k s nr _).bind fun r h1 => ?_
  refine Post.ite (fun _ => Post.pair (h1.trans (moves_setDinode k _ nr _))) fun _ => ?_
  refine (writeBlocks_moves k r.2.2 _ _).bind fun s2 h2 => ?_
  have h3 : Moves k s2 (if 0 < size then growTo s2 nr (start + size) else s2) := by
    split
    · exact moves_setDinode k s2 nr _
    · exact Moves.refl s2
  exact Post.pure (((h1.trans h2).trans h3).trans (moves_setDirty k _ nr))

theorem writeLoop_moves (nr : ℤ) (buf : Mem) (start : ℤ) (size fuel : ℕ) (s : State) (blockNr : ℤ)
    (blockIx total rest : ℕ) :
    Post (writeLoop nr buf start size fuel s blockNr blockIx total rest) fun r => Moves k s r.2 := by
  induction fuel generalizing s blockNr blockIx total rest with
  | zero => exact Post.error
  | succ fuel ih =>
    rw [writeLoop]
    refine Post.ite (fun _ => ?_) fun _ => writeLast_moves k s nr buf start size blockNr blockIx total rest
    refine (allocateBlock_moves k s nr _).bind fun r h1 => ?_
    refine Post.ite (fun _ => ?_) fun _ => ?_
    · exact Post.ite (fun _ => Post.pair (h1.trans (moves_setDinode k _ nr _))) fun _ => Post.pair h1
    · refine (writeBlocks_moves k r.2.2 _ _).bind fun s2 h2 => ?_
      exact (ih s2 _ _ _ _).mono fun _ h3 => (h1.trans h2).trans h3

theorem writeData_moves (s : State) (nr : ℤ) (buf : Mem) (start : ℤ) (size : ℕ) :
    Post (writeData s nr buf start size) fun r => Moves k s r.2 := by
  unfold writeData
  exact Post.ite (fun _ => Post.error) fun _ => writeLoop_moves k nr buf start size _ s _ _ _ _

theorem freeEntries_moves (s : State) (nr : ℤ) (block : Mem) (e : ℤ) : Post (freeEntries s nr block e) (Moves k s) := by
  unfold freeEntries
  refine Post.foldlM _ s (Moves.refl s) fun t j ht => ?_
  exact (freeBlockFromInode_moves k t nr _).mono fun _ h => ht.trans h

theorem freeDirect_moves (nr e : ℤ) (s : State) (j : Fin 10) : Post (freeDirect nr e s j) (Moves k s) := by
  unfold freeDirect
  refine Post.ite (fun _ => ?_) fun _ => Post.pure (Moves.refl s)
  refine Post.bind Post.trivial fun i _ => ?_
  refine Post.ite (fun _ => Post.pure (Moves.refl s)) fun _ => ?_
  refine (freeBlockFromInode_moves k s nr _).bind fun s1 h1 => ?_
  exact Post.pure (h1.trans (moves_setDinode k s1 nr _))

theorem freeIndirect_moves (s : State) (nr e : ℤ) : Post (freeIndirect s nr e) (Moves k s) := by
  unfold freeIndirect
  refine Post.bind Post.trivial fun i _ => ?_
  refine Post.ite (fun _ => ?_) fun _ => Post.pure (Moves.refl s)
  refine Post.ite (fun _ => Post.throw) fun _ => ?_
  refine Post.bind Post.trivial fun block _ => ?_
  refine (freeEntries_moves k s nr block e).bind fun s1 h1 => ?_
  refine (freeBlockFromInode_moves k s1 nr _).bind fun s2 h2 => ?_
  exact Post.pure ((h1.trans h2).trans (moves_setDinode k s2 nr _))

theorem freeSecond_moves (nr : ℤ) (block : Mem) (e : ℤ) (s : State) (j : ℕ) :
    Post (freeSecond nr block e s j) (Moves k s) := by
  unfold freeSecond
  refine Post.ite (fun _ => Post.pure (Moves.refl s)) fun _ => ?_
  refine Post.bind Post.trivial fun indirectBlock _ => ?_
  refine (freeEntries_moves k s nr indirectBlock _).bind fun s1 h1 => ?_
  exact (freeBlockFromInode_moves k s1 nr _).mono fun _ h2 => h1.trans h2

theorem freeDindirect_moves (s : State) (nr e : ℤ) : Post (freeDindirect s nr e) (Moves k s) := by
  unfold freeDindirect
  refine Post.ite (fun _ => ?_) fun _ => Post.pure (Moves.refl s)
  refine Post.bind Post.trivial fun i _ => ?_
  refine Post.bind Post.trivial fun block _ => ?_
  have hloop : Post ((List.range 2048).foldlM (freeSecond nr block e) s) (Moves k s) :=
    Post.foldlM _ s (Moves.refl s) fun t j ht => (freeSecond_moves k nr block e t j).mono fun _ h => ht.trans h
  refine hloop.bind fun s1 h1 => ?_
  refine (freeBlockFromInode_moves k s1 nr _).bind fun s2 h2 => ?_
  exact Post.pure ((h1.trans h2).trans (moves_setDinode k s2 nr _))

theorem freeBlocks_moves (s : State) (nr : ℤ) : Post (freeBlocks s nr) (Moves k s) := by
  unfold freeBlocks
  refine Post.bind Post.trivial fun i _ => ?_
  have hdirect : ∀ e, Post ((List.finRange 10).foldlM (freeDirect nr e) s) (Moves k s) := fun e =>
    Post.foldlM _ s (Moves.refl s) fun t j ht => (freeDirect_moves k nr e t j).mono fun _ h => ht.trans h
  refine (hdirect _).bind fun s1 h1 => ?_
  refine (freeIndirect_moves k s1 nr _).bind fun s2 h2 => ?_
  refine (freeDindirect_moves k s2 nr _).bind fun s3 h3 => ?_
  exact Post.pure ((((h1.trans h2).trans h3).trans (moves_setDinode k s3 nr _)).trans (moves_setDirty k _ nr))

theorem writeDir_moves (s : State) (nr : ℤ) (buf : List UInt8) (start : ℤ) :
    Post (writeDir s nr buf start) fun r => Moves k s r.2 := by
  unfold writeDir
  refine Post.bind Post.trivial fun i _ => ?_
  refine (writeData_moves k s nr _ start _).bind fun r h1 => ?_
  refine Post.ite (fun _ => ?_) fun _ => Post.pure h1
  exact Post.bind Post.trivial fun i' _ => Post.pure (h1.trans (Prim.fails _ _).moves)

theorem addDirent_moves (s : State) (dir : ℤ) (name : List UInt8) (inodeNr : ℤ) :
    Post (addDirent s dir name inodeNr) fun r => Moves k s r.2 := by
  have hwrite : ∀ len offset, Post (writeDirent s dir name len inodeNr offset) fun r => Moves k s r.2 := by
    intro len offset
    unfold writeDirent
    refine Post.ite (fun _ => Post.pure (Moves.refl s)) fun _ => ?_
    refine Post.ite (fun _ => Post.throw) fun _ => ?_
    exact Post.ite (fun _ => Post.throw) fun _ => writeDir_moves k s dir _ _
  unfold addDirent
  refine Post.bind Post.trivial fun r _ => ?_
  obtain ⟨found, offset⟩ := r
  cases found with
  | none =>
    refine Post.bind Post.trivial fun i _ => ?_
    exact Post.ite (fun _ => Post.throw) fun _ => hwrite _ _
  | some again =>
    cases again with
    | false => exact Post.pure (Moves.refl s)
    | true => exact hwrite _ _


/-! ## Functions that take and give back references, and the commands -/

theorem getInode_moves (s : State) (nr : ℤ) : Post (getInode s nr) (Moves true s) := fun _ h => (Prim.getInode h).moves

theorem putInode_moves (s : State) (nr : ℤ) : Post (putInode s nr) (Moves true s) := fun _ h => (Prim.putInode h).moves

theorem removeDirent_moves (s : State) (dir : ℤ) (name : List UInt8) :
    Post (removeDirent s dir name) fun r => Moves true s r.2 := by
  have hallowed : ∀ nr, Post (removeDirentAllowed s nr) fun r => Moves true s r.2 := by
    intro nr
    unfold removeDirentAllowed
    refine (getInode_moves s nr).bind fun s1 h1 => ?_
    refine Post.bind Post.trivial fun i _ => ?_
    have hput : ∀ ret : ℤ, Post (do let s ← putInode s1 nr; return (ret, s)) fun r => Moves true s r.2 := fun ret =>
      (putInode_moves s1 nr).bind fun s2 h2 => Post.pair (h1.trans h2)
    refine Post.ite (fun _ => ?_) fun _ => ?_
    · exact Post.bind Post.trivial fun ret _ => hput ret
    · refine Post.bind Post.trivial fun r _ => ?_
      exact Post.bind Post.trivial fun ret _ => hput ret
  unfold removeDirent
  refine Post.ite (fun _ => Post.pair (Moves.refl s)) fun _ => ?_
  refine Post.bind Post.trivial fun r _ => ?_
  obtain ⟨found, offset⟩ := r
  cases found with
  | none => exact Post.pair (Moves.refl s)
  | some e =>
    refine (hallowed e.dInodeNr).bind fun r1 h1 => ?_
    refine Post.ite (fun _ => Post.pair h1) fun _ => ?_
    refine (writeDir_moves true r1.2 dir _ offset).bind fun r2 h2 => ?_
    exact Post.ite (fun _ => Post.pair (h1.trans h2)) fun _ => Post.pair (h1.trans h2)

theorem createEmptyDir_moves (s : State) (pInodeNr cdir : ℤ) :
    Post (createEmptyDir s pInodeNr cdir) fun r => Moves true s r.2 := by
  unfold createEmptyDir
  refine Post.bind Post.trivial fun i _ => ?_
  refine Post.ite (fun _ => Post.throw) fun _ => ?_
  refine (addDirent_moves true s cdir dot cdir).bind fun r1 h1 => ?_
  refine Post.ite (fun _ => Post.pair h1) fun _ => ?_
  refine (addDirent_moves true r1.2 cdir dotdot pInodeNr).bind fun r2 h2 => ?_
  refine Post.ite (fun _ => ?_) fun _ => Post.pair (h1.trans h2)
  exact (removeDirent_moves r2.2 cdir dot).bind fun r3 h3 => Post.pair ((h1.trans h2).trans h3)

theorem removeInode_moves (s : State) (nr : ℤ) : Post (removeInode s nr) (Moves true s) := by
  unfold removeInode
  refine (freeBlocks_moves true s nr).bind fun s1 h1 => ?_
  refine Post.bind Post.trivial fun i _ => ?_
  refine Post.ite (fun _ => Post.throw) fun _ => ?_
  have h2 := h1.trans ((moves_setDinode true s1 nr fun _ => Dinode.zero).trans (moves_setDirty true _ nr))
  refine (putInodeFreemap_moves true _ nr).bind fun s3 h3 => ?_
  refine (syncInode_moves true s3 nr).bind fun s4 h4 => ?_
  exact (putInode_moves s4 nr).mono fun _ h5 => ((h2.trans h3).trans h4).trans h5

theorem linkInode_moves (s : State) (d : Option ℤ) (type : ℤ) (name : List UInt8) (nr : ℤ) :
    Post (linkInode s d type name nr) fun r => Moves true s r.2 := by
  have hput : ∀ t, Moves true s t →
      Post (do let s ← syncInode t nr; let s ← putInode s nr; return ((0 : ℤ), s)) fun r => Moves true s r.2 := by
    intro t ht
    refine (syncInode_moves true t nr).bind fun s1 h1 => ?_
    exact (putInode_moves s1 nr).bind fun s2 h2 => Post.pair ((ht.trans h1).trans h2)
  have hdrop : ∀ (ret : ℤ) t, Moves true s t → Post (do let s ← removeInode t nr; return (ret, s)) fun r =>
    Moves true s r.2 :=
    fun ret t ht => (removeInode_moves t nr).bind fun s1 h1 => Post.pair (ht.trans h1)
  unfold linkInode
  refine Post.ite_bind (fun _ => createEmptyDir_moves s _ nr) (fun _ => Post.pure (Moves.refl s)) fun r hr => ?_
  refine Post.ite (fun _ => hdrop r.1 r.2 hr) fun _ => ?_
  cases d with
  | none => exact hput r.2 hr
  | some d =>
    refine (addDirent_moves true r.2 d name nr).bind fun r1 h1 => ?_
    refine Post.ite (fun _ => hdrop r1.1 r1.2 (hr.trans h1)) fun _ => ?_
    refine (syncInode_moves true r1.2 d).bind fun s2 h2 => ?_
    exact hput s2 ((hr.trans h1).trans h2)

theorem createInode_moves (s : State) (type : ℤ) : Post (createInode s type) fun r => Moves true s r.2.2 := by
  unfold createInode
  refine (getInodeFreemap_moves true s).bind fun r h1 => ?_
  refine Post.ite (fun _ => Post.pure h1) fun _ => ?_
  refine Post.ite (fun _ => ?_) fun _ => ?_
  · exact (putInodeFreemap_moves true r.2 r.1).bind fun s2 h2 => Post.pure (h1.trans h2)
  · refine (getInode_moves r.2 r.1).bind fun s2 h2 => ?_
    exact Post.pure ((h1.trans h2).trans ((moves_setDinode true s2 r.1 _).trans (moves_setDirty true _ r.1)))

theorem createFileOrDir_moves (s : State) (d : Option ℤ) (type : ℤ) (name : List UInt8) :
    Post (createFileOrDir s d type name) fun r => Moves true s r.2 := by
  have hrest : ∀ inodeNr : ℤ, Post (if 0 ≤ inodeNr then pure (-EEXIST, s) else createInode s type >>= fun r =>
      if r.1 < 0 then pure (r.1, r.2.2) else linkInode r.2.2 d type name r.2.1) fun r => Moves true s r.2 := by
    intro inodeNr
    refine Post.ite (fun _ => Post.pair (Moves.refl s)) fun _ => ?_
    refine (createInode_moves s type).bind fun r h1 => ?_
    refine Post.ite (fun _ => Post.pure h1) fun _ => ?_
    exact (linkInode_moves r.2.2 d type name r.2.1).mono fun _ h2 => h1.trans h2
  unfold createFileOrDir
  cases d with
  | none => exact hrest (-ENOENT)
  | some d => exact Post.bind Post.trivial fun inodeNr _ => hrest inodeNr

theorem pwdLoop_moves (fuel : ℕ) (s : State) (nr : ℤ) : Post (pwdLoop fuel s nr) fun r => Moves true s r.2 := by
  induction fuel generalizing s nr with
  | zero => exact Post.error
  | succ fuel ih =>
    rw [pwdLoop]
    refine Post.bind Post.trivial fun p _ => ?_
    refine Post.ite (fun _ => Post.throw) fun _ => ?_
    refine Post.ite (fun _ => Post.pair (Prim.print s _).moves) fun _ => ?_
    refine (getInode_moves s p).bind fun s1 h1 => ?_
    refine Post.bind Post.trivial fun d _ => ?_
    cases d with
    | none => exact Post.throw
    | some d =>
      refine (ih s1 p).bind fun r h2 => ?_
      refine (putInode_moves r.2 p).bind fun s3 h3 => ?_
      exact Post.pair (((h1.trans h2).trans h3).trans (Prim.print s3 _).moves)

theorem lsLoop_moves {sub : State → ℤ → Except Stop State}
    (hsub : ∀ s nr, Post (sub s nr) (Moves true s)) (recursive : Bool) (nr : ℤ) (fuel : ℕ) (s : State) (offset : ℤ) :
    Post (lsLoop sub recursive nr fuel s offset) (Moves true s) := by
  induction fuel generalizing s offset with
  | zero => exact Post.error
  | succ fuel ih =>
    rw [lsLoop]
    refine Post.bind Post.trivial fun i _ => ?_
    refine Post.bind Post.trivial fun r _ => ?_
    cases r with
    | none => exact Post.pure (Moves.refl s)
    | some r =>
      obtain ⟨e, next⟩ := r
      refine Post.ite (fun _ => ih s next) fun _ => ?_
      refine (getInode_moves s e.dInodeNr).bind fun s1 h1 => ?_
      refine Post.bind Post.trivial fun child _ => ?_
      have h2 := h1.trans (Prim.print (k := true) s1 (.entry e.str (child.dinode.iType = iDir))).moves
      have hput : ∀ t, Moves true s t → Post (do let s ← putInode t e.dInodeNr; lsLoop sub recursive nr fuel s next)
          (Moves true s) := fun t ht =>
        (putInode_moves t _).bind fun s4 h4 => (ih s4 next).mono fun _ h5 => (ht.trans h4).trans h5
      refine Post.ite (fun _ => ?_) fun _ => hput _ h2
      exact (hsub _ _).bind fun s3 h3 => hput s3 (h2.trans h3)

theorem ls_moves (s : State) (nr : ℤ) (recursive : Bool) : Post (ls s nr recursive) (Moves true s) := by
  have hdepth : ∀ depth s nr, Post (lsDepth recursive depth s nr) (Moves true s) := by
    intro depth
    induction depth with
    | zero => exact fun _ _ => Post.error
    | succ depth ih =>
      intro s nr
      rw [lsDepth]
      exact Post.bind Post.trivial fun i _ => lsLoop_moves ih recursive nr _ s 0
  exact hdepth _ s nr

theorem getFileInode_moves (s : State) (dir : ℤ) (name : List UInt8) :
    Post (getFileInode s dir name) fun r => Moves true s r.2.2 := by
  unfold getFileInode
  refine Post.bind Post.trivial fun nr _ => ?_
  refine Post.ite (fun _ => Post.pure (Moves.refl s)) fun _ => ?_
  refine (getInode_moves s nr).bind fun s1 h1 => ?_
  refine Post.bind Post.trivial fun i _ => ?_
  refine Post.ite (fun _ => ?_) fun _ => Post.pure h1
  exact (putInode_moves s1 nr).bind fun s2 h2 => Post.pure (h1.trans h2)

theorem cmdLs_moves (s : State) (name : List UInt8) (recursive : Bool) :
    Post (cmdLs s name recursive) fun r => Moves true s r.2 := by
  unfold cmdLs
  refine Post.bind Post.trivial fun nr _ => ?_
  refine Post.ite (fun _ => Post.pair (Moves.refl s)) fun _ => ?_
  refine (getInode_moves s nr).bind fun s1 h1 => ?_
  refine Post.bind Post.trivial fun i _ => ?_
  refine Post.ite (fun _ => ?_) fun _ => Post.pair h1
  refine (ls_moves s1 nr recursive).bind fun s2 h2 => ?_
  exact (putInode_moves s2 nr).bind fun s3 h3 => Post.pair ((h1.trans h2).trans h3)

theorem cmdCd_moves (s : State) (name : List UInt8) : Post (cmdCd s name) fun r => Moves true s r.2 := by
  unfold cmdCd
  refine Post.bind Post.trivial fun nr _ => ?_
  refine Post.ite (fun _ => Post.pair (Moves.refl s)) fun _ => ?_
  refine (getInode_moves s nr).bind fun s1 h1 => ?_
  refine Post.bind Post.trivial fun i _ => ?_
  refine Post.ite (fun _ => ?_) fun _ => ?_
  · exact (putInode_moves s1 nr).bind fun s2 h2 => Post.pair (h1.trans h2)
  · refine (putInode_moves s1 s1.curDir).bind fun s2 h2 => ?_
    exact Post.pair ((h1.trans h2).trans (Prim.curDir s2 nr).moves)

theorem cmdRm_moves (s : State) (name : List UInt8) : Post (cmdRm s name) fun r => Moves true s r.2 := by
  unfold cmdRm
  refine (removeDirent_moves s s.curDir name).bind fun r h1 => ?_
  refine Post.ite (fun _ => Post.pair h1) fun _ => ?_
  refine (getInode_moves r.2 r.1).bind fun s2 h2 => ?_
  refine (removeInode_moves s2 r.1).bind fun s3 h3 => ?_
  exact (syncInode_moves true s3 s3.curDir).bind fun s4 h4 => Post.pair (((h1.trans h2).trans h3).trans h4)

theorem cmdStat_moves (s : State) (name : List UInt8) : Post (cmdStat s name) fun r => Moves true s r.2 := by
  unfold cmdStat
  refine Post.bind Post.trivial fun nr _ => ?_
  refine Post.ite (fun _ => Post.pair (Moves.refl s)) fun _ => ?_
  refine (getInode_moves s nr).bind fun s1 h1 => ?_
  refine Post.bind Post.trivial fun i _ => ?_
  refine (putInode_moves _ nr).bind fun s3 h3 => ?_
  exact Post.pair ((h1.trans (Prim.print s1 _).moves).trans h3)

theorem cmdRead_moves (s : State) (name : List UInt8) (offset : Int64) (size : UInt64) :
    Post (cmdRead s name offset size) fun r => Moves true s r.2 := by
  unfold cmdRead
  refine Post.ite (fun _ => Post.pair (Moves.refl s)) fun _ => ?_
  refine (getFileInode_moves s s.curDir name).bind fun r h1 => ?_
  refine Post.ite (fun _ => Post.pair h1) fun _ => ?_
  refine Post.bind Post.trivial fun i _ => ?_
  have hput : ∀ (ret : ℤ) t, Moves true r.2.2 t → Post (do let s ← putInode t r.2.1; return (ret, s))
      fun r => Moves true s r.2 := fun ret t ht =>
    (putInode_moves t _).bind fun s2 h2 => Post.pair ((h1.trans ht).trans h2)
  refine Post.ite (fun _ => hput _ _ (Moves.refl _)) fun _ => ?_
  refine Post.ite (fun _ => hput _ _ (Moves.refl _)) fun _ => ?_
  refine Post.bind Post.trivial fun r1 _ => hput _ _ ?_
  split_ifs
  · exact (Prim.print _ _).moves
  · exact Moves.refl _

theorem cmdWrite_moves (s : State) (name : List UInt8) (offset : Int64) (buf : List UInt8) :
    Post (cmdWrite s name offset buf) fun r => Moves true s r.2 := by
  unfold cmdWrite writeFile
  refine Post.ite (fun _ => Post.pair (Moves.refl s)) fun _ => ?_
  refine (getFileInode_moves s s.curDir name).bind fun r h1 => ?_
  refine Post.ite (fun _ => Post.pair h1) fun _ => ?_
  refine (writeData_moves true r.2.2 r.2.1 _ _ _).bind fun r1 h2 => ?_
  refine (syncInode_moves true r1.2 r.2.1).bind fun s2 h3 => ?_
  exact (putInode_moves s2 _).bind fun s3 h4 => Post.pair (((h1.trans h2).trans h3).trans h4)

/-- every command is a sequence of elementary changes -/
theorem exec_moves (s : State) (c : Cmd) : Post (exec s c) fun r => Moves true s r.2 := by
  cases c with
  | create name => exact createFileOrDir_moves s (some s.curDir) iFile name.chars
  | mkdir name => exact createFileOrDir_moves s (some s.curDir) iDir name.chars
  | rm name => exact cmdRm_moves s _
  | write name offset data => exact cmdWrite_moves s _ _ _
  | read name offset size => exact cmdRead_moves s _ _ _
  | cd name => exact cmdCd_moves s _
  | ls name => exact cmdLs_moves s _ _
  | lsr name => exact cmdLs_moves s _ _
  | stat name => exact cmdStat_moves s _
  | pwd =>
    unfold exec cmdPwd pwd
    refine Post.bind (P := Moves true s) ?_ fun s1 h1 => Post.pair h1
    exact (pwdLoop_moves _ s s.curDir).bind fun r h1 => Post.pure h1
  | bad => exact Post.pair (Moves.refl s)

/-- **What every change keeps holds along every run.** -/
theorem run_inv {I : State → Prop} {good : State → Cmd → Bool} (hI : ∀ s t, Prim true s t → I s → I t)
    (hrun : Run step good s t) (hs : I s) : I t := by
  refine hrun.inv I (fun s c s' hs _ hstep => ?_) hs
  have hpost : Post (step s c) (Moves true s) := (exec_moves s c).bind fun r hr => Post.pure hr
  exact (hpost s' hstep).inv hI hs

end OsLab.Testfs
