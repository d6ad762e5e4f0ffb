/-
The upper half of the file system (`fs/read_write.c`, `dir.c`, `file.c`, `mktestfs.c`, the start of `testfs.c`).

A block number of a file goes through a `long` to an `int` parameter, the offset of a directory entry through an `int`:
both conversions are `toInt32`. In `testfs_write_data` the length is `(int)size - total_written_size`, an unsigned
difference: `size` modulo 2^32 bytes are written. The counters of `testfs_read_data` are unsigned too, and a read of
2^32 bytes or more never ends.

Where the source goes on with memory it has not set (a directory entry that the end of the directory cuts off, an offset
in front of a buffer) the model stops with `crash`. The loops over a directory all go through `testfs_next_dirent`;
`scanDir` is that loop, its body a parameter. A command is given with its arguments already converted from strings.
-/
import Mathlib.Tactic
import OsLab.Lib.Text
import OsLab.Testfs.Disk

namespace OsLab.Testfs

open OsLab.Lib State

/-! ## common.c -/

/-- the value is that of `strtoll`, which stays in the range of `off_t`; text behind the number is an error -/
def strToOffset (str : List UInt8) : Except ℤ Int64 :=
  match scanInt str with
  | none => if str = [] then .ok 0 else .error (-EINVAL)
  | some (v, rest) => if rest = [] then .ok (Int64.ofInt (max (-2 ^ 63) (min (2 ^ 63 - 1) v))) else .error (-EINVAL)

/-- the value is that of `strtoull`: it stays below 2^64, and a minus sign negates it modulo 2^64 -/
def strToSize (str : List UInt8) : Except ℤ UInt64 :=
  match scanInt str with
  | none => if str = [] then .ok 0 else .error (-EINVAL)
  | some (v, rest) =>
    if rest = [] then .ok (UInt64.ofInt (if 2 ^ 64 ≤ v.natAbs then -1 else v)) else .error (-EINVAL)

/-! ## read_write.c -/

def maxBlockNr : ℕ := 10 + 2048 + 2048 * 2048

/-- the physical block of logical block `b`, 0 if there is none -/
def physBlock (s : State) (d : Dinode) (b : ℕ) : Except Stop ℤ :=
  if h : b < 10 then .ok (d.iBlockNr ⟨b, h⟩)
  else if b - 10 < 2048 then do
    if 0 < d.iIndirect then
      let block ← readBlocks s d.iIndirect
      return s32At block (4 * (b - 10))
    else return 0
  else do
    let b := b - (10 + 2048)
    if 0 < d.iDindirect then
      let block ← readBlocks s d.iDindirect
      let indirBlockNr := s32At block (4 * (b / 2048))
      if 0 < indirBlockNr then
        let block ← readBlocks s indirBlockNr
        return s32At block (4 * (b % 2048))
      else return 0
    else return 0

/-- returns the physical block number, 0 or an error, and what is in `block` -/
def readBlock (s : State) (d : Dinode) (logBlockNr : ℤ) : Except Stop (ℤ × Mem) := do
  if logBlockNr < 0 then throw .abort
  else if maxBlockNr ≤ logBlockNr then return (-EFBIG, zeroMem)
  else
    let phyBlockNr ← physBlock s d logBlockNr.toNat
    if 0 < phyBlockNr then
      let block ← readBlocks s phyBlockNr
      return (phyBlockNr, block)
    else return (phyBlockNr, zeroMem)

/-- `n` bytes of a block -/
def slice (block : Mem) (ix n : ℕ) : List UInt8 := (List.range n).map fun i => block (ix + i)

/-- the loop of `testfs_read_data`; every turn copies at least one byte, so `size` bounds the turns -/
def readLoop (s : State) (d : Dinode) (start : ℤ) (size : ℕ) : ℕ → ℕ → List UInt8 → Except Stop (ℤ × List UInt8)
  | 0, _, _ => .error .hang
  | fuel + 1, total, buf => do
    if total < size then
      let blockNr := (start + total) / 8192
      let blockIx := ((start + total) % 8192).toNat
      let (ret, block) ← readBlock s d (toInt32 blockNr)
      if ret < 0 then return (ret, buf)
      else
        let current := min (size - total) (8192 - blockIx)
        readLoop s d start size fuel (total + current) (buf ++ slice block blockIx current)
    else return (toInt32 total, buf)

/-- returns the number of bytes read or an error, and the bytes copied to `buf` -/
def readData (s : State) (d : Dinode) (start : ℤ) (size : ℕ) : Except Stop (ℤ × List UInt8) := do
  if start < 0 ∨ d.iSize < start ∨ 2 ^ 63 ≤ size then throw .crash
  else
    let size := if d.iSize < start + size then (d.iSize - start).toNat else size
    let blockIx := (start % 8192).toNat
    if 8192 < blockIx + size then
      if 2 ^ 32 ≤ size then throw .hang
      else readLoop s d start size (size + 1) 0 []
    else
      let (ret, block) ← readBlock s d (toInt32 (start / 8192))
      if ret < 0 then return (ret, [])
      else return ((size : ℤ), slice block blockIx size)

/-- reads the local `indirect_allocated` before anything was assigned to it -/
def readUninit (s : State) : ℤ × State := (s.stack 0, { s with stack := fun i => s.stack (i + 1) })

/-- `indirect_allocated` on the path where it was assigned 1 or not at all -/
def indirectAllocated (s : State) (assigned : Bool) : Bool × State :=
  if assigned then (true, s)
  else
    let (v, s) := readUninit s
    (v ≠ 0, s)

/-- the branch of `testfs_allocate_block` for a direct block -/
def allocateDirect (s : State) (nr : ℤ) (b : Fin 10) : Except Stop (ℤ × State) := do
  let i ← s.deref nr
  if i.dinode.iBlockNr b ≠ 0 then throw .abort
  else
    let (phyBlockNr, s) ← allocBlockForInode s nr
    if 0 ≤ phyBlockNr then
      return (phyBlockNr, s.setDinode nr fun d => { d with iBlockNr := Function.update d.iBlockNr b phyBlockNr })
    else return (phyBlockNr, s)

/-- the branch for entry `b` of the indirect block: the part after the indirect block was obtained -/
def allocateInIndirect (s : State) (nr : ℤ) (b : ℕ) (indirect : Mem) (assigned : Bool) : Except Stop (ℤ × State) := do
  if s32At indirect (4 * b) ≠ 0 then throw .abort
  else
    let (phyBlockNr, s) ← allocBlockForInode s nr
    let i ← s.deref nr
    if 0 ≤ phyBlockNr then
      let s ← writeBlocks s (put32 indirect (4 * b) phyBlockNr) i.dinode.iIndirect
      return (phyBlockNr, s)
    else
      let (allocated, s) := indirectAllocated s assigned
      if allocated then
        let s ← freeBlockFromInode s nr i.dinode.iIndirect
        return (phyBlockNr, s.setDinode nr fun d => { d with iIndirect := 0 })
      else return (phyBlockNr, s)

def allocateIndirect (s : State) (nr : ℤ) (b : ℕ) : Except Stop (ℤ × State) := do
  let i ← s.deref nr
  if i.dinode.iIndirect = 0 then
    let (phyBlockNr, s) ← allocBlockForInode s nr
    if phyBlockNr < 0 then return (phyBlockNr, s)
    else
      let s := s.setDinode nr fun d => { d with iIndirect := phyBlockNr }
      allocateInIndirect s nr b zeroMem true
  else
    let indirect ← readBlocks s i.dinode.iIndirect
    allocateInIndirect s nr b indirect false

/-- the branch for double indirect blocks: the part after the second-level block was obtained -/
def allocateLeaf (s : State) (nr : ℤ) (b : ℕ) (dindirect indirect : Mem) (dindirectAllocated assigned : Bool) :
    Except Stop (ℤ × State) := do
  let (phyBlockNr, s) ← allocBlockForInode s nr
  let i ← s.deref nr
  if 0 ≤ phyBlockNr then
    let s ← writeBlocks s dindirect i.dinode.iDindirect
    let s ← writeBlocks s (put32 indirect (4 * (b % 2048)) phyBlockNr) (s32At dindirect (4 * (b / 2048)))
    return (phyBlockNr, s)
  else
    let s ← if dindirectAllocated then do
        let s ← freeBlockFromInode s nr i.dinode.iDindirect
        pure (s.setDinode nr fun d => { d with iDindirect := 0 })
      else pure s
    let (allocated, s) := indirectAllocated s assigned
    if allocated then
      let s ← freeBlockFromInode s nr (s32At dindirect (4 * (b / 2048)))
      return (phyBlockNr, s)
    else return (phyBlockNr, s)

/-- the branch for double indirect blocks: the part after the double indirect block was obtained -/
def allocateInDindirect (s : State) (nr : ℤ) (b : ℕ) (dindirect : Mem) (dindirectAllocated : Bool) :
    Except Stop (ℤ × State) := do
  if s32At dindirect (4 * (b / 2048)) = 0 then
    let (phyBlockNr, s) ← allocBlockForInode s nr
    if phyBlockNr < 0 then return (phyBlockNr, s)
    else allocateLeaf s nr b (put32 dindirect (4 * (b / 2048)) phyBlockNr) zeroMem dindirectAllocated true
  else
    let indirect ← readBlocks s (s32At dindirect (4 * (b / 2048)))
    allocateLeaf s nr b dindirect indirect dindirectAllocated false

def allocateDindirect (s : State) (nr : ℤ) (b : ℕ) : Except Stop (ℤ × State) := do
  let i ← s.deref nr
  if i.dinode.iDindirect = 0 then
    let (phyBlockNr, s) ← allocBlockForInode s nr
    if phyBlockNr < 0 then return (phyBlockNr, s)
    else
      let s := s.setDinode nr fun d => { d with iDindirect := phyBlockNr }
      allocateInDindirect s nr b zeroMem true
  else
    let dindirect ← readBlocks s i.dinode.iDindirect
    allocateInDindirect s nr b dindirect false

/-- the three branches of `testfs_allocate_block` for a block that is not there -/
def allocateNew (s : State) (nr : ℤ) (b : ℕ) : Except Stop (ℤ × State) :=
  if h : b < 10 then allocateDirect s nr ⟨b, h⟩
  else if b - 10 < 2048 then allocateIndirect s nr (b - 10)
  else allocateDindirect s nr (b - (10 + 2048))

/-- returns the physical block number or an error, and what is in `block` -/
def allocateBlock (s : State) (nr : ℤ) (logBlockNr : ℤ) : Except Stop (ℤ × Mem × State) := do
  if maxBlockNr ≤ logBlockNr then return (-EFBIG, zeroMem, s)
  else
    let i ← s.deref nr
    let (phyBlockNr, block) ← readBlock s i.dinode logBlockNr
    if phyBlockNr ≠ 0 then return (phyBlockNr, block, s)
    else
      let (phyBlockNr, s) ← allocateNew s nr logBlockNr.toNat
      return (phyBlockNr, block, s)

/-- the bytes of `buf`, which is followed by a 0 -/
def bytes (buf : List UInt8) : Mem := fun i => buf.getD i 0

/-- `in->in.i_size = MAX(in->in.i_size, end)` -/
def growTo (s : State) (nr : ℤ) (fin : ℤ) : State := s.setDinode nr fun d => { d with iSize := max d.iSize fin }

/-- `testfs_write_data` after its loop -/
def writeLast (s : State) (nr : ℤ) (buf : Mem) (start : ℤ) (size : ℕ) (blockNr : ℤ) (blockIx total rest : ℕ) :
    Except Stop (ℤ × State) := do
  let (ret, block, s) ← allocateBlock s nr (toInt32 blockNr)
  if ret < 0 then return (ret, growTo s nr (start + total))
  else
    let s ← writeBlocks s (copy block blockIx buf total rest) ret
    let s := if 0 < size then growTo s nr (start + size) else s
    return (toInt32 size, s.setDirty nr)

/-- the loop of `testfs_write_data` and what follows it; `rest` is `(int)size - total_written_size`, which bounds the
turns: each one but the last writes to the end of a block -/
def writeLoop (nr : ℤ) (buf : Mem) (start : ℤ) (size : ℕ) : ℕ → State → ℤ → ℕ → ℕ → ℕ → Except Stop (ℤ × State)
  | 0, _, _, _, _, _ => .error .hang
  | fuel + 1, s, blockNr, blockIx, total, rest =>
    if 8192 < blockIx + rest then do
      let (ret, block, s) ← allocateBlock s nr (toInt32 blockNr)
      if ret < 0 then
        if ret = -EFBIG then return (ret, growTo s nr (start + total))
        else return (ret, s)
      else
        let s ← writeBlocks s (copy block blockIx buf total (8192 - blockIx)) ret
        writeLoop nr buf start size fuel s (blockNr + 1) 0 (total + (8192 - blockIx)) (rest - (8192 - blockIx))
    else writeLast s nr buf start size blockNr blockIx total rest

def writeData (s : State) (nr : ℤ) (buf : Mem) (start : ℤ) (size : ℕ) : Except Stop (ℤ × State) :=
  -- a negative offset fails an assertion of `testfs_allocate_block`, or it copies in front of the block
  if start < 0 ∨ 2 ^ 63 ≤ start + size then .error .crash
  else
    let rest := size % 2 ^ 32
    writeLoop nr buf start size (rest + 1) s (start / 8192) (start % 8192).toNat 0 rest

/-- the loop over the direct blocks in `testfs_free_blocks`; `e` is the number of blocks up to the end of the file -/
def freeDirect (nr e : ℤ) (s : State) (k : Fin 10) : Except Stop State := do
  if (k : ℤ) < e then
    let i ← s.deref nr
    if i.dinode.iBlockNr k = 0 then return s
    else
      let s ← freeBlockFromInode s nr (i.dinode.iBlockNr k)
      return s.setDinode nr fun d => { d with iBlockNr := Function.update d.iBlockNr k 0 }
  else return s

/-- the loop over the entries of an indirect block below `e`; an entry 0 is passed over -/
def freeEntries (s : State) (nr : ℤ) (block : Mem) (e : ℤ) : Except Stop State :=
  (List.range (min e 2048).toNat).foldlM (fun s k => freeBlockFromInode s nr (s32At block (4 * k))) s

def freeIndirect (s : State) (nr e : ℤ) : Except Stop State := do
  let i ← s.deref nr
  if 0 < i.dinode.iIndirect then
    if e ≤ 0 then throw .abort
    else
      let block ← readBlocks s i.dinode.iIndirect
      let s ← freeEntries s nr block e
      let s ← freeBlockFromInode s nr i.dinode.iIndirect
      return s.setDinode nr fun d => { d with iIndirect := 0 }
  else return s

/-- one turn of the loop over the double indirect block `block` -/
def freeSecond (nr : ℤ) (block : Mem) (e : ℤ) (s : State) (k : ℕ) : Except Stop State := do
  if s32At block (4 * k) = 0 then return s
  else
    let indirectBlock ← readBlocks s (s32At block (4 * k))
    let s ← freeEntries s nr indirectBlock (e - k * 2048)
    freeBlockFromInode s nr (s32At block (4 * k))

def freeDindirect (s : State) (nr e : ℤ) : Except Stop State := do
  if 0 < e then
    let i ← s.deref nr
    let block ← readBlocks s i.dinode.iDindirect
    let s ← (List.range 2048).foldlM (freeSecond nr block e) s
    let s ← freeBlockFromInode s nr i.dinode.iDindirect
    return s.setDinode nr fun d => { d with iDindirect := 0 }
  else return s

def freeBlocks (s : State) (nr : ℤ) : Except Stop State := do
  let i ← s.deref nr
  let e := toInt32 ((i.dinode.iSize + 8191) / 8192)
  let s ← (List.finRange 10).foldlM (freeDirect nr e) s
  let e := toInt32 (e - 10)
  let s ← freeIndirect s nr e
  let e := toInt32 (e - 2048)
  let s ← freeDindirect s nr e
  let s := s.setDinode nr fun d => { d with iSize := 0 }
  return s.setDirty nr

/-- `testfs_remove_inode` (inode.c) -/
def removeInode (s : State) (nr : ℤ) : Except Stop State := do
  let s ← freeBlocks s nr
  let i ← s.deref nr
  if i.dinode.blockCount ≠ 0 then throw .abort
  else
    let s := (s.setDinode nr fun _ => Dinode.zero).setDirty nr
    let s ← putInodeFreemap s nr
    let s ← syncInode s nr
    putInode s nr

/-! ## dir.c -/

/-- a directory entry; `name` is what follows the structure, with its terminating 0 -/
structure Dirent where
  dNameLen : ℤ
  dInodeNr : ℤ
  name : List UInt8
deriving DecidableEq

/-- `D_NAME(d)` as a string -/
def Dirent.str (e : Dirent) : List UInt8 := e.name.takeWhile fun c => c ≠ 0

def Dirent.named (e : Dirent) (name : List UInt8) : Bool := e.str = name

def dot : List UInt8 := [46]
def dotdot : List UInt8 := [46, 46]

/-- the next entry and the offset behind it, `none` at the end of the directory -/
def nextDirent (s : State) (d : Dinode) (offset : ℤ) : Except Stop (Option (Dirent × ℤ)) := do
  if d.iType ≠ iDir then throw .abort
  else if d.iSize ≤ offset then return none
  else
    let (ret, head) ← readData s d offset 8
    if ret < 0 then return none
    else if head.length < 8 then throw .crash
    else
      let dNameLen := s32At (bytes head) 0
      if dNameLen ≤ 0 then throw .abort
      else
        let (ret, name) ← readData s d (offset + 8) dNameLen.toNat
        if ret < 0 then return none
        else if name.length < dNameLen.toNat then throw .crash
        else return some (⟨dNameLen, s32At (bytes head) 4, name⟩, offset + 8 + dNameLen)

/-- the loop over the entries of a directory: the first answer `f` gives, with the offset of the entry, or the offset at
which there is no further entry -/
def scanDir {A : Type} (s : State) (d : Dinode) (f : Dirent → Option A) : ℕ → ℤ → Except Stop (Option A × ℤ)
  | 0, _ => .error .hang
  | fuel + 1, offset => do
    match ← nextDirent s d offset with
    | none => return (none, offset)
    | some (e, next) =>
      match f e with
      | some a => return (some a, offset)
      | none => scanDir s d f fuel next

/-- every entry is at least one byte long, so the size of the directory bounds the turns -/
def scan {A : Type} (s : State) (nr : ℤ) (f : Dirent → Option A) : Except Stop (Option A × ℤ) := do
  let i ← s.deref nr
  if i.dinode.iType ≠ iDir then throw .abort
  else scanDir s i.dinode f (i.dinode.iSize.toNat + 1) 0

def dirNameToInodeNr (s : State) (dir : ℤ) (name : List UInt8) : Except Stop ℤ := do
  let (r, _) ← scan s dir fun e => if 0 ≤ e.dInodeNr ∧ e.named name then some e.dInodeNr else none
  match r with
  | some nr => return nr
  | none => return -ENOENT

def findDirent (s : State) (dir inodeNr : ℤ) : Except Stop (Option Dirent) := do
  let (r, _) ← scan s dir fun e => if e.dInodeNr = inodeNr then some e else none
  return r

/-- `testfs_write_data` on a directory; a failure is recorded -/
def writeDir (s : State) (nr : ℤ) (buf : List UInt8) (start : ℤ) : Except Stop (ℤ × State) := do
  let i ← s.deref nr
  let (ret, s) ← writeData s nr (bytes buf) start buf.length
  if ret < 0 then
    let i' ← s.deref nr
    return (ret, { s with dirFails := s.dirFails ++ [i'.dinode.iSize - i.dinode.iSize] })
  else return (ret, s)

def le32 (z : ℤ) : List UInt8 := slice (put32 zeroMem 0 z) 0 4

/-- a directory entry as it lies in memory -/
def Dirent.bytes (e : Dirent) : List UInt8 := le32 e.dNameLen ++ le32 e.dInodeNr ++ e.name

def writeDirent (s : State) (dir : ℤ) (name : List UInt8) (len inodeNr offset : ℤ) : Except Stop (ℤ × State) := do
  if len < 0 then return (-ENOMEM, s)
  else if len ≠ name.length + 1 then throw .crash
  else if inodeNr < 0 then throw .abort
  else writeDir s dir (Dirent.bytes ⟨len, inodeNr, name ++ [0]⟩) offset

/-- what the loop of `testfs_add_dirent` does with an entry: the name is there already, or its place can be used
again -/
def addHere (name : List UInt8) (len : ℤ) (e : Dirent) : Option Bool :=
  if 0 ≤ e.dInodeNr ∧ e.named name then some false
  else if 0 ≤ e.dInodeNr ∨ e.dNameLen ≠ len then none
  else some true

def addDirent (s : State) (dir : ℤ) (name : List UInt8) (inodeNr : ℤ) : Except Stop (ℤ × State) := do
  let len := toInt32 (name.length + 1)
  let (r, offset) ← scan s dir (addHere name len)
  match r with
  | some false => return (-EEXIST, s)
  | some true => writeDirent s dir name len inodeNr (toInt32 offset)
  | none =>
    let i ← s.deref dir
    if offset ≠ i.dinode.iSize then throw .abort
    else writeDirent s dir name len inodeNr (toInt32 offset)

def removeDirentAllowed (s : State) (inodeNr : ℤ) : Except Stop (ℤ × State) := do
  let s ← getInode s inodeNr
  let i ← s.deref inodeNr
  let ret ← if i.dinode.iType ≠ iDir then pure 0 else do
    let (r, _) ← scan s inodeNr fun e => if e.dInodeNr < 0 ∨ e.named dot ∨ e.named dotdot then none else some ()
    pure (if r.isSome then -ENOTEMPTY else 0)
  let s ← putInode s inodeNr
  return (ret, s)

/-- returns the inode number of the entry removed or an error -/
def removeDirent (s : State) (dir : ℤ) (name : List UInt8) : Except Stop (ℤ × State) := do
  if name = dot ∨ name = dotdot then return (-EINVAL, s)
  else
    let (r, offset) ← scan s dir fun e => if e.dInodeNr < 0 ∨ e.named name = false then none else some e
    match r with
    | none => return (-ENOENT, s)
    | some e =>
      let (ret, s) ← removeDirentAllowed s e.dInodeNr
      if ret < 0 then return (ret, s)
      else
        let (ret, s) ← writeDir s dir (Dirent.bytes { e with dInodeNr := -1 }) offset
        if 0 ≤ ret then return (e.dInodeNr, s)
        else return (ret, s)

def createEmptyDir (s : State) (pInodeNr cdir : ℤ) : Except Stop (ℤ × State) := do
  let i ← s.deref cdir
  if i.dinode.iType ≠ iDir then throw .abort
  else
    let (ret, s) ← addDirent s cdir dot cdir
    if ret < 0 then return (ret, s)
    else
      let (ret, s) ← addDirent s cdir dotdot pInodeNr
      if ret < 0 then
        let (_, s) ← removeDirent s cdir dot
        return (ret, s)
      else return (0, s)

/-- `testfs_create_file_or_dir` after the inode was made; `dir` is `none` for the root directory -/
def linkInode (s : State) (dir : Option ℤ) (type : ℤ) (name : List UInt8) (inodeNr : ℤ) : Except Stop (ℤ × State) := do
  let (ret, s) ← if type = iDir then createEmptyDir s (dir.getD inodeNr) inodeNr else pure (0, s)
  if ret < 0 then
    let s ← removeInode s inodeNr
    return (ret, s)
  else
    match dir with
    | some dir =>
      let (ret, s) ← addDirent s dir name inodeNr
      if ret < 0 then
        let s ← removeInode s inodeNr
        return (ret, s)
      else
        let s ← syncInode s dir
        let s ← syncInode s inodeNr
        let s ← putInode s inodeNr
        return (0, s)
    | none =>
      let s ← syncInode s inodeNr
      let s ← putInode s inodeNr
      return (0, s)

def createFileOrDir (s : State) (dir : Option ℤ) (type : ℤ) (name : List UInt8) : Except Stop (ℤ × State) := do
  let inodeNr ← match dir with
    | some dir => dirNameToInodeNr s dir name
    | none => pure (-ENOENT)
  if 0 ≤ inodeNr then return (-EEXIST, s)
  else
    let (ret, inodeNr, s) ← createInode s type
    if ret < 0 then return (ret, s)
    else linkInode s dir type name inodeNr

def State.print (s : State) (p : Print) : State := { s with out := s.out ++ [p] }

/-- a path without a cycle is not longer than the number of inodes -/
def pwdLoop : ℕ → State → ℤ → Except Stop (Bool × State)
  | 0, _, _ => .error .hang
  | fuel + 1, s, nr => do
    let pInodeNr ← dirNameToInodeNr s nr dotdot
    if pInodeNr < 0 then throw .abort
    else if pInodeNr = nr then return (true, s.print .root)
    else
      let s ← getInode s pInodeNr
      match ← findDirent s pInodeNr nr with
      | none => throw .abort
      | some d =>
        let (ret, s) ← pwdLoop fuel s pInodeNr
        let s ← putInode s pInodeNr
        return (false, s.print (.component ret d.str))

def pwd (s : State) (nr : ℤ) : Except Stop State := do
  let (_, s) ← pwdLoop (nrInodeBlocks * inodesPerBlock + 1) s nr
  return s

/-- the loop of `testfs_ls`; `sub` lists a subdirectory -/
def lsLoop (sub : State → ℤ → Except Stop State) (recursive : Bool) (nr : ℤ) : ℕ → State → ℤ → Except Stop State
  | 0, _, _ => .error .hang
  | fuel + 1, s, offset => do
    let i ← s.deref nr
    match ← nextDirent s i.dinode offset with
    | none => return s
    | some (e, next) =>
      if e.dInodeNr < 0 then lsLoop sub recursive nr fuel s next
      else
        let s ← getInode s e.dInodeNr
        let c ← s.deref e.dInodeNr
        let s := s.print (.entry e.str (c.dinode.iType = iDir))
        let s ← if recursive ∧ c.dinode.iType = iDir ∧ e.named dot = false ∧ e.named dotdot = false
          then sub s e.dInodeNr else pure s
        let s ← putInode s e.dInodeNr
        lsLoop sub recursive nr fuel s next

def lsDepth (recursive : Bool) : ℕ → State → ℤ → Except Stop State
  | 0, _, _ => .error .hang
  | depth + 1, s, nr => do
    let i ← s.deref nr
    lsLoop (lsDepth recursive depth) recursive nr (i.dinode.iSize.toNat + 1) s 0

def ls (s : State) (nr : ℤ) (recursive : Bool) : Except Stop State :=
  lsDepth recursive (nrInodeBlocks * inodesPerBlock + 1) s nr

/-! ## Commands -/

/-- an argument of a command: a token of the input line -/
structure Token where
  chars : List UInt8
  nonempty : chars ≠ []
  noNul : 0 ∉ chars
deriving DecidableEq

/-- a command with its arguments; `bad` is a command whose arguments are too few, too many or no numbers -/
inductive Cmd where
  | create (name : Token)
  | mkdir (name : Token)
  | rm (name : Token)
  | write (name : Token) (offset : Int64) (data : Token)
  | read (name : Token) (offset : Int64) (size : UInt64)
  | cd (name : Token)
  | ls (name : Token)
  | lsr (name : Token)
  | stat (name : Token)
  | pwd
  | bad

def cmdLs (s : State) (name : List UInt8) (recursive : Bool) : Except Stop (ℤ × State) := do
  let inodeNr ← dirNameToInodeNr s s.curDir name
  if inodeNr < 0 then return (inodeNr, s)
  else
    let s ← getInode s inodeNr
    let i ← s.deref inodeNr
    if i.dinode.iType = iDir then
      let s ← ls s inodeNr recursive
      let s ← putInode s inodeNr
      return (0, s)
    else return (-ENOTDIR, s)

def cmdCd (s : State) (name : List UInt8) : Except Stop (ℤ × State) := do
  let inodeNr ← dirNameToInodeNr s s.curDir name
  if inodeNr < 0 then return (inodeNr, s)
  else
    let s ← getInode s inodeNr
    let i ← s.deref inodeNr
    if i.dinode.iType ≠ iDir then
      let s ← putInode s inodeNr
      return (-ENOTDIR, s)
    else
      let s ← putInode s s.curDir
      return (0, { s with curDir := inodeNr })

def cmdPwd (s : State) : Except Stop (ℤ × State) := do
  let s ← pwd s s.curDir
  return (0, s)

def cmdRm (s : State) (name : List UInt8) : Except Stop (ℤ × State) := do
  let (inodeNr, s) ← removeDirent s s.curDir name
  if inodeNr < 0 then return (inodeNr, s)
  else
    let s ← getInode s inodeNr
    let s ← removeInode s inodeNr
    let s ← syncInode s s.curDir
    return (0, s)

def cmdStat (s : State) (name : List UInt8) : Except Stop (ℤ × State) := do
  let inodeNr ← dirNameToInodeNr s s.curDir name
  if inodeNr < 0 then return (inodeNr, s)
  else
    let s ← getInode s inodeNr
    let i ← s.deref inodeNr
    let s := s.print (.stat name inodeNr i.dinode.iType i.dinode.iSize i.dinode.blockCount)
    let s ← putInode s inodeNr
    return (0, s)

/-- `testfs_get_file_inode`: 0 and the inode, or an error -/
def getFileInode (s : State) (dir : ℤ) (name : List UInt8) : Except Stop (ℤ × ℤ × State) := do
  let inodeNr ← dirNameToInodeNr s dir name
  if inodeNr < 0 then return (inodeNr, 0, s)
  else
    let s ← getInode s inodeNr
    let i ← s.deref inodeNr
    if i.dinode.iType = iDir then
      let s ← putInode s inodeNr
      return (-EISDIR, 0, s)
    else return (0, inodeNr, s)

def cmdRead (s : State) (name : List UInt8) (offset : Int64) (size : UInt64) : Except Stop (ℤ × State) := do
  if offset.toInt < 0 then return (-EINVAL, s)
  else
    let (ret, nr, s) ← getFileInode s s.curDir name
    if ret < 0 then return (ret, s)
    else
      let i ← s.deref nr
      -- the sum of two `off_t`s, the second one converted from `size_t`
      if i.dinode.iSize < (offset + size.toInt64).toInt then
        let s ← putInode s nr
        return (-EINVAL, s)
      -- the sum in `malloc(size + 1)` is a `size_t`
      else if 2 ^ 63 ≤ (size + 1).toNat then
        let s ← putInode s nr
        return (-ENOMEM, s)
      else
        let (ret, buf) ← readData s i.dinode offset.toInt size.toNat
        let s := if 0 ≤ ret then s.print (.data (buf.takeWhile fun c => c ≠ 0)) else s
        let s ← putInode s nr
        return (ret, s)

/-- `cmd_write` with the length of the data -/
def writeFile (s : State) (name : List UInt8) (offset : Int64) (buf : Mem) (size : ℕ) : Except Stop (ℤ × State) := do
  if offset.toInt < 0 then return (-EINVAL, s)
  else
    let (ret, nr, s) ← getFileInode s s.curDir name
    if ret < 0 then return (ret, s)
    else
      let (ret, s) ← writeData s nr buf offset.toInt size
      let s ← syncInode s nr
      let s ← putInode s nr
      return (ret, s)

def cmdWrite (s : State) (name : List UInt8) (offset : Int64) (buf : List UInt8) : Except Stop (ℤ × State) :=
  writeFile s name offset (bytes buf) buf.length

/-- a command: what it returns and the state after it -/
def exec (s : State) : Cmd → Except Stop (ℤ × State)
  | .create name => createFileOrDir s (some s.curDir) iFile name.chars
  | .mkdir name => createFileOrDir s (some s.curDir) iDir name.chars
  | .rm name => cmdRm s name.chars
  | .write name offset data => cmdWrite s name.chars offset data.chars
  | .read name offset size => cmdRead s name.chars offset size
  | .cd name => cmdCd s name.chars
  | .ls name => cmdLs s name.chars false
  | .lsr name => cmdLs s name.chars true
  | .stat name => cmdStat s name.chars
  | .pwd => cmdPwd s
  | .bad => .ok (-EINVAL, s)

def step (s : State) (c : Cmd) : Except Stop State := do
  let (_, s) ← exec s c
  return s

/-! ## mktestfs.c -/

/-- `testfs_init_super_block`: the file system of a device -/
def initSuperBlock (dev : Dev) (stack : ℕ → ℤ) : Except Stop State := do
  if dev.nblocks < 1 then throw .exit
  else
    let sb := DsuperBlock.decode (dev.blocks 0)
    if dev.nblocks < sb.inodeFreemapStart + 1 ∨ dev.nblocks < sb.blockFreemapStart + 16 then throw .exit
    else
      return {
        sb := sb
        dev := dev
        inodeFreemap := ⟨65536, fun i => dev.blocks (sb.inodeFreemapStart + (i / 8192 : ℕ)) (i % 8192)⟩
        blockFreemap := ⟨1048576, fun i => dev.blocks (sb.blockFreemapStart + (i / 8192 : ℕ)) (i % 8192)⟩
        hash := []
        curDir := 0
        out := []
        stack := stack
        dirFails := []
        loads := [] }

/-- `testfs_close_super_block`: the device it leaves behind -/
def closeSuperBlock (s : State) : Except Stop Dev := do
  let s := writeSuperBlock s
  if s.hash ≠ [] then throw .abort
  else
    let s := s.writeMeta s.sb.inodeFreemapStart (s.inodeFreemap.blockOf 0)
    let s := (List.range 16).foldl (fun s k => s.writeMeta (s.sb.blockFreemapStart + k)
      (s.blockFreemap.blockOf (k * 65536))) s
    return s.dev

/-- the device with a super block, empty freemaps and empty inode blocks -/
def makeDev (maxFsBlocks : ℕ) : Dev where
  nblocks := 146
  blocks := fun b => if b = 0 then DsuperBlock.encode ⟨1, 2, 18, 146, 0, 0, maxFsBlocks⟩ else zeroMem
  log := []

/-- `mktestfs -s fsSizeMb` -/
def mktestfs (fsSizeMb : ℕ) (stack : ℕ → ℤ) : Except Stop Dev := do
  let s ← initSuperBlock (makeDev (fsSizeMb * 2 ^ 20 / 8192)) stack
  let (_, s) ← createFileOrDir s none iDir []
  closeSuperBlock s

/-- the sizes `mktestfs` admits -/
def validSize (fsSizeMb : ℕ) : Prop := 1 ≤ fsSizeMb ∧ fsSizeMb ≤ 8192

/-- `testfs` on a new file system, before its first command -/
def start (fsSizeMb : ℕ) (stack : ℕ → ℤ) : Except Stop State := do
  let dev ← mktestfs fsSizeMb stack
  let s ← initSuperBlock dev stack
  getInode s 0

end OsLab.Testfs
