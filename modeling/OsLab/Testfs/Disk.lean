/-
The lower half of the file system (`fs/block.c`, `bitmap.c`, `super.c`, `inode.c`).

A block is 8192 bytes; the device is an array of blocks that grows when a block past its end is written, and the blocks
in between read as zeros. A read past the end of the device is a short `fread`, which exits. An `int` is an integer,
stored as four little-endian bytes; the counters of the super block never leave the range of `u32`.

A `struct inode *` is the number of its inode: the hash table is the list of the inodes in it, the last one put in
first. A bucket of the table holds the inodes of its hash value in that order, so a search by number finds the same
inode. A pointer to an inode that is in the table no more is a crash. Memory allocations of less than 2^63 bytes
succeed.

Four components of the state are not memory of the program. `log` records the writes to the device. `stack` is what the
successive reads of the uninitialised local `indirect_allocated` find. `dirFails` records the writes to a directory's
own data that failed, each with the number of bytes by which it moved the end of the directory. `loads` records, for
every inode read into memory, the numbers of the inodes in the hash table right after.
-/
import Mathlib.Tactic
import OsLab.Lib.Run
import OsLab.Lib.Bytes

namespace OsLab.Testfs

open OsLab.Lib

/-- why the process ended: a failed assertion, `EXIT`, an undefined access, a loop or recursion without end -/
inductive Stop where
  | abort
  | exit
  | crash
  | hang
deriving DecidableEq, Repr

def ENOENT : ℤ := 2
def ENOMEM : ℤ := 12
def EEXIST : ℤ := 17
def ENOTDIR : ℤ := 20
def EISDIR : ℤ := 21
def EINVAL : ℤ := 22
def EFBIG : ℤ := 27
def ENOSPC : ℤ := 28
def ENOTEMPTY : ℤ := 39

/-! ## Data -/

/-- `log` records the numbers of the blocks written, the last one first -/
structure Dev where
  nblocks : ℤ
  blocks : ℤ → Mem
  log : List ℤ

structure Bitmap where
  nbits : ℕ
  v : ℕ → UInt8

structure DsuperBlock where
  inodeFreemapStart : ℕ
  blockFreemapStart : ℕ
  inodeBlocksStart : ℕ
  dataBlocksStart : ℕ
  usedInodeCount : ℕ
  usedBlockCount : ℕ
  maxFsBlocks : ℕ
deriving DecidableEq, Repr

/-- `i_type`: `I_NONE` is 0, `I_FILE` is 1, `I_DIR` is 2 -/
structure Dinode where
  iType : ℤ
  iBlockNr : Fin 10 → ℤ
  iIndirect : ℤ
  iDindirect : ℤ
  blockCount : ℤ
  iSize : ℤ
deriving DecidableEq

def iFile : ℤ := 1
def iDir : ℤ := 2

structure Inode where
  dinode : Dinode
  dirty : Bool
  iNr : ℤ
  iCount : ℤ
deriving DecidableEq

/-- what one call of `printf` prints -/
inductive Print where
  | root
  | component (first : Bool) (name : List UInt8)
  | entry (name : List UInt8) (dir : Bool)
  | stat (name : List UInt8) (nr type size blockCount : ℤ)
  | data (bytes : List UInt8)
deriving DecidableEq

structure State where
  sb : DsuperBlock
  dev : Dev
  inodeFreemap : Bitmap
  blockFreemap : Bitmap
  hash : List Inode
  curDir : ℤ
  out : List Print
  stack : ℕ → ℤ
  dirFails : List ℤ
  loads : List (List ℤ)

/-! ## block.c -/

def readBlocks (s : State) (start : ℤ) : Except Stop Mem :=
  if 0 ≤ start ∧ start < s.dev.nblocks then .ok (s.dev.blocks start) else .error .exit

def Dev.write (d : Dev) (start : ℤ) (block : Mem) : Dev :=
  { nblocks := max d.nblocks (start + 1), blocks := Function.update d.blocks start block, log := start :: d.log }

def writeBlocks (s : State) (block : Mem) (start : ℤ) : Except Stop State :=
  if 0 ≤ start then .ok { s with dev := s.dev.write start block } else .error .exit

def zeroBlocks (s : State) (start : ℤ) : Except Stop State := writeBlocks s zeroMem start

/-! ## bitmap.c -/

namespace Bitmap

def words (nbits : ℕ) : ℕ := (nbits + 7) / 8

def mask (offset : ℕ) : UInt8 := UInt8.ofNat (1 <<< offset)

/-- a word in which the bits from `overbits` on are marked -/
def padding (overbits : ℕ) : UInt8 := (List.range 8).foldl (fun w j => if overbits ≤ j then w ||| mask j else w) 0

def create (nbits : ℕ) : Except Stop Bitmap :=
  if nbits / 8 < words nbits then
    -- the leftover bits at the end are in use
    let ix := words nbits - 1
    let overbits := nbits - ix * 8
    if nbits / 8 = words nbits - 1 ∧ 0 < overbits ∧ overbits < 8 then
      .ok { nbits := nbits, v := Function.update (fun _ => 0) ix (padding overbits) }
    else .error .abort
  else .ok { nbits := nbits, v := fun _ => 0 }

def isset (b : Bitmap) (index : ℕ) : Bool := b.v (index / 8) &&& mask (index % 8) ≠ 0

/-- the first word from `ix` on, of the next `n`, that has a clear bit -/
def scan (v : ℕ → UInt8) : ℕ → ℕ → Option ℕ
  | 0, _ => none
  | n + 1, ix => if v ix ≠ 0xff then some ix else scan v n (ix + 1)

def alloc (b : Bitmap) : Except Stop (Option (ℕ × Bitmap)) :=
  match scan b.v (words b.nbits) 0 with
  | none => .ok none
  | some ix =>
    match (List.range 8).find? fun offset => b.v ix &&& mask offset = 0 with
    | none => .error .abort
    | some offset =>
      let index := ix * 8 + offset
      if index < b.nbits then
        .ok (some (index, { b with v := Function.update b.v ix (b.v ix ||| mask offset) }))
      else .error .abort

def mark (b : Bitmap) (index : ℕ) : Except Stop Bitmap :=
  if index < b.nbits ∧ b.isset index = false then
    .ok { b with v := Function.update b.v (index / 8) (b.v (index / 8) ||| mask (index % 8)) }
  else .error .abort

def unmark (b : Bitmap) (index : ℕ) : Except Stop Bitmap :=
  if index < b.nbits ∧ b.isset index = true then
    .ok { b with v := Function.update b.v (index / 8) (b.v (index / 8) &&& ~~~mask (index % 8)) }
  else .error .abort

def nrAllocated (b : Bitmap) : ℕ := ((List.range b.nbits).filter fun i => b.isset i).length

end Bitmap

/-! ## super.c -/

namespace DsuperBlock

def word (d : DsuperBlock) : ℕ → ℤ
  | 0 => d.inodeFreemapStart
  | 1 => d.blockFreemapStart
  | 2 => d.inodeBlocksStart
  | 3 => d.dataBlocksStart
  | 4 => d.usedInodeCount
  | _ => d.usedBlockCount

/-- the super block as it lies in block 0 -/
def encode (d : DsuperBlock) : Mem := putLE (put32s zeroMem 0 d.word 6) 24 8 d.maxFsBlocks

def decode (m : Mem) : DsuperBlock where
  inodeFreemapStart := leAt m 0 4
  blockFreemapStart := leAt m 4 4
  inodeBlocksStart := leAt m 8 4
  dataBlocksStart := leAt m 12 4
  usedInodeCount := leAt m 16 4
  usedBlockCount := leAt m 20 4
  maxFsBlocks := leAt m 24 8

end DsuperBlock

/-- a write to a block of the super block or the freemaps, which cannot fail -/
def State.writeMeta (s : State) (start : ℕ) (block : Mem) : State := { s with dev := s.dev.write start block }

def writeSuperBlock (s : State) : State := s.writeMeta 0 s.sb.encode

/-- the block of a bitmap that holds bit `nr` -/
def Bitmap.blockOf (b : Bitmap) (nr : ℕ) : Mem := fun i => b.v (nr / 65536 * 8192 + i)

def writeInodeFreemap (s : State) (inodeNr : ℕ) : State :=
  s.writeMeta (s.sb.inodeFreemapStart + inodeNr / 65536) (s.inodeFreemap.blockOf inodeNr)

def writeBlockFreemap (s : State) (blockNr : ℕ) : State :=
  s.writeMeta (s.sb.blockFreemapStart + blockNr / 65536) (s.blockFreemap.blockOf blockNr)

def getBlockFreemap (s : State) : Except Stop (ℤ × State) := do
  match ← s.blockFreemap.alloc with
  | none => return (-ENOSPC, s)
  | some (index, b) => return ((index : ℤ), writeBlockFreemap { s with blockFreemap := b } index)

def putBlockFreemap (s : State) (blockNr : ℕ) : Except Stop State := do
  let b ← s.blockFreemap.unmark blockNr
  return writeBlockFreemap { s with blockFreemap := b } blockNr

def getInodeFreemap (s : State) : Except Stop (ℤ × State) := do
  match ← s.inodeFreemap.alloc with
  | none => return (-ENOSPC, s)
  | some (index, b) =>
    let s := writeInodeFreemap { s with inodeFreemap := b } index
    return ((index : ℤ), writeSuperBlock { s with sb := { s.sb with usedInodeCount := s.sb.usedInodeCount + 1 } })

def putInodeFreemap (s : State) (inodeNr : ℤ) : Except Stop State := do
  let b ← s.inodeFreemap.unmark inodeNr.toNat
  let s := writeInodeFreemap { s with inodeFreemap := b } inodeNr.toNat
  if 0 < s.sb.usedInodeCount then
    return writeSuperBlock { s with sb := { s.sb with usedInodeCount := s.sb.usedInodeCount - 1 } }
  else throw .abort

def allocBlock (s : State) : Except Stop (ℤ × State) := do
  -- the size of the file system is limited to `max_fs_blocks`
  if s.sb.maxFsBlocks ≤ s.sb.usedBlockCount then return (-ENOSPC, s)
  else
    let (phyBlockNr, s) ← getBlockFreemap s
    if phyBlockNr < 0 then return (phyBlockNr, s)
    else
      let s := writeSuperBlock { s with sb := { s.sb with usedBlockCount := s.sb.usedBlockCount + 1 } }
      return (s.sb.dataBlocksStart + phyBlockNr, s)

def freeBlock (s : State) (blockNr : ℤ) : Except Stop State := do
  let s ← zeroBlocks s blockNr
  let blockNr := blockNr - s.sb.dataBlocksStart
  if blockNr < 0 then throw .abort
  else
    let s ← putBlockFreemap s blockNr.toNat
    if 0 < s.sb.usedBlockCount then
      return writeSuperBlock { s with sb := { s.sb with usedBlockCount := s.sb.usedBlockCount - 1 } }
    else throw .abort

/-! ## inode.c -/

namespace Dinode

def zero : Dinode := ⟨0, fun _ => 0, 0, 0, 0, 0⟩

def word (d : Dinode) : ℕ → ℤ
  | 0 => d.iType
  | 11 => d.iIndirect
  | 12 => d.iDindirect
  | 13 => d.blockCount
  | k => if h : k - 1 < 10 then d.iBlockNr ⟨k - 1, h⟩ else 0

/-- `memcpy(m + o, &in->in, sizeof(struct dinode))` -/
def put (m : Mem) (o : ℕ) (d : Dinode) : Mem := put64 (put32s m o d.word 14) (o + 56) d.iSize

/-- `memcpy(&in->in, m + o, sizeof(struct dinode))` -/
def get (m : Mem) (o : ℕ) : Dinode where
  iType := s32At m o
  iBlockNr := fun i => s32At m (o + 4 * (i + 1))
  iIndirect := s32At m (o + 4 * 11)
  iDindirect := s32At m (o + 4 * 12)
  blockCount := s32At m (o + 4 * 13)
  iSize := s64At m (o + 56)

end Dinode

namespace State

/-- `inode_hash_find` -/
def find (s : State) (nr : ℤ) : Option Inode := s.hash.find? fun i => i.iNr = nr

/-- the inode a pointer points to -/
def deref (s : State) (nr : ℤ) : Except Stop Inode :=
  match s.find nr with
  | some i => .ok i
  | none => .error .crash

/-- changes the inode a pointer points to -/
def modify (s : State) (nr : ℤ) (f : Inode → Inode) : State :=
  { s with hash := s.hash.map fun i => if i.iNr = nr then f i else i }

/-- a change of `in->in`; the flags stay -/
def setDinode (s : State) (nr : ℤ) (f : Dinode → Dinode) : State := s.modify nr fun i => { i with dinode := f i.dinode }

/-- `in->i_flags |= I_FLAGS_DIRTY` -/
def setDirty (s : State) (nr : ℤ) : State := s.modify nr fun i => { i with dirty := true }

end State

open State

def inodesPerBlock : ℕ := 128
def nrInodeBlocks : ℕ := 128

/-- `testfs_inode_to_block_nr`; the number is divided as an unsigned one -/
def inodeToBlockNr (nr : ℤ) : Except Stop ℕ :=
  if 0 ≤ nr ∧ nr.toNat / inodesPerBlock < nrInodeBlocks then .ok (nr.toNat / inodesPerBlock) else .error .abort

def inodeToBlockOffset (nr : ℤ) : ℕ := nr.toNat % inodesPerBlock * 64

def readInodeBlock (s : State) (nr : ℤ) : Except Stop Mem := do
  let blockNr ← inodeToBlockNr nr
  readBlocks s (s.sb.inodeBlocksStart + blockNr : ℕ)

def writeInodeBlock (s : State) (nr : ℤ) (block : Mem) : Except Stop State := do
  let blockNr ← inodeToBlockNr nr
  writeBlocks s block (s.sb.inodeBlocksStart + blockNr : ℕ)

def getInode (s : State) (nr : ℤ) : Except Stop State := do
  match s.find nr with
  | some _ => return s.modify nr fun i => { i with iCount := i.iCount + 1 }
  | none =>
    let block ← readInodeBlock s nr
    return { s with
      hash := ⟨Dinode.get block (inodeToBlockOffset nr), false, nr, 1⟩ :: s.hash
      loads := s.loads ++ [nr :: s.hash.map Inode.iNr] }

def syncInode (s : State) (nr : ℤ) : Except Stop State := do
  let i ← s.deref nr
  if i.dirty then
    let block ← readInodeBlock s nr
    let s ← writeInodeBlock s nr (Dinode.put block (inodeToBlockOffset nr) i.dinode)
    return s.modify nr fun i => { i with dirty := false }
  else return s

def putInode (s : State) (nr : ℤ) : Except Stop State := do
  let i ← s.deref nr
  if i.dirty then throw .abort
  else if i.iCount - 1 = 0 then return { s with hash := s.hash.eraseP fun i => i.iNr = nr }
  else return s.modify nr fun i => { i with iCount := i.iCount - 1 }

/-- returns 0 or an error, and the pointer stored in `*inp` -/
def createInode (s : State) (type : ℤ) : Except Stop (ℤ × ℤ × State) := do
  let (inodeNr, s) ← getInodeFreemap s
  if inodeNr < 0 then return (inodeNr, 0, s)
  else if nrInodeBlocks ≤ inodeNr.toNat / inodesPerBlock then
    let s ← putInodeFreemap s inodeNr
    return (-ENOSPC, 0, s)
  else
    let s ← getInode s inodeNr
    let s := s.setDinode inodeNr fun d => { d with iType := type }
    return (0, inodeNr, s.setDirty inodeNr)

def allocBlockForInode (s : State) (nr : ℤ) : Except Stop (ℤ × State) := do
  let (phyBlockNr, s) ← allocBlock s
  if 0 ≤ phyBlockNr then
    let s := s.setDinode nr fun d => { d with blockCount := d.blockCount + 1 }
    return (phyBlockNr, s.setDirty nr)
  else return (phyBlockNr, s)

def freeBlockFromInode (s : State) (nr : ℤ) (phyBlockNr : ℤ) : Except Stop State := do
  if phyBlockNr = 0 then return s
  else
    let s ← freeBlock s phyBlockNr
    let s := s.setDinode nr fun d => { d with blockCount := d.blockCount - 1 }
    return s.setDirty nr

end OsLab.Testfs
