/-
The file cache of the web server (`webserver/server_thread.c`).

A table of `table_size` slots, searched by linear probing from the slot the hash of the file name gives, and a queue of
slot indices in the order in which files may be evicted. A `struct file_struct *` is the index of its slot.

`home` is the hash: the functions take it as a parameter, `djb2` is the one of the source. The `while` loops of
`cache_lookup` and `table_insert` go around the table; if they meet neither the key nor an empty slot in one round they
never end, which is `Stop.hang`. `LRU_delete` reads the `next` field of a queue node it has just freed; the field is
read as it was before, so the loop runs over the queue as it was at its start.

A `struct file_data` does not change once a request has read its file, so it is a value; `addr` says which one it is,
and `freed` lists those that `free_cache_element` has freed. A `struct file_struct` is never freed while the server
runs.

Not modelled: `server_exit`. Sizes are `int`s; with sizes that are at least 0 no sum the functions form leaves the range
of `int`.
-/
import Mathlib.Tactic
import OsLab.Lib.Run
import OsLab.Lib.Probe

namespace OsLab.Cache

open OsLab.Lib

/-- a file name, without its terminating 0 -/
abbrev Key := List UInt8

structure FileData where
  fileName : Key
  fileSize : ℤ
  fileBuf : List UInt8 := []
  /-- the address of the struct -/
  addr : ℕ := 0
deriving DecidableEq, Repr

structure FileStruct where
  key : Key
  data : FileData
  active : ℤ
deriving DecidableEq, Repr

structure CacheStruct where
  currSize : ℤ
  maxSize : ℤ
  tableSize : ℕ
  queue : List ℕ
  table : ℕ → Option FileStruct
  /-- the addresses of the freed `struct file_data`s -/
  freed : List ℕ

/-- why a call has no result: its loop does not end, or it uses a file that is not there -/
inductive Stop where
  | hang
  | crash
deriving DecidableEq, Repr

def cacheInit (tableSize : ℕ) (maxCacheSize : ℤ) : CacheStruct where
  currSize := 0
  maxSize := maxCacheSize
  tableSize := tableSize
  queue := []
  table := fun _ => none
  freed := []

/-- the hash of the source, over `unsigned long`; a `char` is signed -/
def djb2 (wordString : Key) : ℕ :=
  let hash :=
    wordString.foldl (fun (hash : UInt64) (c : UInt8) => ((hash <<< 5) + hash) + c.toInt8.toInt64.toUInt64) 5381
  hash.toNat

/-- the table size of the source -/
def sourceTableSize : ℕ := 2147000

section

variable (home : Key → ℕ)

def getIndex (c : CacheStruct) (wordString : Key) : ℕ := home wordString % c.tableSize

/-- the keys in the table -/
def keys (c : CacheStruct) (i : ℕ) : Option Key := (c.table i).map FileStruct.key

/-- the probe loop: the first slot from the file's own that is empty or has its name -/
def probeLoop (c : CacheStruct) (fileName : Key) : Except Stop ℕ :=
  match probe (keys c) c.tableSize fileName c.tableSize (getIndex home c fileName) with
  | some i => .ok i
  | none => .error .hang

def cacheLookup (c : CacheStruct) (fileName : Key) : Except Stop (Option ℕ) := do
  let index ← probeLoop home c fileName
  match c.table index with
  | some f => return if f.key = fileName then some index else none
  | none => return none

/-! ## The queue -/

/-- removes the first node with `index`, if any -/
def deleteFromQueue (queue : List ℕ) (index : ℕ) : List ℕ := queue.erase index

/-- the name notwithstanding, at the tail -/
def addToFront (queue : List ℕ) (index : ℕ) : List ℕ := queue ++ [index]

def addToEnd (queue : List ℕ) (index : ℕ) : List ℕ := queue ++ [index]

def lruAdd (c : CacheStruct) (index : ℕ) : CacheStruct := { c with queue := addToFront c.queue index }

def lruUpdate (c : CacheStruct) (index : ℕ) : CacheStruct :=
  { c with queue := addToEnd (deleteFromQueue c.queue index) index }

/-! ## Evicting and inserting -/

/-- one turn of the loop of `LRU_delete` -/
def evictAt (c : CacheStruct) (index : ℕ) : CacheStruct :=
  match c.table index with
  | some file =>
    if file.active = 0 then
      { c with
        currSize := c.currSize - file.data.fileSize
        table := Function.update c.table index none
        freed := c.freed ++ [file.data.addr]
        queue := deleteFromQueue c.queue index }
    else c
  | none => c

/-- the loop of `LRU_delete` over the nodes of the queue -/
def lruLoop (fileSize : ℤ) : List ℕ → CacheStruct → CacheStruct
  | [], c => c
  | index :: rest, c =>
    if c.maxSize - c.currSize < fileSize then lruLoop fileSize rest (evictAt c index) else c

def lruDelete (c : CacheStruct) (fileSize : ℤ) : CacheStruct × Bool :=
  let c := lruLoop fileSize c.queue c
  (c, c.maxSize - c.currSize ≥ fileSize)

def cacheEvict (c : CacheStruct) (fileSize : ℤ) : CacheStruct × Bool :=
  if fileSize > c.maxSize then (c, false)
  else if fileSize ≤ c.maxSize - c.currSize then (c, true)
  else if c.queue = [] then (c, false)
  else lruDelete c fileSize

def tableInsert (c : CacheStruct) (data : FileData) : Except Stop (CacheStruct × ℕ) := do
  let index ← probeLoop home c data.fileName
  let file : FileStruct := ⟨data.fileName, data, 0⟩
  let c := { c with table := Function.update c.table index (some file), currSize := c.currSize + data.fileSize }
  return (lruAdd c index, index)

def cacheInsert (c : CacheStruct) (data : FileData) : Except Stop (CacheStruct × Option ℕ) := do
  match ← cacheLookup home c data.fileName with
  | some index => return (c, some index)
  | none =>
    match cacheEvict c data.fileSize with
    | (c, true) =>
      let (c, index) ← tableInsert home c data
      return (c, some index)
    | (c, false) => return (c, none)

/-! ## The cache as a machine -/

inductive Op where
  | lookup (fileName : Key)
  | insert (data : FileData)
  /-- `LRU_update(sv, get_index(sv, file_name))` -/
  | lruUpdate (fileName : Key)
  /-- `file->active += change` for the file in slot `index` -/
  | active (index : ℕ) (change : ℤ)
deriving DecidableEq, Repr

def step (c : CacheStruct) : Op → Except Stop CacheStruct
  | .lookup fileName => do
    let _ ← cacheLookup home c fileName
    return c
  | .insert data => do
    let (c, _) ← cacheInsert home c data
    return c
  | .lruUpdate fileName => .ok (lruUpdate c (getIndex home c fileName))
  | .active index change =>
    match c.table index with
    | some file => .ok
      { c with table := Function.update c.table index (some { file with active := file.active + change }) }
    | none => .error .crash

end

end OsLab.Cache
