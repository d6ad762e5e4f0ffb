/-
What the file system is for: files and directories under paths.

A path is a list of names from the root. An `Fs` maps paths to nodes, a regular file with its size and its bytes or a
directory, and has a current directory. `Fs.Does` says for each command what it may return and print and what it may do
to this map; nothing in it speaks of inodes or blocks. It leaves open
- when there is no room left for a new file or directory;
- how many of its bytes a write that fails has stored, and whether the end of the file has moved to them;
- in which order `ls` prints the entries of a directory.
That the commands of `testfs` do this is shown in `Testfs.Refines`.
-/
import OsLab.Testfs.Walk

namespace OsLab.Testfs

open OsLab.Lib Function

abbrev Path := List (List UInt8)

/-- the bytes of a file behind its end are the ones it would have if the end moved there -/
inductive Node where
  | file (size : ℤ) (data : Lib.Mem)
  | dir

def Node.isDir : Node → Bool
  | .file _ _ => false
  | .dir => true

def Node.type : Node → ℤ
  | .file _ _ => iFile
  | .dir => iDir

/-- a new file or directory -/
def Node.new (type : ℤ) : Node := if type = iDir then .dir else .file 0 zeroMem

structure Fs where
  node : Path → Option Node
  cwd : Path

/-- a root directory with nothing in it -/
def Fs.empty : Fs := ⟨update (fun _ => none) [] (some .dir), []⟩

namespace Fs

variable (fs : Fs)

/-- what a name stands for in the current directory -/
def resolve (name : List UInt8) : Option Path :=
  if name = dot then some fs.cwd
  else if name = dotdot then some fs.cwd.dropLast
  else (fs.node (fs.cwd ++ [name])).map fun _ => fs.cwd ++ [name]

def set (p : Path) (v : Option Node) : Fs := { fs with node := update fs.node p v }

variable {fs} {p q : Path} {v : Option Node}

@[simp] theorem set_self : (fs.set p v).node p = v := update_self ..
@[simp] theorem set_of_ne (h : q ≠ p) : (fs.set p v).node q = fs.node q := update_of_ne h ..
@[simp] theorem set_cwd : (fs.set p v).cwd = fs.cwd := rfl

variable (fs)

/-- the names in the directory `p`, each with whether it stands for a directory -/
structure Entries (p : Path) (l : List (List UInt8 × Bool)) : Prop where
  once : (l.map Prod.fst).Nodup
  mem : ∀ k b, (k, b) ∈ l ↔ ((k = dot ∨ k = dotdot) ∧ b = true) ∨ ∃ v, fs.node (p ++ [k]) = some v ∧ b = v.isDir

/-- a subdirectory that `lsr` goes down to -/
def enters (recursive : Bool) (k : List UInt8) (b : Bool) : Prop := recursive = true ∧ b = true ∧ k ≠ dot ∧ k ≠ dotdot

instance (recursive : Bool) (k : List UInt8) (b : Bool) : Decidable (enters recursive k b) :=
  inferInstanceAs (Decidable (_ ∧ _))

/-- what `ls` prints of the entries `l` of the directory `p`: each entry, and then what is below it -/
inductive Prints (recursive : Bool) : Path → List (List UInt8 × Bool) → List Print → Prop
  | nil (p : Path) : Prints recursive p [] []
  | shallow {p : Path} {k : List UInt8} {b : Bool} {l : List (List UInt8 × Bool)} {out : List Print} :
    ¬enters recursive k b → Prints recursive p l out → Prints recursive p ((k, b) :: l) (.entry k b :: out)
  | deep {p : Path} {k : List UInt8} {b : Bool} {l l' : List (List UInt8 × Bool)} {sub out : List Print} :
    enters recursive k b → fs.Entries (p ++ [k]) l' → Prints recursive (p ++ [k]) l' sub → Prints recursive p l out →
    Prints recursive p ((k, b) :: l) (.entry k b :: sub ++ out)

/-- what `ls` prints of the directory `p` -/
def Lists (recursive : Bool) (p : Path) (out : List Print) : Prop := ∃ l, fs.Entries p l ∧ fs.Prints recursive p l out

end Fs

/-- the name that a command looks for before it does anything else; an offset is looked at first -/
def Cmd.finds : Cmd → Option (List UInt8)
  | .cd name => some name.chars
  | .ls name => some name.chars
  | .lsr name => some name.chars
  | .stat name => some name.chars
  | .read name offset _ => if offset.toInt < 0 then none else some name.chars
  | .write name offset _ => if offset.toInt < 0 then none else some name.chars
  | _ => none

/-- the type of file that it has to find -/
def Cmd.wants : Cmd → Option ℤ
  | .cd _ => some iDir
  | .ls _ => some iDir
  | .lsr _ => some iDir
  | .read .. => some iFile
  | .write .. => some iFile
  | _ => none

/-- the offset of a command -/
def Cmd.offset : Cmd → Int64
  | .read _ offset _ => offset
  | .write _ offset _ => offset
  | _ => 0

/-- a directory listing, and whether it is recursive -/
def Cmd.listing : Cmd → Option (List UInt8 × Bool)
  | .ls name => some (name.chars, false)
  | .lsr name => some (name.chars, true)
  | _ => none

/-- **What the commands do**: the command, what it returns and prints, and the files after it. -/
inductive Fs.Does (fs : Fs) : Cmd → ℤ × List Print → Fs → Prop
  -- create, mkdir
  | taken {c : Cmd} {type : ℤ} {name : Token} {p : Path} :
    c.makes = some (type, name) → fs.resolve name.chars = some p → Does fs c (-EEXIST, []) fs
  | full {c : Cmd} {type : ℤ} {name : Token} {r : ℤ} :
    c.makes = some (type, name) → fs.resolve name.chars = none → r < 0 → Does fs c (r, []) fs
  | made {c : Cmd} {type : ℤ} {name : Token} : c.makes = some (type, name) → fs.resolve name.chars = none →
    Does fs c (0, []) (fs.set (fs.cwd ++ [name.chars]) (some (Node.new type)))
  -- rm
  | rmDots {name : Token} : name.chars = dot ∨ name.chars = dotdot → Does fs (.rm name) (-EINVAL, []) fs
  | rmAbsent {name : Token} : Proper dot dotdot name.chars → fs.resolve name.chars = none →
    Does fs (.rm name) (-ENOENT, []) fs
  | rmFull {name : Token} {k : List UInt8} {v : Node} : Proper dot dotdot name.chars →
    fs.node (fs.cwd ++ [name.chars]) = some .dir → fs.node (fs.cwd ++ [name.chars] ++ [k]) = some v →
    Does fs (.rm name) (-ENOTEMPTY, []) fs
  | removed {name : Token} {v : Node} : Proper dot dotdot name.chars → fs.node (fs.cwd ++ [name.chars]) = some v →
    (∀ k, fs.node (fs.cwd ++ [name.chars] ++ [k]) = none) →
    Does fs (.rm name) (0, []) (fs.set (fs.cwd ++ [name.chars]) none)
  -- commands on a name
  | negative {c : Cmd} : c.offset.toInt < 0 → Does fs c (-EINVAL, []) fs
  | absent {c : Cmd} {k : List UInt8} : c.finds = some k → fs.resolve k = none → Does fs c (-ENOENT, []) fs
  | notDir {c : Cmd} {k : List UInt8} {p : Path} {size : ℤ} {data : Lib.Mem} : c.finds = some k → c.wants = some iDir →
    fs.resolve k = some p → fs.node p = some (.file size data) → Does fs c (-ENOTDIR, []) fs
  | isDir {c : Cmd} {k : List UInt8} {p : Path} : c.finds = some k → c.wants = some iFile → fs.resolve k = some p →
    fs.node p = some .dir → Does fs c (-EISDIR, []) fs
  | cd {name : Token} {p : Path} : fs.resolve name.chars = some p → fs.node p = some .dir →
    Does fs (.cd name) (0, []) { fs with cwd := p }
  | ls {c : Cmd} {k : List UInt8} {recursive : Bool} {p : Path} {out : List Print} : c.listing = some (k, recursive) →
    fs.resolve k = some p → fs.node p = some .dir → fs.Lists recursive p out → Does fs c (0, out) fs
  | stat {name : Token} {p : Path} {v : Node} {nr size blockCount : ℤ} :
    fs.resolve name.chars = some p → fs.node p = some v →
    (∀ z data, v = .file z data → size = z) →
    Does fs (.stat name) (0, [.stat name.chars nr v.type size blockCount]) fs
  -- read
  | readBehind {name : Token} {offset : Int64} {len : UInt64} {p : Path} {size : ℤ} {data : Lib.Mem} :
    0 ≤ offset.toInt → fs.resolve name.chars = some p → fs.node p = some (.file size data) →
    size < offset.toInt + len.toNat → Does fs (.read name offset len) (-EINVAL, []) fs
  | readFar {name : Token} {offset : Int64} {len : UInt64} {p : Path} {size : ℤ} {data : Lib.Mem} : 0 ≤ offset.toInt →
    fs.resolve name.chars = some p → fs.node p = some (.file size data) → offset.toInt + len.toNat ≤ size →
    (maxBlockNr * 8192 : ℤ) < offset.toInt + max len.toNat 1 → Does fs (.read name offset len) (-EFBIG, []) fs
  | read {name : Token} {offset : Int64} {len : UInt64} {p : Path} {size : ℤ} {data : Lib.Mem} : 0 ≤ offset.toInt →
    fs.resolve name.chars = some p → fs.node p = some (.file size data) → offset.toInt + len.toNat ≤ size →
    Does fs (.read name offset len)
      ((len.toNat : ℤ), [.data ((slice data offset.toInt.toNat len.toNat).takeWhile fun c => c ≠ 0)]) fs
  -- write
  | write {name data : Token} {offset : Int64} {p : Path} {size : ℤ} {old : Lib.Mem} : 0 ≤ offset.toInt →
    offset.toInt + data.chars.length ≤ maxBlockNr * 8192 →
    fs.resolve name.chars = some p → fs.node p = some (.file size old) →
    Does fs (.write name offset data) ((data.chars.length : ℤ), [])
      (fs.set p (some (.file (max size (offset.toInt + data.chars.length))
        (copy old offset.toInt.toNat (bytes data.chars) 0 data.chars.length))))
  | writeShort {name data : Token} {offset : Int64} {p : Path} {size size' r : ℤ} {old : Lib.Mem} {k : ℕ} :
    0 ≤ offset.toInt → fs.resolve name.chars = some p → fs.node p = some (.file size old) →
    r = -EFBIG ∨ r = -ENOSPC → k < data.chars.length →
    size' = size ∨ size' = max size (offset.toInt + k) →
    Does fs (.write name offset data) (r, [])
      (fs.set p (some (.file size' (copy old offset.toInt.toNat (bytes data.chars) 0 k))))
  -- the others
  | pwd : Does fs .pwd (0, printed fs.cwd) fs
  | bad : Does fs .bad (-EINVAL, []) fs

end OsLab.Testfs
