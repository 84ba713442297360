import Xv6.Fs.Layout
import Xv6.Library.Hoare

/-!
# Inodes and directories, one call at a time

`kernel/fs.c` as system calls see it that run one after the other. A disk inode
holds the entries of its directory; the bytes of other files and the blocks on
disk are left out. Where something outside this file decides how a call goes on
(a free block, a free page, a user address, the length of a transfer), the
program takes the next one of the outcomes it is given, and zero means failure.
-/

namespace Xv6.Files

/-- The sizes of the kernel's tables, and `sb.ninodes`. -/
structure Limits where
  nproc : Nat
  nofile : Nat
  nfile : Nat
  ninode : Nat
  ninodes : Nat

/-- The limits of `kernel/param.h` and the number of inodes `mkfs` makes. -/
def Limits.xv6 : Limits := ⟨64, 16, 100, 50, 200⟩

instance : NeZero Limits.xv6.nproc := ⟨by decide⟩
instance : NeZero Limits.xv6.nfile := ⟨by decide⟩
instance : NeZero Limits.xv6.ninode := ⟨by decide⟩

inductive Panic where
  | ilock
  | ilockNoType
  | iunlock
  | igetNoInodes
  | dirlookupNotDir
  | unlinkNlink
  | filedup
  | fileclose
  | fileread
  | filewrite
  | initExiting
  /-- A process waits for a lock that it holds. -/
  | deadlock
  | nullPointer
  /-- The call does not return now: the process sleeps. -/
  | asleep
  deriving DecidableEq

inductive FileType where
  | free
  | dir
  | file
  | device
  deriving DecidableEq

/-- A path and its elements are bytes without the terminating zero. -/
abbrev Path := List UInt8

structure Dirent where
  inum : Nat
  name : Path
  deriving DecidableEq

/-- `struct dinode`, with the entries of a directory in place of its blocks. -/
structure Dinode where
  type : FileType
  major : Int
  minor : Int
  nlink : Int
  entries : List Dirent
  deriving DecidableEq

def Dinode.zero : Dinode := ⟨.free, 0, 0, 0, []⟩

structure Inode where
  dev : Nat
  inum : Nat
  ref : Int
  valid : Bool
  locked : Bool
  copy : Dinode
  deriving DecidableEq

/-- The disk inodes, the inode table and the number of operations between
`begin_op` and `end_op`. -/
structure Fs (lim : Limits) where
  dinode : Nat → Dinode
  inode : Fin lim.ninode → Inode
  outstanding : Int
  outcomes : List Int

abbrev FsM (lim : Limits) := Prog (Fs lim) Panic

/-- What a `short` keeps of a number. -/
def toShort (n : Int) : Int := n.bmod (2 ^ 16)

def dirsiz : Nat := 14
def direntSize : Nat := 16
def maxFile : Nat := ndirect + bsize / 4
def slash : UInt8 := 47
def dot : Path := [46]
def dotdot : Path := [46, 46]

variable {lim : Limits}

/-- What the rest of the kernel decides next. -/
def outcome : FsM lim Int := do
  let s ← get
  match s.outcomes with
  | [] => return 0
  | first :: rest =>
    set { s with outcomes := rest }
    return first

def beginOp : FsM lim Unit := modify fun s => { s with outstanding := s.outstanding + 1 }

def endOp : FsM lim Unit := modify fun s => { s with outstanding := s.outstanding - 1 }

variable (ip : Fin lim.ninode)

def modifyInode (f : Inode → Inode) : FsM lim Unit :=
  modify fun s => { s with inode := Function.update s.inode ip (f (s.inode ip)) }

def modifyCopy (f : Dinode → Dinode) : FsM lim Unit :=
  modifyInode ip fun entry => { entry with copy := f entry.copy }

def modifyDinode (inum : Nat) (dinode : Dinode) : FsM lim Unit :=
  modify fun s => { s with dinode := Function.update s.dinode inum dinode }

def iupdate : FsM lim Unit := do
  let entry := (← get).inode ip
  modifyDinode entry.inum entry.copy

def Fs.cached (s : Fs lim) (dev inum : Nat) : Option (Fin lim.ninode) :=
  (List.finRange lim.ninode).find? fun ip =>
    0 < (s.inode ip).ref ∧ (s.inode ip).dev = dev ∧ (s.inode ip).inum = inum

def Fs.empty (s : Fs lim) : Option (Fin lim.ninode) :=
  (List.finRange lim.ninode).find? fun ip => (s.inode ip).ref = 0

def iget (dev inum : Nat) : FsM lim (Fin lim.ninode) := do
  let s ← get
  match s.cached dev inum with
  | some ip =>
    modifyInode ip fun entry => { entry with ref := entry.ref + 1 }
    return ip
  | none =>
    match s.empty with
    | none => throw .igetNoInodes
    | some ip =>
      modifyInode ip fun entry => { entry with dev := dev, inum := inum, ref := 1, valid := false }
      return ip

def Fs.freeInode (s : Fs lim) : Option Nat :=
  (List.range' 1 (lim.ninodes - 1)).find? fun inum => (s.dinode inum).type = .free

def ialloc (dev : Nat) (type : FileType) : FsM lim (Option (Fin lim.ninode)) := do
  match (← get).freeInode with
  | none => return none
  | some inum =>
    modifyDinode inum { Dinode.zero with type := type }
    return some (← iget dev inum)

def idup : FsM lim (Fin lim.ninode) := do
  modifyInode ip fun entry => { entry with ref := entry.ref + 1 }
  return ip

def acquiresleep : FsM lim Unit := do
  let entry := (← get).inode ip
  if entry.locked then
    throw .deadlock
  else
    modifyInode ip fun entry => { entry with locked := true }

def releasesleep : FsM lim Unit :=
  modifyInode ip fun entry => { entry with locked := false }

def ilock : FsM lim Unit := do
  let entry := (← get).inode ip
  if entry.ref < 1 then
    throw .ilock
  else
    acquiresleep ip
    if entry.valid then
      return ()
    else
      let dinode := (← get).dinode entry.inum
      modifyInode ip fun entry => { entry with copy := dinode, valid := true }
      if dinode.type = .free then
        throw .ilockNoType
      else
        return ()

def iunlock : FsM lim Unit := do
  let entry := (← get).inode ip
  if entry.locked = false ∨ entry.ref < 1 then
    throw .iunlock
  else
    releasesleep ip

def itrunc : FsM lim Unit := do
  modifyCopy ip fun copy => { copy with entries := [] }
  iupdate ip

def iput : FsM lim Unit := do
  let entry := (← get).inode ip
  (if entry.ref = 1 ∧ entry.valid ∧ entry.copy.nlink = 0 then do
    acquiresleep ip
    itrunc ip
    modifyCopy ip fun copy => { copy with type := .free }
    iupdate ip
    modifyInode ip fun entry => { entry with valid := false }
    releasesleep ip
  else
    pure ())
  modifyInode ip fun entry => { entry with ref := entry.ref - 1 }

def iunlockput : FsM lim Unit := do
  iunlock ip
  iput ip

def Dinode.find (dinode : Dinode) (name : Path) : Option Nat :=
  dinode.entries.findIdx? fun de => de.inum ≠ 0 ∧ de.name = name

def dirlookup (dp : Fin lim.ninode) (name : Path) : FsM lim (Option (Fin lim.ninode × Nat)) := do
  let entry := (← get).inode dp
  if entry.copy.type ≠ .dir then
    throw .dirlookupNotDir
  else
    match entry.copy.find name with
    | none => return none
    | some off =>
      let ip ← iget entry.dev (entry.copy.entries.getD off ⟨0, []⟩).inum
      return some (ip, off)

/-- A directory with one entry written, perhaps a new last one. -/
def Dinode.write (dinode : Dinode) (off : Nat) (de : Dirent) : Dinode :=
  { dinode with entries :=
      if off < dinode.entries.length then dinode.entries.set off de else dinode.entries ++ [de] }

/-- `writei` of one entry of a directory. A directory has no holes, so a block
is needed only for an entry that starts a new one. -/
def writeDirent (dp : Fin lim.ninode) (off : Nat) (de : Dirent) : FsM lim Bool := do
  let length := ((← get).inode dp).copy.entries.length
  if (off + 1) * direntSize > maxFile * bsize then
    return false
  else
    let block ← (if off < length ∨ off * direntSize % bsize ≠ 0 then pure 1 else outcome)
    if block = 0 then
      iupdate dp
      return false
    else
      modifyCopy dp fun copy => copy.write off de
      iupdate dp
      return true

def dirlink (dp : Fin lim.ninode) (name : Path) (inum : Nat) : FsM lim Bool := do
  match ← dirlookup dp name with
  | some (ip, _) =>
    iput ip
    return false
  | none =>
    let entries := ((← get).inode dp).copy.entries
    let off := entries.findIdx fun de => de.inum = 0
    writeDirent dp off ⟨inum % 2 ^ 16, name⟩

/-- The next element of a path, and the rest of it without leading slashes. -/
def skipelem (path : Path) : Option (Path × Path) :=
  match path.dropWhile (· = slash) with
  | [] => none
  | path =>
    some ((path.takeWhile (· ≠ slash)).take dirsiz,
      (path.dropWhile (· ≠ slash)).dropWhile (· = slash))

/-- The elements that `namex` takes off a path, one after the other. -/
def elements : Nat → Path → List Path
  | 0, _ => []
  | fuel + 1, path =>
    match skipelem path with
    | none => []
    | some (name, rest) => name :: elements fuel rest

/-- The loop of `namex`. -/
def namexFrom (nameiparent : Bool) :
    List Path → Fin lim.ninode → FsM lim (Option (Fin lim.ninode × Path))
  | [], ip => do
    if nameiparent then
      iput ip
      return none
    else
      return some (ip, [])
  | name :: rest, ip => do
    ilock ip
    if ((← get).inode ip).copy.type ≠ .dir then
      iunlockput ip
      return none
    else if nameiparent ∧ rest = [] then
      iunlock ip
      return some (ip, name)
    else
      match ← dirlookup ip name with
      | none =>
        iunlockput ip
        return none
      | some (next, _) =>
        iunlockput ip
        namexFrom nameiparent rest next

def nonNull {α : Type} : Option α → FsM lim α
  | none => throw .nullPointer
  | some a => return a

def namex (cwd : Option (Fin lim.ninode)) (path : Path) (nameiparent : Bool) :
    FsM lim (Option (Fin lim.ninode × Path)) := do
  let ip ← (if path.head? = some slash then iget rootDev rootIno else do idup (← nonNull cwd))
  namexFrom nameiparent (elements path.length path) ip

def namei (cwd : Option (Fin lim.ninode)) (path : Path) : FsM lim (Option (Fin lim.ninode)) := do
  return (← namex cwd path false).map Prod.fst

def nameiparent (cwd : Option (Fin lim.ninode)) (path : Path) :
    FsM lim (Option (Fin lim.ninode × Path)) := namex cwd path true

end Xv6.Files
