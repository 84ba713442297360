import Xv6.Disk.Dirent
import Xv6.Disk.Write

/-!
# The inode table

`kernel/fs.c` from `iget` to `namex`. `ilock` takes the copy of an inode out of the
table and `iunlock` puts it back, so the copy is passed along between the two.

`Itable` has the same functions step by step, for processes that run at the same time
and without the blocks of files, and `Files` has them for the references that system
calls take and give back, without locks. None of the three states contains another, so
that each model is read off the source by itself.
-/

namespace Xv6.Disk

def ndev : Nat := 10

section

variable (sb : Superblock)

def setEntry (inum : Nat) (change : Entry → Entry) : StoreM Unit :=
  modify fun s => { s with table := Function.update s.table inum (change (s.table inum)) }

def iget (inum : Nat) : StoreM Unit := do
  let s ← get
  if 0 < (s.table inum).ref then
    setEntry inum fun e => { e with ref := e.ref + 1 }
  else if ninode ≤ s.cached then
    fail .igetNoInodes
  else
    -- recycle an entry
    setEntry inum fun e => { e with ref := 1, valid := false, locked := false }
    modify fun s => { s with cached := s.cached + 1 }

def idup (inum : Nat) : StoreM Unit := setEntry inum fun e => { e with ref := e.ref + 1 }

def ilock (inum : Nat) : StoreM Dinode := do
  let s ← get
  if (s.table inum).ref < 1 then
    fail .ilock
  else if (s.table inum).locked then
    fail .deadlock
  else if (s.table inum).valid then
    setEntry inum fun e => { e with locked := true }
    return (s.table inum).inode
  else
    let inode := dinodeAt sb s.disk inum
    setEntry inum fun e => { e with locked := true, valid := true, inode := inode }
    if inode.type = 0 then fail .ilockNoType else return inode

def iunlock (inum : Nat) (inode : Dinode) : StoreM Unit := do
  let s ← get
  if (s.table inum).locked = false ∨ (s.table inum).ref < 1 then
    fail .iunlock
  else
    setEntry inum fun e => { e with locked := false, inode := inode }

/-- `ip->ref--` -/
def dropRef (inum : Nat) : StoreM Unit := do
  setEntry inum fun e => { e with ref := e.ref - 1 }
  modify fun s => if (s.table inum).ref = 0 then { s with cached := s.cached - 1 } else s

/-- The part of `iput` that frees an inode. -/
def freeInode (inum : Nat) (inode : Dinode) : StoreM Unit := do
  let inode ← itrunc sb inum inode
  iupdate sb inum { inode with type := 0 }
  setEntry inum fun e => { e with valid := false }

def iput (inum : Nat) : StoreM Unit := do
  let e := (← get).table inum
  if e.ref = 1 ∧ e.valid = true ∧ e.inode.nlink = 0 then
    if e.locked then
      fail .deadlock
    else
      freeInode sb inum e.inode
      dropRef inum
  else
    dropRef inum

def iunlockput (inum : Nat) (inode : Dinode) : StoreM Unit := do
  iunlock inum inode
  iput sb inum

/-! ## Directories and paths -/

/-- `dirlookup` with the `iget` at its end. -/
def dirlookup (inode : Dinode) (name : List UInt8) : StoreM (Option (Nat × Nat) × Dinode) := do
  match ← findDirent sb inode name with
  | (none, inode) => return (none, inode)
  | (some (inum, off), inode) =>
    iget inum
    return (some (inum, off), inode)

def dirlink (dinum : Nat) (dp : Dinode) (name : List UInt8) (inum : Nat) : StoreM (Bool × Dinode) :=
  do
  match ← dirlookup sb dp name with
  | (some (found, _), dp) =>
    iput sb found
    return (false, dp)
  | (none, dp) => dirlinkNew sb dinum dp name inum

/-- The next element of a path, cut off after `dirsiz` bytes, and what follows it. -/
def skipelem (path : List UInt8) : Option (List UInt8 × List UInt8) :=
  let path := path.dropWhile (· = 47)
  if path = [] then none
  else some ((path.takeWhile (· ≠ 47)).take dirsiz, (path.dropWhile (· ≠ 47)).dropWhile (· = 47))

/-- The loop of `namex`. -/
def walk (nameiparent : Bool) :
    Nat → Nat → List UInt8 → List UInt8 → StoreM (Option (Nat × List UInt8))
  | 0, _, _, _ => return none
  | fuel + 1, ip, name, path =>
    match skipelem path with
    | none => do
      if nameiparent then
        iput sb ip
        return none
      else
        return some (ip, name)
    | some (name, path) => do
      let inode ← ilock sb ip
      if inode.type ≠ typeDir then
        iunlockput sb ip inode
        return none
      else if nameiparent ∧ path = [] then
        iunlock ip inode
        return some (ip, name)
      else
        match ← dirlookup sb inode name with
        | (none, inode) =>
          iunlockput sb ip inode
          return none
        | (some (next, _), inode) =>
          iunlockput sb ip inode
          walk nameiparent fuel next name path

def namex (cwd : Nat) (path : List UInt8) (nameiparent : Bool) :
    StoreM (Option (Nat × List UInt8)) :=
  if path.head? = some 47 then do
    iget rootIno
    walk sb nameiparent (path.length + 1) rootIno [] path
  else do
    idup cwd
    walk sb nameiparent (path.length + 1) cwd [] path

end

end Xv6.Disk
