import Xv6.Disk.View
import Xv6.Library.Hoare

/-!
# The content of inodes

`kernel/fs.c` from `balloc` to `writei`, and the loops of `dirlookup` and
`dirlink`, on the bytes of the disk. The calls run one after the other, so `bread`
returns what was written last. The caller holds the lock of the inode, so its copy
in memory is passed and returned.
-/

namespace Xv6.Disk

inductive Panic where
  | logTooBig
  | logOutside
  | freeingFreeBlock
  | bmapOutOfRange
  | dirlookupNotDir
  | dirlookupRead
  | dirlinkRead
  | ilock
  | ilockNoType
  | iunlock
  | igetNoInodes
  /-- A process waits for a lock that it holds. -/
  | deadlock
  deriving DecidableEq

/-- `struct inode`, under its number. -/
structure Entry where
  ref : Nat
  valid : Bool
  locked : Bool
  /-- The copy of the inode, if it is valid. -/
  inode : Dinode

structure Store where
  disk : Blocks
  /-- The blocks that the running transaction has written. -/
  lh : List Nat
  /-- `log.outstanding` -/
  outstanding : Nat
  table : Nat → Entry
  /-- The number of entries of the inode table that are in use. -/
  cached : Nat

/-- A panic, with the blocks that the transaction has written until then. -/
structure Stop where
  panic : Panic
  lh : List Nat

abbrev StoreM := Prog Store Stop

def fail {α : Type} (panic : Panic) : StoreM α := do throw ⟨panic, (← get).lh⟩

section

variable (sb : Superblock)

def bread (b : Nat) : StoreM ByteSpace := do return (← get).disk b

/-- The caller has changed the bytes of the block to `data`. -/
def logWrite (b : Nat) (data : ByteSpace) : StoreM Unit := do
  let s ← get
  if logSize ≤ s.lh.length ∨ sb.nlog ≤ s.lh.length + 1 then
    fail .logTooBig
  else if s.outstanding < 1 then
    fail .logOutside
  else
    modify fun s => { s with
      disk := Function.update s.disk b data
      lh := if b ∈ s.lh then s.lh else s.lh ++ [b] }

/-- The first block whose bit is not set. -/
def firstFree (disk : Blocks) : Option Nat := (List.range sb.size).find? fun b => !usedAt sb disk b

def balloc : StoreM Nat := do
  let s ← get
  match firstFree sb s.disk with
  | none => return 0
  | some b =>
    logWrite sb (sb.bblock b) (setBit (s.disk (sb.bblock b)) (b % bpb))
    -- bzero
    logWrite sb b zeroes
    return b

def bfree (b : Nat) : StoreM Unit := do
  let data ← bread (sb.bblock b)
  if bit data (b % bpb) = false then
    fail .freeingFreeBlock
  else
    logWrite sb (sb.bblock b) (clearBit data (b % bpb))

def iupdate (inum : Nat) (inode : Dinode) : StoreM Unit := do
  let data ← bread (sb.iblock inum)
  logWrite sb (sb.iblock inum) (storeDinode data (inum % ipb) inode)

/-- The entry of an indirect block, with a new block if it has none. -/
def bmapEntry (b j : Nat) : StoreM Nat := do
  let data ← bread b
  if data.load (4 * j) 4 = 0 then
    let addr ← balloc sb
    if addr = 0 then
      return 0
    else
      logWrite sb b (data.store (4 * j) 4 addr)
      return addr
  else
    return data.load (4 * j) 4

def bmap (inode : Dinode) (bn : Nat) : StoreM (Nat × Dinode) := do
  if bn < ndirect then
    if inode.addr bn = 0 then
      let addr ← balloc sb
      if addr = 0 then return (0, inode) else return (addr, inode.setAddr bn addr)
    else
      return (inode.addr bn, inode)
  else if bn - ndirect < nindirect then
    if inode.addr ndirect = 0 then
      let indirect ← balloc sb
      if indirect = 0 then
        return (0, inode)
      else
        return (← bmapEntry sb indirect (bn - ndirect), inode.setAddr ndirect indirect)
    else
      return (← bmapEntry sb (inode.addr ndirect) (bn - ndirect), inode)
  else
    fail .bmapOutOfRange

def bfreeUnlessZero (b : Nat) : StoreM Unit := if b = 0 then return () else bfree sb b

def itrunc (inum : Nat) (inode : Dinode) : StoreM Dinode := do
  (List.range ndirect).forM fun k => bfreeUnlessZero sb (inode.addr k)
  (if inode.addr ndirect = 0 then
    return ()
  else do
    let data ← bread (inode.addr ndirect)
    (List.range nindirect).forM fun j => bfreeUnlessZero sb (data.load (4 * j) 4)
    bfree sb (inode.addr ndirect))
  iupdate sb inum inode.truncated
  return inode.truncated

/-! ## Reading and writing -/

/-- The part of `n` bytes from `off` on that is in one block. -/
def chunk (off n : Nat) : Nat := min n (bsize - off % bsize)

/-- The loop of `readi`: `tot` bytes are copied and `n` are left. `writable` says
which bytes of the destination can be written, and `copied` what was written. -/
def readBlocks (writable : Nat → Bool) : Nat → Dinode → Nat → Nat → Nat → List UInt8 →
    StoreM ((Int × List UInt8) × Dinode)
  | 0, inode, _, tot, _, copied => return ((tot, copied), inode)
  | fuel + 1, inode, off, tot, n, copied => do
    if n = 0 then
      return ((tot, copied), inode)
    else
      let (addr, inode) ← bmap sb inode (off / bsize)
      if addr = 0 then
        return ((tot, copied), inode)
      else
        let data ← bread addr
        let m := chunk off n
        let sent := (List.range m).takeWhile fun i => writable (tot + i)
        let copied := copied ++ sent.map fun i => data (off % bsize + i)
        if sent.length < m then
          return ((-1, copied), inode)
        else
          readBlocks writable fuel inode (off + m) (tot + m) (n - m) copied

/-- The return value, the bytes copied to the destination, and the inode. -/
def readi (inode : Dinode) (writable : Nat → Bool) (off n : Nat) :
    StoreM ((Int × List UInt8) × Dinode) :=
  if inode.size < off ∨ (off + n) % 2 ^ 32 < off then
    return ((0, []), inode)
  else
    let n := if inode.size < off + n then inode.size - off else n
    readBlocks sb writable n inode off 0 n []

/-- The loop of `writei`. `source` has the bytes that can be read. -/
def writeBlocks (source : Nat → Option UInt8) : Nat → Dinode → Nat → Nat → Nat →
    StoreM ((Nat × Nat) × Dinode)
  | 0, inode, off, tot, _ => return ((tot, off), inode)
  | fuel + 1, inode, off, tot, n => do
    if n = 0 then
      return ((tot, off), inode)
    else
      let (addr, inode) ← bmap sb inode (off / bsize)
      if addr = 0 then
        return ((tot, off), inode)
      else
        let data ← bread addr
        let m := chunk off n
        let got := (List.range m).takeWhile fun i => (source (tot + i)).isSome
        let data := data.blit (off % bsize) got.length fun i => (source (tot + i)).getD 0
        if got.length < m then
          -- what was copied is in the buffer, but not in the log
          modify fun s => { s with disk := Function.update s.disk addr data }
          return ((tot, off), inode)
        else
          logWrite sb addr data
          writeBlocks source fuel inode (off + m) (tot + m) (n - m)

def writei (inum : Nat) (inode : Dinode) (source : Nat → Option UInt8) (off n : Nat) :
    StoreM (Int × Dinode) := do
  if inode.size < off ∨ (off + n) % 2 ^ 32 < off then
    return (-1, inode)
  else if maxFile * bsize < off + n then
    return (-1, inode)
  else
    let ((tot, off), inode) ← writeBlocks sb source n inode off 0 n
    let inode := if inode.size < off then { inode with size := off } else inode
    iupdate sb inum inode
    return (tot, inode)

/-! ## Directories -/

/-- `strncmp` on two strings that a zero ends, if they are not longer. -/
def strncmp : Nat → List UInt8 → List UInt8 → Bool
  | 0, _, _ => true
  | n + 1, s, t =>
    if s.headD 0 ≠ t.headD 0 then false
    else if s.headD 0 = 0 then true
    else strncmp n s.tail t.tail

def namecmp (s t : List UInt8) : Bool := strncmp dirsiz s t

/-- The first entry from `off` on that passes the test, and where it is. -/
def scanDirents (panic : Panic) (test : Dirent → Bool) : Nat → Dinode → Nat →
    StoreM (Option (Dirent × Nat) × Dinode)
  | 0, inode, _ => return (none, inode)
  | fuel + 1, inode, off => do
    if inode.size ≤ off then
      return (none, inode)
    else
      let ((r, bytes), inode) ← readi sb inode (fun _ => true) off direntSize
      if r ≠ direntSize then
        fail panic
      else if test (Dirent.load bytes) then
        return (some (Dirent.load bytes, off), inode)
      else
        scanDirents panic test fuel inode (off + direntSize)

/-- `dirlookup` up to its `iget`: the number of the inode and the place of the entry. -/
def findDirent (inode : Dinode) (name : List UInt8) : StoreM (Option (Nat × Nat) × Dinode) := do
  if inode.type ≠ typeDir then
    fail .dirlookupNotDir
  else
    let (found, inode) ← scanDirents sb .dirlookupRead
      (fun de => de.inum ≠ 0 ∧ namecmp name de.name) (inode.size + 1) inode 0
    return (found.map fun (de, off) => (de.inum, off), inode)

/-- `dirlink` once the name is known to be new: an empty entry, or one at the end. -/
def dirlinkNew (inum : Nat) (inode : Dinode) (name : List UInt8) (child : Nat) :
    StoreM (Bool × Dinode) := do
  let (found, inode) ← scanDirents sb .dirlinkRead (fun de => de.inum = 0) (inode.size + 1) inode 0
  let off := match found with
    | some (_, off) => off
    | none => inode.size
  let (r, inode) ← writei sb inum inode (fun i => some (Dirent.bytes ⟨child, name⟩ i)) off
    direntSize
  return (r = direntSize, inode)

end

end Xv6.Disk
