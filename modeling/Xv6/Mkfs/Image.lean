import Xv6.Disk.Format
import Xv6.Library.Hoare

/-!
# Making a file system

`mkfs/mkfs.c`: the image is a file on the host that is read and written one
sector at a time. A failed assertion ends `mkfs`, and so does a read past the end
of the image.
-/

namespace Xv6.Mkfs

open Xv6.Disk

def fssize : Nat := 2000
def ninodes : Nat := 200
def nbitmap : Nat := fssize / bpb + 1
def ninodeblocks : Nat := ninodes / ipb + 1
def nlog : Nat := logSize

def nmeta : Nat := 2 + nlog + ninodeblocks + nbitmap

def superblock : Superblock where
  size := fssize
  nblocks := fssize - nmeta
  ninodes := ninodes
  nlog := nlog
  logstart := 2
  inodestart := 2 + nlog
  bmapstart := 2 + nlog + ninodeblocks

inductive Failure where
  | die
  | assertion
  deriving DecidableEq

structure State where
  image : Blocks
  /-- The length of the image in sectors. -/
  sectors : Nat
  freeinode : Nat
  freeblock : Nat
  /-- The sectors that `winode` has written. -/
  inodeWrites : List Nat

abbrev MkfsM := Prog State Failure

/-- The sector that `lseek` finds: the offset is a 32-bit product. -/
def sector (sec : Nat) : Nat := sec * bsize % 2 ^ 32 / bsize

def wsect (sec : Nat) (buf : ByteSpace) : MkfsM Unit :=
  modify fun s => { s with
    image := Function.update s.image (sector sec) buf
    sectors := max s.sectors (sector sec + 1) }

def rsect (sec : Nat) : MkfsM ByteSpace := do
  let s ← get
  if sector sec < s.sectors then return s.image (sector sec) else throw .die

def winode (inum : Nat) (ip : Dinode) : MkfsM Unit := do
  let bn := superblock.iblock inum
  let buf ← rsect bn
  wsect bn (storeDinode buf (inum % ipb) ip)
  modify fun s => { s with inodeWrites := s.inodeWrites ++ [bn] }

def rinode (inum : Nat) : MkfsM Dinode := do
  let buf ← rsect (superblock.iblock inum)
  return loadDinode buf (inum % ipb)

def newInode (type : Nat) : Dinode := { Dinode.zero with type := type, nlink := 1 }

def ialloc (type : Nat) : MkfsM Nat := do
  let inum := (← get).freeinode
  modify fun s => { s with freeinode := s.freeinode + 1 }
  winode inum (newInode type)
  return inum

def nextBlock : MkfsM Nat := do
  let x := (← get).freeblock
  modify fun s => { s with freeblock := s.freeblock + 1 }
  return x

def entryBlock (b j : Nat) : MkfsM Nat := do
  let indirect ← rsect b
  if indirect.load (4 * j) 4 = 0 then
    let x ← nextBlock
    wsect b (indirect.store (4 * j) 4 x)
    return x
  else
    return indirect.load (4 * j) 4

/-- The block with the given number of the file, a new one if it has none. -/
def fileBlock (din : Dinode) (fbn : Nat) : MkfsM (Nat × Dinode) := do
  if fbn < ndirect then
    if din.addr fbn = 0 then
      let x ← nextBlock
      return (x, din.setAddr fbn x)
    else
      return (din.addr fbn, din)
  else if din.addr ndirect = 0 then
    let b ← nextBlock
    return (← entryBlock b (fbn - ndirect), din.setAddr ndirect b)
  else
    return (← entryBlock (din.addr ndirect) (fbn - ndirect), din)

/-- The loop of `iappend`, each time with a part of the bytes that fits into one
block. -/
def appendBlocks : Nat → Dinode → Nat → List UInt8 → MkfsM (Nat × Dinode)
  | 0, din, off, _ => return (off, din)
  | fuel + 1, din, off, p => do
    if p = [] then
      return (off, din)
    else if maxFile ≤ off / bsize then
      throw .assertion
    else
      let (x, din) ← fileBlock din (off / bsize)
      let n1 := min p.length ((off / bsize + 1) * bsize - off)
      let buf ← rsect x
      wsect x (buf.blit (off - off / bsize * bsize) n1 fun i => p.getD i 0)
      appendBlocks fuel din (off + n1) (p.drop n1)

def iappend (inum : Nat) (p : List UInt8) : MkfsM Unit := do
  let din ← rinode inum
  let (off, din) ← appendBlocks p.length din din.size p
  winode inum { din with size := off }

def direntBytes (de : Dirent) : List UInt8 := (List.range direntSize).map de.bytes

/-- The first `used` blocks are marked. -/
def balloc (used : Nat) : MkfsM Unit := do
  if bpb ≤ used then
    throw .assertion
  else
    wsect superblock.bmapstart ((List.range used).foldl setBit zeroes)

/-! ## The main program -/

/-- An argument, and the pieces in which `read` returns the bytes of the file; none
if it cannot be opened. -/
structure Arg where
  path : List UInt8
  pieces : Option (List (List UInt8))

def userSlash : List UInt8 := [117, 115, 101, 114, 47]

def shortname (path : List UInt8) : List UInt8 :=
  if path.take 5 = userSlash then path.drop 5 else path

/-- The name without a leading underscore. -/
def skipUnderscore (name : List UInt8) : List UInt8 :=
  if name.head? = some 95 then name.tail else name

def addFile (arg : Arg) : MkfsM Unit := do
  if 47 ∈ shortname arg.path then
    throw .assertion
  else
    match arg.pieces with
    | none => throw .die
    | some pieces =>
      let name := skipUnderscore (shortname arg.path)
      if dirsiz < name.length then
        throw .assertion
      else
        let inum ← ialloc typeFile
        iappend rootIno (direntBytes ⟨inum, name⟩)
        pieces.forM (iappend inum)

def zeroImage : MkfsM Unit := (List.range fssize).forM fun i => wsect i zeroes

def makeRoot : MkfsM Unit := do
  let root ← ialloc typeDir
  if root ≠ rootIno then
    throw .assertion
  else
    iappend rootIno (direntBytes ⟨rootIno, [46]⟩)
    iappend rootIno (direntBytes ⟨rootIno, [46, 46]⟩)

def build (args : List Arg) : MkfsM Unit := do
  modify fun s => { s with freeblock := nmeta }
  zeroImage
  wsect 1 superblock.store
  makeRoot
  args.forM addFile

def roundUp (size : Nat) : Nat := (size / bsize + 1) * bsize % 2 ^ 32

def fixRoot : MkfsM Unit := do
  let din ← rinode rootIno
  winode rootIno { din with size := roundUp din.size }

def main (args : List Arg) : MkfsM Unit := do
  build args
  fixRoot
  balloc (← get).freeblock

def start : State := ⟨fun _ => zeroes, 0, 1, 0, []⟩

/-- `mkfs` ended normally with this state. -/
def Makes (args : List Arg) (s : State) : Prop := main args start = .ok ((), s)

end Xv6.Mkfs
