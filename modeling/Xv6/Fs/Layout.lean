import Xv6.Param

/-!
# The on-disk format

The inode of `kernel/fs.h` and the file types of `kernel/stat.h`.
-/

namespace Xv6

def rootDev : Nat := 1
def rootIno : Nat := 1
def ndirect : Nat := 12
def ninode : Nat := 50

instance : NeZero ninode := ⟨by decide⟩

def typeDir : Nat := 1
def typeFile : Nat := 2

/-- `struct dinode`, and the copy of it in `struct inode`. A `type` of zero
marks a free inode. -/
structure Dinode where
  type : Nat
  major : Nat
  minor : Nat
  nlink : Nat
  size : Nat
  addrs : Fin (ndirect + 1) → Nat
  deriving DecidableEq

namespace Dinode

def zero : Dinode := ⟨0, 0, 0, 0, 0, fun _ => 0⟩

def truncated (inode : Dinode) : Dinode := { inode with size := 0, addrs := fun _ => 0 }

end Dinode

end Xv6
