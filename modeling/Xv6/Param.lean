import Mathlib

/-!
# Constants

The limits of `kernel/param.h`, the disk format of `kernel/fs.h` and the page
size of `kernel/riscv.h`.
-/

namespace Xv6

def maxOpBlocks : Nat := 10
def logSize : Nat := maxOpBlocks * 3
def nbuf : Nat := maxOpBlocks * 3
def bsize : Nat := 1024

instance : NeZero nbuf := ⟨by decide⟩

end Xv6
