import Xv6.Mkfs.Finish

/-!
# Holes in a new image

The size of the root directory is rounded up to the next multiple of the block size
that is larger. When its entries fill their blocks that is one block more than the
directory has.
-/

namespace Xv6.Mkfs

open Xv6.Disk Xv6.Disk.Volume

variable {s s₀ : State} {args : List Arg}

end Xv6.Mkfs
