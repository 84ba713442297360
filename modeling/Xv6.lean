import Xv6.Console.Discipline
import Xv6.Disk.Fileread
import Xv6.Disk.Path
import Xv6.Disk.TornWrite
import Xv6.Exec.Images
import Xv6.Files.Exact
import Xv6.Inode.Safety
import Xv6.Log.CommitSafety
import Xv6.Log.CrashAtomicity
import Xv6.Mkfs.Agreement
import Xv6.Mkfs.Holes
import Xv6.Mkfs.Limits
import Xv6.Pipe.Wakeups
import Xv6.Proc.Kill
import Xv6.Shell.Wiring
import Xv6.User.Memmove
import Xv6.User.Regex
import Xv6.Virtio.Lifecycle
import Xv6.Vm.Allocator
