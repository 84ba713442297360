import Xv6.Files.Inode
import Xv6.Proc.Machine

/-!
# System calls on files

The file table of `kernel/file.c`, both ends of the pipes of `kernel/pipe.c`,
and the calls of `kernel/sysfile.c` and `kernel/proc.c` that move references to
files and inodes. Calls run one after the other; a label names the process, the
call with its arguments as they were fetched, and the outcomes it meets. A path
is `none` when it could not be fetched.
-/

namespace Xv6.Files

open Function
open Xv6.Proc (ProcState)

inductive FdType where
  | none
  | pipe
  | inode
  | device
  deriving DecidableEq

variable {lim : Limits}

/-- `struct file`. A pipe is known by the number of pipes made before it. -/
structure File (lim : Limits) where
  type : FdType
  ref : Int
  readable : Bool
  writable : Bool
  pipe : Nat
  ip : Option (Fin lim.ninode)
  off : Int
  major : Int

/-- The ends of a pipe, and how often its page was freed. -/
structure Pipe where
  readopen : Bool
  writeopen : Bool
  freed : Nat

structure Process (lim : Limits) where
  state : ProcState
  pid : Nat
  parent : Option (Fin lim.nproc)
  killed : Bool
  xstate : Int
  ofile : Fin lim.nofile → Option (Fin lim.nfile)
  cwd : Option (Fin lim.ninode)

structure State (lim : Limits) where
  fs : Fs lim
  file : Fin lim.nfile → File lim
  pipe : Nat → Pipe
  npipe : Nat
  proc : Fin lim.nproc → Process lim
  initproc : Fin lim.nproc
  nextpid : Nat

abbrev CallM (lim : Limits) := Prog (State lim) Panic

def onFs {α : Type} (prog : FsM lim α) : CallM lim α :=
  Prog.onPart State.fs (fun s fs => { s with fs := fs }) prog

def modifyFile (f : Fin lim.nfile) (change : File lim → File lim) : CallM lim Unit :=
  modify fun s => { s with file := update s.file f (change (s.file f)) }

variable (p : Fin lim.nproc) (cwd : Option (Fin lim.ninode))

def modifyProc (change : Process lim → Process lim) : CallM lim Unit :=
  modify fun s => { s with proc := update s.proc p (change (s.proc p)) }

def setOfile (fd : Fin lim.nofile) (f : Option (Fin lim.nfile)) :
    CallM lim Unit :=
  modifyProc p fun proc => { proc with ofile := update proc.ofile fd f }

/-! ## File table and pipes -/

def filealloc : CallM lim (Option (Fin lim.nfile)) := do
  let s ← get
  match (List.finRange lim.nfile).find? fun f => (s.file f).ref = 0 with
  | none => return none
  | some f =>
    modifyFile f fun file => { file with ref := 1 }
    return some f

def filedup (f : Fin lim.nfile) : CallM lim (Fin lim.nfile) := do
  if ((← get).file f).ref < 1 then
    throw .filedup
  else
    modifyFile f fun file => { file with ref := file.ref + 1 }
    return f

def pipeclose (pi : Nat) (writable : Bool) : CallM lim Unit := do
  let pipe := (← get).pipe pi
  let closed :=
    if writable then { pipe with writeopen := false } else { pipe with readopen := false }
  let freed := if closed.readopen = false ∧ closed.writeopen = false then 1 else 0
  modify fun s => { s with
    pipe := update s.pipe pi { closed with freed := closed.freed + freed } }

def fileclose (f : Fin lim.nfile) : CallM lim Unit := do
  let file := (← get).file f
  if file.ref < 1 then
    throw .fileclose
  else if file.ref - 1 > 0 then
    modifyFile f fun file => { file with ref := file.ref - 1 }
  else
    modifyFile f fun file => { file with ref := 0, type := .none }
    match file.type with
    | .pipe => pipeclose file.pipe file.writable
    | .none => return ()
    | .inode | .device =>
      onFs do
        beginOp
        iput (← nonNull file.ip)
        endOp

def countOpenFiles (s : State lim) : Nat :=
  (List.finRange lim.nfile).foldl (fun count f => if 0 < (s.file f).ref then count + 1 else count) 0

def ndev : Int := 10
def console : Int := 1

def hasDriver (major : Int) : Bool := 0 ≤ major ∧ major < ndev ∧ major = console

def fileread (f : Fin lim.nfile) : CallM lim Int := do
  let file := (← get).file f
  if file.readable = false then
    return -1
  else
    match file.type with
    | .pipe => onFs outcome
    | .device => if hasDriver file.major then onFs outcome else return -1
    | .inode =>
      let ip ← onFs (nonNull file.ip)
      onFs (ilock ip)
      let r ← onFs outcome
      (if r > 0 then modifyFile f fun file => { file with off := file.off + r } else pure ())
      onFs (iunlock ip)
      return r
    | .none => throw .fileread

/-- The most that is written in one transaction. -/
def writeMax : Int := ((maxOpBlocks - 1 - 1 - 2) / 2 * bsize : Nat)

/-- The loop of `filewrite`, with at most `fuel` iterations to go. -/
def filewriteFrom (f : Fin lim.nfile) (ip : Fin lim.ninode) (n : Int) : Nat → Int → CallM lim Int
  | 0, i => return i
  | fuel + 1, i => do
    if i < n then
      let n1 := min (n - i) writeMax
      onFs beginOp
      onFs (ilock ip)
      let r ← onFs outcome
      (if r > 0 then modifyFile f fun file => { file with off := file.off + r } else pure ())
      onFs (iunlock ip)
      onFs endOp
      if r ≠ n1 then return i else filewriteFrom f ip n fuel (i + r)
    else
      return i

def filewrite (f : Fin lim.nfile) (n : Int) : CallM lim Int := do
  let file := (← get).file f
  if file.writable = false then
    return -1
  else
    match file.type with
    | .pipe => onFs outcome
    | .device => if hasDriver file.major then onFs outcome else return -1
    | .inode =>
      let ip ← onFs (nonNull file.ip)
      let i ← filewriteFrom f ip n n.toNat 0
      return if i = n then n else -1
    | .none => throw .filewrite

def pipealloc : CallM lim (Option (Fin lim.nfile × Fin lim.nfile)) := do
  match ← filealloc with
  | none => return none
  | some f0 =>
    match ← filealloc with
    | none =>
      fileclose f0
      return none
    | some f1 =>
      if (← onFs outcome) = 0 then
        -- kalloc has no page
        fileclose f0
        fileclose f1
        return none
      else
        let pi := (← get).npipe
        modify fun s => { s with
          npipe := s.npipe + 1, pipe := update s.pipe s.npipe ⟨true, true, 0⟩ }
        modifyFile f0 fun file =>
          { file with type := .pipe, readable := true, writable := false, pipe := pi }
        modifyFile f1 fun file =>
          { file with type := .pipe, readable := false, writable := true, pipe := pi }
        return some (f0, f1)

/-! ## Descriptors -/

def argfd (fd : Int) :
    CallM lim (Option (Fin lim.nofile × Fin lim.nfile)) := do
  let proc := (← get).proc p
  if bound : 0 ≤ fd ∧ fd < lim.nofile then
    let slot : Fin lim.nofile := ⟨fd.toNat, by omega⟩
    return (proc.ofile slot).map fun f => (slot, f)
  else
    return none

def fdalloc (f : Fin lim.nfile) : CallM lim (Option (Fin lim.nofile)) := do
  let proc := (← get).proc p
  match (List.finRange lim.nofile).find? fun fd => proc.ofile fd = none with
  | none => return none
  | some fd =>
    setOfile p fd (some f)
    return some fd

def sysDup (fd : Int) : CallM lim Int := do
  match ← argfd p fd with
  | none => return -1
  | some (_, f) =>
    match ← fdalloc p f with
    | none => return -1
    | some new =>
      let _ ← filedup f
      return new.val

def sysRead (fd : Int) : CallM lim Int := do
  match ← argfd p fd with
  | none => return -1
  | some (_, f) => fileread f

def sysWrite (fd n : Int) : CallM lim Int := do
  match ← argfd p fd with
  | none => return -1
  | some (_, f) => filewrite f n

def sysClose (fd : Int) : CallM lim Int := do
  match ← argfd p fd with
  | none => return -1
  | some (slot, f) =>
    setOfile p slot none
    fileclose f
    return 0

def sysPipe : CallM lim Int := do
  match ← pipealloc with
  | none => return -1
  | some (rf, wf) =>
    match ← fdalloc p rf with
    | none =>
      fileclose rf
      fileclose wf
      return -1
    | some fd0 =>
      match ← fdalloc p wf with
      | none =>
        setOfile p fd0 none
        fileclose rf
        fileclose wf
        return -1
      | some fd1 =>
        if (← onFs outcome) = 0 then
          -- one of the two copyout fails
          setOfile p fd0 none
          setOfile p fd1 none
          fileclose rf
          fileclose wf
          return -1
        else
          return 0

/-! ## Names -/

/-- The directory part of `sys_link`: the new name, or nothing changed. -/
def linkName (new : Path) (ip : Fin lim.ninode) : FsM lim Bool := do
  match ← nameiparent cwd new with
  | none => return false
  | some (dp, name) =>
    ilock dp
    let s ← get
    if (s.inode dp).dev ≠ (s.inode ip).dev then
      iunlockput dp
      return false
    else
      let linked ← dirlink dp name (s.inode ip).inum
      iunlockput dp
      return linked

def sysLink (old new : Path) : FsM lim Int := do
  beginOp
  match ← namei cwd old with
  | none =>
    endOp
    return -1
  | some ip =>
    ilock ip
    if ((← get).inode ip).copy.type = .dir then
      iunlockput ip
      endOp
      return -1
    else
      modifyCopy ip fun copy => { copy with nlink := toShort (copy.nlink + 1) }
      iupdate ip
      iunlock ip
      if ← linkName cwd new ip then
        iput ip
        endOp
        return 0
      else
        ilock ip
        modifyCopy ip fun copy => { copy with nlink := toShort (copy.nlink - 1) }
        iupdate ip
        iunlockput ip
        endOp
        return -1

def isdirempty (dinode : Dinode) : Bool := (dinode.entries.drop 2).all fun de => de.inum = 0

def sysUnlink (path : Path) : FsM lim Int := do
  beginOp
  match ← nameiparent cwd path with
  | none =>
    endOp
    return -1
  | some (dp, name) =>
    ilock dp
    if name = dot ∨ name = dotdot then
      iunlockput dp
      endOp
      return -1
    else
      match ← dirlookup dp name with
      | none =>
        iunlockput dp
        endOp
        return -1
      | some (ip, off) =>
        ilock ip
        let copy := ((← get).inode ip).copy
        if copy.nlink < 1 then
          throw .unlinkNlink
        else if copy.type = .dir ∧ isdirempty copy = false then
          iunlockput ip
          iunlockput dp
          endOp
          return -1
        else
          let _ ← writeDirent dp off ⟨0, []⟩
          (if copy.type = .dir then do
            modifyCopy dp fun copy => { copy with nlink := toShort (copy.nlink - 1) }
            iupdate dp
          else
            pure ())
          iunlockput dp
          modifyCopy ip fun copy => { copy with nlink := toShort (copy.nlink - 1) }
          iupdate ip
          iunlockput ip
          endOp
          return 0

/-- The entries `create` gives a new inode. -/
def createDots (ip dp : Fin lim.ninode) (type : FileType) : FsM lim Bool := do
  if type = .dir then
    if ← dirlink ip dot ((← get).inode ip).inum then
      dirlink ip dotdot ((← get).inode dp).inum
    else
      return false
  else
    return true

/-- `create` once the name is known to be free. -/
def createIn (dp : Fin lim.ninode) (name : Path) (type : FileType) (major minor : Int) :
    FsM lim (Option (Fin lim.ninode)) := do
  match ← ialloc ((← get).inode dp).dev type with
  | none =>
    iunlockput dp
    return none
  | some ip =>
    ilock ip
    modifyCopy ip fun copy =>
      { copy with major := toShort major, minor := toShort minor, nlink := 1 }
    iupdate ip
    let linked ← (do
      if ← createDots ip dp type then dirlink dp name ((← get).inode ip).inum else return false)
    if linked then
      (if type = .dir then do
        modifyCopy dp fun copy => { copy with nlink := toShort (copy.nlink + 1) }
        iupdate dp
      else
        pure ())
      iunlockput dp
      return some ip
    else
      modifyCopy ip fun copy => { copy with nlink := 0 }
      iupdate ip
      iunlockput ip
      iunlockput dp
      return none

/-- The inode is returned locked. -/
def create (path : Path) (type : FileType) (major minor : Int) :
    FsM lim (Option (Fin lim.ninode)) := do
  match ← nameiparent cwd path with
  | none => return none
  | some (dp, name) =>
    ilock dp
    match ← dirlookup dp name with
    | some (ip, _) =>
      iunlockput dp
      ilock ip
      let found := ((← get).inode ip).copy.type
      if type = .file ∧ (found = .file ∨ found = .device) then
        return some ip
      else
        iunlockput ip
        return none
    | none => createIn dp name type major minor

def oWronly : Nat := 1
def oRdwr : Nat := 2
def oCreate : Nat := 0x200
def oTrunc : Nat := 0x400

/-- The inode that `sys_open` opens, locked. -/
def openInode (path : Path) (omode : Nat) :
    FsM lim (Option (Fin lim.ninode)) := do
  if omode &&& oCreate ≠ 0 then
    create cwd path .file 0 0
  else
    match ← namei cwd path with
    | none => return none
    | some ip =>
      ilock ip
      if ((← get).inode ip).copy.type = .dir ∧ omode ≠ 0 then
        iunlockput ip
        return none
      else
        return some ip

def openFile : CallM lim (Option (Fin lim.nfile × Fin lim.nofile)) := do
  match ← filealloc with
  | none => return none
  | some f =>
    match ← fdalloc p f with
    | none =>
      fileclose f
      return none
    | some fd => return some (f, fd)

def initFile (f : Fin lim.nfile) (ip : Fin lim.ninode) (copy : Dinode) (omode : Nat) :
    CallM lim Unit := do
  (if copy.type = .device then
    modifyFile f fun file => { file with type := .device, major := copy.major }
  else
    modifyFile f fun file => { file with type := .inode, off := 0 })
  modifyFile f fun file =>
    { file with
      ip := some ip
      readable := omode &&& oWronly = 0
      writable := omode &&& oWronly ≠ 0 ∨ omode &&& oRdwr ≠ 0 }

def sysOpen (path : Path) (omode : Nat) : CallM lim Int := do
  let cwd := ((← get).proc p).cwd
  onFs beginOp
  match ← onFs (openInode cwd path omode) with
  | none =>
    onFs endOp
    return -1
  | some ip =>
    let copy := ((← get).fs.inode ip).copy
    if copy.type = .device ∧ (copy.major < 0 ∨ ndev ≤ copy.major) then
      onFs (iunlockput ip)
      onFs endOp
      return -1
    else
      match ← openFile p with
      | none =>
        onFs (iunlockput ip)
        onFs endOp
        return -1
      | some (f, fd) =>
        initFile f ip copy omode
        (if omode &&& oTrunc ≠ 0 ∧ copy.type = .file then onFs (itrunc ip) else pure ())
        onFs (iunlock ip)
        onFs endOp
        return fd.val

def sysMkdir (path : Option Path) : FsM lim Int := do
  beginOp
  match path with
  | none =>
    endOp
    return -1
  | some path =>
    match ← create cwd path .dir 0 0 with
    | none =>
      endOp
      return -1
    | some ip =>
      iunlockput ip
      endOp
      return 0

def sysMknod (path : Option Path) (major minor : Int) :
    FsM lim Int := do
  beginOp
  match path with
  | none =>
    endOp
    return -1
  | some path =>
    match ← create cwd path .device major minor with
    | none =>
      endOp
      return -1
    | some ip =>
      iunlockput ip
      endOp
      return 0

def chdirInode (path : Path) :
    FsM lim (Option (Fin lim.ninode)) := do
  match ← namei cwd path with
  | none => return none
  | some ip =>
    ilock ip
    if ((← get).inode ip).copy.type ≠ .dir then
      iunlockput ip
      return none
    else
      iunlock ip
      return some ip

def sysChdir (path : Option Path) : CallM lim Int := do
  let cwd := ((← get).proc p).cwd
  onFs beginOp
  match path with
  | none =>
    onFs endOp
    return -1
  | some path =>
    match ← onFs (chdirInode cwd path) with
    | none =>
      onFs endOp
      return -1
    | some ip =>
      onFs do iput (← nonNull cwd)
      onFs endOp
      modifyProc p fun proc => { proc with cwd := some ip }
      return 0

/-! ## Processes -/

/-- What `exec` does with inodes. Whether the new image can be read from the
inode, and whether its stack can be built, is decided outside. -/
def exec (path : Path) : FsM lim Int := do
  beginOp
  match ← namei cwd path with
  | none =>
    endOp
    return -1
  | some ip =>
    ilock ip
    let loaded ← outcome
    iunlockput ip
    endOp
    if loaded = 0 then
      return -1
    else if (← outcome) = 0 then
      return -1
    else
      outcome

/-- The argument strings are fetched before `exec` runs. -/
def sysExec (path : Path) : FsM lim Int := do
  if (← outcome) = 0 then return -1 else exec cwd path

/-- Memory for the new process comes from outside. The slot keeps its files and
its current directory, as it does in `freeproc`. -/
def allocproc : CallM lim (Option (Fin lim.nproc)) := do
  let s ← get
  match (List.finRange lim.nproc).find? fun p => (s.proc p).state = .unused with
  | none => return none
  | some p =>
    modify fun s => { s with nextpid := s.nextpid + 1 }
    modifyProc p fun proc => { proc with pid := s.nextpid, state := .used }
    return some p

def freeproc : CallM lim Unit :=
  modifyProc p fun proc =>
    { proc with state := .unused, pid := 0, parent := none, killed := false, xstate := 0 }

def forkFile (np : Fin lim.nproc) (fd : Fin lim.nofile) : CallM lim Unit := do
  match ((← get).proc p).ofile fd with
  | none => return ()
  | some f =>
    let f ← filedup f
    setOfile np fd (some f)

def fork : CallM lim Int := do
  match ← allocproc with
  | none => return -1
  | some np =>
    if (← onFs outcome) = 0 then
      -- no page for the trapframe, the page table or the copied memory
      freeproc np
      return -1
    else
      (List.finRange lim.nofile).forM (forkFile p np)
      let cwd ← onFs (nonNull ((← get).proc p).cwd)
      let cwd ← onFs (idup cwd)
      modifyProc np fun proc => { proc with cwd := some cwd }
      let pid := ((← get).proc np).pid
      modifyProc np fun proc => { proc with parent := some p }
      modifyProc np fun proc => { proc with state := .runnable }
      return pid

def exitFile (fd : Fin lim.nofile) : CallM lim Unit := do
  match ((← get).proc p).ofile fd with
  | none => return ()
  | some f =>
    fileclose f
    setOfile p fd none

def reparent : CallM lim Unit :=
  modify fun s => { s with proc := fun pp =>
    if (s.proc pp).parent = some p then { s.proc pp with parent := some s.initproc } else s.proc pp
      }

def exit (status : Int) : CallM lim Int := do
  if p = (← get).initproc then
    throw .initExiting
  else
    (List.finRange lim.nofile).forM (exitFile p)
    let cwd := ((← get).proc p).cwd
    onFs do
      beginOp
      iput (← nonNull cwd)
      endOp
    modifyProc p fun proc => { proc with cwd := none }
    reparent p
    modifyProc p fun proc => { proc with xstate := status, state := .zombie }
    return 0

/-- A `wait` that finds no zombie sleeps; it is tried again later. -/
def wait (addr : Nat) : CallM lim Int := do
  let s ← get
  match (List.finRange lim.nproc).find? fun pp =>
      (s.proc pp).parent = some p ∧ (s.proc pp).state = .zombie with
  | some pp =>
    let pid := (s.proc pp).pid
    let copied ← (if addr ≠ 0 then onFs outcome else pure 1)
    if copied = 0 then
      return -1
    else
      freeproc pp
      return pid
  | none =>
    if (∀ pp, (s.proc pp).parent ≠ some p) ∨ (s.proc p).killed then
      return -1
    else
      throw .asleep

/-! ## Runs -/

inductive Call where
  | fork
  | exit (status : Int)
  | wait (addr : Nat)
  | open (path : Option Path) (omode : Nat)
  | close (fd : Int)
  | dup (fd : Int)
  | pipe
  | chdir (path : Option Path)
  | exec (path : Option Path)
  | read (fd : Int)
  | write (fd n : Int)
  | link (old new : Option Path)
  | unlink (path : Option Path)
  | mkdir (path : Option Path)
  | mknod (path : Option Path) (major minor : Int)

/-- A call that only works on inodes, by a process with a current directory. -/
def byProc (call : Option (Fin lim.ninode) → FsM lim Int) : CallM lim Int := do
  let cwd := ((← get).proc p).cwd
  onFs (call cwd)

def syscall : Call → CallM lim Int
  | .fork => fork p
  | .exit status => exit p status
  | .wait addr => wait p addr
  | .open none _ => return -1
  | .open (some path) omode => sysOpen p path omode
  | .close fd => sysClose p fd
  | .dup fd => sysDup p fd
  | .pipe => sysPipe p
  | .chdir path => sysChdir p path
  | .exec none => return -1
  | .exec (some path) => byProc p fun cwd => sysExec cwd path
  | .read fd => sysRead p fd
  | .write fd n => sysWrite p fd n
  | .link (some old) (some new) => byProc p fun cwd => sysLink cwd old new
  | .link _ _ => return -1
  | .unlink none => return -1
  | .unlink (some path) => byProc p fun cwd => sysUnlink cwd path
  | .mkdir path => byProc p fun cwd => sysMkdir cwd path
  | .mknod path major minor => byProc p fun cwd => sysMknod cwd path major minor

structure Label (lim : Limits) where
  proc : Fin lim.nproc
  call : Call
  outcomes : List Int

def execute (s : State lim) (label : Label lim) : Outcome (State lim) Panic :=
  match syscall label.proc label.call { s with fs := { s.fs with outcomes := label.outcomes } } with
  | .ok (_, s') => .next s'
  | .error .asleep => .blocked
  | .error panic => .fault panic

structure Initial (image : Nat → Dinode) (s : State lim) : Prop where
  image : s.fs.dinode = image
  files : ∀ f, (s.file f).ref = 0 ∧ (s.file f).type = .none
  pipes : s.npipe = 0
  others : ∀ p, p ≠ s.initproc →
    (s.proc p).state = .unused ∧ (∀ fd, (s.proc p).ofile fd = none) ∧ (s.proc p).cwd = none
  running : (s.proc s.initproc).state = .runnable
  none : ∀ fd, (s.proc s.initproc).ofile fd = none
  root : ∃ ip, (s.proc s.initproc).cwd = some ip ∧ (s.fs.inode ip).dev = rootDev ∧
    (s.fs.inode ip).inum = rootIno ∧ (s.fs.inode ip).ref = 1 ∧ (s.fs.inode ip).valid = false ∧
    ∀ other, other ≠ ip → (s.fs.inode other).ref = 0
  unlocked : ∀ ip, (s.fs.inode ip).locked = false

def fileSystem (lim : Limits) (image : Nat → Dinode) :
    TransitionSystem (State lim) (Label lim) Panic where
  initial := Initial image
  allowed s label := (s.proc label.proc).state = .runnable
  step := execute

instance (image : Nat → Dinode) (s : State lim) (label : Label lim) :
    Decidable ((fileSystem lim image).allowed s label) :=
  inferInstanceAs (Decidable (_ = _))

def emptyImage (inum : Nat) : Dinode :=
  if inum = rootIno then ⟨.dir, 0, 0, 1, [⟨rootIno, dot⟩, ⟨rootIno, dotdot⟩]⟩ else .zero

def boot (image : Nat → Dinode) (init : Fin lim.nproc) (root : Fin lim.ninode) : State lim where
  fs :=
    { dinode := image
      inode := fun ip => ⟨rootDev, rootIno, if ip = root then 1 else 0, false, false, .zero⟩
      outstanding := 0
      outcomes := [] }
  file _ := ⟨.none, 0, false, false, 0, none, 0, 0⟩
  pipe _ := ⟨false, false, 0⟩
  npipe := 0
  proc p :=
    if p = init then ⟨.runnable, 1, none, false, 0, fun _ => none, some root⟩
    else ⟨.unused, 0, none, false, 0, fun _ => none, none⟩
  initproc := init
  nextpid := 2

theorem boot_initial (image : Nat → Dinode) (init : Fin lim.nproc) (root : Fin lim.ninode) :
    Initial image (boot image init root) where
  image := rfl
  files _ := ⟨rfl, rfl⟩
  pipes := rfl
  others p other := by
    have unused : (boot image init root).proc p =
      ⟨.unused, 0, none, false, 0, fun _ => none, none⟩ :=
      if_neg other
    rw [unused]
    exact ⟨rfl, fun _ => rfl, rfl⟩
  running := congrArg Process.state (if_pos rfl)
  none fd := congrFun (congrArg Process.ofile (if_pos rfl)) fd
  root := by
    refine ⟨root, congrArg Process.cwd (if_pos rfl), rfl, rfl, if_pos rfl, rfl, ?_⟩
    exact fun other different => if_neg different
  unlocked _ := rfl

end Xv6.Files
