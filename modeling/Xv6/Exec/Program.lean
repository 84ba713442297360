import Xv6.Vm.Process

/-!
# Executing a program

`kernel/exec.c`. The file is what `namei` finds, and what `readi` copies from it to
the kernel. The strings of `argv` are in buffers of the kernel, each with its zero.
-/

namespace Xv6.Exec

open Vm

/-- The user stack has two pages where `LAB` is `util`. -/
def userStack : Nat := 2

def maxArg : Nat := 32

def u32 (n : Nat) : Nat := n % 2 ^ 32

/-- What `readi` copies from a file, at an offset and at most `n` bytes. -/
structure File where
  read : Nat → Nat → List UInt8
  bounded : ∀ off n, (read off n).length ≤ n

/-- The calls of `exec` to the file system. -/
inductive FsCall where
  | beginOp
  | namei
  | ilock
  | iunlockput
  | endOp
  deriving DecidableEq, Repr

/-- The part of `struct proc` that `exec` changes. -/
structure Proc where
  pagetable : Nat
  sz : Nat
  /-- The page of the trapframe. -/
  trapframe : Nat
  name : List UInt8

structure State where
  memory : Memory
  /-- The last call is the first of the list. -/
  calls : List FsCall
  /-- A subtraction on `sp` went below zero. -/
  wrapped : Bool

abbrev ExecM (α : Type) := Prog State Panic α

def vm {α : Type} (prog : VmM α) : ExecM α :=
  Prog.onPart State.memory (fun s m => { s with memory := m }) prog

def call (made : FsCall) : ExecM Unit := modify fun s => { s with calls := made :: s.calls }

/-- Why `exec` goes to `bad`. -/
inductive Bad where
  | noInode
  | elfHeader
  | magic
  | pagetable
  | progHeader
  | memorySize
  | overflow
  | unaligned
  | segmentMemory
  | segmentContents
  | stackMemory
  | tooManyArgs
  | stackRoom
  | copyout
  deriving DecidableEq, Repr

/-! ## Headers -/

def field (header : List UInt8) (off width : Nat) : Nat :=
  ByteSpace.load (fun a => header.getD a 0) off width

def elfMagic : Nat := 0x464C457F

def elfProgLoad : Nat := 1

def elfhdrSize : Nat := 64

def proghdrSize : Nat := 56

structure Elfhdr where
  magic : Nat
  entry : Nat
  phoff : Nat
  phnum : Nat

def Elfhdr.ofBytes (header : List UInt8) : Elfhdr where
  magic := field header 0 4
  entry := field header 24 8
  phoff := field header 32 8
  phnum := field header 56 2

structure Proghdr where
  type : Nat
  flags : Nat
  off : Nat
  vaddr : Nat
  filesz : Nat
  memsz : Nat

def Proghdr.ofBytes (header : List UInt8) : Proghdr where
  type := field header 0 4
  flags := field header 4 4
  off := field header 8 8
  vaddr := field header 16 8
  filesz := field header 32 8
  memsz := field header 40 8

def flags2perm (flags : Nat) : Nat :=
  let perm := if flags &&& 1 ≠ 0 then pteX else 0
  if flags &&& 2 ≠ 0 then perm ||| pteW else perm

/-! ## Segments -/

/-- `offset` and `sz` are 32 bits wide. -/
def loadseg (pagetable va : Nat) (ip : File) (offset sz : Nat) : VmM Int :=
  Prog.loop .diverged (fun i => do
    if i < sz then
      let pa ← walkaddr pagetable (u64 (va + i))
      if pa = 0 then
        throw .loadseg
      else
        let n := if sz - i < pgSize then sz - i else pgSize
        let bytes := ip.read (u32 (offset + i)) n
        writeBytes pa bytes
        if bytes.length ≠ n then
          return .inr (-1)
        else
          return .inl (u32 (i + pgSize))
    else
      return .inr 0) maxIterations 0

section

variable (layout : Layout)

/-- One round of the loop over the program headers: the new size, and whether to go
to `bad`. -/
def loadSegment (pagetable : Nat) (ip : File) (off sz : Nat) : VmM (Nat × Option Bad) := do
  let header := ip.read (u32 off) proghdrSize
  let ph := Proghdr.ofBytes header
  if header.length ≠ proghdrSize then
    return (sz, some .progHeader)
  else if ph.type ≠ elfProgLoad then
    return (sz, none)
  else if ph.memsz < ph.filesz then
    return (sz, some .memorySize)
  else if u64 (ph.vaddr + ph.memsz) < ph.vaddr then
    return (sz, some .overflow)
  else if ph.vaddr % pgSize ≠ 0 then
    return (sz, some .unaligned)
  else
    let sz1 ← uvmalloc layout pagetable sz (u64 (ph.vaddr + ph.memsz)) (flags2perm ph.flags)
    if sz1 = 0 then
      return (sz, some .segmentMemory)
    else
      let loaded ← loadseg pagetable ph.vaddr ip (u32 ph.off) (u32 ph.filesz)
      if loaded < 0 then
        return (sz1, some .segmentContents)
      else
        return (sz1, none)

def loadSegments (pagetable : Nat) (ip : File) : Nat → Nat → Nat → VmM (Nat × Option Bad)
  | 0, _, sz => return (sz, none)
  | count + 1, off, sz => do
    let (sz, bad) ← loadSegment layout pagetable ip off sz
    match bad with
    | some reason => return (sz, some reason)
    | none => loadSegments pagetable ip count (u32 (off + proghdrSize)) sz

end

/-! ## The stack -/

/-- `sp -= n` -/
def decrease (sp n : Nat) : ExecM Nat := do
  modify fun s => { s with wrapped := s.wrapped || decide (sp < n) }
  return sub64 sp n

/-- `ustack[argc] = entry`, after as many other entries. -/
def setUstack (ustack : List Nat) (entry : Nat) : ExecM (List Nat) :=
  if ustack.length < maxArg then return ustack ++ [entry] else throw .ustack

def wordBytes (words : List Nat) : List UInt8 :=
  words.flatMap fun word => (List.range 8).map fun i => UInt8.ofNat (word / 256 ^ i)

/-- The loop over the strings: `ustack` up to `argc`, and `sp`. -/
def pushStrings (pagetable stackbase : Nat) :
    List (List UInt8) → List Nat → Nat → ExecM (Except Bad (List Nat × Nat))
  | [], ustack, sp => return .ok (ustack, sp)
  | arg :: argv, ustack, sp => do
    if ustack.length ≥ maxArg then
      return .error .tooManyArgs
    else
      let sp ← decrease sp (strlen arg + 1)
      let sp ← decrease sp (sp % 16)
      if sp < stackbase then
        return .error .stackRoom
      else
        let copied ← vm (copyout pagetable sp (arg.take (strlen arg + 1)))
        if copied < 0 then
          return .error .copyout
        else
          let ustack ← setUstack ustack sp
          pushStrings pagetable stackbase argv ustack sp

/-- The strings and then the array of pointers to them: `argc` and `sp`. -/
def pushArguments (pagetable stackbase sp : Nat) (argv : List (List UInt8)) :
    ExecM (Except Bad (Nat × Nat)) := do
  match ← pushStrings pagetable stackbase argv [] sp with
  | .error reason => return .error reason
  | .ok (ustack, sp) =>
    let argc := ustack.length
    let ustack ← setUstack ustack 0
    let sp ← decrease sp ((argc + 1) * 8)
    let sp ← decrease sp (sp % 16)
    if sp < stackbase then
      return .error .stackRoom
    else
      let copied ← vm (copyout pagetable sp (wordBytes ustack))
      if copied < 0 then
        return .error .copyout
      else
        return .ok (argc, sp)

section

variable (layout : Layout)

/-- The stack and a page below it that users cannot access, for a program of size `sz`.
Returns the new size, and zero for lack of memory. -/
def makeStack (pagetable sz : Nat) : VmM Nat := do
  let sz1 ← uvmalloc layout pagetable sz (u64 (sz + (userStack + 1) * pgSize)) pteW
  if sz1 = 0 then
    return 0
  else
    uvmclear pagetable (sub64 sz1 ((userStack + 1) * pgSize))
    return sz1

/-! ## All of it -/

/-- The part of `path` after the last slash. -/
def lastElement (path : List UInt8) : List UInt8 :=
  let rec go : List UInt8 → List UInt8 → List UInt8
    | last, [] => last
    | last, c :: s => if c = 47 then go s s else go last s
  go (path.takeWhile (· ≠ 0)) (path.takeWhile (· ≠ 0))

/-- `safestrcpy` to an array of the length of `old`. -/
def safestrcpy (old t : List UInt8) : List UInt8 :=
  let copied := (t.takeWhile (· ≠ 0)).take (old.length - 1) ++ [0]
  copied ++ old.drop copied.length

/-- The fields of `struct trapframe` that `exec` writes. -/
def trapframeEpc : Nat := 24
def trapframeSp : Nat := 48
def trapframeA1 : Nat := 120

def setRegisters (trapframe sp entry : Nat) : VmM Unit := do
  store64 (trapframe + trapframeA1) sp
  store64 (trapframe + trapframeEpc) entry
  store64 (trapframe + trapframeSp) sp

/-- The label `bad`, after the inode was put. -/
def giveUp (pagetable sz : Nat) : VmM Unit :=
  if pagetable ≠ 0 then procFreepagetable layout pagetable sz else return ()

def closeFile : ExecM Unit := do
  call .iunlockput
  call .endOp

/-- After the segments are loaded: the stack, the arguments and the change to the new
image. -/
def finish (p : Proc) (path : List UInt8) (argv : List (List UInt8)) (entry pagetable sz : Nat) :
    ExecM (Proc × Except Bad Nat) := do
  let sz := pgRoundUp sz
  let sz1 ← vm (makeStack layout pagetable sz)
  if sz1 = 0 then
    vm (giveUp layout pagetable sz)
    return (p, .error .stackMemory)
  else
    match ← pushArguments pagetable (sub64 sz1 (userStack * pgSize)) sz1 argv with
    | .error reason =>
      vm (giveUp layout pagetable sz1)
      return (p, .error reason)
    | .ok (argc, sp) =>
      vm (setRegisters p.trapframe sp entry)
      vm (procFreepagetable layout p.pagetable p.sz)
      return ({ p with
        pagetable := pagetable, sz := sz1, name := safestrcpy p.name (lastElement path) }, .ok argc)

/-- `exec` of the file that `namei` finds: the process afterwards, and the number of
arguments or why it failed. -/
def execFile (p : Proc) (ip : File) (path : List UInt8) (argv : List (List UInt8)) :
    ExecM (Proc × Except Bad Nat) := do
  call .ilock
  let header := ip.read 0 elfhdrSize
  let elf := Elfhdr.ofBytes header
  if header.length ≠ elfhdrSize then
    closeFile
    return (p, .error .elfHeader)
  else if elf.magic ≠ elfMagic then
    closeFile
    return (p, .error .magic)
  else
    let pagetable ← vm (procPagetable layout p.trapframe)
    if pagetable = 0 then
      closeFile
      return (p, .error .pagetable)
    else
      let (sz, bad) ← vm (loadSegments layout pagetable ip elf.phnum (u32 elf.phoff) 0)
      match bad with
      | some reason =>
        vm (giveUp layout pagetable sz)
        closeFile
        return (p, .error reason)
      | none =>
        closeFile
        finish layout p path argv elf.entry pagetable sz

/-- The return value is minus one where there is a reason to give up. -/
def exec (p : Proc) (found : Option File) (path : List UInt8) (argv : List (List UInt8)) :
    ExecM (Proc × Except Bad Nat) := do
  call .beginOp
  match found with
  | none =>
    call .endOp
    return (p, .error .noInode)
  | some ip =>
    call .namei
    execFile layout p ip path argv

end

end Xv6.Exec
