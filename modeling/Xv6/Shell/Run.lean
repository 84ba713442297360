import Xv6.Library.Transition
import Xv6.Shell.Parser

/-!
# Running a command

`runcmd` of `user/sh.c` with the descriptor part of `sys_dup`, `sys_close`,
`sys_open`, `sys_pipe`, `fork`, `wait` and `exit`. A process is the tree of system
calls it still has to make, and the processes take their calls in any order. A
call of `runcmd` remembers where in the command its argument is; no call depends
on that. A program that was `exec`ed keeps its descriptors until it exits.

The file table is left out, so that a descriptor is what it is open on. `Files` has
the same calls with the table and its counts; both take the lowest free descriptor.
-/

namespace Xv6.Shell

open Function

/-- What a descriptor is open on: what it was open on at the start, the file of a
redirection, or an end of a pipe. -/
inductive Desc where
  | original (fd : Nat)
  | file (target : Redir)
  | readEnd (pipe : Nat)
  | writeEnd (pipe : Nat)
  deriving DecidableEq

abbrev Ofile := List (Option Desc)

def nofile : Nat := 16

def fdalloc (f : Desc) : Ofile → Option (Nat × Ofile)
  | [] => none
  | none :: rest => some (0, some f :: rest)
  | some g :: rest => (fdalloc f rest).map fun (fd, rest) => (fd + 1, some g :: rest)

def sysClose (fd : Nat) (ofile : Ofile) : Ofile := ofile.set fd none

def sysDup (fd : Nat) (ofile : Ofile) : Ofile :=
  match ofile[fd]? with
  | some (some f) =>
    match fdalloc f ofile with
    | some (_, ofile') => ofile'
    | none => ofile
  | _ => ofile

/-- Both ends of a new pipe. When there is no place for the second one the first
one is taken back. -/
def sysPipe (pipe : Nat) (ofile : Ofile) : Option ((Nat × Nat) × Ofile) := do
  let (fd0, ofile) ← fdalloc (.readEnd pipe) ofile
  let (fd1, ofile) ← fdalloc (.writeEnd pipe) ofile
  return ((fd0, fd1), ofile)

/-- One level of a command above a part of it. A level of a pipe has the pipe that
was made for it. -/
inductive Frame where
  | redir (target : Redir)
  | pipeLeft (pipe : Nat) (right : Cmd)
  | pipeRight (pipe : Nat) (left : Cmd)
  | listLeft (right : Cmd)
  | listRight (left : Cmd)
  | back
  deriving DecidableEq

inductive Forked where
  | failed
  | child
  | parent

/-- The system calls of a process of the shell. -/
inductive Prog where
  | close (fd : Nat) (next : Prog)
  | dup (fd : Nat) (next : Prog)
  | openFile (target : Redir) (next : Option Nat → Prog)
  | pipe (next : Option (Nat × Nat × Nat) → Prog)
  | fork (next : Forked → Prog)
  | wait (next : Prog)
  | exec (argv : List (Nat × Nat)) (next : Prog)
  | exit (status : Nat)
  | runcmd (around : List Frame) (cmd : Cmd)

/-- Fork but panics on failure. -/
def fork1 (child parent : Prog) : Prog :=
  .fork fun
    | .failed => .exit 1
    | .child => child
    | .parent => parent

/-- The body of `runcmd`, on the part of the command that is below `around`. -/
def runcmd (around : List Frame) : Cmd → Prog
  | .exec [] => .exit 1
  | .exec (arg :: argv) => .exec (arg :: argv) (.exit 0)
  | .redir cmd target =>
    .close target.fd <| .openFile target fun
      | none => .exit 1
      | some _ => .runcmd (.redir target :: around) cmd
  | .list left right =>
    fork1 (.runcmd (.listLeft right :: around) left) <|
    .wait <| .runcmd (.listRight left :: around) right
  | .pipe left right =>
    .pipe fun
      | none => .exit 1
      | some (made, p0, p1) =>
        fork1 (.close 1 <| .dup p1 <| .close p0 <| .close p1 <|
          .runcmd (.pipeLeft made right :: around) left) <|
        fork1 (.close 0 <| .dup p0 <| .close p0 <| .close p1 <|
          .runcmd (.pipeRight made left :: around) right) <|
        .close p0 <| .close p1 <| .wait <| .wait <| .exit 0
  | .back cmd => fork1 (.runcmd (.back :: around) cmd) (.exit 0)

inductive Control where
  | shell (prog : Prog)
  | program
  | zombie

def Control.isZombie : Control → Bool
  | .zombie => true
  | _ => false

structure Process where
  parent : Option Nat
  ofile : Ofile
  around : List Frame
  control : Control

structure State where
  proc : Nat → Option Process
  nextPid : Nat
  nextPipe : Nat

/-- What is open about a call: whether the kernel can carry it out, and which
child `wait` finds. -/
inductive Choice where
  | succeed
  | fail
  | reap (child : Nat)
  deriving DecidableEq

variable (s : State) (pid : Nat) (p : Process)

def State.put : State :=
  { s with proc := update s.proc pid (some p) }

/-- `reparent`: the children of an exiting process are left to `init`. -/
def State.reparent : State :=
  { s with proc := fun q => (s.proc q).map fun child =>
      if child.parent = some pid then { child with parent := none } else child }

def State.exit : State :=
  (s.reparent pid).put pid { p with ofile := List.replicate nofile none, control := .zombie }

def State.fork (next : Forked → Prog) : State :=
  { (s.put pid { p with control := .shell (next .parent) }).put s.nextPid
      { p with parent := some pid, control := .shell (next .child) } with
    nextPid := s.nextPid + 1 }

def State.isZombieOf (child : Nat) : Bool :=
  (s.proc child).any fun c => c.parent = some pid && c.control.isZombie

def State.childless : Bool :=
  (List.range s.nextPid).all fun q => (s.proc q).all fun c => c.parent ≠ some pid

/-- `wait` takes one exited child away. It returns at once without children. -/
def sysWait : Choice → Outcome State Empty
  | .reap child =>
    if s.isZombieOf pid child then
      .next ({ s with proc := update s.proc child none }.put pid p)
    else
      .blocked
  | _ => if s.childless pid then .next (s.put pid p) else .blocked

def call : Prog → Choice → Outcome State Empty
  | .close fd next, _ =>
    .next (s.put pid { p with ofile := sysClose fd p.ofile, control := .shell next })
  | .dup fd next, _ =>
    .next (s.put pid { p with ofile := sysDup fd p.ofile, control := .shell next })
  | .openFile target next, choice =>
    match choice, fdalloc (.file target) p.ofile with
    | .succeed, some (fd, ofile) =>
      .next (s.put pid { p with ofile, control := .shell (next (some fd)) })
    | _, _ => .next (s.put pid { p with control := .shell (next none) })
  | .pipe next, choice =>
    match choice, sysPipe s.nextPipe p.ofile with
    | .succeed, some ((fd0, fd1), ofile) =>
      .next { s.put pid { p with
          ofile, control := .shell (next (some (s.nextPipe, fd0, fd1))) } with
        nextPipe := s.nextPipe + 1 }
    | _, _ => .next (s.put pid { p with control := .shell (next none) })
  | .fork next, choice =>
    match choice with
    | .succeed => .next (s.fork pid p next)
    | _ => .next (s.put pid { p with control := .shell (next .failed) })
  | .wait next, choice => sysWait s pid { p with control := .shell next } choice
  | .exec _ next, choice =>
    match choice with
    | .succeed => .next (s.put pid { p with control := .program })
    | _ => .next (s.put pid { p with control := .shell next })
  | .exit _, _ => .next (s.exit pid p)
  | .runcmd around cmd, _ =>
    .next (s.put pid { p with around, control := .shell (runcmd around cmd) })

def step : Nat × Choice → Outcome State Empty
  | (pid, choice) =>
    match s.proc pid with
    | none => .blocked
    | some p =>
      match p.control with
      | .shell prog => call s pid p prog choice
      | .program => .next (s.exit pid p)
      | .zombie => .blocked

def threeOpen (f0 f1 f2 : Desc) : Ofile :=
  [some f0, some f1, some f2] ++ List.replicate (nofile - 3) none

def start (root : Cmd) : State where
  proc := update (fun _ => none) 0 (some
    { parent := none
      ofile := threeOpen (.original 0) (.original 1) (.original 2)
      around := []
      control := .shell (.runcmd [] root) })
  nextPid := 1
  nextPipe := 0

def shell (root : Cmd) : TransitionSystem State (Nat × Choice) Empty where
  initial s := s = start root
  allowed _ _ := True
  step := step

instance (root : Cmd) (s : State) (label : Nat × Choice) :
    Decidable ((shell root).allowed s label) := isTrue trivial

end Xv6.Shell
