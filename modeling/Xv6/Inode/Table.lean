import Xv6.Fs.Layout
import Xv6.Library.Transition

/-!
# The inode table

`iget`, `idup`, `ilock`, `iunlock`, `iput` and `ialloc` of `kernel/fs.c`. Each
critical section under `itable.lock`, each operation on an inode's sleep lock
and each access to an inode block is one step of a process. What `itrunc` does
to the blocks of the file is left out here.

`refs`, `allocs`, `frees` and `dirty` are history variables: the code does not
have them, and what the code does never depends on them. `refs p e` counts the
references to entry `e` that process `p` may use.
-/

namespace Xv6.Itable

open Function (update)

inductive Panic where
  | igetNoInodes
  | ilock
  | ilockNoType
  | iunlock
  deriving DecidableEq

structure Entry where
  dev : Nat
  inum : Nat
  ref : Int
  valid : Bool
  inode : Dinode
  /-- Whether the inode was changed and not updated since. -/
  dirty : Bool

/-- Where a process is inside `ilock` or `iput`. -/
inductive Stage where
  /-- `ilock`, about to acquire the sleep lock. -/
  | locking
  /-- `ilock`, about to test `valid`. -/
  | testing
  /-- `ilock`, about to set `valid`. -/
  | loaded
  /-- `iput`, about to call `itrunc`. -/
  | truncating
  /-- `iput`, about to write type zero. -/
  | typing
  /-- `iput`, about to clear `valid` and release the sleep lock. -/
  | clearing
  /-- `iput`, about to decrement `ref`. -/
  | dropping
  deriving DecidableEq

inductive Pc where
  | idle
  | on (e : Fin ninode) (stage : Stage)
  /-- `ialloc`, about to look at the inode `inum`. -/
  | scanning (dev inum type : Nat)
  /-- `ialloc`, about to call `iget`. -/
  | allocated (dev inum : Nat)
  deriving DecidableEq

structure State (Pid : Type) where
  entry : Fin ninode → Entry
  /-- The holder of each inode's sleep lock. -/
  holder : Fin ninode → Option Pid
  disk : Nat → Nat → Dinode
  pc : Pid → Pc
  refs : Pid → Fin ninode → Nat
  allocs : Nat → Nat → Nat
  frees : Nat → Nat → Nat

inductive Action (Pid : Type) where
  | iget (dev inum : Nat)
  /-- `idup`, for the benefit of process `q`. -/
  | idup (e : Fin ninode) (q : Pid)
  /-- A reference changes hands, as with a shared `struct file`. -/
  | pass (e : Fin ninode) (q : Pid)
  | ilock (e : Fin ninode)
  /-- The holder changes the inode in memory. -/
  | modify (e : Fin ninode) (inode : Dinode)
  | iupdate (e : Fin ninode)
  | iunlock (e : Fin ninode)
  | iput (e : Fin ninode)
  | ialloc (dev type : Nat)
  /-- The next step of the function the process is in. -/
  | next

inductive Found where
  | hit (e : Fin ninode)
  | recycle (e : Fin ninode)
  | full

/-- The loop of `iget`, with the empty slot it remembers. -/
def igetScan (entry : Fin ninode → Entry) (dev inum : Nat) :
    List (Fin ninode) → Option (Fin ninode) → Found
  | [], none => .full
  | [], some empty => .recycle empty
  | e :: rest, empty =>
    if (entry e).ref > 0 ∧ (entry e).dev = dev ∧ (entry e).inum = inum then
      .hit e
    else if empty = none ∧ (entry e).ref = 0 then
      igetScan entry dev inum rest (some e)
    else
      igetScan entry dev inum rest empty

namespace State

variable {Pid : Type} [DecidableEq Pid] (s : State Pid)

def setPc (p : Pid) (pc : Pc) : State Pid :=
  { s with pc := update s.pc p pc }

def setEntry (e : Fin ninode) (f : Entry → Entry) : State Pid :=
  { s with entry := update s.entry e (f (s.entry e)) }

def setInode (e : Fin ninode) (inode : Dinode) : State Pid :=
  s.setEntry e fun entry => { entry with inode }

def setHolder (e : Fin ninode) (holder : Option Pid) : State Pid :=
  { s with holder := update s.holder e holder }

/-- Process `p` gains references to `e`, or loses some. -/
def setRefs (p : Pid) (e : Fin ninode) (count : Nat) : State Pid :=
  { s with refs := update s.refs p (update (s.refs p) e count) }

def setDisk (dev inum : Nat) (inode : Dinode) : State Pid :=
  { s with disk := update s.disk dev (update (s.disk dev) inum inode) }

def onDisk (e : Fin ninode) : Dinode := s.disk (s.entry e).dev (s.entry e).inum

def flush (e : Fin ninode) : State Pid :=
  s.setDisk (s.entry e).dev (s.entry e).inum (s.entry e).inode

def stepIget (p : Pid) (dev inum : Nat) : Outcome (State Pid) Panic :=
  match igetScan s.entry dev inum (List.finRange ninode) none with
  | .hit e =>
    .next (((s.setEntry e fun entry => { entry with ref := entry.ref + 1 }).setRefs p e
      (s.refs p e + 1)).setPc p .idle)
  | .recycle e =>
    .next (((s.setEntry e fun entry => { entry with dev, inum, ref := 1, valid := false }).setRefs
      p e (s.refs p e + 1)).setPc p .idle)
  | .full => .fault .igetNoInodes

def bump (counts : Nat → Nat → Nat) (dev inum : Nat) : Nat → Nat → Nat :=
  update counts dev (update (counts dev) inum (counts dev inum + 1))

def step (ninodes : Nat) (s : State Pid) (p : Pid) :
    Action Pid → Outcome (State Pid) Panic
  | .iget dev inum => s.stepIget p dev inum
  | .idup e q =>
    .next ((s.setEntry e fun entry => { entry with ref := entry.ref + 1 }).setRefs q e
      (s.refs q e + 1))
  | .pass e q =>
    let given := s.setRefs p e (s.refs p e - 1)
    .next (given.setRefs q e (given.refs q e + 1))
  | .ilock e => if (s.entry e).ref < 1 then .fault .ilock else .next (s.setPc p (.on e .locking))
  | .modify e inode =>
    .next (s.setEntry e fun entry => { entry with inode, dirty := inode ≠ s.onDisk e })
  | .iupdate e => .next ((s.flush e).setEntry e fun entry => { entry with dirty := false })
  | .iunlock e =>
    if s.holder e ≠ some p ∨ (s.entry e).ref < 1 then
      .fault .iunlock
    else
      .next (s.setHolder e none)
  | .iput e =>
    if (s.entry e).ref = 1 ∧ (s.entry e).valid ∧ (s.entry e).inode.nlink = 0 then
      -- `acquiresleep`, with `itable.lock` held
      if s.holder e = none then
        .next (((s.setHolder e (some p)).setRefs p e (s.refs p e - 1)).setPc p (.on e .truncating))
      else
        .blocked
    else
      .next ((s.setEntry e fun entry => { entry with ref := entry.ref - 1 }).setRefs p e
        (s.refs p e - 1))
  | .ialloc dev type => .next (s.setPc p (.scanning dev 1 type))
  | .next =>
    match s.pc p with
    | .idle => .blocked
    | .on e .locking =>
      if s.holder e = none then
        .next ((s.setHolder e (some p)).setPc p (.on e .testing))
      else
        .blocked
    | .on e .testing =>
      if (s.entry e).valid then
        .next (s.setPc p .idle)
      else
        .next ((s.setInode e (s.onDisk e)).setPc p (.on e .loaded))
    | .on e .loaded =>
      if (s.entry e).inode.type = 0 then
        .fault .ilockNoType
      else
        .next ((s.setEntry e fun entry => { entry with valid := true }).setPc p .idle)
    | .on e .truncating =>
      .next (((s.setInode e (s.entry e).inode.truncated).flush e).setPc p (.on e .typing))
    | .on e .typing =>
      let freed := { s with frees := bump s.frees (s.entry e).dev (s.entry e).inum }
      .next (((freed.setInode e { (s.entry e).inode with type := 0 }).flush e).setPc p
        (.on e .clearing))
    | .on e .clearing =>
      .next (((s.setEntry e fun entry => { entry with valid := false }).setHolder e none).setPc
        p (.on e .dropping))
    | .on e .dropping =>
      .next ((s.setEntry e fun entry => { entry with ref := entry.ref - 1 }).setPc p .idle)
    | .scanning dev inum type =>
      if inum < ninodes then
        if (s.disk dev inum).type = 0 then
          .next (({ s with allocs := bump s.allocs dev inum }.setDisk dev inum
            { Dinode.zero with type }).setPc p (.allocated dev inum))
        else
          .next (s.setPc p (.scanning dev (inum + 1) type))
      else
        .next (s.setPc p .idle)
    | .allocated dev inum => s.stepIget p dev inum

end State

/-- The inode may be named by a directory entry: it has links, on disk and in
memory. -/
def Named {Pid : Type} (s : State Pid) (dev inum : Nat) : Prop :=
  (s.disk dev inum).nlink ≠ 0 ∧
    ∀ e, 0 < (s.entry e).ref → (s.entry e).dev = dev → (s.entry e).inum = inum →
      (s.entry e).valid → (s.entry e).inode.nlink ≠ 0

/-- How processes use the table. Inodes are looked up by name, a function is
called with an entry the process has a reference to, changed inodes are
updated before they are unlocked, and the holder of an inode keeps a reference
to it. -/
def Disciplined {Pid : Type} (s : State Pid) (p : Pid) : Action Pid → Prop
  | .iget dev inum => s.pc p = .idle ∧ Named s dev inum
  | .idup e _ => s.pc p = .idle ∧ 0 < s.refs p e
  | .pass e q => s.pc p = .idle ∧ 0 < s.refs p e ∧ p ≠ q ∧ (s.holder e = some p → 1 < s.refs p e)
  | .ilock e => s.pc p = .idle ∧ 0 < s.refs p e
  | .modify e inode => s.pc p = .idle ∧ s.holder e = some p ∧ inode.type ≠ 0
  | .iupdate e => s.pc p = .idle ∧ s.holder e = some p
  | .iunlock e => s.pc p = .idle ∧ s.holder e = some p ∧ (s.entry e).dirty = false
  | .iput e => s.pc p = .idle ∧ 0 < s.refs p e ∧ (s.holder e = some p → 1 < s.refs p e)
  | .ialloc _ type => s.pc p = .idle ∧ type ≠ 0
  | .next => True

structure Initial {Pid : Type} (s : State Pid) : Prop where
  entry : ∀ e, (s.entry e).ref = 0
  holder : ∀ e, s.holder e = none
  pc : ∀ p, s.pc p = .idle
  refs : ∀ p e, s.refs p e = 0
  free : ∀ dev inum, (s.disk dev inum).type = 0 → (s.disk dev inum).nlink = 0
  allocs : ∀ dev inum, s.allocs dev inum = if (s.disk dev inum).type = 0 then 0 else 1
  frees : ∀ dev inum, s.frees dev inum = 0

def system (ninodes : Nat) (Pid : Type) [DecidableEq Pid] :
    TransitionSystem (State Pid) (Pid × Action Pid) Panic where
  initial := Initial
  allowed s label := Disciplined s label.1 label.2
  step s label := s.step ninodes label.1 label.2

end Xv6.Itable
