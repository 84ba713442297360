import Xv6.Library.Transition

/-!
# Pipes

`pipewrite`, `piperead` and `pipeclose` of `kernel/pipe.c`, for any number of
processes on one pipe. A process runs one iteration of a loop at a time: while
it holds `pi->lock` nobody else gets at the pipe, but `kill` does not take that
lock and may come in between.

`stored`, `taken` and `count` are history variables: the code does not have
them, and no step reads them.
-/

namespace Xv6.Pipes

open Function

def pipeSize : Nat := 512

/-- `struct pipe`; the counters are 32-bit numbers. -/
structure Pipe where
  data : Nat → UInt8
  nread : Nat
  nwrite : Nat
  readopen : Bool
  writeopen : Bool

/-- Where a process is. -/
inductive Pc where
  | outside
  /-- In `pipewrite`, about to acquire `pi->lock`. -/
  | writeCall (n : Int)
  /-- At the top of the loop of `pipewrite`, with the lock. The last number is
  the value of `i` when the lock was acquired. -/
  | writing (n : Int) (i start : Nat)
  /-- The readers have been woken and `sleep` comes next. -/
  | writeFull (n : Int) (i : Nat)
  /-- Asleep on `&pi->nwrite`. -/
  | writeAsleep (n : Int) (i : Nat)
  /-- Runnable again, in `sleep`, about to acquire the lock. -/
  | writeWoken (n : Int) (i : Nat)
  /-- `pipewrite` has returned. -/
  | written (result : Int)
  /-- In `piperead`, about to acquire `pi->lock`. -/
  | readCall (n : Int)
  /-- At the top of the first loop of `piperead`, with the lock. -/
  | readWait (n : Int)
  /-- Asleep on `&pi->nread`. -/
  | readAsleep (n : Int)
  | readWoken (n : Int)
  /-- At the top of the copy loop, with the lock. -/
  | reading (n : Int) (i : Nat)
  | readDone (result : Int)
  deriving DecidableEq

namespace Pc

def Resting : Pc → Prop
  | .outside | .written _ | .readDone _ => True
  | _ => False

instance : DecidablePred Resting
  | .outside | .written _ | .readDone _ => isTrue trivial
  | .writeCall _ | .writing _ _ _ | .writeFull _ _ | .writeAsleep _ _ | .writeWoken _ _
  | .readCall _ | .readWait _ | .readAsleep _ | .readWoken _ | .reading _ _ => isFalse id

/-- The places where a process holds `pi->lock`. -/
def Holding : Pc → Prop
  | .writing _ _ _ | .writeFull _ _ | .readWait _ | .reading _ _ => True
  | _ => False

/-- `wakeup(&pi->nread)` -/
def wakeRead : Pc → Pc
  | .readAsleep n => .readWoken n
  | pc => pc

/-- `wakeup(&pi->nwrite)` -/
def wakeWrite : Pc → Pc
  | .writeAsleep n i => .writeWoken n i
  | pc => pc

end Pc

structure State (Pid : Type) where
  pipe : Pipe
  /-- The holder of `pi->lock`. -/
  lock : Option Pid
  /-- The page of the pipe has been freed. -/
  freed : Bool
  killed : Pid → Bool
  pc : Pid → Pc
  /-- The bytes stored in `data` so far. -/
  stored : List UInt8
  /-- The bytes taken out of `data` so far. -/
  taken : List UInt8
  /-- The bytes that the latest `pipewrite` of a process stored. -/
  count : Pid → Nat

inductive Action where
  | pipewrite (n : Int)
  | piperead (n : Int)
  /-- One stretch of the call a process is in. `copied` is the byte that
  `copyin` gets, and `none` a failure of `copyin` or `copyout`. -/
  | run (copied : Option UInt8)
  | pipeclose (writable : Bool)
  /-- Somebody kills the process. -/
  | kill

namespace State

variable {Pid : Type} [DecidableEq Pid] (s : State Pid)

def setPc (p : Pid) (pc : Pc) : State Pid :=
  { s with pc := update s.pc p pc }

@[simp] theorem setPc_self (p : Pid) (pc : Pc) : (s.setPc p pc).pc p = pc :=
  update_self ..

theorem setPc_of_ne {p q : Pid} (pc : Pc) (other : q ≠ p) :
    (s.setPc p pc).pc q = s.pc q :=
  update_of_ne other ..

def wakeRead : State Pid := { s with pc := fun q => (s.pc q).wakeRead }

def wakeWrite : State Pid := { s with pc := fun q => (s.pc q).wakeWrite }

def acquire (p : Pid) (pc : Pc) : Outcome (State Pid) Empty :=
  if s.lock = none ∧ s.freed = false then .next ({ s with lock := some p }.setPc p pc) else .blocked

def release (p : Pid) (pc : Pc) : State Pid := { s with lock := none }.setPc p pc

/-- `pi->data[pi->nwrite++ % PIPESIZE] = ch` -/
def store (p : Pid) (ch : UInt8) : State Pid :=
  { s with
    pipe := { s.pipe with
      data := update s.pipe.data (s.pipe.nwrite % pipeSize) ch
      nwrite := (s.pipe.nwrite + 1) % 2 ^ 32 }
    stored := s.stored ++ [ch]
    count := update s.count p (s.count p + 1) }

/-- `ch = pi->data[pi->nread++ % PIPESIZE]` -/
def take : State Pid :=
  { s with
    pipe := { s.pipe with nread := (s.pipe.nread + 1) % 2 ^ 32 }
    taken := s.taken ++ [s.pipe.data (s.pipe.nread % pipeSize)] }

/-- The end of `pipewrite`. -/
def finishWrite (p : Pid) (i : Nat) : State Pid := s.wakeRead.release p (.written i)

/-- The end of `piperead`. -/
def finishRead (p : Pid) (i : Nat) : State Pid := s.wakeWrite.release p (.readDone i)

def writeStep (p : Pid) (n : Int) (i start : Nat) (copied : Option UInt8) :
    State Pid :=
  if (i : Int) < n then
    if s.pipe.readopen = false ∨ s.killed p = true then
      s.release p (.written (-1))
    else if s.pipe.nwrite = (s.pipe.nread + pipeSize) % 2 ^ 32 then
      s.wakeRead.setPc p (.writeFull n i)
    else
      match copied with
      | none => s.finishWrite p i
      | some ch => (s.store p ch).setPc p (.writing n (i + 1) start)
  else
    s.finishWrite p i

def waitStep (p : Pid) (n : Int) : State Pid :=
  if s.pipe.nread = s.pipe.nwrite ∧ s.pipe.writeopen = true then
    if s.killed p then s.release p (.readDone (-1)) else s.release p (.readAsleep n)
  else
    s.setPc p (.reading n 0)

def readStep (p : Pid) (n : Int) (i : Nat) (copied : Option UInt8) : State Pid :=
  if (i : Int) < n then
    if s.pipe.nread = s.pipe.nwrite then
      s.finishRead p i
    else
      match copied with
      | none => s.take.finishRead p i
      | some _ => s.take.setPc p (.reading n (i + 1))
  else
    s.finishRead p i

def pipeclose (writable : Bool) : State Pid :=
  let s := if writable then
      { s with pipe := { s.pipe with writeopen := false } }.wakeRead
    else
      { s with pipe := { s.pipe with readopen := false } }.wakeWrite
  { s with freed := s.pipe.readopen = false ∧ s.pipe.writeopen = false }

def kill (p : Pid) : State Pid :=
  { s with killed := update s.killed p true }.setPc p (s.pc p).wakeRead.wakeWrite

def step (p : Pid) : Action → Outcome (State Pid) Empty
  | .pipewrite n =>
    if (s.pc p).Resting then
      .next ({ s with count := update s.count p 0 }.setPc p (.writeCall n))
    else
      .blocked
  | .piperead n => if (s.pc p).Resting then .next (s.setPc p (.readCall n)) else .blocked
  | .run copied =>
    match s.pc p with
    | .writeCall n => s.acquire p (.writing n 0 0)
    | .writing n i start => .next (s.writeStep p n i start copied)
    | .writeFull n i => .next (s.release p (.writeAsleep n i))
    | .writeWoken n i => s.acquire p (.writing n i i)
    | .readCall n => s.acquire p (.readWait n)
    | .readWait n => .next (s.waitStep p n)
    | .readWoken n => s.acquire p (.readWait n)
    | .reading n i => .next (s.readStep p n i copied)
    | .outside | .writeAsleep _ _ | .written _ | .readAsleep _ | .readDone _ => .blocked
  | .pipeclose writable =>
    if (s.pc p).Resting ∧ s.lock = none ∧ s.freed = false then
      .next (s.pipeclose writable)
    else
      .blocked
  | .kill => .next (s.kill p)

end State

structure Initial {Pid : Type} (s : State Pid) : Prop where
  nread : s.pipe.nread = 0
  nwrite : s.pipe.nwrite = 0
  readopen : s.pipe.readopen = true
  writeopen : s.pipe.writeopen = true
  lock : s.lock = none
  freed : s.freed = false
  pc : ∀ p, s.pc p = .outside
  stored : s.stored = []
  taken : s.taken = []

def system (Pid : Type) [DecidableEq Pid] :
    TransitionSystem (State Pid) (Pid × Action) Empty where
  initial := Initial
  allowed _ _ := True
  step s label := s.step label.1 label.2

variable {Pid : Type} [DecidableEq Pid] (s : State Pid) (p : Pid) in
/-- What a step can do, with the tests it passed. -/
inductive Effect : Action → State Pid → Prop where
  | callWrite {n} : (s.pc p).Resting → Effect (.pipewrite n)
      ({ s with count := update s.count p 0 }.setPc p (.writeCall n))
  | callRead {n} : (s.pc p).Resting → Effect (.piperead n) (s.setPc p (.readCall n))
  | lockWrite {n i copied} : s.pc p = .writeCall n ∧ i = 0 ∨ s.pc p = .writeWoken n i →
      s.lock = none →
      Effect (.run copied) ({ s with lock := some p }.setPc p (.writing n i i))
  | lockRead {n copied} : s.pc p = .readCall n ∨ s.pc p = .readWoken n → s.lock = none →
      Effect (.run copied) ({ s with lock := some p }.setPc p (.readWait n))
  | giveUp {n i start copied} : s.pc p = .writing n i start →
      s.pipe.readopen = false ∨ s.killed p = true →
        Effect (.run copied) (s.release p (.written (-1)))
  | full {n i start copied} : s.pc p = .writing n i start → s.pipe.readopen = true →
      s.pipe.nwrite = (s.pipe.nread + pipeSize) % 2 ^ 32 →
      Effect (.run copied) (s.wakeRead.setPc p (.writeFull n i))
  | store {n i start ch copied} : s.pc p = .writing n i start → s.pipe.readopen = true →
      s.killed p = false → s.pipe.nwrite ≠ (s.pipe.nread + pipeSize) % 2 ^ 32 →
      Effect (.run copied) ((s.store p ch).setPc p (.writing n (i + 1) start))
  | finishWrite {n i start copied} : s.pc p = .writing n i start →
      Effect (.run copied) (s.finishWrite p i)
  | sleepWrite {n i copied} : s.pc p = .writeFull n i →
      Effect (.run copied) (s.release p (.writeAsleep n i))
  | sleepRead {n copied} : s.pc p = .readWait n → s.pipe.nread = s.pipe.nwrite →
      s.pipe.writeopen = true →
      Effect (.run copied) (s.release p (.readAsleep n))
  | stopRead {n copied} : s.pc p = .readWait n → Effect (.run copied) (s.release p (.readDone (-1)))
  | startRead {n copied} : s.pc p = .readWait n → Effect (.run copied) (s.setPc p (.reading n 0))
  | take {n i copied} : s.pc p = .reading n i → s.pipe.nread ≠ s.pipe.nwrite →
      Effect (.run copied) (s.take.setPc p (.reading n (i + 1)))
  | takeLast {n i copied} : s.pc p = .reading n i → s.pipe.nread ≠ s.pipe.nwrite →
      Effect (.run copied) (s.take.finishRead p i)
  | finishRead {n i copied} : s.pc p = .reading n i → Effect (.run copied) (s.finishRead p i)
  | pipeclose {writable} : (s.pc p).Resting → s.lock = none →
      Effect (.pipeclose writable) (s.pipeclose writable)
  | kill : Effect .kill (s.kill p)

section steps

variable {Pid : Type} [DecidableEq Pid] {s s' : State Pid} {p : Pid} {action : Action} {pc : Pc}

theorem acquire_next (moved : s.acquire p pc = .next s') :
    s.lock = none ∧ s' = { s with lock := some p }.setPc p pc := by
  unfold State.acquire at moved
  split at moved
  next free => cases moved; exact ⟨free.1, rfl⟩
  next => cases moved

variable {copied : Option UInt8}

theorem writeStep_effect {n : Int} {i start : Nat} (at' : s.pc p = .writing n i start) :
    Effect s p (.run copied) (s.writeStep p n i start copied) := by
  unfold State.writeStep
  split
  next =>
    split
    next stop => exact .giveUp at' stop
    next go =>
      have go' : s.pipe.readopen = true ∧ s.killed p = false := by simpa using go
      split
      next full => exact .full at' go'.1 full
      next room =>
        cases copied with
        | none => exact .finishWrite at'
        | some ch => exact .store at' go'.1 go'.2 room
  next => exact .finishWrite at'

theorem waitStep_effect {n : Int} (at' : s.pc p = .readWait n) :
    Effect s p (.run copied) (s.waitStep p n) := by
  unfold State.waitStep
  split
  next empty =>
    split
    next => exact .stopRead at'
    next => exact .sleepRead at' empty.1 empty.2
  next => exact .startRead at'

theorem readStep_effect {n : Int} {i : Nat} (at' : s.pc p = .reading n i) :
    Effect s p (.run copied) (s.readStep p n i copied) := by
  unfold State.readStep
  split
  next =>
    split
    next => exact .finishRead at'
    next more =>
      cases copied with
      | none => exact .takeLast at' more
      | some ch => exact .take at' more
  next => exact .finishRead at'

theorem step_effect (moved : s.step p action = .next s') : Effect s p action s' := by
  cases action with
  | pipewrite n =>
    simp only [State.step] at moved
    split at moved
    next resting => cases moved; exact .callWrite resting
    next => cases moved
  | piperead n =>
    simp only [State.step] at moved
    split at moved
    next resting => cases moved; exact .callRead resting
    next => cases moved
  | run copied =>
    simp only [State.step] at moved
    split at moved
    next n at' =>
      obtain ⟨free, rfl⟩ := acquire_next moved
      exact .lockWrite (.inl ⟨at', rfl⟩) free
    next n i start at' => cases moved; exact writeStep_effect at'
    next n i at' => cases moved; exact .sleepWrite at'
    next n i at' =>
      obtain ⟨free, rfl⟩ := acquire_next moved
      exact .lockWrite (.inr at') free
    next n at' =>
      obtain ⟨free, rfl⟩ := acquire_next moved
      exact .lockRead (.inl at') free
    next n at' => cases moved; exact waitStep_effect at'
    next n at' =>
      obtain ⟨free, rfl⟩ := acquire_next moved
      exact .lockRead (.inr at') free
    next n i at' => cases moved; exact readStep_effect at'
    all_goals cases moved
  | pipeclose writable =>
    simp only [State.step] at moved
    split at moved
    next free => cases moved; exact .pipeclose free.1 free.2.1
    next => cases moved
  | kill => cases moved; exact .kill

end steps

end Xv6.Pipes
