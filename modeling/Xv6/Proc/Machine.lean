import Xv6.Library.Transition

/-!
# Processes, CPUs and their locks

The process table of `kernel/proc.c` with any number of slots and CPUs. Each
acquisition and release of a lock, each assignment made by `sleep`, `wakeup`,
`yield` and the scheduler, and each half of `swtch` is a step of a CPU. The other
critical sections under a `p->lock` are an acquisition, one step for what is
done with the lock, and a release.

A CPU executes the thread of a process, on the kernel stack of that process, or
its own scheduler. What a process does besides the calls of this file is taking
and releasing locks of its own.
-/

namespace Xv6.Proc

open Function

inductive ProcState where
  | unused
  | used
  | sleeping
  | runnable
  | running
  | zombie
  deriving DecidableEq

/-- What a process can sleep on: the address of a process or another address. -/
inductive Chan (n : Nat) where
  | proc (p : Fin n)
  | other (addr : Nat)
  deriving DecidableEq

/-- The locks that are not a `p->lock`. -/
inductive Lock where
  | waitLock
  | other (addr : Nat)
  deriving DecidableEq

inductive AfterSleep where
  | done
  /-- The loop of `wait(addr)`. -/
  | wait (addr : Nat)
  deriving DecidableEq

inductive AfterWakeup (n : Nat) where
  | done
  /-- The loop of `reparent`, in `exit(status)`. -/
  | reparent (todo : List (Fin n)) (status : Int)
  | exit (status : Int)
  deriving DecidableEq

/-- What is done with the processes of the table, each under its lock. -/
inductive Job (n : Nat) where
  | wakeup (chan : Chan n) (after : AfterWakeup n)
  | kill (pid : Int)
  /-- The search of `allocproc`. -/
  | fork
  /-- `np->state = RUNNABLE`, in a call of `fork` that is to return `pid`. -/
  | start (pid : Int)
  | wait (addr : Nat) (havekids : Bool)
  deriving DecidableEq

/-- Whether the loop over the table goes on. -/
inductive Verdict where
  | pass
  | hit (result : Int)
  | fail
  deriving DecidableEq

/-- A system call that has returned. -/
inductive Call where
  | fork
  | wait (addr : Nat)
  | kill (pid : Int)
  deriving DecidableEq

/-- The steps before which a thread can be without a lock, so that the timer can
interrupt it. -/
inductive Point (n : Nat) where
  /-- Outside the code modelled here. -/
  | running
  | returned (call : Call) (result : Int)
  /-- The end of `sleep`, at `acquire(lk)`. -/
  | sleepReacquire (lk : Lock) (after : AfterSleep)
  /-- A loop over the table. -/
  | scan (job : Job n) (todo : List (Fin n))
  | setkilledAcquire
  /-- The end of `fork`, with the `pid` read before. -/
  | forkLock (np : Fin n) (pid : Int)
  | exitLock (status : Int)
  | waitLock (addr : Nat)
  deriving DecidableEq

/-- Where a thread goes on when it is scheduled again. -/
inductive Resume (n : Nat) where
  | forkret
  | yield (back : Point n)
  | sleep (lk : Lock) (after : AfterSleep)
  | exit
  deriving DecidableEq

/-- The next step of the thread of a process. -/
inductive Pc (n : Nat) where
  | point (point : Point n)
  -- `sleep(chan, lk)`
  | sleepAcquire (chan : Chan n) (lk : Lock) (after : AfterSleep)
  | sleepRelease (chan : Chan n) (lk : Lock) (after : AfterSleep)
  | sleepChan (chan : Chan n) (lk : Lock) (after : AfterSleep)
  | sleepState (lk : Lock) (after : AfterSleep)
  | sleepTidy (lk : Lock) (after : AfterSleep)
  | sleepUnlock (lk : Lock) (after : AfterSleep)
  -- `yield`
  | yieldAcquire (back : Point n)
  | yieldState (back : Point n)
  /-- `release(&p->lock)` at the end of `yield`, `forkret` and `setkilled`. -/
  | unlock (back : Point n)
  -- `sched`
  | sched (resume : Resume n)
  /-- The context is saved and that of the scheduler comes next. -/
  | swtch (resume : Resume n)
  | parked (resume : Resume n)
  -- a loop over the table, with the lock of `q`
  | visit (job : Job n) (q : Fin n) (todo : List (Fin n))
  | leave (job : Job n) (q : Fin n) (todo : List (Fin n)) (verdict : Verdict)
  -- `setkilled`
  | setkilledWrite
  -- the end of `fork`
  | forkParent (np : Fin n) (pid : Int)
  | forkUnlock (np : Fin n) (pid : Int)
  -- `exit`
  | reparent (todo : List (Fin n)) (status : Int)
  | exitAcquire (status : Int)
  | exitState (status : Int)
  | exitUnlock
  -- `wait`
  | killedAcquire (addr : Nat)
  | killedRead (addr : Nat)
  | killedRelease (addr : Nat) (killed : Bool)
  | waitUnlock (addr : Nat) (result : Int)
  deriving DecidableEq

namespace Pc

variable {n : Nat}

@[match_pattern] abbrev running : Pc n := .point .running

@[match_pattern] abbrev returned (call : Call) (result : Int) : Pc n :=
  .point (.returned call result)

@[match_pattern] abbrev sleepReacquire (lk : Lock) (after : AfterSleep) : Pc n :=
  .point (.sleepReacquire lk after)

@[match_pattern] abbrev scan (job : Job n) (todo : List (Fin n)) : Pc n := .point (.scan job todo)

@[match_pattern] abbrev setkilledAcquire : Pc n := .point .setkilledAcquire

@[match_pattern] abbrev forkLock (np : Fin n) (pid : Int) : Pc n :=
  .point (.forkLock np pid)

@[match_pattern] abbrev exitLock (status : Int) : Pc n := .point (.exitLock status)

@[match_pattern] abbrev waitLock (addr : Nat) : Pc n := .point (.waitLock addr)

end Pc

inductive SchedPc (n : Nat) where
  | idle
  /-- With the lock of `p`, about to look at its state. -/
  | locked (p : Fin n)
  /-- `c->proc = p` -/
  | assign (p : Fin n)
  | swtch (p : Fin n)
  /-- The CPU is on the stack of `p`. -/
  | running (p : Fin n)
  /-- `c->proc = 0` -/
  | back (p : Fin n)
  | unlock (p : Fin n)
  deriving DecidableEq

inductive Panic where
  | acquire
  | release
  /-- `sched p->lock` -/
  | schedLock
  /-- `sched locks` -/
  | schedLocks
  /-- `sched running` -/
  | schedRunning
  /-- `init exiting` -/
  | initExiting
  /-- `zombie exit` -/
  | zombieExit
  deriving DecidableEq

structure State (n : Nat) (Cpu : Type) where
  state : Fin n → ProcState
  pid : Fin n → Int
  killed : Fin n → Bool
  chan : Fin n → Option (Chan n)
  parent : Fin n → Option (Fin n)
  xstate : Fin n → Int
  nextpid : Int
  /-- The CPU that holds `p->lock`. -/
  plock : Fin n → Option Cpu
  /-- The process whose thread holds another lock. -/
  held : Lock → Option (Fin n)
  /-- `c->noff`, the number of locks that the CPU holds. -/
  noff : Cpu → Nat
  /-- `c->proc` -/
  cproc : Cpu → Option (Fin n)
  /-- Whose kernel stack the CPU is on; `none` for the scheduler's. -/
  stack : Cpu → Option (Fin n)
  /-- `p->context` is that of the thread of `p`. -/
  saved : Fin n → Bool
  pc : Fin n → Pc n
  sched : Cpu → SchedPc n
  /-- The `int` at an address of the memory of a process. -/
  memory : Fin n → Nat → Int

/-- What a CPU does next, where the code or the environment has a choice. -/
inductive Choice (n : Nat) where
  | go
  /-- `kalloc` or `copyout` fails. -/
  | fail
  | acquire (addr : Nat)
  | release (addr : Nat)
  | sleep (chan : Chan n) (addr : Nat)
  | wakeup (chan : Chan n)
  /-- The timer interrupts the thread, which calls `yield`. -/
  | yield
  | setkilled
  | fork
  | exit (status : Int)
  | wait (addr : Nat)
  | kill (pid : Int)
  /-- The scheduler gets to `p`. -/
  | pick (p : Fin n)
  deriving DecidableEq

namespace State

variable {n : Nat} {Cpu : Type} [DecidableEq Cpu] (s : State n Cpu)

def setPc (p : Fin n) (pc : Pc n) : State n Cpu :=
  { s with pc := update s.pc p pc }

def setSched (c : Cpu) (pc : SchedPc n) : State n Cpu :=
  { s with sched := update s.sched c pc }

def setState (p : Fin n) (state : ProcState) : State n Cpu :=
  { s with state := update s.state p state }

def setChan (p : Fin n) (chan : Option (Chan n)) : State n Cpu :=
  { s with chan := update s.chan p chan }

def setParent (p : Fin n) (parent : Option (Fin n)) : State n Cpu :=
  { s with parent := update s.parent p parent }

def setKilled (p : Fin n) : State n Cpu :=
  { s with killed := update s.killed p true }

/-- `copyout` of an `int` to the memory of `p`. -/
def copyout (p : Fin n) (addr : Nat) (value : Int) : State n Cpu :=
  { s with memory := update s.memory p (update (s.memory p) addr value) }

/-- The CPU gets `q->lock`. -/
def takeLock (c : Cpu) (q : Fin n) : State n Cpu :=
  { s with
    plock := update s.plock q (some c)
    noff := update s.noff c (s.noff c + 1) }

def dropLock (c : Cpu) (q : Fin n) : State n Cpu :=
  { s with
    plock := update s.plock q none
    noff := update s.noff c (s.noff c - 1) }

/-- The thread of `p` gets another lock. -/
def take (c : Cpu) (p : Fin n) (lk : Lock) : State n Cpu :=
  { s with
    held := update s.held lk (some p)
    noff := update s.noff c (s.noff c + 1) }

def drop (c : Cpu) (lk : Lock) : State n Cpu :=
  { s with
    held := update s.held lk none
    noff := update s.noff c (s.noff c - 1) }

def acquireProc (c : Cpu) (q : Fin n) (next : State n Cpu → State n Cpu) :
    Outcome (State n Cpu) Panic :=
  match s.plock q with
  | none => .next (next (s.takeLock c q))
  | some holder => if holder = c then .fault .acquire else .blocked

def releaseProc (c : Cpu) (q : Fin n) (next : State n Cpu → State n Cpu) :
    Outcome (State n Cpu) Panic :=
  if s.plock q = some c then .next (next (s.dropLock c q)) else .fault .release

def acquire (c : Cpu) (p : Fin n) (lk : Lock) (pc : Pc n) :
    Outcome (State n Cpu) Panic :=
  match s.held lk with
  | none => .next ((s.take c p lk).setPc p pc)
  | some holder => if holder = p then .fault .acquire else .blocked

def release (c : Cpu) (p : Fin n) (lk : Lock) (pc : Pc n) :
    Outcome (State n Cpu) Panic :=
  if s.held lk = some p then .next ((s.drop c lk).setPc p pc) else .fault .release

/-- What `freeproc` does to the fields modelled here. -/
def freeproc (q : Fin n) : State n Cpu :=
  { s with
    pid := update s.pid q 0
    parent := update s.parent q none
    chan := update s.chan q none
    killed := update s.killed q false
    xstate := update s.xstate q 0
    state := update s.state q .unused }

/-- What `allocproc` does to a free slot. `nextpid` is an `int`. -/
def allocproc (q : Fin n) : State n Cpu :=
  { s with
    pid := update s.pid q s.nextpid
    nextpid := (s.nextpid + 1).bmod (2 ^ 32)
    state := update s.state q .used }

/-- The context of a new process leads to `forkret`. -/
def setContext (q : Fin n) : State n Cpu :=
  { s with saved := update s.saved q true }.setPc q (.parked .forkret)

end State

def table (n : Nat) : List (Fin n) := List.finRange n

def AfterSleep.pc {n : Nat} : AfterSleep → Pc n
  | .done => .running
  | .wait addr => .scan (.wait addr false) (table n)

def AfterWakeup.pc {n : Nat} : AfterWakeup n → Pc n
  | .done => .running
  | .reparent todo status => .reparent todo status
  | .exit status => .exitAcquire status

def Resume.pc {n : Nat} : Resume n → Option (Pc n)
  | .forkret => some (.unlock .running)
  | .yield back => some (.unlock back)
  | .sleep lk after => some (.sleepTidy lk after)
  | .exit => none

def Job.finish {n : Nat} : Job n → Pc n
  | .wakeup _ after => after.pc
  | .kill pid => .returned (.kill pid) (-1)
  | .fork | .start _ => .returned .fork (-1)
  | .wait addr havekids => if havekids then .killedAcquire addr else .waitUnlock addr (-1)

def Job.next {n : Nat} (job : Job n) (q : Fin n) (todo : List (Fin n)) : Verdict → Pc n
  | .pass =>
    match job with
    | .wait addr _ => .scan (.wait addr true) todo
    | job => .scan job todo
  | .hit result =>
    match job with
    | .wakeup _ after => after.pc
    | .kill pid => .returned (.kill pid) result
    | .fork => .forkLock q result
    | .start _ => .returned .fork result
    | .wait addr _ => .waitUnlock addr result
  | .fail =>
    match job with
    | .wakeup _ after => after.pc
    | .kill pid => .returned (.kill pid) (-1)
    | .fork | .start _ => .returned .fork (-1)
    | .wait addr _ => .waitUnlock addr (-1)

def Choice.entry {n : Nat} : Choice n → Option (Pc n)
  | .sleep chan addr => some (.sleepAcquire chan (.other addr) .done)
  | .wakeup chan => some (.scan (.wakeup chan .done) (table n))
  | .setkilled => some .setkilledAcquire
  | .fork => some (.scan .fork (table n))
  | .wait addr => some (.waitLock addr)
  | .kill pid => some (.scan (.kill pid) (table n))
  | .go | .fail | .acquire _ | .release _ | .yield | .exit _ | .pick _ => none

namespace State

variable {n : Nat} {Cpu : Type} [DecidableEq Cpu]

/-- Whether the loop of `p` is concerned with `q` at all. -/
def concerns (s : State n Cpu) (p q : Fin n) : Job n → Bool
  | .wakeup _ _ => q ≠ p
  | .wait _ _ => s.parent q = some p
  | .kill _ | .fork | .start _ => true

/-- What a job of `p` does to `q`, with `q->lock` held. -/
def perform (s : State n Cpu) (p q : Fin n) (choice : Choice n) : Job n → State n Cpu × Verdict
  | .wakeup chan _ =>
    if s.state q = .sleeping ∧ s.chan q = some chan then
      (s.setState q .runnable, .pass)
    else
      (s, .pass)
  | .kill pid =>
    if s.pid q = pid then
      (if s.state q = .sleeping then (s.setKilled q).setState q .runnable else s.setKilled q,
      .hit 0)
    else
      (s, .pass)
  | .fork =>
    if s.state q = .unused then
      -- out of memory, here or in `uvmcopy`
      if choice = .fail then
        ((s.allocproc q).freeproc q, .fail)
      else
        ((s.allocproc q).setContext q, .hit s.nextpid)
    else
      (s, .pass)
  | .start pid => (s.setState q .runnable, .hit pid)
  | .wait addr _ =>
    if s.state q = .zombie then
      if addr = 0 then
        (s.freeproc q, .hit (s.pid q))
      else if choice = .fail then
        (s, .fail)
      else
        ((s.copyout p addr (s.xstate q)).freeproc q, .hit (s.pid q))
    else
      (s, .pass)

/-- What the thread of `p` does next on CPU `c`, outside the code modelled here. -/
def call (initproc : Fin n) (s : State n Cpu) (c : Cpu) (p : Fin n) (choice : Choice n) :
    Outcome (State n Cpu) Panic :=
  match choice with
  | .acquire addr => s.acquire c p (.other addr) .running
  | .release addr => s.release c p (.other addr) .running
  | .exit status =>
    if p = initproc then .fault .initExiting else .next (s.setPc p (.exitLock status))
  | choice =>
    match choice.entry with
    | some pc => .next (s.setPc p pc)
    | none => .blocked

/-- The next step in the code of the thread of `p`, which CPU `c` executes. -/
def codeStep (initproc : Fin n) (s : State n Cpu) (c : Cpu) (p : Fin n) (choice : Choice n) :
    Outcome (State n Cpu) Panic :=
  match s.pc p with
  | .running | .returned _ _ => s.call initproc c p choice
  | .sleepAcquire chan lk after => s.acquireProc c p (·.setPc p (.sleepRelease chan lk after))
  | .sleepRelease chan lk after => s.release c p lk (.sleepChan chan lk after)
  | .sleepChan chan lk after => .next ((s.setChan p (some chan)).setPc p (.sleepState lk after))
  | .sleepState lk after => .next ((s.setState p .sleeping).setPc p (.sched (.sleep lk after)))
  | .sleepTidy lk after => .next ((s.setChan p none).setPc p (.sleepUnlock lk after))
  | .sleepUnlock lk after => s.releaseProc c p (·.setPc p (.sleepReacquire lk after))
  | .sleepReacquire lk after => s.acquire c p lk after.pc
  | .yieldAcquire back => s.acquireProc c p (·.setPc p (.yieldState back))
  | .yieldState back => .next ((s.setState p .runnable).setPc p (.sched (.yield back)))
  | .unlock back => s.releaseProc c p (·.setPc p (.point back))
  | .sched resume =>
    if s.plock p ≠ some c then
      .fault .schedLock
    else if s.noff c ≠ 1 then
      .fault .schedLocks
    else if s.state p = .running then
      .fault .schedRunning
    else
      .next ({ s with saved := update s.saved p true }.setPc p (.swtch resume))
  | .swtch resume =>
    .next (({ s with stack := update s.stack c none }.setPc p
      (.parked resume)).setSched c (.back p))
  | .parked _ => .blocked
  | .scan job [] => .next (s.setPc p job.finish)
  | .scan job (q :: todo) =>
    if s.concerns p q job then
      s.acquireProc c q (·.setPc p (.visit job q todo))
    else
      .next (s.setPc p (.scan job todo))
  | .visit job q todo =>
    let done := s.perform p q choice job
    .next (done.1.setPc p (.leave job q todo done.2))
  | .leave job q todo verdict => s.releaseProc c q (·.setPc p (job.next q todo verdict))
  | .setkilledAcquire => s.acquireProc c p (·.setPc p .setkilledWrite)
  | .setkilledWrite => .next ((s.setKilled p).setPc p (.unlock .running))
  | .forkLock np pid => s.acquire c p .waitLock (.forkParent np pid)
  | .forkParent np pid => .next ((s.setParent np (some p)).setPc p (.forkUnlock np pid))
  | .forkUnlock np pid => s.release c p .waitLock (.scan (.start pid) [np])
  | .exitLock status => s.acquire c p .waitLock (.reparent (table n) status)
  | .reparent [] status =>
    .next (s.setPc p (match s.parent p with
      | some parent => .scan (.wakeup (.proc parent) (.exit status)) (table n)
      | none => .exitAcquire status))
  | .reparent (q :: todo) status =>
    if s.parent q = some p then
      .next ((s.setParent q (some initproc)).setPc p
        (.scan (.wakeup (.proc initproc) (.reparent todo status)) (table n)))
    else
      .next (s.setPc p (.reparent todo status))
  | .exitAcquire status => s.acquireProc c p (·.setPc p (.exitState status))
  | .exitState status =>
    .next (({ s with xstate := update s.xstate p status }.setState p .zombie).setPc p
      .exitUnlock)
  | .exitUnlock => s.release c p .waitLock (.sched .exit)
  | .waitLock addr => s.acquire c p .waitLock (.scan (.wait addr false) (table n))
  | .killedAcquire addr => s.acquireProc c p (·.setPc p (.killedRead addr))
  | .killedRead addr => .next (s.setPc p (.killedRelease addr (s.killed p)))
  | .killedRelease addr killed => s.releaseProc c p (·.setPc p
      (if killed then .waitUnlock addr (-1) else .sleepAcquire (.proc p) .waitLock (.wait addr)))
  | .waitUnlock addr result => s.release c p .waitLock (.returned (.wait addr) result)

/-- The next step of the thread of `p`. Interrupts are off while the CPU holds a lock. -/
def procStep (initproc : Fin n) (s : State n Cpu) (c : Cpu) (p : Fin n) (choice : Choice n) :
    Outcome (State n Cpu) Panic :=
  match s.pc p, choice with
  | .point back, .yield =>
    if s.noff c = 0 then .next (s.setPc p (.yieldAcquire back)) else .blocked
  | _, _ => s.codeStep initproc c p choice

def schedStep (s : State n Cpu) (c : Cpu) (choice : Choice n) : Outcome (State n Cpu) Panic :=
  match s.sched c with
  | .idle =>
    match choice with
    | .pick p => s.acquireProc c p (·.setSched c (.locked p))
    | _ => .blocked
  | .locked p =>
    if s.state p = .runnable then
      .next ((s.setState p .running).setSched c (.assign p))
    else
      .next (s.setSched c (.unlock p))
  | .assign p => .next ({ s with cproc := update s.cproc c (some p) }.setSched c (.swtch p))
  | .swtch p =>
    match s.pc p with
    | .parked resume =>
      match resume.pc with
      | some pc => .next (({ s with
          stack := update s.stack c (some p)
          saved := update s.saved p false }.setPc p pc).setSched c (.running p))
      | none => .fault .zombieExit
    | _ => .blocked
  | .running _ => .blocked
  | .back p => .next ({ s with cproc := update s.cproc c none }.setSched c (.unlock p))
  | .unlock p => s.releaseProc c p (·.setSched c .idle)

def step (initproc : Fin n) (s : State n Cpu) (c : Cpu) (choice : Choice n) :
    Outcome (State n Cpu) Panic :=
  match s.stack c with
  | some p => s.procStep initproc c p choice
  | none => s.schedStep c choice

end State

structure Initial {n : Nat} {Cpu : Type} (initproc : Fin n) (s : State n Cpu) : Prop where
  init : s.state initproc = .runnable ∧ s.saved initproc = true
  unused : ∀ p, p ≠ initproc → s.state p = .unused
  pid : ∀ p, p ≠ initproc → s.pid p = 0
  killed : ∀ p, s.killed p = false
  parent : ∀ p, s.parent p = none
  plock : ∀ p, s.plock p = none
  held : ∀ lk, s.held lk = none
  noff : ∀ c, s.noff c = 0
  cproc : ∀ c, s.cproc c = none
  stack : ∀ c, s.stack c = none
  pc : ∀ p, s.pc p = .parked .forkret
  sched : ∀ c, s.sched c = .idle

def State.boot {n : Nat} {Cpu : Type} (initproc : Fin n) : State n Cpu where
  state p := if p = initproc then .runnable else .unused
  pid p := if p = initproc then 1 else 0
  killed _ := false
  chan _ := none
  parent _ := none
  xstate _ := 0
  nextpid := 2
  plock _ := none
  held _ := none
  noff _ := 0
  cproc _ := none
  stack _ := none
  saved p := p = initproc
  pc _ := .parked .forkret
  sched _ := .idle
  memory _ _ := 0

theorem State.boot_initial {n : Nat} {Cpu : Type} (initproc : Fin n) :
    Initial initproc (State.boot initproc : State n Cpu) where
  init := by simp [State.boot]
  unused p other := by simp [State.boot, other]
  pid p other := by simp [State.boot, other]
  killed _ := rfl
  parent _ := rfl
  plock _ := rfl
  held _ := rfl
  noff _ := rfl
  cproc _ := rfl
  stack _ := rfl
  pc _ := rfl
  sched _ := rfl

def system (n : Nat) (Cpu : Type) [DecidableEq Cpu] (initproc : Fin n) :
    TransitionSystem (State n Cpu) (Cpu × Choice n) Panic where
  initial := Initial initproc
  allowed _ _ := True
  step s label := s.step initproc label.1 label.2

instance {n : Nat} {Cpu : Type} [DecidableEq Cpu] {initproc : Fin n} (s : State n Cpu)
    (label : Cpu × Choice n) : Decidable ((system n Cpu initproc).allowed s label) :=
  inferInstanceAs (Decidable True)

end Xv6.Proc
