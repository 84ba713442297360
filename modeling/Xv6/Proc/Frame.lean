import Xv6.Proc.Threads

/-!
# What others do to a process

A step of a CPU that does not execute the thread of `q` leaves the slot of `q`
in the table alone or changes it in one of a few ways, with `q->lock` or
`wait_lock` held.
-/

namespace Xv6.Proc

open State

variable {n : Nat} {Cpu : Type} [DecidableEq Cpu]

structure Slot (n : Nat) where
  state : ProcState
  pid : Int
  killed : Bool
  chan : Option (Chan n)
  parent : Option (Fin n)
  xstate : Int
  pc : Pc n

def Slot.free (slot : Slot n) : Slot n :=
  { slot with
    state := .unused, pid := 0, killed := false, chan := none, parent := none, xstate := 0 }

def State.slot (s : State n Cpu) (q : Fin n) : Slot n :=
  ⟨s.state q, s.pid q, s.killed q, s.chan q, s.parent q, s.xstate q, s.pc q⟩

variable (initproc : Fin n) (s : State n Cpu) (c : Cpu) (q : Fin n) in
/-- The slot of `q` after a step of CPU `c`, which does not execute its thread. -/
inductive Outside : Slot n → Prop where
  | same : Outside (s.slot q)
  | wake {p chan after todo} : s.stack c = some p → s.pc p = .visit (.wakeup chan after) q todo →
      s.state q = .sleeping → s.chan q = some chan → Outside { s.slot q with state := .runnable }
  | kill {p pid todo} : s.stack c = some p → s.pc p = .visit (.kill pid) q todo → s.pid q = pid →
      s.state q ≠ .sleeping → Outside { s.slot q with killed := true }
  | killAsleep {p pid todo} : s.stack c = some p → s.pc p = .visit (.kill pid) q todo →
      s.pid q = pid → s.state q = .sleeping →
      Outside { s.slot q with killed := true, state := .runnable }
  | alloc {p todo} : s.stack c = some p → s.pc p = .visit .fork q todo → s.state q = .unused →
      Outside { s.slot q with pid := s.nextpid, state := .used, pc := .parked .forkret }
  | noMemory {p todo} : s.stack c = some p → s.pc p = .visit .fork q todo → s.state q = .unused →
      Outside (s.slot q).free
  | start {p pid todo} : s.stack c = some p → s.pc p = .visit (.start pid) q todo →
      Outside { s.slot q with state := .runnable }
  | reap {p addr havekids todo} : s.stack c = some p →
      s.pc p = .visit (.wait addr havekids) q todo →
      s.state q = .zombie → Outside (s.slot q).free
  | setParent {p pid} : s.stack c = some p → s.pc p = .forkParent q pid →
      Outside { s.slot q with parent := some p }
  | reparent {p todo status} : s.stack c = some p → s.pc p = .reparent (q :: todo) status →
      s.parent q = some p → Outside { s.slot q with parent := some initproc }
  | select : s.stack c = none → s.sched c = .locked q → s.state q = .runnable →
      Outside { s.slot q with state := .running }
  | switch {resume pc} : s.stack c = none → s.sched c = .swtch q → s.pc q = .parked resume →
      resume.pc = some pc → Outside { s.slot q with pc := pc }

section slots

variable (s : State n Cpu) {p q : Fin n}

section

omit [DecidableEq Cpu]

theorem slot_setPc_of_ne (other : q ≠ p) (pc : Pc n) : (s.setPc p pc).slot q = s.slot q := by
  simp [slot, setPc, other]

theorem slot_setState_of_ne (other : q ≠ p) (state : ProcState) :
    (s.setState p state).slot q = s.slot q := by
  simp [slot, setState, other]

theorem slot_setState_self (state : ProcState) :
    (s.setState q state).slot q = { s.slot q with state } := by
  simp [slot, setState]

theorem slot_setChan_of_ne (other : q ≠ p) (chan : Option (Chan n)) :
    (s.setChan p chan).slot q = s.slot q := by
  simp [slot, setChan, other]

theorem slot_setParent_of_ne (other : q ≠ p) (parent : Option (Fin n)) :
    (s.setParent p parent).slot q = s.slot q := by
  simp [slot, setParent, other]

theorem slot_setParent_self (parent : Option (Fin n)) :
    (s.setParent q parent).slot q = { s.slot q with parent } := by
  simp [slot, setParent]

theorem slot_setKilled_of_ne (other : q ≠ p) : (s.setKilled p).slot q = s.slot q := by
  simp [slot, setKilled, other]

theorem slot_setKilled_self : (s.setKilled q).slot q = { s.slot q with killed := true } := by
  simp [slot, setKilled]

theorem slot_freeproc_of_ne (other : q ≠ p) : (s.freeproc p).slot q = s.slot q := by
  simp [slot, freeproc, other]

theorem slot_freeproc_self : (s.freeproc q).slot q = (s.slot q).free := by
  simp [slot, freeproc, Slot.free]

theorem slot_allocproc_of_ne (other : q ≠ p) : (s.allocproc p).slot q = s.slot q := by
  simp [slot, allocproc, other]

theorem slot_allocproc_self :
    (s.allocproc q).slot q = { s.slot q with pid := s.nextpid, state := .used } := by
  simp [slot, allocproc]

theorem slot_setContext_of_ne (other : q ≠ p) : (s.setContext p).slot q = s.slot q := by
  simp [slot, setContext, setPc, other]

theorem slot_setContext_self :
    (s.setContext q).slot q = { s.slot q with pc := .parked .forkret } := by
  simp [slot, setContext, setPc]

end

end slots

variable {initproc : Fin n} {s s' : State n Cpu} {c : Cpu} {p q r : Fin n} {choice : Choice n}

omit [DecidableEq Cpu] in
theorem Visit.slot_of_ne {job : Job n} {verdict : Verdict} (does : Visit s p r job s' verdict)
    (other : q ≠ r) : s'.slot q = s.slot q := by
  cases does with
  | wake | start => exact slot_setState_of_ne s other _
  | kill => exact slot_setKilled_of_ne s other
  | killAsleep =>
    exact (slot_setState_of_ne _ other _).trans (slot_setKilled_of_ne s other)
  | alloc =>
    exact (slot_setContext_of_ne _ other).trans (slot_allocproc_of_ne s other)
  | noMemory =>
    exact (slot_freeproc_of_ne _ other).trans (slot_allocproc_of_ne s other)
  | reap => exact slot_freeproc_of_ne s other
  | @reapCopy addr =>
    exact slot_freeproc_of_ne (s.copyout p addr (s.xstate r)) other
  | unheard | otherPid | taken | copyFailed | alive => rfl

omit [DecidableEq Cpu] in
theorem Visit.outside {job : Job n} {todo : List (Fin n)} {verdict : Verdict}
    (does : Visit s p q job s' verdict) (on : s.stack c = some p)
    (at' : s.pc p = .visit job q todo) :
    Outside initproc s c q (s'.slot q) := by
  cases does with
  | wake asleep heard => exact slot_setState_self s _ ▸ .wake on at' asleep heard
  | kill found awake => exact slot_setKilled_self s ▸ .kill on at' found awake
  | killAsleep found asleep =>
    rw [slot_setState_self, slot_setKilled_self]
    exact .killAsleep on at' found asleep
  | alloc unused =>
    rw [slot_setContext_self, slot_allocproc_self]
    exact .alloc on at' unused
  | noMemory unused =>
    rw [slot_freeproc_self, slot_allocproc_self]
    exact .noMemory on at' unused
  | start => exact slot_setState_self s _ ▸ .start on at'
  | reap zombie => exact slot_freeproc_self s ▸ .reap on at' zombie
  | @reapCopy addr _ zombie =>
    rw [slot_freeproc_self]
    exact .reap on at' zombie
  | unheard | otherPid | taken | copyFailed | alive => exact .same

theorem ProcEffect.outside (effect : ProcEffect initproc s c p choice s') (on : s.stack c = some p)
    (other : q ≠ p) : Outside initproc s c q (s'.slot q) := by
  cases effect with
  | goto | ownAcquire | ownRelease | acquire | release | scan | save | park | leave =>
    exact slot_setPc_of_ne s other _ ▸ .same
  | sleepChan | sleepTidy =>
    rw [slot_setPc_of_ne _ other, slot_setChan_of_ne s other]
    exact .same
  | sleepState | yieldState =>
    rw [slot_setPc_of_ne _ other, slot_setState_of_ne s other]
    exact .same
  | @exitState status =>
    have kept : ({ s with xstate := Function.update s.xstate p status } : State n Cpu).slot q =
        s.slot q := by
      simp [slot, other]
    rw [slot_setPc_of_ne _ other, slot_setState_of_ne _ other, kept]
    exact .same
  | setkilled =>
    rw [slot_setPc_of_ne _ other, slot_setKilled_of_ne s other]
    exact .same
  | @visit job r todo visited verdict at' does =>
    rw [slot_setPc_of_ne _ other]
    by_cases same : q = r
    · subst same
      exact does.outside on at'
    · rw [does.slot_of_ne same]
      exact .same
  | @forkParent np _ at' =>
    rw [slot_setPc_of_ne _ other]
    by_cases same : q = np
    · subst same
      rw [slot_setParent_self]
      exact .setParent on at'
    · rw [slot_setParent_of_ne s same]
      exact .same
  | @reparent r todo status at' child =>
    rw [slot_setPc_of_ne _ other]
    by_cases same : q = r
    · subst same
      rw [slot_setParent_self]
      exact .reparent on at' child
    · rw [slot_setParent_of_ne s same]
      exact .same

theorem SchedEffect.outside (effect : SchedEffect s c s') (off : s.stack c = none) :
    Outside initproc s c q (s'.slot q) := by
  cases effect with
  | @select r at' runnable =>
    change Outside initproc s c q ((s.setState r .running).slot q)
    by_cases same : q = r
    · subst same
      rw [slot_setState_self]
      exact .select off at' runnable
    · rw [slot_setState_of_ne s same]
      exact .same
  | @swtch r resume pc at' parked resumes =>
    change Outside initproc s c q ((s.setPc r pc).slot q)
    by_cases same : q = r
    · subst same
      have moved : (s.setPc q pc).slot q = { s.slot q with pc } := by
        simp [slot, setPc]
      rw [moved]
      exact .switch off at' parked resumes
    · rw [slot_setPc_of_ne s same]
      exact .same
  | pick | skip | assign | back | unlock => exact .same

theorem Effect.own (effect : Effect initproc s c choice s') (on : s.stack c = some q) :
    ProcEffect initproc s c q choice s' := by
  cases effect with
  | proc on' does => exact Option.some.inj (on'.symm.trans on) ▸ does
  | sched off => simp [on] at off

/-- What a step does to a process it does not execute. -/
theorem Effect.outside (effect : Effect initproc s c choice s') (other : s.stack c ≠ some q) :
    Outside initproc s c q (s'.slot q) := by
  cases effect with
  | proc on does =>
    refine does.outside on ?_
    rintro rfl
    exact other on
  | sched off does => exact does.outside off

/-- The steps of `yield`, and those of `sched` until the thread is switched out. -/
inductive Pc.Yields : Pc n → Pc n → Prop where
  | call {back} : Yields (.point back) (.yieldAcquire back)
  | acquire {back} : Yields (.yieldAcquire back) (.yieldState back)
  | sched {back} : Yields (.yieldState back) (.sched (.yield back))
  | save {resume} : Yields (.sched resume) (.swtch resume)
  | park {resume} : Yields (.swtch resume) (.parked resume)
  | release {back} : Yields (.unlock back) (.point back)

/-- A step of the thread of `p` that is nobody else's business. -/
structure Alone (s s' : State n Cpu) (p : Fin n) : Prop where
  parent : s'.parent = s.parent
  pid : s'.pid = s.pid
  killed : s'.killed = s.killed
  others : ∀ r, r ≠ p → s'.slot r = s.slot r

section

variable (s : State n Cpu) (p : Fin n) (choice : Choice n) (s' : State n Cpu)

/-- A step of the thread of `p` from one program counter to the next, with what the calls
that it is in depend on. -/
inductive Moves : Pc n → Pc n → Prop where
  -- the loops over the table
  | finish {job} : s' = s.setPc p job.finish → Moves (.scan job []) job.finish
  | skip {job q todo} : s.concerns p q job = false → Moves (.scan job (q :: todo)) (.scan job todo)
  | scan {job q todo} : s.concerns p q job = true → Alone s s' p →
      Moves (.scan job (q :: todo)) (.visit job q todo)
  | visit {job q todo visited verdict} : Visit s p q job visited verdict →
      s' = visited.setPc p (.leave job q todo verdict) →
      Moves (.visit job q todo) (.leave job q todo verdict)
  | leave {job q todo verdict} : Alone s s' p →
      Moves (.leave job q todo verdict) (job.next q todo verdict)
  -- `sleep`
  | sleepAcquire {chan lk after} : Moves (.sleepAcquire chan lk after) (.sleepRelease chan lk after)
  | sleepRelease {chan lk after} : Moves (.sleepRelease chan lk after) (.sleepChan chan lk after)
  | sleepChan {chan lk after} : Moves (.sleepChan chan lk after) (.sleepState lk after)
  | sleepState {lk after} : Moves (.sleepState lk after) (.sched (.sleep lk after))
  | sleepTidy {lk after} : Moves (.sleepTidy lk after) (.sleepUnlock lk after)
  | sleepUnlock {lk after} : Moves (.sleepUnlock lk after) (.sleepReacquire lk after)
  | reacquire {lk after} : s'.held lk = some p → Moves (.sleepReacquire lk after) after.pc
  -- `fork`
  | forkLock {np pid} : s'.parent = s.parent → Moves (.forkLock np pid) (.forkParent np pid)
  | forkParent {np pid} : s'.parent np = some p → Moves (.forkParent np pid) (.forkUnlock np pid)
  | forkUnlock {np pid} : Moves (.forkUnlock np pid) (.scan (.start pid) [np])
  -- `wait`
  | waitLock {addr} : Moves (.waitLock addr) (.scan (.wait addr false) (table n))
  | killedAcquire {addr} : Moves (.killedAcquire addr) (.killedRead addr)
  | killedRead {addr killed} : Moves (.killedRead addr) (.killedRelease addr killed)
  | waitSleep {addr} :
      Moves (.killedRelease addr false) (.sleepAcquire (.proc p) .waitLock (.wait addr))
  | waitKilled {addr} : Moves (.killedRelease addr true) (.waitUnlock addr (-1))
  | waitUnlock {addr result} : Moves (.waitUnlock addr result) (.returned (.wait addr) result)
  -- `exit` and `setkilled`
  | exitLock {status} : Moves (.exitLock status) (.reparent (table n) status)
  | stranger {q todo status} : Moves (.reparent (q :: todo) status) (.reparent todo status)
  | wakeup {todo status chan after} :
      Moves (.reparent todo status) (.scan (.wakeup chan after) (table n))
  | orphan {status} : Moves (.reparent [] status) (.exitAcquire status)
  | exitAcquire {status} : Moves (.exitAcquire status) (.exitState status)
  | exitState {status} : Moves (.exitState status) .exitUnlock
  | exitUnlock : Moves .exitUnlock (.sched .exit)
  | setkilledAcquire : Moves .setkilledAcquire .setkilledWrite
  | setkilledWrite : Moves .setkilledWrite (.unlock .running)
  -- everywhere
  | call {pc pc'} : pc.Resting → choice.entry = some pc' → Moves pc pc'
  | plain {pc} : pc.Resting → Moves pc .running
  | exit {pc status} : pc.Resting → Moves pc (.exitLock status)
  | yields {pc pc'} : pc.Yields pc' → Alone s s' p → Moves pc pc'

end

theorem ProcEffect.moves (does : ProcEffect initproc s c p choice s') :
    Moves s p choice s' (s.pc p) (s'.pc p) := by
  have alone : ∀ pc, Alone s (s.setPc p pc) p := fun pc =>
    ⟨rfl, rfl, rfl, fun r other => slot_setPc_of_ne s other pc⟩
  cases does with
  | goto moves =>
    rw [setPc_self]
    generalize s.pc p = before at moves
    cases moves with
    | yield => exact .yields .call (alone _)
    | call resting entry => exact .call resting entry
    | exit resting => exact .exit resting
    | finish => exact .finish rfl
    | skip other => exact .skip other
    | parent => exact .wakeup
    | orphan => exact .orphan
    | stranger => exact .stranger
    | killed => exact .killedRead
  | @ownAcquire pc moves =>
    rw [setPc_self]
    have quiet : Alone s ((s.takeLock c p).setPc p pc) p := ⟨rfl, rfl, rfl, (alone pc).others⟩
    generalize s.pc p = before at moves
    cases moves with
    | yield => exact .yields .acquire quiet
    | _ => constructor
  | @ownRelease pc moves =>
    rw [setPc_self]
    have quiet : Alone s ((s.dropLock c p).setPc p pc) p := ⟨rfl, rfl, rfl, (alone pc).others⟩
    generalize s.pc p = before at moves
    cases moves with
    | unlock => exact .yields .release quiet
    | _ => constructor
  | acquire moves =>
    rw [setPc_self]
    generalize s.pc p = before at moves
    cases moves with
    | call resting => exact .plain resting
    | sleep => exact .reacquire (Function.update_self ..)
    | fork => exact .forkLock rfl
    | _ => constructor
  | release moves =>
    rw [setPc_self]
    generalize s.pc p = before at moves
    cases moves with
    | call resting => exact .plain resting
    | _ => constructor
  | @park resume at' =>
    rw [at', setSched_pc, setPc_self]
    exact .yields .park ⟨rfl, rfl, rfl, (alone (.parked resume)).others⟩
  | @save resume at' =>
    rw [at', setPc_self]
    exact .yields .save ⟨rfl, rfl, rfl, (alone (.swtch resume)).others⟩
  | @yieldState back at' =>
    rw [at', setPc_self]
    refine .yields .sched ⟨rfl, rfl, rfl, fun r other => ?_⟩
    rw [slot_setPc_of_ne _ other, slot_setState_of_ne s other]
  | @scan job q todo at' concerned =>
    rw [at', setPc_self]
    exact .scan concerned ⟨rfl, rfl, rfl, (alone (.visit job q todo)).others⟩
  | visit at' visits =>
    rw [at', setPc_self]
    exact .visit visits rfl
  | @leave job q todo verdict at' =>
    rw [at', setPc_self]
    exact .leave ⟨rfl, rfl, rfl, (alone (job.next q todo verdict)).others⟩
  | forkParent at' =>
    rw [at', setPc_self]
    exact .forkParent (Function.update_self ..)
  | sleepChan at' | sleepState at' | sleepTidy at' | exitState at' | setkilled at' | reparent at' =>
    rw [at', setPc_self]
    constructor

end Xv6.Proc
