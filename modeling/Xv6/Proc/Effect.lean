import Xv6.Proc.Machine

/-!
# What a step can do

The steps of `State.step`, sorted by what they change, with the tests they have
passed. Every invariant of the process table is derived from these relations.
-/

namespace Xv6.Proc

open Function (update)

variable {n : Nat} {Cpu : Type} [DecidableEq Cpu]

namespace Pc

inductive Resting : Pc n → Prop where
  | running : Resting .running
  | returned {call result} : Resting (.returned call result)

/-- Steps that acquire `p->lock` in the thread of `p`. -/
inductive OwnAcquire : Pc n → Pc n → Prop where
  | sleep {chan lk after} : OwnAcquire (.sleepAcquire chan lk after) (.sleepRelease chan lk after)
  | yield {back} : OwnAcquire (.yieldAcquire back) (.yieldState back)
  | setkilled : OwnAcquire .setkilledAcquire .setkilledWrite
  | exit {status} : OwnAcquire (.exitAcquire status) (.exitState status)
  | killed {addr} : OwnAcquire (.killedAcquire addr) (.killedRead addr)

inductive OwnRelease (p : Fin n) : Pc n → Pc n → Prop where
  | sleep {lk after} : OwnRelease p (.sleepUnlock lk after) (.sleepReacquire lk after)
  | unlock {back} : OwnRelease p (.unlock back) (.point back)
  | wait {addr} : OwnRelease p (.killedRelease addr false)
      (.sleepAcquire (.proc p) .waitLock (.wait addr))
  | killed {addr} : OwnRelease p (.killedRelease addr true) (.waitUnlock addr (-1))

/-- Steps that acquire another lock. -/
inductive Acquire : Lock → Pc n → Pc n → Prop where
  | call {pc addr} : Resting pc → Acquire (.other addr) pc .running
  | sleep {lk after} : Acquire lk (.sleepReacquire lk after) after.pc
  | fork {np pid} : Acquire .waitLock (.forkLock np pid) (.forkParent np pid)
  | exit {status} : Acquire .waitLock (.exitLock status) (.reparent (table n) status)
  | wait {addr} : Acquire .waitLock (.waitLock addr) (.scan (.wait addr false) (table n))

inductive Release : Lock → Pc n → Pc n → Prop where
  | call {pc addr} : Resting pc → Release (.other addr) pc .running
  | sleep {chan lk after} : Release lk (.sleepRelease chan lk after) (.sleepChan chan lk after)
  | fork {np pid} : Release .waitLock (.forkUnlock np pid) (.scan (.start pid) [np])
  | exit : Release .waitLock .exitUnlock (.sched .exit)
  | wait {addr result} : Release .waitLock (.waitUnlock addr result) (.returned (.wait addr) result)

end Pc

variable (initproc : Fin n) (s : State n Cpu) (p : Fin n) (choice : Choice n) in
inductive Goto : Pc n → Pc n → Prop where
  | yield {back} : Goto (.point back) (.yieldAcquire back)
  | call {before pc} : Pc.Resting before → choice.entry = some pc → Goto before pc
  | exit {before status} : Pc.Resting before → p ≠ initproc → Goto before (.exitLock status)
  | finish {job} : Goto (.scan job []) job.finish
  | skip {job q todo} : s.concerns p q job = false → Goto (.scan job (q :: todo)) (.scan job todo)
  | parent {status parent} : s.parent p = some parent →
      Goto (.reparent [] status) (.scan (.wakeup (.proc parent) (.exit status)) (table n))
  | orphan {status} : s.parent p = none → Goto (.reparent [] status) (.exitAcquire status)
  | stranger {q todo status} : s.parent q ≠ some p →
      Goto (.reparent (q :: todo) status) (.reparent todo status)
  | killed {addr} : Goto (.killedRead addr) (.killedRelease addr (s.killed p))

variable (s : State n Cpu) (p q : Fin n) in
inductive Visit : Job n → State n Cpu → Verdict → Prop where
  | wake {chan after} : s.state q = .sleeping → s.chan q = some chan →
      Visit (.wakeup chan after) (s.setState q .runnable) .pass
  | unheard {chan after} : ¬ (s.state q = .sleeping ∧ s.chan q = some chan) →
      Visit (.wakeup chan after) s .pass
  | kill {pid} : s.pid q = pid → s.state q ≠ .sleeping → Visit (.kill pid) (s.setKilled q) (.hit 0)
  | killAsleep {pid} : s.pid q = pid → s.state q = .sleeping →
      Visit (.kill pid) ((s.setKilled q).setState q .runnable) (.hit 0)
  | otherPid {pid} : s.pid q ≠ pid → Visit (.kill pid) s .pass
  | alloc : s.state q = .unused → Visit .fork ((s.allocproc q).setContext q) (.hit s.nextpid)
  | noMemory : s.state q = .unused → Visit .fork ((s.allocproc q).freeproc q) .fail
  | taken : s.state q ≠ .unused → Visit .fork s .pass
  | start {pid} : Visit (.start pid) (s.setState q .runnable) (.hit pid)
  | reap {havekids} : s.state q = .zombie → Visit (.wait 0 havekids) (s.freeproc q) (.hit (s.pid q))
  | reapCopy {addr havekids} : s.state q = .zombie → addr ≠ 0 →
      Visit (.wait addr havekids) ((s.copyout p addr (s.xstate q)).freeproc q) (.hit (s.pid q))
  | copyFailed {addr havekids} : s.state q = .zombie → addr ≠ 0 →
      Visit (.wait addr havekids) s .fail
  | alive {addr havekids} : s.state q ≠ .zombie → Visit (.wait addr havekids) s .pass

variable (initproc : Fin n) (s : State n Cpu) (c : Cpu) (p : Fin n) (choice : Choice n) in
inductive ProcEffect : State n Cpu → Prop where
  | goto {pc} : Goto initproc s p choice (s.pc p) pc → ProcEffect (s.setPc p pc)
  | ownAcquire {pc} : Pc.OwnAcquire (s.pc p) pc → s.plock p = none →
      ProcEffect ((s.takeLock c p).setPc p pc)
  | ownRelease {pc} : Pc.OwnRelease p (s.pc p) pc → s.plock p = some c →
      ProcEffect ((s.dropLock c p).setPc p pc)
  | acquire {lk pc} : Pc.Acquire lk (s.pc p) pc → s.held lk = none →
      ProcEffect ((s.take c p lk).setPc p pc)
  | release {lk pc} : Pc.Release lk (s.pc p) pc → s.held lk = some p →
      ProcEffect ((s.drop c lk).setPc p pc)
  | sleepChan {chan lk after} : s.pc p = .sleepChan chan lk after →
      ProcEffect ((s.setChan p (some chan)).setPc p (.sleepState lk after))
  | sleepState {lk after} : s.pc p = .sleepState lk after →
      ProcEffect ((s.setState p .sleeping).setPc p (.sched (.sleep lk after)))
  | sleepTidy {lk after} : s.pc p = .sleepTidy lk after →
      ProcEffect ((s.setChan p none).setPc p (.sleepUnlock lk after))
  | yieldState {back} : s.pc p = .yieldState back →
      ProcEffect ((s.setState p .runnable).setPc p (.sched (.yield back)))
  | exitState {status} : s.pc p = .exitState status →
      ProcEffect
        (({ s with xstate := update s.xstate p status }.setState p .zombie).setPc p .exitUnlock)
  | setkilled : s.pc p = .setkilledWrite → ProcEffect ((s.setKilled p).setPc p (.unlock .running))
  | save {resume} : s.pc p = .sched resume → s.plock p = some c → s.state p ≠ .running →
      ProcEffect ({ s with saved := update s.saved p true }.setPc p (.swtch resume))
  | park {resume} : s.pc p = .swtch resume →
      ProcEffect
        (({ s with stack := update s.stack c none }.setPc p (.parked resume)).setSched c (.back p))
  | scan {job q todo} : s.pc p = .scan job (q :: todo) → s.concerns p q job = true →
      s.plock q = none → ProcEffect ((s.takeLock c q).setPc p (.visit job q todo))
  | visit {job q todo visited verdict} : s.pc p = .visit job q todo →
      Visit s p q job visited verdict → ProcEffect (visited.setPc p (.leave job q todo verdict))
  | leave {job q todo verdict} : s.pc p = .leave job q todo verdict → s.plock q = some c →
      ProcEffect ((s.dropLock c q).setPc p (job.next q todo verdict))
  | forkParent {np pid} : s.pc p = .forkParent np pid →
      ProcEffect ((s.setParent np (some p)).setPc p (.forkUnlock np pid))
  | reparent {q todo status} : s.pc p = .reparent (q :: todo) status → s.parent q = some p →
      ProcEffect ((s.setParent q (some initproc)).setPc p
        (.scan (.wakeup (.proc initproc) (.reparent todo status)) (table n)))

inductive SchedEffect (s : State n Cpu) (c : Cpu) : State n Cpu → Prop where
  | pick {p} : s.sched c = .idle → s.plock p = none →
      SchedEffect s c ((s.takeLock c p).setSched c (.locked p))
  | select {p} : s.sched c = .locked p → s.state p = .runnable →
      SchedEffect s c ((s.setState p .running).setSched c (.assign p))
  | skip {p} : s.sched c = .locked p → s.state p ≠ .runnable →
      SchedEffect s c (s.setSched c (.unlock p))
  | assign {p} : s.sched c = .assign p →
      SchedEffect s c ({ s with cproc := update s.cproc c (some p) }.setSched c (.swtch p))
  | swtch {p resume pc} : s.sched c = .swtch p → s.pc p = .parked resume →
      resume.pc = some pc →
      SchedEffect s c (({ s with
        stack := update s.stack c (some p)
        saved := update s.saved p false }.setPc p pc).setSched c (.running p))
  | back {p} : s.sched c = .back p →
      SchedEffect s c ({ s with cproc := update s.cproc c none }.setSched c (.unlock p))
  | unlock {p} : s.sched c = .unlock p → s.plock p = some c →
      SchedEffect s c ((s.dropLock c p).setSched c .idle)

inductive Effect (initproc : Fin n) (s : State n Cpu) (c : Cpu) (choice : Choice n) :
    State n Cpu → Prop where
  | proc {p s'} : s.stack c = some p → ProcEffect initproc s c p choice s' →
      Effect initproc s c choice s'
  | sched {s'} : s.stack c = none → SchedEffect s c s' → Effect initproc s c choice s'

section steps

variable {initproc : Fin n} {s s' : State n Cpu} {c : Cpu} {p q : Fin n} {choice : Choice n}
  {pc : Pc n} {lk : Lock} {next : State n Cpu → State n Cpu}

theorem acquireProc_next (moved : s.acquireProc c q next = .next s') :
    s.plock q = none ∧ s' = next (s.takeLock c q) := by
  unfold State.acquireProc at moved
  split at moved
  next free => cases moved; exact ⟨free, rfl⟩
  next => split at moved <;> cases moved

theorem releaseProc_next (moved : s.releaseProc c q next = .next s') :
    s.plock q = some c ∧ s' = next (s.dropLock c q) := by
  unfold State.releaseProc at moved
  split at moved
  next held => cases moved; exact ⟨held, rfl⟩
  next => cases moved

theorem acquire_next (moved : s.acquire c p lk pc = .next s') :
    s.held lk = none ∧ s' = (s.take c p lk).setPc p pc := by
  unfold State.acquire at moved
  split at moved
  next free => cases moved; exact ⟨free, rfl⟩
  next => split at moved <;> cases moved

theorem release_next (moved : s.release c p lk pc = .next s') :
    s.held lk = some p ∧ s' = (s.drop c lk).setPc p pc := by
  unfold State.release at moved
  split at moved
  next held => cases moved; exact ⟨held, rfl⟩
  next => cases moved

theorem call_effect (resting : (s.pc p).Resting) (moved : s.call initproc c p choice = .next s') :
    ProcEffect initproc s c p choice s' := by
  unfold State.call at moved
  split at moved
  next addr =>
    obtain ⟨free, rfl⟩ := acquire_next moved
    exact .acquire (.call resting) free
  next addr =>
    obtain ⟨held, rfl⟩ := release_next moved
    exact .release (.call resting) held
  next status =>
    split at moved
    next => cases moved
    next other => cases moved; exact .goto (.exit resting other)
  next =>
    split at moved
    next pc entry => cases moved; exact .goto (.call resting entry)
    next => cases moved

theorem ownAcquire_effect (acquires : Pc.OwnAcquire (s.pc p) pc)
    (moved : s.acquireProc c p (·.setPc p pc) = .next s') :
    ProcEffect initproc s c p choice s' := by
  obtain ⟨free, rfl⟩ := acquireProc_next moved
  exact .ownAcquire acquires free

theorem ownRelease_effect (releases : Pc.OwnRelease p (s.pc p) pc)
    (moved : s.releaseProc c p (·.setPc p pc) = .next s') :
    ProcEffect initproc s c p choice s' := by
  obtain ⟨held, rfl⟩ := releaseProc_next moved
  exact .ownRelease releases held

theorem acquire_effect (acquires : Pc.Acquire lk (s.pc p) pc)
    (moved : s.acquire c p lk pc = .next s') : ProcEffect initproc s c p choice s' := by
  obtain ⟨free, rfl⟩ := acquire_next moved
  exact .acquire acquires free

theorem release_effect (releases : Pc.Release lk (s.pc p) pc)
    (moved : s.release c p lk pc = .next s') : ProcEffect initproc s c p choice s' := by
  obtain ⟨held, rfl⟩ := release_next moved
  exact .release releases held

omit [DecidableEq Cpu] in
theorem perform_visit (s : State n Cpu) (p q : Fin n) (choice : Choice n) (job : Job n) :
    Visit s p q job (s.perform p q choice job).1 (s.perform p q choice job).2 := by
  cases job with
  | wakeup chan after =>
    simp only [State.perform]
    split
    next asleep => exact .wake asleep.1 asleep.2
    next other => exact .unheard other
  | kill pid =>
    simp only [State.perform]
    split
    next found =>
      dsimp only
      split
      next asleep => exact .killAsleep found asleep
      next awake => exact .kill found awake
    next other => exact .otherPid other
  | fork =>
    simp only [State.perform]
    split
    next unused =>
      split
      next => exact .noMemory unused
      next => exact .alloc unused
    next taken => exact .taken taken
  | start => exact .start
  | wait addr havekids =>
    simp only [State.perform]
    split
    next zombie =>
      split
      next nowhere => exact nowhere ▸ .reap zombie
      next somewhere =>
        split
        next => exact .copyFailed zombie somewhere
        next => exact .reapCopy zombie somewhere
    next alive => exact .alive alive

theorem codeStep_effect (moved : s.codeStep initproc c p choice = .next s') :
    ProcEffect initproc s c p choice s' := by
  unfold State.codeStep at moved
  split at moved
  case h_1 at' => exact call_effect (at' ▸ .running) moved
  case h_2 at' => exact call_effect (at' ▸ .returned) moved
  case h_3 at' => exact ownAcquire_effect (at' ▸ .sleep) moved
  case h_4 at' => exact release_effect (at' ▸ .sleep) moved
  case h_5 at' => cases moved; exact .sleepChan at'
  case h_6 at' => cases moved; exact .sleepState at'
  case h_7 at' => cases moved; exact .sleepTidy at'
  case h_8 at' => exact ownRelease_effect (at' ▸ .sleep) moved
  case h_9 at' => exact acquire_effect (at' ▸ .sleep) moved
  case h_10 at' => exact ownAcquire_effect (at' ▸ .yield) moved
  case h_11 at' => cases moved; exact .yieldState at'
  case h_12 at' => exact ownRelease_effect (at' ▸ .unlock) moved
  case h_13 resume at' =>
    split at moved
    next => cases moved
    next locked =>
      split at moved
      next => cases moved
      next =>
        split at moved
        next => cases moved
        next leaving => cases moved; exact .save at' (not_not.mp locked) leaving
  case h_14 at' => cases moved; exact .park at'
  case h_15 => cases moved
  case h_16 at' => cases moved; exact .goto (at' ▸ .finish)
  case h_17 at' =>
    split at moved
    next concerned =>
      obtain ⟨free, rfl⟩ := acquireProc_next moved
      exact .scan at' concerned free
    next other => cases moved; exact .goto (at' ▸ .skip (by simpa using other))
  case h_18 at' => cases moved; exact .visit at' (perform_visit ..)
  case h_19 at' =>
    obtain ⟨held, rfl⟩ := releaseProc_next moved
    exact .leave at' held
  case h_20 at' => exact ownAcquire_effect (at' ▸ .setkilled) moved
  case h_21 at' => cases moved; exact .setkilled at'
  case h_22 at' => exact acquire_effect (at' ▸ .fork) moved
  case h_23 at' => cases moved; exact .forkParent at'
  case h_24 at' => exact release_effect (at' ▸ .fork) moved
  case h_25 at' => exact acquire_effect (at' ▸ .exit) moved
  case h_26 at' =>
    cases moved
    cases found : s.parent p with
    | some parent => exact .goto (at' ▸ .parent found)
    | none => exact .goto (at' ▸ .orphan found)
  case h_27 at' =>
    split at moved
    next child => cases moved; exact .reparent at' child
    next stranger => cases moved; exact .goto (at' ▸ .stranger stranger)
  case h_28 at' => exact ownAcquire_effect (at' ▸ .exit) moved
  case h_29 at' => cases moved; exact .exitState at'
  case h_30 at' => exact release_effect (at' ▸ .exit) moved
  case h_31 at' => exact acquire_effect (at' ▸ .wait) moved
  case h_32 at' => exact ownAcquire_effect (at' ▸ .killed) moved
  case h_33 at' => cases moved; exact .goto (at' ▸ .killed)
  case h_34 addr killed at' =>
    cases killed with
    | true => exact ownRelease_effect (at' ▸ .killed) moved
    | false => exact ownRelease_effect (at' ▸ .wait) moved
  case h_35 at' => exact release_effect (at' ▸ .wait) moved

theorem procStep_effect (moved : s.procStep initproc c p choice = .next s') :
    ProcEffect initproc s c p choice s' := by
  unfold State.procStep at moved
  split at moved
  next back at' =>
    split at moved
    next => cases moved; exact .goto (at' ▸ .yield)
    next => cases moved
  next => exact codeStep_effect moved

theorem schedStep_effect (moved : s.schedStep c choice = .next s') : SchedEffect s c s' := by
  unfold State.schedStep at moved
  split at moved
  case h_1 at' =>
    split at moved
    next p =>
      obtain ⟨free, rfl⟩ := acquireProc_next moved
      exact .pick at' free
    next => cases moved
  case h_2 p at' =>
    split at moved
    next runnable => cases moved; exact .select at' runnable
    next other => cases moved; exact .skip at' other
  case h_3 at' => cases moved; exact .assign at'
  case h_4 p at' =>
    split at moved
    next resume parked =>
      split at moved
      next pc resumes => cases moved; exact .swtch at' parked resumes
      next => cases moved
    next => cases moved
  case h_5 => cases moved
  case h_6 at' => cases moved; exact .back at'
  case h_7 at' =>
    obtain ⟨held, rfl⟩ := releaseProc_next moved
    exact .unlock at' held

theorem step_effect (moved : s.step initproc c choice = .next s') :
    Effect initproc s c choice s' := by
  unfold State.step at moved
  split at moved
  next p on => exact .proc on (procStep_effect moved)
  next off => exact .sched off (schedStep_effect moved)

end steps

end Xv6.Proc
