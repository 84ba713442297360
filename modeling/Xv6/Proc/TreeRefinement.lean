import Xv6.Proc.Sleep
import Xv6.Proc.Tree

/-!
# The process table follows the protocol of the tree

Every step of a CPU is a step of the protocol of `Tree`, with the phase of a
process read off the place of its thread.
-/

namespace Xv6.Proc

open State
open Function (update update_eq_self update_idem update_of_ne update_self)

variable {n : Nat} {Cpu : Type} [DecidableEq Cpu]

/-- The phase of a call of `sleep`, which is that of `wait` if it comes from there. -/
def AfterSleep.phase (waiting : Phase n) : AfterSleep → Phase n
  | .done => .idle
  | .wait _ => waiting

def Job.phase (rest : List (Fin n)) : Job n → Phase n
  | .wakeup chan (.reparent todo _) => .adopting chan todo rest
  | .wakeup chan (.exit _) => .warning chan rest
  | .wait _ _ => .looking rest
  | .wakeup _ .done | .kill _ | .fork | .start _ => .idle

def Job.phaseAfter (rest : List (Fin n)) (job : Job n) : Verdict → Phase n
  | .pass => job.phase rest
  | .hit _ | .fail =>
    match job with
    | .wait _ _ => .locked
    | job => job.phase []

def Point.phase : Point n → Phase n
  | .exitLock _ => .departing
  | .scan job rest => job.phase rest
  | _ => .idle

/-- The phase of a process in a state, with its thread at a place. -/
def Pc.phase (state : ProcState) : Pc n → Phase n
  | .point back | .yieldAcquire back | .yieldState back | .unlock back
  | .sched (.yield back) | .swtch (.yield back) | .parked (.yield back) => back.phase
  | .sleepAcquire _ _ after | .sleepRelease _ _ after => after.phase (.looking [])
  | .sleepChan _ _ after | .sleepState _ after
  | .sched (.sleep _ after) | .swtch (.sleep _ after) => after.phase .asleep
  | .parked (.sleep _ after) => if state = .sleeping then after.phase .asleep else .idle
  | .visit job q rest => job.phase (q :: rest)
  | .leave job _ rest verdict => job.phaseAfter rest verdict
  | .killedAcquire _ | .killedRead _ | .killedRelease _ _ => .looking []
  | .forkParent np _ => .parenting np
  | .forkUnlock _ _ | .exitUnlock | .waitUnlock _ _ => .locked
  | .reparent todo _ => .exiting todo
  | .exitAcquire _ | .exitState _ => .warned
  | _ => .idle

def State.tree (s : State n Cpu) : Tree n where
  state := s.state
  parent := s.parent
  phase p := (s.pc p).phase (s.state p)
  owner := s.held .waitLock

/-- `wait` sleeps with `wait_lock`, on the address of the process, and nobody else
sleeps with `wait_lock`. -/
structure SleepInv (s : State n Cpu) : Prop where
  wait : ∀ p lk addr, (s.pc p).sleepCall = some (lk, .wait addr) → lk = .waitLock ∧
    (s.pc p = .sleepAcquire (.proc p) lk (.wait addr) ∨
      s.pc p = .sleepRelease (.proc p) lk (.wait addr) ∨ Sleeper s p (.proc p) lk (.wait addr))
  done : ∀ p lk, (s.pc p).sleepCall = some (lk, .done) → lk ≠ .waitLock

variable {initproc : Fin n} {s s' : State n Cpu} {c : Cpu} {p q : Fin n} {choice : Choice n}

section sleep

variable {lk : Lock} {after : AfterSleep}

/-- A call of `sleep` begins in `wait` or with a lock of its own. -/
theorem sleepCall_entry (effect : ProcEffect initproc s c p choice s')
    (inCall : (s'.pc p).sleepCall = some (lk, after)) :
    (s.pc p).sleepCall = some (lk, after) ∨ after = .done ∧ lk ≠ .waitLock ∨
      ∃ addr, after = .wait addr ∧ lk = .waitLock ∧
        s'.pc p = .sleepAcquire (.proc p) .waitLock (.wait addr) := by
  have moves := effect.moves
  generalize s.pc p = before, s'.pc p = pc at moves inCall
  cases moves with
  | yields yields => exact .inl ((Pc.sleepCall_lasting.yields _ _ yields).symm.trans inCall)
  | call _ entry =>
    cases choice <;> cases entry <;> cases inCall
    exact .inr (.inl ⟨rfl, nofun⟩)
  | @finish job =>
    cases job with
    | wakeup chan after => cases after <;> cases inCall
    | wait addr havekids => cases havekids <;> cases inCall
    | _ => cases inCall
  | @leave job q todo verdict =>
    cases job with
    | wakeup chan after => cases verdict <;> cases after <;> cases inCall
    | _ => cases verdict <;> cases inCall
  | @reacquire _ after => cases after <;> cases inCall
  | sleepAcquire | sleepRelease | sleepChan | sleepState | sleepTidy | sleepUnlock =>
    exact .inl inCall
  | waitSleep => cases inCall; exact .inr (.inr ⟨_, rfl, rfl, rfl⟩)
  | _ => cases inCall

theorem stage_own {addr : Nat} (inv : RunInv s) (on : s.stack c = some p)
    (moved : s.step initproc c choice = .next s')
    (inCall : (s'.pc p).sleepCall = some (lk, .wait addr))
    (stage : s.pc p = .sleepAcquire (.proc p) lk (.wait addr) ∨
      s.pc p = .sleepRelease (.proc p) lk (.wait addr) ∨ Sleeper s p (.proc p) lk (.wait addr)) :
    s'.pc p = .sleepAcquire (.proc p) lk (.wait addr) ∨
      s'.pc p = .sleepRelease (.proc p) lk (.wait addr) ∨
      Sleeper s' p (.proc p) lk (.wait addr) := by
  rcases stage with at' | at' | sleeper
  · simp only [step, on, procStep, codeStep, at'] at moved
    obtain ⟨_, rfl⟩ := acquireProc_next moved
    exact .inr (.inl (setPc_self ..))
  · simp only [step, on, procStep, codeStep, at'] at moved
    obtain ⟨_, rfl⟩ := release_next moved
    exact .inr (.inr (.chan (setPc_self ..)))
  · rcases sleeper.own inv.cpus on moved with still | ⟨left, _⟩
    · exact .inr (.inr still)
    · rw [left] at inCall
      cases inCall

theorem SleepInv.step (sleeps : SleepInv s) (inv : RunInv s)
    (moved : s.step initproc c choice = .next s') : SleepInv s' := by
  have effect := step_effect moved
  constructor
  · intro p lk addr inCall
    by_cases on : s.stack c = some p
    · have does := effect.own on
      rcases sleepCall_entry does inCall with before | ⟨isDone, _⟩ | ⟨addr', isWait, isLock, at'⟩
      · obtain ⟨isLock, stage⟩ := sleeps.wait p lk addr before
        exact ⟨isLock, stage_own inv on moved inCall stage⟩
      · cases isDone
      · cases isWait
        exact ⟨isLock, .inl (isLock ▸ at')⟩
    · have out := effect.outside on
      have before := out.call_inv Pc.sleepCall_lasting inCall
      obtain ⟨isLock, stage⟩ := sleeps.wait p lk addr before
      refine ⟨isLock, ?_⟩
      have moves := (out.of_alive (inv.alive_of_call Pc.sleepCall_lasting before)).2.2
      rcases stage with at' | at' | sleeper
      · rcases moves with same | ⟨resume, parked, _⟩
        · exact .inl (same.trans at')
        · rw [at'] at parked
          cases parked
      · rcases moves with same | ⟨resume, parked, _⟩
        · exact .inr (.inl (same.trans at'))
        · rw [at'] at parked
          cases parked
      · exact .inr (.inr (sleeper.outside inv out))
  · intro p lk inCall
    by_cases on : s.stack c = some p
    · have does := effect.own on
      rcases sleepCall_entry does inCall with before | ⟨_, other⟩ | ⟨_, isWait, _⟩
      · exact sleeps.done p lk before
      · exact other
      · cases isWait
    · exact sleeps.done p lk ((effect.outside on).call_inv Pc.sleepCall_lasting inCall)

end sleep

variable {pc : Pc n}

section drifts

/-- The phase depends on the state only for a process that is switched out in `sleep`. -/
theorem Pc.phase_eq {state state' : ProcState}
    (same : ∀ lk after, pc = .parked (.sleep lk after) → (state' = .sleeping ↔ state = .sleeping)) :
    pc.phase state' = pc.phase state := by
  cases pc with
  | parked resume =>
    cases resume with
    | sleep lk after => simp only [Pc.phase, same lk after rfl]
    | _ => rfl
  | sched resume | swtch resume => cases resume <;> rfl
  | _ => rfl

/-- A thread goes on in the phase in which it was switched out. -/
theorem Resume.phase_eq {resume : Resume n} {state : ProcState}
    (resumes : resume.pc = some pc) (awake : state ≠ .sleeping) :
    pc.phase state = (Pc.parked resume).phase state := by
  cases resume with
  | forkret | yield => cases resumes; rfl
  | sleep lk after => cases resumes; simp [Pc.phase, awake]
  | exit => cases resumes

omit [DecidableEq Cpu] in
theorem RunInv.phase_of_unused (inv : RunInv s) (unused : s.state q = .unused) :
    s.tree.phase q = .idle := by
  change (s.pc q).phase (s.state q) = .idle
  by_cases away : ∀ resume, s.pc q ≠ .parked resume
  · have busy := inv.state_of_on away
    rw [unused] at busy
    cases at' : s.pc q with
    | sched resume | swtch resume =>
      rw [at'] at busy
      cases resume <;> cases busy
    | _ =>
      rw [at'] at busy
      cases busy
  · simp only [ne_eq, not_forall, not_not] at away
    obtain ⟨resume, parked⟩ := away
    have allows := inv.threads.allows q resume parked
    rw [parked, unused] at *
    cases resume with
    | forkret | exit => rfl
    | yield | sleep => simp [Resume.Allows] at allows

omit [DecidableEq Cpu] in
theorem Outside.drifts (inv : RunInv s) (out : Outside initproc s c q (s'.slot q)) :
    Tree.Drifts initproc s.tree s'.tree q := by
  -- What the phase is made from.
  have phase : s'.tree.phase q = (s'.slot q).pc.phase (s'.slot q).state := rfl
  have allows : ∀ lk after, s.pc q = .parked (.sleep lk after) →
      s.state q ≠ .unused ∧ s.state q ≠ .used ∧ s.state q ≠ .zombie := by
    intro lk after parked
    rcases inv.threads.allows q _ parked with is | is | is <;> simp [is]
  generalize s'.slot q = slot at out phase
  -- A change of the state that concerns no sleeper.
  have stay : ∀ state, (∀ lk after, s.pc q = .parked (.sleep lk after) →
      (state = .sleeping ↔ s.state q = .sleeping)) →
      (s.pc q).phase state = s.tree.phase q := fun state same => Pc.phase_eq same
  -- A sleeper is woken up.
  have wake : s.state q = .sleeping → s'.tree.phase q = (s.pc q).phase .runnable →
      Tree.Drifts initproc s.tree s'.tree q := by
    intro asleep now
    by_cases parked : ∃ lk after, s.pc q = .parked (.sleep lk after)
    · obtain ⟨lk, after, parked⟩ := parked
      have idle : s'.tree.phase q = .idle := by
        rw [now, parked]
        rfl
      have before : s.tree.phase q = after.phase .asleep := by
        change (s.pc q).phase (s.state q) = _
        rw [parked, asleep]
        rfl
      cases after with
      | done => exact .stay (idle.trans before.symm)
      | wait addr => exact .wake before idle
    · refine .stay (now.trans (stay _ fun lk after is => ?_))
      exact absurd ⟨lk, after, is⟩ parked
  cases out with
  | same | kill | setParent | reparent => exact .stay phase
  | wake _ _ asleep | killAsleep _ _ _ asleep => exact wake asleep phase
  | alloc _ _ unused => exact .stay (phase.trans (inv.phase_of_unused unused).symm)
  | noMemory _ _ unused =>
    exact .stay (phase.trans (stay _ fun lk after is => absurd unused (allows lk after is).1))
  | @start p _ todo on at' =>
    have used : s.state q = .used := inv.cpus.child p q (by rw [at']; rfl)
    exact .stay (phase.trans (stay _ fun lk after is => absurd used (allows lk after is).2.1))
  | reap _ _ zombie =>
    exact .stay (phase.trans (stay _ fun lk after is => absurd zombie (allows lk after is).2.2))
  | select _ _ runnable => exact .stay (phase.trans (stay _ fun _ _ _ => by simp [runnable]))
  | @switch resume pc off at' parked resumes =>
    have running : s.state q = .running := ((inv.cpus.proc q).chosen c (by rw [at']; rfl)).1
    refine .stay (phase.trans ?_)
    change pc.phase (s.state q) = (s.pc q).phase (s.state q)
    rw [parked]
    exact Resume.phase_eq resumes (by simp [running])

end drifts

inductive Progress (initproc : Fin n) (t t' : Tree n) (p : Fin n) : Phase n → Phase n → Prop where
  | stay {phase} : Progress initproc t t' p phase phase
  | depart : p ≠ initproc → Progress initproc t t' p .idle .departing
  | advance {before after} : Tree.Advance t t' p before after →
      Progress initproc t t' p before after

section steps

variable (inv : RunInv s) (effect : Effect initproc s c choice s') (on : s.stack c = some p)

include inv effect on

theorem drifts_of_other (other : q ≠ p) : Tree.Drifts initproc s.tree s'.tree q := by
  refine (effect.outside fun on' => other ?_).drifts inv
  exact Option.some.inj (on'.symm.trans on)

theorem Tree.Step.of_act (act : Tree.Act initproc s.tree s'.tree p) :
    Tree.Step initproc s.tree s'.tree :=
  .act act fun _ other => drifts_of_other inv effect on other

theorem Tree.Step.of_progress (quiet : Tree.Quiet s.tree s'.tree)
    (owner : s'.tree.owner = s.tree.owner)
    (progress : Progress initproc s.tree s'.tree p (s.tree.phase p) (s'.tree.phase p)) :
    Tree.Step initproc s.tree s'.tree := by
  generalize before : s.tree.phase p = phase, now : s'.tree.phase p = phase' at progress
  have drift : Tree.Drifts initproc s.tree s'.tree p → Tree.Step initproc s.tree s'.tree := by
    refine fun drifts => .drift quiet owner fun q => ?_
    by_cases same : q = p
    · exact same ▸ drifts
    · exact drifts_of_other inv effect on same
  cases progress with
  | stay => exact drift (.stay (now.trans before.symm))
  | depart other => exact drift (.depart before now other)
  | advance advance =>
    subst before now
    exact .of_act inv effect on (.advance quiet owner advance)

end steps

section

omit [DecidableEq Cpu]

theorem tree_phase_setPc (pc : Pc n) : (s.setPc p pc).tree.phase p = pc.phase (s.state p) := by
  change ((s.setPc p pc).pc p).phase (s.state p) = _
  rw [setPc_self]

theorem tree_phase_at (at' : s.pc p = pc) : s.tree.phase p = pc.phase (s.state p) :=
  congrArg (Pc.phase (s.state p)) at'

theorem Goto.progress (moves : Goto initproc s p choice (s.pc p) pc) :
    Progress initproc s.tree (s.setPc p pc).tree p (s.tree.phase p)
      ((s.setPc p pc).tree.phase p) := by
  have now := tree_phase_setPc (s := s) (p := p) pc
  rw [now]
  change Progress initproc _ _ p ((s.pc p).phase (s.state p)) _
  generalize s.pc p = before at moves
  cases moves with
  | yield => exact .stay
  | call resting entry => cases resting <;> cases choice <;> cases entry <;> exact .stay
  | exit resting other => cases resting <;> exact .depart other
  | @finish job =>
    cases job with
    | wakeup chan after =>
      cases after with
      | done => exact .stay
      | reparent todo status => exact .advance .resume
      | exit status => exact .advance .warned
    | wait addr havekids =>
      cases havekids with
      | true => exact .stay
      | false => exact .advance .stop
    | _ => exact .stay
  | @skip job q todo other =>
    cases job with
    | wakeup chan after =>
      have same : q = p := by simpa [concerns] using other
      cases after with
      | done => exact .stay
      | reparent todo' status =>
        refine .advance (.adopted fun _ => ?_)
        rw [same, now]
        rintro ⟨⟩
      | exit status =>
        refine .advance (.warning fun _ => ?_)
        rw [same, now]
        rintro ⟨⟩
    | wait addr havekids =>
      refine .advance (.look fun isParent => ?_)
      simp only [concerns, decide_eq_false_iff_not] at other
      exact absurd isParent other
    | _ => exact .stay
  | parent isParent => exact .advance (.warn isParent)
  | orphan isOrphan => exact .advance (.orphan isOrphan)
  | stranger stranger => exact .advance (.stranger stranger)
  | killed => exact .stay

end

section own

variable {t' : Tree n} {before after : Pc n} {state : ProcState}

theorem Pc.OwnAcquire.phase_eq (acquires : Pc.OwnAcquire before after) :
    after.phase state = before.phase state := by
  cases acquires <;> rfl

omit [DecidableEq Cpu] in
theorem Pc.OwnRelease.progress (releases : Pc.OwnRelease p before after) :
    Progress initproc s.tree t' p (before.phase state) (after.phase state) := by
  cases releases with
  | killed => exact .advance .stop
  | _ => exact .stay

omit [DecidableEq Cpu] in
theorem Job.progress_leave (job : Job n) (q : Fin n) (todo : List (Fin n)) (verdict : Verdict) :
    Progress initproc s.tree t' p ((Pc.leave job q todo verdict).phase state)
      ((job.next q todo verdict).phase state) := by
  cases job with
  | wakeup chan after =>
    cases verdict with
    | pass => exact .stay
    | hit | fail =>
      cases after with
      | done => exact .stay
      | reparent todo' status => exact .advance .resume
      | exit status => exact .advance .warned
  | _ => cases verdict <;> exact .stay

end own

section asleep

theorem Job.phase_ne_asleep (job : Job n) (rest : List (Fin n)) : job.phase rest ≠ .asleep := by
  cases job with
  | wakeup chan after => cases after <;> exact nofun
  | _ => exact nofun

theorem Job.phaseAfter_ne_asleep (job : Job n) (rest : List (Fin n)) (verdict : Verdict) :
    job.phaseAfter rest verdict ≠ .asleep := by
  cases verdict with
  | pass => exact job.phase_ne_asleep rest
  | hit | fail =>
    cases job with
    | wakeup chan after => cases after <;> exact nofun
    | _ => exact nofun

theorem Point.phase_ne_asleep (point : Point n) : point.phase ≠ .asleep := by
  cases point with
  | scan job rest => exact job.phase_ne_asleep rest
  | _ => exact nofun

theorem AfterSleep.phase_eq_asleep {after : AfterSleep}
    (asleep : after.phase (.asleep : Phase n) = .asleep) : ∃ addr, after = .wait addr := by
  cases after with
  | done => cases asleep
  | wait addr => exact ⟨addr, rfl⟩

theorem Pc.of_phase_asleep {state : ProcState} (asleep : pc.phase state = .asleep) :
    (∃ chan lk addr, pc = .sleepChan chan lk (.wait addr)) ∨
    (∃ lk addr, pc.FallingAsleep lk (.wait addr)) ∨
    ∃ lk addr, pc = .parked (.sleep lk (.wait addr)) ∧ state = .sleeping := by
  cases pc with
  | point back | yieldAcquire back | yieldState back | unlock back =>
    exact absurd asleep back.phase_ne_asleep
  | sleepChan chan lk after =>
    obtain ⟨addr, rfl⟩ := AfterSleep.phase_eq_asleep asleep
    exact .inl ⟨chan, lk, addr, rfl⟩
  | sleepState lk after =>
    obtain ⟨addr, rfl⟩ := AfterSleep.phase_eq_asleep asleep
    exact .inr (.inl ⟨lk, addr, .state⟩)
  | sleepAcquire _ _ after | sleepRelease _ _ after => cases after <;> cases asleep
  | sched resume | swtch resume =>
    cases resume with
    | yield back => exact absurd asleep back.phase_ne_asleep
    | sleep lk after =>
      obtain ⟨addr, rfl⟩ := AfterSleep.phase_eq_asleep asleep
      exact .inr (.inl ⟨lk, addr, by constructor⟩)
    | forkret | exit => cases asleep
  | parked resume =>
    cases resume with
    | yield back => exact absurd asleep back.phase_ne_asleep
    | sleep lk after =>
      simp only [Pc.phase] at asleep
      split at asleep
      next is =>
        obtain ⟨addr, rfl⟩ := AfterSleep.phase_eq_asleep asleep
        exact .inr (.inr ⟨lk, addr, rfl, is⟩)
      next => cases asleep
    | forkret | exit => cases asleep
  | visit job q rest => exact absurd asleep (job.phase_ne_asleep _)
  | leave job q rest verdict => exact absurd asleep (job.phaseAfter_ne_asleep rest verdict)
  | _ => cases asleep

omit [DecidableEq Cpu] in
/-- A process whose address is the channel is awake after a visit. -/
theorem SleepInv.visited_awake {job : Job n} {rest : List (Fin n)} (sleeps : SleepInv s)
    (inv : RunInv s) (on : s.stack c = some p) (at' : s.pc p = .visit job q rest) (other : q ≠ p)
    (stays : s'.pc q = s.pc q) (woken : s.chan q = some (.proc q) → s'.state q ≠ .sleeping) :
    s'.tree.phase q ≠ .asleep := by
  intro asleep
  have unlocked := inv.unlocked_of_visit on at' other
  change (s'.pc q).phase (s'.state q) = .asleep at asleep
  rw [stays] at asleep
  rcases Pc.of_phase_asleep asleep with ⟨chan, lk, addr, falls⟩ | ⟨lk, addr, falls⟩ |
    ⟨lk, addr, parked, sleeping⟩
  · rw [falls] at unlocked
    exact unlocked rfl
  · generalize s.pc q = pc at unlocked falls
    cases falls <;> exact unlocked rfl
  · obtain ⟨_, stage⟩ := sleeps.wait q lk addr (by rw [parked]; rfl)
    rcases stage with falls | falls | falls | falls | ⟨_, heard⟩ | falls
    on_goal 5 => exact woken heard sleeping
    all_goals
      rw [parked] at falls
      cases falls

end asleep

section refinement

omit [DecidableEq Cpu] in
theorem quiet_setState {state : ProcState} (states : s'.state = update s.state q state)
    (parents : s'.parent = s.parent) (inUse : state ≠ .unused) (living : state ≠ .zombie) :
    Tree.Quiet s.tree s'.tree := by
  have kept : ∀ r now, state ≠ now → s'.state r = now → s.state r = now := by
    intro r now other is
    rw [states] at is
    by_cases same : r = q
    · rw [same, update_self] at is
      exact absurd is other
    · rwa [update_of_ne same] at is
  exact ⟨parents, fun r => kept r .zombie living, fun r => kept r .unused inUse⟩

omit [DecidableEq Cpu] in
theorem quiet_of_same (states : s'.state = s.state) (parents : s'.parent = s.parent) :
    Tree.Quiet s.tree s'.tree :=
  ⟨parents, fun r is => (congrFun states r).symm.trans is,
  fun r is => (congrFun states r).symm.trans is⟩

variable (inv : RunInv s) (sleeps : SleepInv s)
  (freed : ∀ q, s.state q = .unused → s.parent q = none) (on : s.stack c = some p)

include inv sleeps on

theorem tree_step_acquire {lk : Lock} (acquires : Pc.Acquire lk (s.pc p) pc)
    (free : s.held lk = none) : Tree.Step initproc s.tree ((s.take c p lk).setPc p pc).tree := by
  have effect : Effect initproc s c .go ((s.take c p lk).setPc p pc) :=
    .proc on (.acquire acquires free)
  have phase : ((s.take c p lk).setPc p pc).tree.phase p = pc.phase (s.state p) :=
    tree_phase_setPc (s := s.take c p lk) pc
  -- With `wait_lock`, the phases decide what the process is about to do.
  have enter : lk = .waitLock → Tree.Enters ((s.pc p).phase (s.state p)) (pc.phase (s.state p)) →
      Tree.Step initproc s.tree ((s.take c p lk).setPc p pc).tree := by
    rintro rfl enters
    have locked : ((s.take c p .waitLock).setPc p pc).tree.owner = some p := by
      simp [tree, setPc, take]
    exact .of_act inv effect on (.lock (quiet_of_same rfl rfl) free locked (phase ▸ enters))
  have stay : lk ≠ .waitLock → pc.phase (s.state p) = (s.pc p).phase (s.state p) →
      Tree.Step initproc s.tree ((s.take c p lk).setPc p pc).tree := fun other same =>
    .of_progress inv effect on (quiet_of_same rfl rfl) (update_of_ne other.symm ..)
      (phase.trans same ▸ .stay)
  generalize at' : s.pc p = before at acquires enter stay
  cases acquires with
  | call resting => cases resting <;> exact stay (by simp) rfl
  | @sleep lk after =>
    cases after with
    | done => exact stay (sleeps.done p lk (by rw [at']; rfl)) rfl
    | wait addr => exact enter (sleeps.wait p lk addr (by rw [at']; rfl)).1 .wait
  | fork => exact enter rfl .fork
  | exit => exact enter rfl .exit
  | wait => exact enter rfl .wait

theorem tree_step_release {lk : Lock} (releases : Pc.Release lk (s.pc p) pc)
    (held : s.held lk = some p) : Tree.Step initproc s.tree ((s.drop c lk).setPc p pc).tree := by
  have effect : Effect initproc s c .go ((s.drop c lk).setPc p pc) :=
    .proc on (.release releases held)
  have phase : ((s.drop c lk).setPc p pc).tree.phase p = pc.phase (s.state p) :=
    tree_phase_setPc (s := s.drop c lk) pc
  have leave : lk = .waitLock → Tree.Leaves ((s.pc p).phase (s.state p)) (pc.phase (s.state p)) →
      Tree.Step initproc s.tree ((s.drop c lk).setPc p pc).tree := by
    rintro rfl leaves
    have unlocked : ((s.drop c .waitLock).setPc p pc).tree.owner = none := by
      simp [tree, setPc, drop]
    exact .of_act inv effect on (.unlock (quiet_of_same rfl rfl) held unlocked (phase ▸ leaves))
  have stay : lk ≠ .waitLock → pc.phase (s.state p) = (s.pc p).phase (s.state p) →
      Tree.Step initproc s.tree ((s.drop c lk).setPc p pc).tree := fun other same =>
    .of_progress inv effect on (quiet_of_same rfl rfl) (update_of_ne other.symm ..)
      (phase.trans same ▸ .stay)
  generalize at' : s.pc p = before at releases leave stay
  cases releases with
  | call resting => cases resting <;> exact stay (by simp) rfl
  | @sleep chan lk after =>
    cases after with
    | done => exact stay (sleeps.done p lk (by rw [at']; rfl)) rfl
    | wait addr => exact leave (sleeps.wait p lk addr (by rw [at']; rfl)).1 .sleep
  | fork | exit | wait => exact leave rfl .done

theorem tree_step_wakeup {chan : Chan n} {after : AfterWakeup n} {todo : List (Fin n)}
    {visited : State n Cpu} (at' : s.pc p = .visit (.wakeup chan after) q todo)
    (effect : Effect initproc s c choice
      (visited.setPc p (.leave (.wakeup chan after) q todo .pass)))
    (quiet : Tree.Quiet s.tree visited.tree) (owner : visited.tree.owner = s.tree.owner)
    (pcs : visited.pc = s.pc) (woken : s.chan q = some chan → visited.state q ≠ .sleeping) :
    Tree.Step initproc s.tree
      (visited.setPc p (.leave (.wakeup chan after) q todo .pass)).tree := by
  have before : s.tree.phase p = (Job.wakeup chan after).phase (q :: todo) := by
    change (s.pc p).phase _ = _
    rw [at']
    rfl
  have now : (visited.setPc p (.leave (.wakeup chan after) q todo .pass)).tree.phase p =
      (Job.wakeup chan after).phase todo := tree_phase_setPc _
  have awake : chan = .proc q →
      (visited.setPc p (.leave (.wakeup chan after) q todo .pass)).tree.phase q ≠ .asleep := by
    rintro rfl
    by_cases same : q = p
    · subst same
      rw [now]
      exact Job.phase_ne_asleep _ _
    · have stays : (visited.setPc p (.leave (.wakeup (.proc q) after) q todo .pass)).pc q =
          s.pc q := by
        rw [setPc_of_ne _ _ same, pcs]
      exact sleeps.visited_awake inv on at' same stays woken
  refine .of_progress inv effect on ⟨quiet.parent, quiet.zombie, quiet.unused⟩ owner ?_
  rw [before, now]
  cases after with
  | done => exact .stay
  | reparent todo' status => exact .advance (.adopted awake)
  | exit status => exact .advance (.warning awake)

include freed

theorem tree_step_visit {job : Job n} {todo : List (Fin n)} {visited : State n Cpu}
    {verdict : Verdict} (at' : s.pc p = .visit job q todo)
    (does : Visit s p q job visited verdict) :
    Tree.Step initproc s.tree (visited.setPc p (.leave job q todo verdict)).tree := by
  have effect : Effect initproc s c .go (visited.setPc p (.leave job q todo verdict)) :=
    .proc on (.visit at' does)
  have before : s.tree.phase p = job.phase (q :: todo) := by
    change (s.pc p).phase _ = _
    rw [at']
    rfl
  have now : (visited.setPc p (.leave job q todo verdict)).tree.phase p =
      job.phaseAfter todo verdict := tree_phase_setPc _
  -- A visit that does not change the tree.
  have quietly : Tree.Quiet s.tree visited.tree → visited.tree.owner = s.tree.owner →
      Progress initproc s.tree (visited.setPc p (.leave job q todo verdict)).tree p
        (job.phase (q :: todo)) (job.phaseAfter todo verdict) →
      Tree.Step initproc s.tree (visited.setPc p (.leave job q todo verdict)).tree := by
    intro quiet owner progress
    refine .of_progress inv effect on ⟨quiet.parent, quiet.zombie, quiet.unused⟩ owner ?_
    rwa [before, now]
  cases does with
  | wake asleep heard =>
    refine tree_step_wakeup inv sleeps on at' effect (quiet_setState rfl rfl nofun nofun) rfl rfl
      fun _ => ?_
    rw [setState_self]
    exact nofun
  | unheard deaf =>
    exact tree_step_wakeup inv sleeps on at' effect (quiet_of_same rfl rfl) rfl rfl
      fun heard asleep => deaf ⟨asleep, heard⟩
  | kill | otherPid | taken => exact quietly (quiet_of_same rfl rfl) rfl .stay
  | killAsleep | alloc | start => exact quietly (quiet_setState rfl rfl nofun nofun) rfl .stay
  | noMemory unused =>
    refine quietly (quiet_of_same ?_ ?_) rfl .stay
    · change update (update s.state q .used) q .unused = s.state
      rw [update_idem, ← unused, update_eq_self]
    · change update s.parent q none = s.parent
      rw [← freed q unused, update_eq_self]
  | reap zombie | reapCopy zombie =>
    exact .of_act inv effect on (.reap before now zombie rfl rfl rfl)
  | copyFailed => exact quietly (quiet_of_same rfl rfl) rfl (.advance .stop)
  | alive alive => exact quietly (quiet_of_same rfl rfl) rfl (.advance (.look fun _ => alive))

theorem ProcEffect.tree_step (does : ProcEffect initproc s c p choice s') :
    Tree.Step initproc s.tree s'.tree := by
  have effect : Effect initproc s c choice s' := .proc on does
  have same : s'.tree.phase p = s.tree.phase p →
      Progress initproc s.tree s'.tree p (s.tree.phase p) (s'.tree.phase p) := fun same => by
    rw [same]
    exact .stay
  cases does with
  | goto moves => exact .of_progress inv effect on (quiet_of_same rfl rfl) rfl moves.progress
  | ownAcquire acquires =>
    refine .of_progress inv effect on (quiet_of_same rfl rfl) rfl (same ?_)
    exact (tree_phase_setPc (s := s.takeLock c p) _).trans acquires.phase_eq
  | ownRelease releases =>
    refine .of_progress inv effect on (quiet_of_same rfl rfl) rfl ?_
    rw [tree_phase_setPc (s := s.dropLock c p)]
    exact releases.progress
  | acquire acquires free => exact tree_step_acquire inv sleeps on acquires free
  | release releases held => exact tree_step_release inv sleeps on releases held
  | sleepChan at' | sleepTidy at' | setkilled at' | scan at' =>
    exact .of_progress inv effect on (quiet_of_same rfl rfl) rfl
      (same ((tree_phase_setPc _).trans (tree_phase_at at').symm))
  | sleepState at' | yieldState at' =>
    exact .of_progress inv effect on (quiet_setState rfl rfl nofun nofun) rfl
      (same ((tree_phase_setPc _).trans (tree_phase_at at').symm))
  | exitState at' =>
    exact .of_act inv effect on (.die (tree_phase_at at') (tree_phase_setPc _) rfl rfl rfl)
  | @save resume at' =>
    refine .of_progress inv effect on (quiet_of_same rfl rfl) rfl (same ?_)
    rw [tree_phase_setPc, tree_phase_at at']
    cases resume <;> rfl
  | @park resume at' =>
    refine .of_progress inv effect on (quiet_of_same rfl rfl) rfl (same ?_)
    have now : (({ s with stack := update s.stack c none }.setPc p
        (.parked resume)).setSched c (.back p)).tree.phase p =
          (Pc.parked resume).phase (s.state p) :=
      tree_phase_setPc (s := s) _
    have left : s.state p = resume.state := by
      rw [inv.cpus.on c p on, at']
      rfl
    rw [now, tree_phase_at at', left]
    cases resume <;> rfl
  | visit at' visits => exact tree_step_visit inv sleeps freed on at' visits
  | @leave job q todo verdict at' =>
    refine .of_progress inv effect on (quiet_of_same rfl rfl) rfl ?_
    rw [tree_phase_setPc, tree_phase_at at']
    exact job.progress_leave q todo verdict
  | forkParent at' =>
    have running : s.state p = .running := by
      rw [inv.cpus.on c p on, at']
      rfl
    exact .of_act inv effect on (.parent (tree_phase_at at') (tree_phase_setPc _) rfl rfl running
      (inv.cpus.child p _ (by rw [at']; rfl)) rfl)
  | reparent at' isChild =>
    exact .of_act inv effect on
      (.adopt (tree_phase_at at') isChild (tree_phase_setPc _) rfl rfl rfl)

omit sleeps freed on in
theorem SchedEffect.tree_step (off : s.stack c = none) (does : SchedEffect s c s') :
    Tree.Step initproc s.tree s'.tree := by
  have drifts : ∀ q, Tree.Drifts initproc s.tree s'.tree q := fun q => (does.outside off).drifts inv
  cases does with
  | select => exact .drift (quiet_setState rfl rfl nofun nofun) rfl drifts
  | _ => exact .drift (quiet_of_same rfl rfl) rfl drifts

end refinement

end Xv6.Proc
