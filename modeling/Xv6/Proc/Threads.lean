import Xv6.Proc.Cpus

/-!
# Threads off the CPUs

A thread that no CPU executes has been switched out, and the place where it goes
on limits the states that its process can be in.
-/

namespace Xv6.Proc

open State
open Function (update update_eq_self update_idem update_of_ne update_self)

variable {n : Nat} {Cpu : Type} [DecidableEq Cpu]

/-- The states of a process whose thread goes on there. -/
def Resume.Allows : Resume n → ProcState → Prop
  | .forkret, state => state ≠ .sleeping ∧ state ≠ .zombie
  | .yield _, state => state = .runnable ∨ state = .running
  | .sleep _ _, state => state = .sleeping ∨ state = .runnable ∨ state = .running
  | .exit, state => state = .zombie ∨ state = .unused

structure ThreadInv (s : State n Cpu) : Prop where
  allows : ∀ p resume, s.pc p = .parked resume → resume.Allows (s.state p)
  on : ∀ p, (∀ resume, s.pc p ≠ .parked resume) → ∃ c, s.stack c = some p

section allowed

variable {resume : Resume n}

theorem Resume.allows_state : resume.Allows resume.state := by
  cases resume <;> simp [Resume.Allows, Resume.state]

theorem Resume.Allows.wake (allows : resume.Allows .sleeping) : resume.Allows .runnable := by
  cases resume <;> simp [Resume.Allows] at allows ⊢

theorem Resume.Allows.select (allows : resume.Allows .runnable) : resume.Allows .running := by
  cases resume <;> simp [Resume.Allows] at allows ⊢

theorem Resume.Allows.start (allows : resume.Allows .used) : resume.Allows .runnable := by
  cases resume <;> simp [Resume.Allows] at allows ⊢

theorem Resume.Allows.reap (allows : resume.Allows .zombie) : resume.Allows .unused := by
  cases resume <;> simp [Resume.Allows] at allows ⊢

end allowed

variable {initproc : Fin n} {s s' : State n Cpu} {c : Cpu} {p q : Fin n} {pc : Pc n}
  {choice : Choice n}

namespace ThreadInv

section

omit [DecidableEq Cpu]

section

variable (inv : ThreadInv s)

include inv

theorem of_same (state : s'.state = s.state) (stack : s'.stack = s.stack) (pcs : s'.pc = s.pc) :
    ThreadInv s' := by
  obtain ⟨allows, on⟩ := inv
  constructor
  · rwa [state, pcs]
  · rwa [stack, pcs]

theorem setPc (on : s.stack c = some p) (staying : ∀ resume, pc ≠ .parked resume)
    (state : ∀ q, q ≠ p → s'.state q = s.state q) (stack : s'.stack = s.stack)
    (pcs : s'.pc = (s.setPc p pc).pc) : ThreadInv s' := by
  constructor
  · intro q resume at'
    have other : q ≠ p := by
      rintro rfl
      rw [pcs, setPc_self] at at'
      exact staying resume at'
    rw [pcs, setPc_of_ne _ _ other] at at'
    rw [state q other]
    exact inv.allows q resume at'
  · intro q away
    rw [stack]
    by_cases same : q = p
    · exact ⟨c, same ▸ on⟩
    · rw [pcs, setPc_of_ne _ _ same] at away
      exact inv.on q away

theorem setState {state : ProcState}
    (allows : ∀ resume : Resume n, resume.Allows (s.state q) → resume.Allows state) :
    ThreadInv (s.setState q state) := by
  refine ⟨fun r resume at' => ?_, inv.on⟩
  by_cases same : r = q
  · subst same
    rw [setState_self]
    exact allows resume (inv.allows r resume at')
  · rw [setState_of_ne _ _ same]
    exact inv.allows r resume at'

theorem setContext (allows : (.forkret : Resume n).Allows (s.state q)) :
    ThreadInv (s.setContext q) := by
  constructor
  · intro r resume at'
    by_cases same : r = q
    · subst same
      rw [show (s.setContext r).pc r = .parked .forkret from setPc_self ..] at at'
      cases at'
      exact allows
    · rw [show (s.setContext q).pc r = s.pc r from setPc_of_ne _ _ same] at at'
      exact inv.allows r resume at'
  · intro r away
    have other : r ≠ q := by
      rintro rfl
      exact away .forkret (setPc_self ..)
    rw [show (s.setContext q).pc r = s.pc r from setPc_of_ne _ _ other] at away
    exact inv.on r away

theorem visit {job : Job n} {todo : List (Fin n)} {verdict : Verdict} (cpus : CpuInv s)
    (at' : s.pc p = .visit job q todo) (does : Visit s p q job s' verdict) : ThreadInv s' := by
  cases does with
  | wake asleep => exact inv.setState fun _ allows => (asleep ▸ allows).wake
  | killAsleep _ asleep =>
    have woken : ThreadInv (s.setState q .runnable) :=
      inv.setState fun _ allows => (asleep ▸ allows).wake
    exact woken.of_same rfl rfl rfl
  | kill => exact inv.of_same rfl rfl rfl
  | alloc unused =>
    have context : ThreadInv (s.setContext q) := inv.setContext (unused ▸ (by simp [Resume.Allows]))
    have used : ThreadInv ((s.setContext q).setState q .used) := by
      refine ⟨fun r resume at' => ?_, context.on⟩
      by_cases same : r = q
      · subst same
        rw [show ((s.setContext r).setState r .used).pc r = .parked .forkret from
          setPc_self ..] at at'
        cases at'
        rw [setState_self]
        simp [Resume.Allows]
      · rw [setState_of_ne _ _ same]
        exact context.allows r resume at'
    exact used.of_same rfl rfl rfl
  | noMemory unused =>
    refine inv.of_same ?_ rfl rfl
    change update (update s.state q .used) q .unused = s.state
    rw [update_idem, ← unused, update_eq_self]
  | start =>
    have used : s.state q = .used := cpus.child p q (at' ▸ rfl)
    exact inv.setState fun _ allows => (used ▸ allows).start
  | reap zombie | reapCopy zombie =>
    have free : ThreadInv (s.setState q .unused) :=
      inv.setState fun _ allows => (zombie ▸ allows).reap
    exact free.of_same rfl rfl rfl
  | unheard | otherPid | taken | copyFailed | alive => exact inv

end

end

theorem park {resume : Resume n} (inv : ThreadInv s) (cpus : CpuInv s) (on : s.stack c = some p)
    (at' : s.pc p = .swtch resume) :
    ThreadInv (({ s with stack := update s.stack c none }.setPc p
      (.parked resume)).setSched c (.back p)) := by
  constructor
  · intro q resume' parked
    by_cases same : q = p
    · subst same
      obtain rfl : resume = resume' :=
        Pc.parked.inj ((setPc_self _ q (.parked resume)).symm.trans parked)
      change resume.Allows (s.state q)
      rw [cpus.on c q on, at']
      exact Resume.allows_state
    · exact inv.allows q resume' ((setPc_of_ne _ _ same).symm.trans parked)
  · intro q away
    have other : q ≠ p := by
      rintro rfl
      exact away resume (setPc_self ..)
    obtain ⟨c', there⟩ := inv.on q fun resume' parked =>
      away resume' ((setPc_of_ne _ _ other).trans parked)
    have different : c' ≠ c := by
      rintro rfl
      exact other (Option.some.inj (there.symm.trans on))
    exact ⟨c', (update_of_ne different ..).trans there⟩

theorem switch (inv : ThreadInv s) (off : s.stack c = none) (staying : ¬ pc.Leaving) :
    ThreadInv (({ s with
      stack := update s.stack c (some p)
      saved := update s.saved p false }.setPc p pc).setSched c (.running p)) := by
  constructor
  · intro q resume parked
    have other : q ≠ p := by
      rintro rfl
      exact staying ((setPc_self _ q pc).symm.trans parked ▸ trivial)
    exact inv.allows q resume ((setPc_of_ne _ _ other).symm.trans parked)
  · intro q away
    by_cases same : q = p
    · exact ⟨c, same ▸ update_self ..⟩
    · obtain ⟨c', there⟩ := inv.on q fun resume parked =>
        away resume ((setPc_of_ne _ _ same).trans parked)
      have different : c' ≠ c := by
        rintro rfl
        rw [off] at there
        cases there
      exact ⟨c', (update_of_ne different ..).trans there⟩

theorem of_procEffect (inv : ThreadInv s) (cpus : CpuInv s) (on : s.stack c = some p)
    (effect : ProcEffect initproc s c p choice s') : ThreadInv s' := by
  have staysOf : ∀ {pc : Pc n}, ¬ pc.Leaving → ∀ resume, pc ≠ .parked resume :=
    fun staying _ parked => staying (parked ▸ trivial)
  cases effect with
  | goto moves => exact inv.setPc on (staysOf moves.alike.staying) (fun _ _ => rfl) rfl rfl
  | ownAcquire moves | ownRelease moves =>
    refine inv.setPc on ?_ (fun _ _ => rfl) rfl rfl
    generalize s.pc p = before at moves
    cases moves <;> exact nofun
  | acquire moves | release moves =>
    exact inv.setPc on (staysOf (moves.alike (p := p)).staying) (fun _ _ => rfl) rfl rfl
  | sleepState | yieldState | exitState =>
    exact inv.setPc on (fun _ parked => by cases parked) (fun _ other => update_of_ne other ..) rfl
      rfl
  | park at' => exact inv.park cpus on at'
  | visit at' does =>
    have visited : ThreadInv _ := inv.visit cpus at' does
    refine visited.setPc (c := c) ?_ (fun _ parked => by cases parked) (fun _ _ => rfl) rfl rfl
    cases does <;> exact on
  | leave =>
    exact inv.setPc on (staysOf (Job.next_spec _ p _ _ _).2.2.2) (fun _ _ => rfl) rfl rfl
  | sleepChan | sleepTidy | setkilled | save | scan | forkParent | reparent =>
    exact inv.setPc on (fun _ parked => by cases parked) (fun _ _ => rfl) rfl rfl

theorem of_schedEffect (inv : ThreadInv s) (off : s.stack c = none) (effect : SchedEffect s c s') :
    ThreadInv s' := by
  cases effect with
  | @select p at' runnable =>
    have chosen : ThreadInv (s.setState p .running) :=
      inv.setState fun _ allows => (runnable ▸ allows).select
    exact chosen.of_same rfl rfl rfl
  | @swtch p resume pc at' parked resumes => exact inv.switch off (Resume.pc_spec p resumes).2.2.2
  | pick | skip | assign | back | unlock => exact inv.of_same rfl rfl rfl

end ThreadInv

structure RunInv (s : State n Cpu) : Prop where
  cpus : CpuInv s
  threads : ThreadInv s

theorem RunInv.of_effect (inv : RunInv s) (effect : Effect initproc s c choice s') : RunInv s' := by
  refine ⟨inv.cpus.of_effect effect, ?_⟩
  cases effect with
  | proc on does => exact inv.threads.of_procEffect inv.cpus on does
  | sched off does => exact inv.threads.of_schedEffect off does

section

omit [DecidableEq Cpu]

theorem RunInv.of_initial (starts : Initial initproc s) : RunInv s := by
  refine ⟨.of_initial starts, fun p resume at' => ?_, fun p away => ?_⟩
  · rw [starts.pc] at at'
    cases at'
    by_cases same : p = initproc
    · rw [same, starts.init.1]
      simp [Resume.Allows]
    · rw [starts.unused p same]
      simp [Resume.Allows]
  · exact absurd (starts.pc p) (away .forkret)

/-- Neither free nor being created nor exited. -/
def ProcState.Alive (state : ProcState) : Prop :=
  state = .sleeping ∨ state = .runnable ∨ state = .running

/-- The thread has begun and not exited. -/
def Pc.Busy : Pc n → Prop
  | .parked .forkret | .sched .exit | .swtch .exit | .parked .exit | .exitUnlock => False
  | _ => True

theorem RunInv.state_of_on (inv : RunInv s) (away : ∀ resume, s.pc q ≠ .parked resume) :
    s.state q = (s.pc q).expected := by
  obtain ⟨c, on⟩ := inv.threads.on q away
  exact inv.cpus.on c q on

theorem RunInv.used_of_on (inv : RunInv s) (on : s.stack c = some q) : s.state q ≠ .unused := by
  rw [inv.cpus.on c q on]
  cases s.pc q with
  | sched resume | swtch resume => cases resume <;> exact nofun
  | _ => exact nofun

theorem RunInv.alive_of_busy (inv : RunInv s) (busy : (s.pc q).Busy) : (s.state q).Alive := by
  by_cases away : ∀ resume, s.pc q ≠ .parked resume
  · rw [inv.state_of_on away]
    cases at' : s.pc q with
    | sched resume | swtch resume =>
      rw [at'] at busy
      cases resume with
      | exit => exact busy.elim
      | _ => simp [Pc.expected, Resume.state, ProcState.Alive]
    | exitUnlock => rw [at'] at busy; exact busy.elim
    | _ => exact .inr (.inr rfl)
  · simp only [ne_eq, not_forall, not_not] at away
    obtain ⟨resume, parked⟩ := away
    have allows := inv.threads.allows q resume parked
    rw [parked] at busy
    cases resume with
    | yield => exact .inr allows
    | sleep => exact allows
    | forkret | exit => exact busy.elim

end

theorem runInv_of_reachable (reachable : (system n Cpu initproc).Reachable s) : RunInv s :=
  reachable.invariant (motive := RunInv) (fun _ starts => .of_initial starts)
    (fun _ _ _ _ inv _ moved => inv.of_effect (step_effect moved))

end Xv6.Proc
