import Xv6.Proc.Effect

/-!
# CPUs and kernel stacks

A CPU holds at most one `p->lock` at a time, and which one is determined by the
step that its thread or its scheduler takes next. The state of a process changes
only under its lock, so that a process whose lock is free is running on one CPU
or has left its stack for good.
-/

namespace Xv6.Proc

open State
open Function (update update_eq_self update_idem update_of_ne update_self)

variable {n : Nat} {Cpu : Type} [DecidableEq Cpu]

/-- The state in which a thread leaves its CPU. -/
def Resume.state : Resume n → ProcState
  | .forkret | .yield _ => .runnable
  | .sleep _ _ => .sleeping
  | .exit => .zombie

def Point.fork : Point n → Option (Fin n × Int)
  | .forkLock np pid => some (np, pid)
  | .scan (.start pid) todo => todo.head?.map (·, pid)
  | _ => none

namespace Pc

/-- The `p->lock` that the thread of a process holds. -/
def holds (self : Fin n) : Pc n → Option (Fin n)
  | .sleepRelease _ _ _ | .sleepChan _ _ _ | .sleepState _ _ | .sleepTidy _ _ | .sleepUnlock _ _
  | .yieldState _ | .unlock _ | .sched _ | .swtch _ | .setkilledWrite | .exitState _ | .exitUnlock
  | .killedRead _ | .killedRelease _ _ => some self
  | .visit _ q _ | .leave _ q _ _ => some q
  | _ => none

def expected : Pc n → ProcState
  | .sched resume | .swtch resume => resume.state
  | .exitUnlock => .zombie
  | _ => .running

/-- The process that a call of `fork` has created, and its pid. -/
def fork : Pc n → Option (Fin n × Int)
  | .point back | .yieldAcquire back | .yieldState back | .unlock back
  | .sched (.yield back) | .swtch (.yield back) | .parked (.yield back) => back.fork
  | .leave .fork q _ (.hit pid) => some (q, pid)
  | .forkParent np pid | .forkUnlock np pid => some (np, pid)
  | .visit (.start pid) q _ | .leave (.start _) q _ (.hit pid) => some (q, pid)
  | .leave (.start pid) _ todo .pass => todo.head?.map (·, pid)
  | _ => none

/-- The same as long as it has not been started. -/
def child : Pc n → Option (Fin n)
  | .leave (.start _) _ _ (.hit _) => none
  | pc => pc.fork.map Prod.fst

/-- In the middle of `swtch`, or switched out. -/
def Leaving : Pc n → Prop
  | .swtch _ | .parked _ => True
  | _ => False

/-- The step makes no difference for the CPUs. -/
structure Alike (p : Fin n) (before after : Pc n) : Prop where
  holds : after.holds p = before.holds p := by rfl
  expected : after.expected = before.expected := by rfl
  fork : after.fork = before.fork := by rfl
  child : after.child = before.child := by rfl
  staying : ¬ after.Leaving := by exact id

end Pc

namespace SchedPc

/-- The `p->lock` that the scheduler of a CPU holds. -/
def holds : SchedPc n → Option (Fin n)
  | .locked p | .assign p | .swtch p | .back p | .unlock p => some p
  | .idle | .running _ => none

/-- The process that the scheduler has chosen and not yet switched to. -/
def chosen : SchedPc n → Option (Fin n)
  | .assign p | .swtch p => some p
  | _ => none

def current : SchedPc n → Option (Fin n)
  | .swtch p | .running p | .back p => some p
  | _ => none

end SchedPc

def State.holding (s : State n Cpu) (c : Cpu) : Option (Fin n) :=
  match s.stack c with
  | some p => (s.pc p).holds p
  | none => (s.sched c).holds

def State.Off (s : State n Cpu) (p : Fin n) : Prop := ∀ c, s.stack c ≠ some p

structure ProcInv (s : State n Cpu) (p : Fin n) : Prop where
  alone : ∀ c c', s.stack c = some p → s.stack c' = some p → c = c'
  on : ∀ c, s.stack c = some p → s.state p = (s.pc p).expected
  parked : ∀ c resume, s.stack c = some p → s.pc p ≠ .parked resume
  saved : ∀ resume, s.pc p = .swtch resume → s.saved p = true
  off : s.Off p → s.state p ≠ .unused → s.saved p = true ∧ ∃ resume, s.pc p = .parked resume
  chosen : ∀ c, (s.sched c).chosen = some p → s.state p = .running ∧ s.Off p
  running : s.Off p → s.state p = .running → ∃ c, (s.sched c).chosen = some p

structure CpuInv (s : State n Cpu) : Prop where
  proc : ∀ p, ProcInv s p
  stack : ∀ c p, s.stack c = some p ↔ s.sched c = .running p
  cproc : ∀ c, s.cproc c = (s.sched c).current
  plock : ∀ c p, s.plock p = some c ↔ s.holding c = some p
  child : ∀ p q, (s.pc p).child = some q → s.state q = .used
  creator : ∀ p p' q, (s.pc p).child = some q → (s.pc p').child = some q → p = p'

section classification

variable {initproc : Fin n} {s : State n Cpu} {p : Fin n} {choice : Choice n} {before after : Pc n}
  {lk : Lock}

omit [DecidableEq Cpu] in
theorem Goto.alike (moves : Goto initproc s p choice before after) : Pc.Alike p before after := by
  cases moves with
  | call resting entry =>
    cases resting <;> cases choice <;> cases entry <;> exact {}
  | exit resting => cases resting <;> exact {}
  | @finish job =>
    cases job with
    | wakeup chan after => cases after <;> exact {}
    | wait addr havekids => cases havekids <;> exact {}
    | _ => exact {}
  | @skip job q todo other =>
    cases job with
    | start => cases other
    | _ => exact {}
  | _ => exact {}

theorem Pc.Acquire.alike (acquires : Pc.Acquire lk before after) : Pc.Alike p before after := by
  cases acquires with
  | call resting => cases resting <;> exact {}
  | @sleep _ after => cases after <;> exact {}
  | _ => exact {}

theorem Pc.Release.alike (releases : Pc.Release lk before after) : Pc.Alike p before after := by
  cases releases with
  | call resting => cases resting <;> exact {}
  | _ => exact {}

theorem Pc.expected_running {pc : Pc n} (p : Fin n) (unlocked : pc.holds p ≠ some p) :
    pc.expected = .running := by
  cases pc <;> first | rfl | exact absurd rfl unlocked

theorem Pc.expected_ne_used (pc : Pc n) : pc.expected ≠ .used := by
  cases pc with
  | sched resume | swtch resume => cases resume <;> exact nofun
  | _ => exact nofun

theorem Resume.pc_spec {resume : Resume n} {pc : Pc n} (p : Fin n) (resumes : resume.pc = some pc) :
    pc.holds p = some p ∧ pc.expected = .running ∧ pc.child = (Pc.parked resume).child ∧
      ¬ pc.Leaving := by
  cases resume <;> cases resumes <;> exact ⟨rfl, rfl, rfl, id⟩

/-- A thread that has left a process of the table holds no `p->lock`. -/
theorem Job.next_spec (job : Job n) (p q : Fin n) (todo : List (Fin n)) (verdict : Verdict) :
    (job.next q todo verdict).holds p = none ∧ (job.next q todo verdict).expected = .running ∧
      (job.next q todo verdict).child = (Pc.leave job q todo verdict).child ∧
      ¬ (job.next q todo verdict).Leaving := by
  cases job with
  | wakeup chan after =>
    cases verdict with
    | pass => exact ⟨rfl, rfl, rfl, id⟩
    | hit | fail => cases after <;> exact ⟨rfl, rfl, rfl, id⟩
  | _ => cases verdict <;> exact ⟨rfl, rfl, rfl, id⟩

end classification

variable {initproc : Fin n} {s s' : State n Cpu} {c c' : Cpu} {p q : Fin n} {pc : Pc n}
  {choice : Choice n}

namespace State

section

omit [DecidableEq Cpu]

@[simp] theorem setPc_self (s : State n Cpu) (p : Fin n) (pc : Pc n) : (s.setPc p pc).pc p = pc :=
  update_self ..

theorem setPc_of_ne (s : State n Cpu) (pc : Pc n) (other : q ≠ p) :
    (s.setPc p pc).pc q = s.pc q :=
  update_of_ne other ..

@[simp] theorem setState_self (s : State n Cpu) (p : Fin n) (state : ProcState) :
    (s.setState p state).state p = state :=
  update_self ..

theorem setState_of_ne (s : State n Cpu) (state : ProcState) (other : q ≠ p) :
    (s.setState p state).state q = s.state q :=
  update_of_ne other ..

end

@[simp] theorem setSched_self (s : State n Cpu) (c : Cpu) (pc : SchedPc n) :
    (s.setSched c pc).sched c = pc :=
  update_self ..

theorem setSched_pc (s : State n Cpu) (c : Cpu) (pc : SchedPc n) : (s.setSched c pc).pc = s.pc :=
  rfl

theorem setSched_of_ne (s : State n Cpu) (pc : SchedPc n) (other : c' ≠ c) :
    (s.setSched c pc).sched c' = s.sched c' :=
  update_of_ne other ..

end State

omit [DecidableEq Cpu] in
/-- What a CPU holds depends on its stack, its scheduler and the thread it executes. -/
theorem State.holding_same (stack : s'.stack c = s.stack c) (sched : s'.sched c = s.sched c)
    (pcs : ∀ p, s.stack c = some p → s'.pc p = s.pc p) : s'.holding c = s.holding c := by
  unfold holding
  rw [stack, sched]
  cases there : s.stack c with
  | none => rfl
  | some p => simp only [pcs p there]

namespace ProcInv

section

omit [DecidableEq Cpu]

theorem of_same (inv : ProcInv s p) (stack : ∀ c, s'.stack c = some p ↔ s.stack c = some p)
    (chosen : ∀ c, (s'.sched c).chosen = some p ↔ (s.sched c).chosen = some p)
    (pc : s'.pc p = s.pc p) (state : s'.state p = s.state p) (saved : s'.saved p = s.saved p) :
    ProcInv s' p := by
  have off : s'.Off p ↔ s.Off p := forall_congr' fun c => not_congr (stack c)
  constructor
  all_goals simp only [stack, chosen, pc, state, saved, off]
  · exact inv.alone
  · exact inv.on
  · exact inv.parked
  · exact inv.saved
  · exact inv.off
  · exact inv.chosen
  · exact inv.running

theorem of_on (on : s.stack c = some p) (alone : ∀ c', s.stack c' = some p → c' = c)
    (expected : s.state p = (s.pc p).expected) (staying : ∀ resume, s.pc p ≠ .parked resume)
    (saved : ∀ resume, s.pc p = .swtch resume → s.saved p = true)
    (free : ∀ c', (s.sched c').chosen ≠ some p) : ProcInv s p where
  alone c₁ c₂ there there' := (alone c₁ there).trans (alone c₂ there').symm
  on _ _ := expected
  parked _ resume _ := staying resume
  saved := saved
  off isOff := absurd on (isOff c)
  chosen c' chosen := absurd chosen (free c')
  running isOff := absurd on (isOff c)

theorem of_off (isOff : s.Off p) (saved : ∀ resume, s.pc p = .swtch resume → s.saved p = true)
    (parked : s.state p ≠ .unused → s.saved p = true ∧ ∃ resume, s.pc p = .parked resume)
    (chosen : ∀ c, (s.sched c).chosen = some p → s.state p = .running)
    (running : s.state p = .running → ∃ c, (s.sched c).chosen = some p) : ProcInv s p where
  alone c _ there := absurd there (isOff c)
  on c there := absurd there (isOff c)
  parked c _ there := absurd there (isOff c)
  saved := saved
  off _ := parked
  chosen c chosenBy := ⟨chosen c chosenBy, isOff⟩
  running _ := running

end

end ProcInv

namespace CpuInv

section

omit [DecidableEq Cpu]

theorem on (inv : CpuInv s) (c : Cpu) (p : Fin n) :
    s.stack c = some p → s.state p = (s.pc p).expected := (inv.proc p).on c

/-- For a step that changes one process it is enough to look at that process. -/
theorem of_proc (inv : CpuInv s) (own : ProcInv s' p)
    (stackOf : ∀ c q, q ≠ p → (s'.stack c = some q ↔ s.stack c = some q))
    (choices : ∀ c q, q ≠ p → ((s'.sched c).chosen = some q ↔ (s.sched c).chosen = some q))
    (pcs : ∀ q, q ≠ p → s'.pc q = s.pc q) (states : ∀ q, q ≠ p → s'.state q = s.state q)
    (saves : ∀ q, q ≠ p → s'.saved q = s.saved q)
    (stack : ∀ c q, s'.stack c = some q ↔ s'.sched c = .running q)
    (cproc : ∀ c, s'.cproc c = (s'.sched c).current)
    (plock : ∀ c q, s'.plock q = some c ↔ s'.holding c = some q)
    (child : ∀ q, (s'.pc p).child = some q → s'.state q = .used ∧ ∀ r, r ≠ p →
      (s.pc r).child ≠ some q)
    (created : ∀ r, r ≠ p → (s.pc r).child = some p → s'.state p = .used) : CpuInv s' := by
  refine ⟨fun q => ?_, stack, cproc, plock, fun r q isChild => ?_,
    fun r r' q isChild isChild' => ?_⟩
  · by_cases same : q = p
    · exact same ▸ own
    · exact (inv.proc q).of_same (stackOf · q same) (choices · q same) (pcs q same) (states q same)
        (saves q same)
  · by_cases same : r = p
    · exact (child q (same ▸ isChild)).1
    · rw [pcs r same] at isChild
      by_cases created' : q = p
      · exact created' ▸ created r same (created' ▸ isChild)
      · exact (states q created').trans (inv.child r q isChild)
  · by_cases same : r = p <;> by_cases same' : r' = p
    · exact same.trans same'.symm
    · exact absurd (pcs r' same' ▸ isChild') ((child q (same ▸ isChild)).2 r' same')
    · exact absurd (pcs r same ▸ isChild) ((child q (same' ▸ isChild')).2 r same)
    · exact inv.creator r r' q (pcs r same ▸ isChild) (pcs r' same' ▸ isChild')

theorem of_same (inv : CpuInv s) (state : s'.state = s.state := by rfl)
    (plock : s'.plock = s.plock := by rfl) (cproc : s'.cproc = s.cproc := by rfl)
    (stack : s'.stack = s.stack := by rfl) (saved : s'.saved = s.saved := by rfl)
    (pc : s'.pc = s.pc := by rfl) (sched : s'.sched = s.sched := by rfl) : CpuInv s' := by
  have holding : s'.holding = s.holding := by
    funext c
    simp only [holding, stack, pc, sched]
  refine ⟨fun p => (inv.proc p).of_same (by simp [stack]) (by simp [sched]) (congrFun pc p)
    (congrFun state p) (congrFun saved p), ?_, ?_, ?_, ?_, ?_⟩
  all_goals simp only [state, plock, cproc, stack, pc, sched, holding]
  · exact inv.stack
  · exact inv.cproc
  · exact inv.plock
  · exact inv.child
  · exact inv.creator

end

section lock

variable {held : Option (Fin n)}

theorem plock_take (inv : CpuInv s) (free : s.plock q = none) (before : s.holding c = none)
    (r : Fin n) :
    update s.plock q (some c) r = some c' ↔
      (if c' = c then some q else s.holding c') = some r := by
  by_cases same : r = q
  · subst same
    rw [update_self, Option.some.injEq]
    split
    next here => simp [here]
    next there =>
      refine ⟨fun here => absurd here.symm there, fun held => ?_⟩
      rw [← inv.plock, free] at held
      cases held
  · rw [update_of_ne same, inv.plock]
    split
    next here =>
      rw [here, before]
      simp [Ne.symm same]
    next => rfl

theorem plock_drop (inv : CpuInv s) (locked : s.plock q = some c) (r : Fin n) :
    update s.plock q none r = some c' ↔ (if c' = c then none else s.holding c') = some r := by
  by_cases same : r = q
  · subst same
    rw [update_self]
    split
    next => exact ⟨nofun, nofun⟩
    next there =>
      refine ⟨nofun, fun held => absurd ?_ there⟩
      exact Option.some.inj (((inv.plock c' r).mpr held).symm.trans locked)
  · rw [update_of_ne same, inv.plock]
    split
    next here =>
      rw [here, (inv.plock c q).mp locked]
      simp [Ne.symm same]
    next => rfl

omit [DecidableEq Cpu] in
theorem plock_keep [Decidable (c' = c)] (inv : CpuInv s) (same : held = s.holding c) (r : Fin n) :
    s.plock r = some c' ↔ (if c' = c then held else s.holding c') = some r := by
  split
  next here =>
    rw [here, same]
    exact inv.plock c r
  next => exact inv.plock c' r

end lock

section

omit [DecidableEq Cpu]

theorem holding_on (on : s.stack c = some p) : s.holding c = (s.pc p).holds p := by
  simp [holding, on]

theorem holding_off (off : s.stack c = none) : s.holding c = (s.sched c).holds := by
  simp [holding, off]

section

variable (inv : CpuInv s)

include inv

/-- A process in whose lock another CPU is, is not leaving its own CPU. -/
theorem running_of_locked (locked : s.plock q = some c) (other : s.stack c ≠ some q)
    (there : s.stack c' = some q) : s.state q = .running := by
  rw [inv.on c' q there]
  refine Pc.expected_running q fun own => other ?_
  have held : s.plock q = some c' := (inv.plock c' q).mpr ((holding_on there).trans own)
  obtain rfl : c = c' := Option.some.inj (locked.symm.trans held)
  exact there

variable (on : s.stack c = some p)

include on

theorem holding_setPc (c' : Cpu) [Decidable (c' = c)] :
    (s.setPc p pc).holding c' = if c' = c then pc.holds p else s.holding c' := by
  split
  next same =>
    subst same
    simp [holding, setPc, on]
  next other =>
    refine holding_same rfl rfl fun r there => update_of_ne ?_ ..
    rintro rfl
    exact other ((inv.proc _).alone _ _ there on)

theorem not_chosen (c' : Cpu) :
    (s.sched c').chosen ≠ some p :=
  fun chosen => ((inv.proc p).chosen c' chosen).2 c on

/-- The thread on CPU `c` moves. It may take or leave a `p->lock`, change its own
state, and become the creator of a new process. -/
theorem setPc (plock : ∀ c' q, s'.plock q = some c' ↔ (s.setPc p pc).holding c' = some q)
    (expected : s'.state p = pc.expected)
    (child : ∀ q, pc.child = some q → (s.pc p).child = some q ∨ s.state q = .used ∧
      ∀ r, (s.pc r).child ≠ some q)
    (staying : ∀ resume, pc ≠ .parked resume)
    (leaving : ∀ resume, pc = .swtch resume → s'.saved p = true)
    (saves : ∀ q, q ≠ p → s'.saved q = s.saved q) (states : ∀ q, q ≠ p → s'.state q = s.state q)
    (cproc : s'.cproc = s.cproc) (stack : s'.stack = s.stack) (pcs : s'.pc = (s.setPc p pc).pc)
    (sched : s'.sched = s.sched) : CpuInv s' := by
  have pcAt : s'.pc p = pc := by rw [pcs, setPc_self]
  have notUsed : s.state p ≠ .used := by
    rw [inv.on c p on]
    exact Pc.expected_ne_used _
  have holding : ∀ c', s'.holding c' = (s.setPc p pc).holding c' := fun c' => by
    simp only [holding, stack, pcs, sched]
    rfl
  have own : ProcInv s' p := by
    refine .of_on (c := c) (stack ▸ on) (fun c' there => ?_) ?_ ?_ ?_ fun c' => ?_
    · rw [stack] at there
      exact (inv.proc p).alone c' c there on
    · rw [expected, pcAt]
    · rw [pcAt]
      exact staying
    · rw [pcAt]
      exact leaving
    · rw [sched]
      exact inv.not_chosen on c'
  refine inv.of_proc own (fun c' q _ => by rw [stack]) (fun c' q _ => by rw [sched])
    (fun q other => by rw [pcs, setPc_of_ne _ _ other]) states saves
    (by rw [stack, sched]; exact inv.stack) (by rw [cproc, sched]; exact inv.cproc)
    (fun c' q => by rw [holding]; exact plock c' q) (fun q isChild => ?_)
    fun r _ isChild => absurd (inv.child r p isChild) notUsed
  rw [pcAt] at isChild
  have used : s.state q = .used := (child q isChild).elim (inv.child p q) (·.1)
  have other : q ≠ p := fun same => notUsed (same ▸ used)
  refine ⟨(states q other).trans used, fun r different isChild' => ?_⟩
  rcases child q isChild with old | ⟨-, none⟩
  · exact different (inv.creator r p q isChild' old)
  · exact none r isChild'

theorem moveTo (holds : pc.holds p = (s.pc p).holds p) (expected : pc.expected = (s.pc p).expected)
    (child : ∀ q, pc.child = some q → (s.pc p).child = some q ∨ s.state q = .used ∧
      ∀ r, (s.pc r).child ≠ some q)
    (staying : ¬ pc.Leaving) : CpuInv (s.setPc p pc) := by
  classical
  refine inv.setPc on (fun c' q => ?_) ((inv.on c p on).trans expected.symm) child
    (fun _ at' => staying (at' ▸ trivial)) (fun _ at' => absurd (at' ▸ trivial) staying)
    (fun _ _ => rfl) (fun _ _ => rfl) rfl rfl rfl rfl
  rw [inv.holding_setPc on c']
  exact inv.plock_keep (holds.trans (holding_on on).symm) q

theorem move (alike : Pc.Alike p (s.pc p) pc) :
    CpuInv (s.setPc p pc) :=
  inv.moveTo on alike.holds alike.expected (fun _ isChild => .inl (alike.child ▸ isChild))
    alike.staying

end

end

theorem lock (inv : CpuInv s) (on : s.stack c = some p) (free : s.plock q = none)
    (before : (s.pc p).holds p = none) (after : pc.holds p = some q)
    (expected : pc.expected = (s.pc p).expected) (child : pc.child = (s.pc p).child)
    (staying : ¬ pc.Leaving) : CpuInv ((s.takeLock c q).setPc p pc) := by
  refine inv.setPc on (fun c' r => ?_) ((inv.on c p on).trans expected.symm)
    (fun _ isChild => .inl (child ▸ isChild)) (fun _ at' => staying (at' ▸ trivial))
    (fun _ at' => absurd (at' ▸ trivial) staying) (fun _ _ => rfl) (fun _ _ => rfl) rfl rfl rfl rfl
  rw [inv.holding_setPc on c', after]
  exact inv.plock_take free ((holding_on on).trans before) r

theorem unlock (inv : CpuInv s) (on : s.stack c = some p) (locked : s.plock q = some c)
    (after : pc.holds p = none) (expected : pc.expected = (s.pc p).expected)
    (child : pc.child = (s.pc p).child) (staying : ¬ pc.Leaving) :
    CpuInv ((s.dropLock c q).setPc p pc) := by
  refine inv.setPc on (fun c' r => ?_) ((inv.on c p on).trans expected.symm)
    (fun _ isChild => .inl (child ▸ isChild)) (fun _ at' => staying (at' ▸ trivial))
    (fun _ at' => absurd (at' ▸ trivial) staying) (fun _ _ => rfl) (fun _ _ => rfl) rfl rfl rfl rfl
  rw [inv.holding_setPc on c', after]
  exact inv.plock_drop locked r

section

omit [DecidableEq Cpu]

section

variable (inv : CpuInv s)

include inv

theorem not_child (different : s.state q ≠ .used) : (s.pc p).child ≠ some q :=
  fun child => different (inv.child p q child)

theorem ownState {state : ProcState} (on : s.stack c = some p) (before : (s.pc p).holds p = some p)
    (after : pc.holds p = some p) (expected : pc.expected = state)
    (child : pc.child = (s.pc p).child) (staying : ¬ pc.Leaving) :
    CpuInv ((s.setState p state).setPc p pc) := by
  classical
  refine inv.setPc on (fun c' r => ?_) ((setState_self ..).trans expected.symm)
    (fun _ isChild => .inl (child ▸ isChild)) (fun _ at' => staying (at' ▸ trivial))
    (fun _ at' => absurd (at' ▸ trivial) staying) (fun _ _ => rfl)
    (fun q other => setState_of_ne _ _ other) rfl rfl rfl rfl
  rw [inv.holding_setPc on c', after]
  exact inv.plock_keep (((holding_on on).trans before).symm) r

/-- The state of a process that is on no CPU changes, and it does not run. -/
theorem setOther {state : ProcState} (isOff : s.Off q) (before : s.state q ≠ .running)
    (after : state ≠ .running) (parked : s.saved q = true ∧ ∃ resume, s.pc q = .parked resume)
    (noChild : ∀ r, (s.pc r).child ≠ some q) : CpuInv (s.setState q state) := by
  have stateAt : (s.setState q state).state q = state := setState_self ..
  have states : ∀ r, r ≠ q → (s.setState q state).state r = s.state r :=
    fun r other => setState_of_ne _ _ other
  have own : ProcInv (s.setState q state) q := .of_off isOff (inv.proc q).saved (fun _ => parked)
      (fun c chosen => absurd ((inv.proc q).chosen c chosen).1 before)
      (fun runs => absurd (stateAt.symm.trans runs) after)
  refine inv.of_proc own (fun _ _ _ => .rfl) (fun _ _ _ => .rfl) (fun _ _ => rfl) states
    (fun _ _ => rfl) inv.stack inv.cproc inv.plock (fun r isChild => ?_)
    fun r _ isChild => absurd isChild (noChild r)
  have other : r ≠ q := fun same => noChild q (same ▸ isChild)
  exact ⟨(states r other).trans (inv.child q r isChild),
    fun r' different isChild' => different (inv.creator r' q r isChild' isChild)⟩

theorem setContext (isOff : s.Off q) : CpuInv (s.setContext q) := by
  have pcAt : (s.setContext q).pc q = .parked .forkret := setPc_self ..
  have pcs : ∀ r, r ≠ q → (s.setContext q).pc r = s.pc r := fun r other => setPc_of_ne _ _ other
  have own : ProcInv (s.setContext q) q :=
    .of_off isOff (fun _ _ => update_self ..) (fun _ => ⟨update_self .., .forkret, pcAt⟩)
      (fun c chosen => ((inv.proc q).chosen c chosen).1) ((inv.proc q).running isOff)
  refine inv.of_proc own (fun _ _ _ => .rfl) (fun _ _ _ => .rfl) pcs (fun _ _ => rfl)
    (fun r other => update_of_ne other ..) inv.stack inv.cproc (fun c r => ?_)
    (fun r isChild => ?_) fun r _ isChild => inv.child r q isChild
  · have holding : (s.setContext q).holding c = s.holding c := by
      refine holding_same rfl rfl fun r there => pcs r ?_
      rintro rfl
      exact isOff c there
    rw [holding]
    exact inv.plock c r
  · rw [pcAt] at isChild
    cases isChild

theorem off_of_locked (locked : s.plock q = some c) (other : s.stack c ≠ some q)
    (idle : s.state q ≠ .running) : s.Off q :=
  fun _ there => idle (inv.running_of_locked locked other there)

end

end

section visit

variable {job : Job n} {todo : List (Fin n)} {verdict : Verdict}

section

omit [DecidableEq Cpu]

section

variable (inv : CpuInv s)

include inv

theorem fail (unused : s.state q = .unused) :
    CpuInv ((s.allocproc q).freeproc q) := by
  refine inv.of_same ?_ rfl rfl rfl rfl rfl rfl
  change update (update s.state q .used) q .unused = s.state
  rw [update_idem, ← unused, update_eq_self]

variable (on : s.stack c = some p)

include on

theorem visited_off (at' : s.pc p = .visit job q todo) (idle : s.state q ≠ .running) : s.Off q := by
  have locked : s.plock q = some c := by
    rw [inv.plock, holding_on on, at']
    rfl
  refine inv.off_of_locked locked (fun own => idle ?_) idle
  rw [inv.on c q own]
  obtain rfl : p = q := Option.some.inj (on.symm.trans own)
  rw [at']
  rfl

theorem leaveTo (at' : s.pc p = .visit job q todo)
    (child : (Pc.leave job q todo verdict).child = none) :
    CpuInv (s.setPc p (.leave job q todo verdict)) := by
  refine inv.moveTo on (by rw [at']; rfl) (by rw [at']; rfl) (fun r isChild => ?_) id
  rw [child] at isChild
  cases isChild

/-- A process that is visited changes its state from one in which it is on no CPU. -/
theorem setVisited {state : ProcState} (at' : s.pc p = .visit job q todo)
    (inUse : s.state q ≠ .unused) (idle : s.state q ≠ .running) (old : s.state q ≠ .used)
    (after : state ≠ .running) : CpuInv (s.setState q state) :=
  have isOff := inv.visited_off on at' idle
  inv.setOther isOff idle after ((inv.proc q).off isOff inUse) fun _ => inv.not_child old

theorem alloc {pid : Int} (at' : s.pc p = .visit .fork q todo) (unused : s.state q = .unused) :
    CpuInv (((s.allocproc q).setContext q).setPc p (.leave .fork q todo (.hit pid))) := by
  have isOff : s.Off q := inv.visited_off on at' (by simp [unused])
  have other : p ≠ q := by
    rintro rfl
    exact isOff c on
  have here : ((s.allocproc q).setContext q).pc p = .visit .fork q todo :=
    (setPc_of_ne _ _ other).trans at'
  have noChild : ∀ r, ((s.setContext q).pc r).child ≠ some q := fun r => by
    by_cases same : r = q
    · rw [same, show (s.setContext q).pc q = .parked .forkret from setPc_self ..]
      exact nofun
    · rw [show (s.setContext q).pc r = s.pc r from setPc_of_ne _ _ same]
      exact inv.not_child (by simp [unused])
  have idle : (s.setContext q).state q ≠ .running := by
    rw [show (s.setContext q).state q = s.state q from rfl, unused]
    decide
  have used : CpuInv ((s.setContext q).setState q .used) :=
    (inv.setContext isOff).setOther isOff idle (by decide)
      ⟨update_self .., .forkret, setPc_self ..⟩ noChild
  have allocated : CpuInv ((s.allocproc q).setContext q) := used.of_same
  refine allocated.moveTo on (by rw [here]; rfl) (by rw [here]; rfl) (fun r isChild => .inr ?_) id
  cases isChild
  exact ⟨update_self .., noChild⟩

theorem start {pid : Int} (at' : s.pc p = .visit (.start pid) q todo) :
    CpuInv ((s.setState q .runnable).setPc p (.leave (.start pid) q todo (.hit pid))) := by
  have isChild : (s.pc p).child = some q := by
    rw [at']
    rfl
  have used : s.state q = .used := inv.child p q isChild
  have isOff : s.Off q := inv.visited_off on at' (by simp [used])
  have moved : CpuInv (s.setPc p (.leave (.start pid) q todo (.hit pid))) := inv.leaveTo on at' rfl
  have other : q ≠ p := by
    rintro rfl
    exact isOff c on
  have elsewhere : ∀ r, r ≠ p → (s.setPc p (.leave (.start pid) q todo (.hit pid))).pc r = s.pc r :=
    fun r => setPc_of_ne _ _
  refine moved.setOther isOff ?_ (by decide) ?_ fun r isChild' => ?_
  · rw [show (s.setPc p (.leave (.start pid) q todo (.hit pid))).state q = s.state q from rfl, used]
    decide
  · rw [elsewhere q other]
    exact (inv.proc q).off isOff (by simp [used])
  · by_cases same : r = p
    · rw [same, setPc_self] at isChild'
      cases isChild'
    · rw [elsewhere r same] at isChild'
      exact same (inv.creator r p q isChild' isChild)

theorem visit {visited : State n Cpu} (at' : s.pc p = .visit job q todo)
    (does : Visit s p q job visited verdict) :
    CpuInv (visited.setPc p (.leave job q todo verdict)) := by
  cases does with
  | wake asleep =>
    have woken : CpuInv (s.setState q .runnable) := inv.setVisited on at' (by simp [asleep])
      (by simp [asleep]) (by simp [asleep]) (by decide)
    exact woken.leaveTo on at' rfl
  | killAsleep _ asleep =>
    have woken : CpuInv (s.setState q .runnable) := inv.setVisited on at' (by simp [asleep])
      (by simp [asleep]) (by simp [asleep]) (by decide)
    have accused : CpuInv ((s.setKilled q).setState q .runnable) :=
      woken.of_same
    exact accused.leaveTo on at' rfl
  | kill =>
    have accused : CpuInv (s.setKilled q) := inv.of_same
    exact accused.leaveTo on at' rfl
  | alloc unused => exact inv.alloc on at' unused
  | noMemory unused => exact (inv.fail unused).leaveTo on at' rfl
  | start => exact inv.start on at'
  | reap zombie =>
    have free : CpuInv (s.setState q .unused) := inv.setVisited on at' (by simp [zombie])
      (by simp [zombie]) (by simp [zombie]) (by decide)
    have freed : CpuInv (s.freeproc q) := free.of_same
    exact freed.leaveTo on at' rfl
  | @reapCopy addr _ zombie =>
    have free : CpuInv (s.setState q .unused) := inv.setVisited on at' (by simp [zombie])
      (by simp [zombie]) (by simp [zombie]) (by decide)
    have freed : CpuInv ((s.copyout p addr (s.xstate q)).freeproc q) :=
      free.of_same
    exact freed.leaveTo on at' rfl
  | unheard | otherPid | taken | copyFailed | alive => exact inv.leaveTo on at' rfl

end

end

end visit

section

omit [DecidableEq Cpu]

theorem save {resume : Resume n} (inv : CpuInv s) (on : s.stack c = some p)
    (at' : s.pc p = .sched resume) :
    CpuInv ({ s with saved := update s.saved p true }.setPc p (.swtch resume)) := by
  classical
  refine inv.setPc on (fun c' q => ?_) ?_ (fun q isChild => .inl ?_) (fun _ => by nofun)
    (fun _ _ => update_self ..) (fun q other => update_of_ne other ..)
    (fun _ _ => rfl) rfl rfl rfl rfl
  · rw [inv.holding_setPc on c']
    refine inv.plock_keep ?_ q
    rw [holding_on on, at']
    rfl
  · exact (inv.on c p on).trans (by rw [at']; rfl)
  · rw [at']
    cases resume <;> exact isChild

theorem locked_of_chosen (inv : CpuInv s) (chosen : (s.sched c).chosen = some p) :
    s.plock p = some c := by
  have off : s.stack c = none := by
    cases there : s.stack c with
    | none => rfl
    | some q =>
      rw [(inv.stack c q).mp there] at chosen
      cases chosen
  rw [inv.plock, holding_off off]
  revert chosen
  cases s.sched c <;> simp [SchedPc.chosen, SchedPc.holds]

/-- The stack of CPU `c` and the step of its scheduler change together. -/
theorem stack_frame (inv : CpuInv s) (here : ∀ q, s'.stack c = some q ↔ s'.sched c = .running q)
    (stackOf : ∀ c', c' ≠ c → s'.stack c' = s.stack c')
    (scheds : ∀ c', c' ≠ c → s'.sched c' = s.sched c') (c' : Cpu) (q : Fin n) :
    s'.stack c' = some q ↔ s'.sched c' = .running q := by
  by_cases same : c' = c
  · exact same ▸ here q
  · rw [stackOf c' same, scheds c' same]
    exact inv.stack c' q

theorem cproc_frame (inv : CpuInv s) (here : s'.cproc c = (s'.sched c).current)
    (cprocs : ∀ c', c' ≠ c → s'.cproc c' = s.cproc c')
    (scheds : ∀ c', c' ≠ c → s'.sched c' = s.sched c') (c' : Cpu) :
    s'.cproc c' = (s'.sched c').current := by
  by_cases same : c' = c
  · exact same ▸ here
  · rw [cprocs c' same, scheds c' same]
    exact inv.cproc c'

end

theorem park {resume : Resume n} (inv : CpuInv s) (on : s.stack c = some p)
    (at' : s.pc p = .swtch resume) :
    CpuInv (({ s with stack := update s.stack c none }.setPc p
      (.parked resume)).setSched c (.back p)) := by
  set t := ({ s with stack := update s.stack c none }.setPc p
      (.parked resume)).setSched c (.back p)
  have schedBefore : s.sched c = .running p := (inv.stack c p).mp on
  have stackAt : t.stack c = none := update_self ..
  have stackOf : ∀ c', c' ≠ c → t.stack c' = s.stack c' := fun c' other => update_of_ne other ..
  have schedAt : t.sched c = .back p := update_self ..
  have scheds : ∀ c', c' ≠ c → t.sched c' = s.sched c' := fun c' other => update_of_ne other ..
  have pcAt : t.pc p = .parked resume := setPc_self ..
  have pcs : ∀ q, q ≠ p → t.pc q = s.pc q := fun q other => update_of_ne other ..
  have leftAlone : ∀ c', c' ≠ c → s.stack c' ≠ some p :=
    fun c' other there => other ((inv.proc _).alone _ _ there on)
  have isOff : t.Off p := fun c' there => by
    by_cases same : c' = c
    · rw [same, stackAt] at there
      cases there
    · exact leftAlone c' same (stackOf c' same ▸ there)
  have notChosen : ∀ c', (t.sched c').chosen ≠ some p := fun c' chosen => by
    by_cases same : c' = c
    · rw [same, schedAt] at chosen
      cases chosen
    · exact inv.not_chosen on c' (scheds c' same ▸ chosen)
  have own : ProcInv t p := by
    refine .of_off isOff (fun _ leaves => ?_) (fun _ => ⟨(inv.proc p).saved resume at', resume, pcAt⟩)
      (fun c' chosen => absurd chosen (notChosen c')) fun runs => ?_
    · rw [pcAt] at leaves
      cases leaves
    · rw [show t.state p = s.state p from rfl, inv.on c p on, at'] at runs
      cases resume <;> cases runs
  refine inv.of_proc own (fun c' q other => ?_) (fun c' q other => ?_) pcs (fun _ _ => rfl)
    (fun _ _ => rfl) (inv.stack_frame (fun q => ?_) stackOf scheds)
    (inv.cproc_frame ?_ (fun _ _ => rfl) scheds) (fun c' q => ?_) (fun q isChild => ?_)
    fun r _ isChild => inv.child r p isChild
  · by_cases same : c' = c
    · rw [same, stackAt, on, Option.some.injEq]
      exact ⟨nofun, fun is => absurd is.symm other⟩
    · rw [stackOf c' same]
  · by_cases same : c' = c
    · rw [same, schedAt, schedBefore]
      exact ⟨nofun, nofun⟩
    · rw [scheds c' same]
  · rw [stackAt, schedAt]
    exact ⟨nofun, nofun⟩
  · rw [schedAt, show t.cproc c = s.cproc c from rfl, inv.cproc, schedBefore]
    rfl
  · have holding : t.holding c' = s.holding c' := by
      by_cases same : c' = c
      · rw [same, holding_off stackAt, schedAt, holding_on on, at']
        rfl
      · refine holding_same (stackOf c' same) (scheds c' same) fun r there => pcs r ?_
        rintro rfl
        exact leftAlone c' same there
    rw [holding]
    exact inv.plock c' q
  · have before : (s.pc p).child = some q := by
      rw [pcAt] at isChild
      rw [at']
      cases resume <;> exact isChild
    exact ⟨inv.child p q before, fun r different isChild' =>
      different (inv.creator r p q isChild' before)⟩

section scheduler

variable {next : SchedPc n}

theorem holding_setSched (off : s.stack c = none) (c' : Cpu) :
    (s.setSched c next).holding c' = if c' = c then next.holds else s.holding c' := by
  split
  next same =>
    subst same
    simp [holding, setSched, off]
  next other => simp [holding, setSched, other]

section

variable (inv : CpuInv s) (off : s.stack c = none)

include inv off

theorem setSched (plock : ∀ c' q, s'.plock q = some c' ↔ (s.setSched c next).holding c' = some q)
    (current : s'.cproc c = next.current) (cproc : ∀ c', c' ≠ c → s'.cproc c' = s.cproc c')
    (chosen : next.chosen = (s.sched c).chosen) (staying : ∀ p, next ≠ .running p)
    (state : s'.state = s.state) (stack : s'.stack = s.stack) (saved : s'.saved = s.saved)
    (pcs : s'.pc = s.pc) (sched : s'.sched = (s.setSched c next).sched) : CpuInv s' := by
  have schedAt : s'.sched c = next := by rw [sched, setSched_self]
  have scheds : ∀ c', c' ≠ c → s'.sched c' = s.sched c' :=
    fun c' other => by rw [sched, setSched_of_ne _ _ other]
  have holding : ∀ c', s'.holding c' = (s.setSched c next).holding c' := fun c' => by
    simp only [holding, stack, pcs, sched]
    rfl
  have choices : ∀ c', (s'.sched c').chosen = (s.sched c').chosen := fun c' => by
    by_cases same : c' = c
    · rw [same, schedAt, chosen]
    · rw [scheds c' same]
  refine ⟨fun q => ?_, inv.stack_frame (fun q => ?_) (fun _ _ => by rw [stack]) scheds,
    inv.cproc_frame (current.trans (schedAt ▸ rfl)) cproc scheds,
    fun c' q => by rw [holding]; exact plock c' q, by rw [state, pcs]; exact inv.child,
    by rw [pcs]; exact inv.creator⟩
  · exact (inv.proc q).of_same (fun _ => by rw [stack]) (fun _ => by rw [choices]) (by rw [pcs])
      (by rw [state]) (by rw [saved])
  · rw [stack, off, schedAt]
    exact ⟨nofun, fun runs => absurd runs (staying q)⟩

theorem setSched_same {current : Option (Fin n)} (isCurrent : next.current = current)
    (holds : next.holds = (s.sched c).holds) (chosen : next.chosen = (s.sched c).chosen)
    (staying : ∀ p, next ≠ .running p) :
    CpuInv ({ s with cproc := update s.cproc c current }.setSched c next) := by
  refine inv.setSched off (fun c' q => ?_) ((update_self ..).trans isCurrent.symm)
    (fun c' other => update_of_ne other ..) chosen staying rfl rfl rfl rfl rfl
  rw [holding_setSched off c']
  exact inv.plock_keep (holds.trans (holding_off off).symm) q

theorem setSched_cproc (holds : next.holds = (s.sched c).holds)
    (chosen : next.chosen = (s.sched c).chosen) (staying : ∀ p, next ≠ .running p)
    (current : next.current = (s.sched c).current) : CpuInv (s.setSched c next) := by
  have moved := inv.setSched_same off current holds chosen staying
  rwa [← inv.cproc, update_eq_self] at moved

theorem pick (at' : s.sched c = .idle) (free : s.plock p = none) :
    CpuInv ((s.takeLock c p).setSched c (.locked p)) := by
  refine inv.setSched off (fun c' q => ?_) ((inv.cproc c).trans (by rw [at']; rfl)) (fun _ _ => rfl)
    (by rw [at']; rfl) (fun _ => by nofun) rfl rfl rfl rfl rfl
  rw [holding_setSched off c']
  exact inv.plock_take free ((holding_off off).trans (by rw [at']; rfl)) q

theorem unlockSched (at' : s.sched c = .unlock p) (locked : s.plock p = some c) :
    CpuInv ((s.dropLock c p).setSched c .idle) := by
  refine inv.setSched off (fun c' q => ?_) ((inv.cproc c).trans (by rw [at']; rfl)) (fun _ _ => rfl)
    (by rw [at']; rfl) (fun _ => by nofun) rfl rfl rfl rfl rfl
  rw [holding_setSched off c']
  exact inv.plock_drop locked q

theorem select (at' : s.sched c = .locked p) (runnable : s.state p = .runnable) :
    CpuInv ((s.setState p .running).setSched c (.assign p)) := by
  set t := (s.setState p .running).setSched c (.assign p)
  have locked : s.plock p = some c := by
    rw [inv.plock, holding_off off, at']
    rfl
  have isOff : s.Off p := inv.off_of_locked locked (by simp [off]) (by simp [runnable])
  have schedAt : t.sched c = .assign p := setSched_self ..
  have scheds : ∀ c', c' ≠ c → t.sched c' = s.sched c' := fun _ other => setSched_of_ne _ _ other
  have states : ∀ r, r ≠ p → t.state r = s.state r := fun r other => setState_of_ne _ _ other
  have own : ProcInv t p :=
    .of_off isOff (inv.proc p).saved (fun _ => (inv.proc p).off isOff (by simp [runnable]))
      (fun _ _ => setState_self ..) fun _ => ⟨c, by rw [schedAt]; rfl⟩
  refine inv.of_proc own (fun _ _ _ => .rfl) (fun c' q other => ?_) (fun _ _ => rfl) states
    (fun _ _ => rfl) (inv.stack_frame (fun q => ?_) (fun _ _ => rfl) scheds)
    (inv.cproc_frame ?_ (fun _ _ => rfl) scheds) (fun c' q => ?_) (fun q isChild => ?_)
    fun r _ isChild => ?_
  · by_cases same : c' = c
    · rw [same, schedAt, at']
      exact ⟨fun is => absurd (Option.some.inj is).symm other, nofun⟩
    · rw [scheds c' same]
  · rw [show t.stack c = s.stack c from rfl, off, schedAt]
    exact ⟨nofun, nofun⟩
  · rw [schedAt, show t.cproc c = s.cproc c from rfl, inv.cproc, at']
    rfl
  · rw [show t.holding c' = (s.setSched c (.assign p)).holding c' from rfl, holding_setSched off c']
    refine inv.plock_keep ?_ q
    rw [holding_off off, at']
    rfl
  · have used : s.state q = .used := inv.child p q isChild
    have other : q ≠ p := by
      rintro rfl
      rw [runnable] at used
      cases used
    exact ⟨(states q other).trans used,
      fun r different isChild' => different (inv.creator r p q isChild' isChild)⟩
  · exact absurd isChild (inv.not_child (by simp [runnable]))

theorem switch {resume : Resume n} (at' : s.sched c = .swtch p) (parked : s.pc p = .parked resume)
    (resumes : resume.pc = some pc) :
    CpuInv (({ s with
      stack := update s.stack c (some p)
      saved := update s.saved p false }.setPc p pc).setSched c (.running p)) := by
  set t := ({ s with
      stack := update s.stack c (some p)
      saved := update s.saved p false }.setPc p pc).setSched c (.running p)
  obtain ⟨holds, expected, child, staying⟩ := Resume.pc_spec p resumes
  have chosen : (s.sched c).chosen = some p := by
    rw [at']
    rfl
  obtain ⟨running, isOff⟩ := (inv.proc p).chosen c chosen
  have stackAt : t.stack c = some p := update_self ..
  have stackOf : ∀ c', c' ≠ c → t.stack c' = s.stack c' := fun c' other => update_of_ne other ..
  have schedAt : t.sched c = .running p := update_self ..
  have scheds : ∀ c', c' ≠ c → t.sched c' = s.sched c' := fun c' other => update_of_ne other ..
  have pcAt : t.pc p = pc := setPc_self ..
  have pcs : ∀ q, q ≠ p → t.pc q = s.pc q := fun q other => update_of_ne other ..
  have own : ProcInv t p := by
    refine .of_on stackAt (fun c' there => ?_) ?_ (fun resume' => ?_) (fun _ leaves => ?_)
      fun c' chosen' => ?_
    · by_contra other
      exact isOff c' (stackOf c' other ▸ there)
    · rw [pcAt, expected]
      exact running
    · rw [pcAt]
      rintro rfl
      exact staying trivial
    · rw [pcAt] at leaves
      exact absurd (leaves ▸ trivial) staying
    · by_cases same : c' = c
      · rw [same, schedAt] at chosen'
        cases chosen'
      · rw [scheds c' same] at chosen'
        have held := inv.locked_of_chosen chosen'
        rw [inv.locked_of_chosen chosen] at held
        exact same (Option.some.inj held).symm
  refine inv.of_proc own (fun c' q other => ?_) (fun c' q other => ?_) pcs (fun _ _ => rfl)
    (fun q other => update_of_ne other ..) (inv.stack_frame (fun q => ?_) stackOf scheds)
    (inv.cproc_frame ?_ (fun _ _ => rfl) scheds) (fun c' q => ?_) (fun q isChild => ?_)
    fun r _ isChild => inv.child r p isChild
  · by_cases same : c' = c
    · rw [same, stackAt, off]
      exact ⟨fun is => absurd (Option.some.inj is).symm other, nofun⟩
    · rw [stackOf c' same]
  · by_cases same : c' = c
    · rw [same, schedAt, chosen]
      exact ⟨nofun, fun is => absurd (Option.some.inj is).symm other⟩
    · rw [scheds c' same]
  · rw [stackAt, schedAt, SchedPc.running.injEq, Option.some.injEq]
  · rw [schedAt, show t.cproc c = s.cproc c from rfl, inv.cproc, at']
    rfl
  · have holding : t.holding c' = s.holding c' := by
      by_cases same : c' = c
      · rw [same, holding_on stackAt, pcAt, holds, holding_off off, at']
        rfl
      · refine holding_same (stackOf c' same) (scheds c' same) fun r there => pcs r ?_
        rintro rfl
        exact isOff c' there
    rw [holding]
    exact inv.plock c' q
  · rw [pcAt, child, ← parked] at isChild
    exact ⟨inv.child p q isChild,
      fun r different isChild' => different (inv.creator r p q isChild' isChild)⟩

end

end scheduler

theorem of_procEffect (inv : CpuInv s) (on : s.stack c = some p)
    (effect : ProcEffect initproc s c p choice s') : CpuInv s' := by
  cases effect with
  | goto moves => exact inv.move on moves.alike
  | @ownAcquire pc acquires free =>
    refine inv.lock on free ?_ ?_ ?_ ?_ ?_ <;>
      (generalize s.pc p = before at acquires; cases acquires <;> first | rfl | exact id)
  | @ownRelease pc releases locked =>
    refine inv.unlock on locked ?_ ?_ ?_ ?_ <;>
      (generalize s.pc p = before at releases; cases releases <;> first | rfl | exact id)
  | acquire moves | release moves => exact (inv.move on moves.alike).of_same
  | sleepChan at' | sleepTidy at' | setkilled at' | forkParent at' | reparent at' =>
    exact (inv.move on (at' ▸ ⟨rfl, rfl, rfl, rfl, id⟩)).of_same rfl rfl rfl rfl rfl rfl rfl
  | sleepState at' | yieldState at' =>
    exact inv.ownState on (by rw [at']; rfl) rfl rfl (by rw [at']; rfl) id
  | exitState at' =>
    have left : CpuInv ((s.setState p .zombie).setPc p .exitUnlock) :=
      inv.ownState on (by rw [at']; rfl) rfl rfl (by rw [at']; rfl) id
    exact left.of_same
  | save at' => exact inv.save on at'
  | park at' => exact inv.park on at'
  | @scan job q todo at' _ free =>
    refine inv.lock on free (by rw [at']; rfl) rfl (by rw [at']; rfl) ?_ id
    rw [at']
    cases job <;> rfl
  | visit at' does => exact inv.visit on at' does
  | @leave job q todo verdict at' locked =>
    obtain ⟨holds, expected, child, staying⟩ := job.next_spec p q todo verdict
    refine inv.unlock on locked holds ?_ ?_ staying
    · rw [at', expected]
      rfl
    · rw [at', child]

theorem of_schedEffect (inv : CpuInv s) (off : s.stack c = none) (effect : SchedEffect s c s') :
    CpuInv s' := by
  cases effect with
  | pick at' free => exact inv.pick off at' free
  | select at' runnable => exact inv.select off at' runnable
  | skip at' =>
    exact inv.setSched_cproc off (by rw [at']; rfl) (by rw [at']; rfl) nofun (by rw [at']; rfl)
  | assign at' | back at' =>
    exact inv.setSched_same off rfl (by rw [at']; rfl) (by rw [at']; rfl) nofun
  | swtch at' parked resumes => exact inv.switch off at' parked resumes
  | unlock at' locked => exact inv.unlockSched off at' locked

theorem of_effect (inv : CpuInv s) (effect : Effect initproc s c choice s') : CpuInv s' := by
  cases effect with
  | proc on does => exact inv.of_procEffect on does
  | sched off does => exact inv.of_schedEffect off does

omit [DecidableEq Cpu] in
theorem of_initial (starts : Initial initproc s) : CpuInv s := by
  have nobody : ∀ c p, s.stack c ≠ some p := fun c p there => by
    rw [starts.stack] at there
    cases there
  have noPc : ∀ p, (s.pc p).child = none ∧ ∀ resume, s.pc p ≠ .swtch resume := fun p => by
    rw [starts.pc]
    exact ⟨rfl, nofun⟩
  refine ⟨fun p => .of_off (fun c => nobody c p) (fun resume at' => absurd at' ((noPc p).2 resume))
    (fun inUse => ?_) (fun c chosen => ?_) fun runs => ?_, fun c p => ?_, fun c => ?_,
    fun c p => ?_, fun p q isChild => ?_, fun p _ q isChild => ?_⟩
  · by_cases same : p = initproc
    · subst same
      exact ⟨starts.init.2, .forkret, starts.pc p⟩
    · exact absurd (starts.unused p same) inUse
  · rw [starts.sched] at chosen
    cases chosen
  · by_cases same : p = initproc
    · rw [same, starts.init.1] at runs
      cases runs
    · rw [starts.unused p same] at runs
      cases runs
  · rw [starts.stack, starts.sched]
    exact ⟨nofun, nofun⟩
  · rw [starts.cproc, starts.sched]
    rfl
  · rw [starts.plock, holding_off (starts.stack c), starts.sched]
    exact ⟨nofun, nofun⟩
  · rw [(noPc p).1] at isChild
    cases isChild
  · rw [(noPc p).1] at isChild
    cases isChild

end CpuInv

theorem cpuInv_of_reachable {s : State n Cpu} (reachable : (system n Cpu initproc).Reachable s) :
    CpuInv s :=
  reachable.invariant (motive := CpuInv) (fun _ starts => .of_initial starts)
    (fun _ _ _ _ inv _ moved => inv.of_effect (step_effect moved))

end Xv6.Proc
