import Xv6.Proc.TreeRefinement

/-!
# Fork, exit and wait

What the protocol of the tree says about the process table: every process has a
parent that can wait for it, an exited child is reaped by one call of `wait` of
its parent, and nobody sleeps in `wait` while there is a child to reap.
-/

namespace Xv6.Proc

open Function (update update_of_ne update_self)

variable {n : Nat} {Cpu : Type} [DecidableEq Cpu]

/-- The process that a call of `fork` has allocated without having set its parent. -/
def Point.unparented : Point n → Option (Fin n)
  | .forkLock np _ => some np
  | _ => none

@[inherit_doc Point.unparented]
def Pc.unparented : Pc n → Option (Fin n)
  | .point back | .yieldAcquire back | .yieldState back | .unlock back
  | .sched (.yield back) | .swtch (.yield back) | .parked (.yield back) => back.unparented
  | .forkParent np _ => some np
  | .leave .fork q _ (.hit _) => some q
  | _ => none

structure FamilyInv (initproc : Fin n) (s : State n Cpu) : Prop where
  run : RunInv s
  sleeps : SleepInv s
  tree : Tree.Inv initproc s.tree
  visits : ∀ p addr havekids q todo, s.pc p = .visit (.wait addr havekids) q todo →
    s.parent q = some p
  unparented : ∀ q, s.state q ≠ .unused → q ≠ initproc → s.parent q = none →
    ∃ p, (s.pc p).unparented = some q
  fresh : ∀ p q, (s.pc p).unparented = some q → s.parent q = none

variable {initproc : Fin n} {s s' : State n Cpu} {c : Cpu} {p q : Fin n} {choice : Choice n}

section parents

/-- Parents change under `wait_lock`, except for that of a slot that is free. -/
theorem parent_eq_of_effect (effect : Effect initproc s c choice s') :
    s'.parent q = s.parent q ∨ s.state q = .unused ∨
      ∃ p, s.stack c = some p ∧ (s.tree.phase p).Owns := by
  cases effect with
  | sched off does => cases does <;> exact .inl rfl
  | proc on does =>
    cases does with
    | forkParent at' | reparent at' => exact .inr (.inr ⟨_, on, tree_phase_at at' ▸ trivial⟩)
    | @visit job r todo visited verdict at' visits =>
      cases visits with
      | noMemory unused =>
        by_cases same : q = r
        · exact .inr (.inl (same ▸ unused))
        · exact .inl (update_of_ne same ..)
      | reap | reapCopy => exact .inr (.inr ⟨_, on, tree_phase_at at' ▸ trivial⟩)
      | _ => exact .inl rfl
    | _ => exact .inl rfl

theorem parent_ne_none (effect : Effect initproc s c choice s') (orphan : s'.parent q = none)
    (inUse : s'.state q ≠ .unused) : s.parent q = none ∨ s.state q = .unused := by
  cases effect with
  | sched off does => cases does <;> exact .inl orphan
  | proc on does =>
    cases does with
    | @forkParent np _ at' =>
      change update s.parent np _ q = none at orphan
      by_cases same : q = np
      · rw [same, update_self] at orphan
        cases orphan
      · rw [update_of_ne same] at orphan
        exact .inl orphan
    | @reparent r todo status at' =>
      change update s.parent r _ q = none at orphan
      by_cases same : q = r
      · rw [same, update_self] at orphan
        cases orphan
      · rw [update_of_ne same] at orphan
        exact .inl orphan
    | @visit job r todo visited verdict at' visits =>
      by_cases same : q = r
      · subst same
        cases visits with
        | noMemory unused => exact .inr unused
        | reap | reapCopy => exact absurd (update_self ..) inUse
        | _ => exact .inl orphan
      · exact .inl ((congrArg Slot.parent (visits.slot_of_ne same)).symm.trans orphan)
    | _ => exact .inl orphan

theorem alloc_of_unused (inv : RunInv s) (effect : Effect initproc s c choice s')
    (unused : s.state q = .unused) (inUse : s'.state q ≠ .unused) :
    s'.state q = .used ∧ ∃ p, (s'.pc p).unparented = some q := by
  have changed : s'.state q ≠ s.state q := fun same => inUse (same.trans unused)
  cases effect with
  | sched off does =>
    cases does with
    | @select r at' runnable =>
      have other : q ≠ r := by
        rintro rfl
        rw [unused] at runnable
        cases runnable
      exact absurd (update_of_ne other ..) changed
    | _ => exact absurd rfl changed
  | @proc p _ on does =>
    have other : q ≠ p := by
      rintro rfl
      have busy := inv.cpus.on c q on
      rw [unused] at busy
      cases at' : s.pc q with
      | sched resume | swtch resume => rw [at'] at busy; cases resume <;> cases busy
      | _ => rw [at'] at busy; cases busy
    cases does with
    | sleepState | yieldState | exitState => exact absurd (update_of_ne other ..) changed
    | @visit job r todo visited verdict at' visits =>
      by_cases same : q = r
      · subst same
        cases visits with
        | alloc => exact ⟨update_self .., p, by rw [State.setPc_self]; rfl⟩
        | wake asleep | killAsleep _ asleep =>
          rw [unused] at asleep
          cases asleep
        | start =>
          have used := inv.cpus.child p q (by rw [at']; rfl)
          rw [unused] at used
          cases used
        | noMemory | reap | reapCopy => exact absurd (update_self ..) inUse
        | _ => exact absurd rfl changed
      · exact absurd (congrArg Slot.state (visits.slot_of_ne same)) changed
    | _ => exact absurd rfl changed

theorem Pc.unparented_lasting : Pc.Lasting (Pc.unparented : Pc n → _) := {}

theorem unparented_own (does : ProcEffect initproc s c p choice s')
    (creates : (s.pc p).unparented = some q) :
    (s'.pc p).unparented = some q ∨ s'.parent q = some p := by
  have moves := does.moves
  generalize s.pc p = before, s'.pc p = pc at moves creates
  cases moves with
  | yields yields => exact .inl ((Pc.unparented_lasting.yields _ _ yields).trans creates)
  | call resting | plain resting | exit resting => cases resting <;> cases creates
  | @leave job r todo verdict =>
    cases job with
    | fork =>
      cases verdict with
      | hit => exact .inl creates
      | _ => cases creates
    | _ => cases creates
  | forkLock => exact .inl creates
  | forkParent isParent => cases creates; exact .inr isParent
  | _ => cases creates

theorem Pc.child_of_unparented {pc : Pc n} (creates : pc.unparented = some q) :
    pc.child = some q := by
  have atPoint : ∀ point : Point n, point.unparented = some q → point.fork.map Prod.fst = some q :=
    fun point creates => by cases point <;> first | exact creates | cases creates
  cases pc with
  | point back | yieldAcquire back | yieldState back | unlock back => exact atPoint back creates
  | sched resume | swtch resume | parked resume =>
    cases resume with
    | yield back => exact atPoint back creates
    | _ => cases creates
  | leave job r todo verdict =>
    cases job with
    | fork =>
      cases verdict with
      | hit => exact creates
      | _ => cases creates
    | _ => cases creates
  | forkParent => exact creates
  | _ => cases creates

/-- A call of `fork` that has just allocated a process has found it without a parent. -/
theorem unparented_entry (freed : ∀ q, s.state q = .unused → s.parent q = none)
    (does : ProcEffect initproc s c p choice s') (creates : (s'.pc p).unparented = some q) :
    s'.parent = s.parent ∧ ((s.pc p).unparented = some q ∨ s.parent q = none) := by
  have moves := does.moves
  generalize s.pc p = before, s'.pc p = pc at moves creates
  cases moves with
  | yields yields alone =>
    exact ⟨alone.parent, .inl ((Pc.unparented_lasting.yields _ _ yields).symm.trans creates)⟩
  | call _ entry => cases choice <;> cases entry <;> cases creates
  | @finish job =>
    cases job with
    | wakeup chan after => cases after <;> cases creates
    | wait addr havekids => cases havekids <;> cases creates
    | _ => cases creates
  | @visit job r todo visited verdict visits is =>
    subst is
    cases visits with
    | alloc unused => cases creates; exact ⟨rfl, .inr (freed q unused)⟩
    | _ => cases creates
  | @leave job r todo verdict alone =>
    refine ⟨alone.parent, ?_⟩
    cases job with
    | fork =>
      cases verdict with
      | hit => exact .inl creates
      | _ => cases creates
    | wakeup chan after => cases verdict <;> cases after <;> cases creates
    | _ => cases verdict <;> cases creates
  | @reacquire _ after => cases after <;> cases creates
  | forkLock same => exact ⟨same, .inl creates⟩
  | _ => cases creates

theorem visit_own {job : Job n} {todo : List (Fin n)} (does : ProcEffect initproc s c p choice s')
    (at' : s'.pc p = .visit job q todo) : s.concerns p q job = true ∧ s'.parent = s.parent := by
  have moves := does.moves
  rw [at'] at moves
  generalize s.pc p = before, now : Pc.visit job q todo = pc at moves
  cases moves with
  | yields yields => cases yields <;> cases now
  | call _ entry => subst now; cases choice <;> cases entry
  | @finish job' =>
    cases job' with
    | wakeup chan after => cases after <;> cases now
    | wait addr havekids => cases havekids <;> cases now
    | _ => cases now
  | scan concerned alone => cases now; exact ⟨concerned, alone.parent⟩
  | @leave job' r todo' verdict =>
    cases job' with
    | wakeup chan after => cases verdict <;> cases after <;> cases now
    | _ => cases verdict <;> cases now
  | @reacquire _ after => cases after <;> cases now
  | _ => cases now

end parents

namespace FamilyInv

section

variable (inv : FamilyInv initproc s)

include inv

omit [DecidableEq Cpu] in
theorem alone (owns : (s.tree.phase p).Owns) (owns' : (s.tree.phase q).Owns) : p = q :=
  Option.some.inj (((inv.tree.knows p).owner owns).symm.trans ((inv.tree.knows q).owner owns'))

theorem visits_step (effect : Effect initproc s c choice s') {addr : Nat} {havekids : Bool}
    {todo : List (Fin n)} (at' : s'.pc p = .visit (.wait addr havekids) q todo) :
    s'.parent q = some p := by
  by_cases on : s.stack c = some p
  · have does := effect.own on
    obtain ⟨concerned, parents⟩ := visit_own does at'
    rw [parents]
    simpa [State.concerns] using concerned
  · have before : s.pc p = .visit (.wait addr havekids) q todo := by
      have out := effect.outside on
      have there : (s'.slot p).pc = .visit (.wait addr havekids) q todo := at'
      generalize s'.slot p = slot at out there
      cases out with
      | alloc => cases there
      | @switch resume pc _ _ _ resumes =>
        obtain rfl : pc = _ := there
        cases resume <;> cases resumes
      | _ => exact there
    have isParent := inv.visits p addr havekids q todo before
    rcases parent_eq_of_effect (q := q) effect with same | unused | ⟨r, on', owns⟩
    · exact same.trans isParent
    · have orphan : s.parent q = none := inv.tree.freed q unused
      rw [isParent] at orphan
      cases orphan
    · have owns' : (s.tree.phase p).Owns := tree_phase_at before ▸ trivial
      exact absurd (inv.alone owns owns' ▸ on') on

theorem unparented_step (effect : Effect initproc s c choice s')
    (inUse : s'.state q ≠ .unused) (other : q ≠ initproc) (orphan : s'.parent q = none) :
    ∃ p, (s'.pc p).unparented = some q := by
  by_cases unused : s.state q = .unused
  · exact (alloc_of_unused inv.run effect unused inUse).2
  · have before := (parent_ne_none effect orphan inUse).resolve_right unused
    obtain ⟨p, creates⟩ := inv.unparented q unused other before
    by_cases on : s.stack c = some p
    · have does := effect.own on
      rcases unparented_own does creates with still | set
      · exact ⟨p, still⟩
      · rw [orphan] at set
        cases set
    · refine ⟨p, ?_⟩
      have busy : (s.pc p).Busy := by
        cases at' : s.pc p with
        | sched resume | swtch resume | parked resume =>
          rw [at'] at creates
          cases resume <;> trivial
        | exitUnlock => rw [at'] at creates; cases creates
        | _ => trivial
      have out := effect.outside on
      rcases (out.of_alive (inv.run.alive_of_busy busy)).2.2 with same | ⟨resume, parked, resumes⟩
      · rw [show s'.pc p = s.pc p from same]
        exact creates
      · rw [parked] at creates
        cases resume with
        | yield back =>
          rw [show s'.pc p = .unlock back from (Option.some.inj resumes).symm]
          exact creates
        | _ => cases creates

theorem fresh_step (effect : Effect initproc s c choice s')
    (creates : (s'.pc p).unparented = some q) : s'.parent q = none := by
  by_cases on : s.stack c = some p
  · have does := effect.own on
    obtain ⟨parents, before | orphan⟩ := unparented_entry inv.tree.freed does creates
    · rw [parents]
      exact inv.fresh p q before
    · rw [parents]
      exact orphan
  · have before : (s.pc p).unparented = some q :=
      (effect.outside on).call_inv Pc.unparented_lasting creates
    have orphan := inv.fresh p q before
    cases effect with
    | sched off does => cases does <;> exact orphan
    | @proc r _ on' does =>
      cases does with
      | @forkParent np _ at' =>
        -- The two calls of `fork` would create the same process.
        have other : q ≠ np := by
          rintro rfl
          have same := inv.run.cpus.creator r p q (by rw [at']; rfl) (Pc.child_of_unparented before)
          exact on (same ▸ on')
        exact (update_of_ne other ..).trans orphan
      | @reparent q' todo status at' isChild =>
        have other : q ≠ q' := by
          rintro rfl
          rw [orphan] at isChild
          cases isChild
        exact (update_of_ne other ..).trans orphan
      | @visit job q' todo visited verdict at' visits =>
        by_cases same : q = q'
        · subst same
          cases visits with
          | noMemory | reap | reapCopy => exact update_self ..
          | _ => exact orphan
        · exact (congrArg Slot.parent (visits.slot_of_ne same)).trans orphan
      | _ => exact orphan

theorem step (moved : s.step initproc c choice = .next s') :
    FamilyInv initproc s' := by
  have effect := step_effect moved
  have tree : Tree.Step initproc s.tree s'.tree := by
    cases effect with
    | proc on does => exact does.tree_step inv.run inv.sleeps inv.tree.freed on
    | sched off does => exact does.tree_step inv.run off
  exact ⟨inv.run.of_effect effect, inv.sleeps.step inv.run moved, inv.tree.step tree,
    fun p addr havekids q todo at' => inv.visits_step effect at',
    fun q inUse other orphan => inv.unparented_step effect inUse other orphan,
    fun p q creates => inv.fresh_step effect creates⟩

end

omit [DecidableEq Cpu] in
theorem of_initial (starts : Initial initproc s) : FamilyInv initproc s := by
  have phase : ∀ p, s.tree.phase p = .idle := fun p => tree_phase_at (starts.pc p)
  have init : s.state initproc ≠ .unused ∧ s.state initproc ≠ .zombie := by
    simp [starts.init.1]
  refine ⟨.of_initial starts, ⟨fun p lk addr inCall => ?_, fun p lk inCall => ?_⟩, ?_,
    fun p addr havekids q todo at' => ?_, fun q inUse other => absurd (starts.unused q other) inUse,
    fun p q _ => starts.parent q⟩
  · rw [starts.pc] at inCall
    cases inCall
  · rw [starts.pc] at inCall
    cases inCall
  · refine ⟨⟨fun q _ => starts.parent q, init, fun p q isParent => ?_⟩, fun p => ?_,
      fun p q isParent => ?_⟩
    · exact absurd isParent (by simp [State.tree, starts.parent])
    · exact .of_not_owns (by simp [phase, Phase.Exits]) (by simp [phase, Phase.Owns])
    · exact absurd isParent (by simp [State.tree, starts.parent])
  · rw [starts.pc] at at'
    cases at'

end FamilyInv

theorem familyInv_of_reachable (reachable : (system n Cpu initproc).Reachable s) :
    FamilyInv initproc s :=
  reachable.invariant (motive := FamilyInv initproc) (fun _ starts => .of_initial starts)
    (fun _ _ _ _ inv _ moved => inv.step moved)

end Xv6.Proc
