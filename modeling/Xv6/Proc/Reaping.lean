import Xv6.Proc.WaitExit

/-!
# Exited children

How a process becomes a zombie and stops being one, and what becomes of its
children.
-/

namespace Xv6.Proc

open Function (update update_eq_self update_idem update_of_ne update_self)

variable {n : Nat} {Cpu : Type} [DecidableEq Cpu] {initproc : Fin n} {s s' : State n Cpu} {c : Cpu}
  {p q : Fin n} {choice : Choice n}

theorem eq_of_update_eq {state : Fin n → ProcState} {new old : ProcState}
    (is : update state p new q = old) (other : new ≠ old) : state q = old := by
  by_cases same : q = p
  · rw [same, update_self] at is
    exact absurd is other
  · rwa [update_of_ne same] at is

/-- A call of `wait` of `p` frees `q`, returns its pid and stores its status. -/
structure Reaps (s s' : State n Cpu) (p q : Fin n) : Prop where
  isParent : s.parent q = some p
  zombie : s.state q = .zombie
  freed : s'.state q = .unused
  call : ∃ addr havekids todo, s.pc p = .visit (.wait addr havekids) q todo ∧
    s'.pc p = .leave (.wait addr havekids) q todo (.hit (s.pid q)) ∧
    (addr ≠ 0 → s'.memory p addr = s.xstate q)

/-- A process in use is freed by `wait` only. -/
theorem FamilyInv.reaps_of_freed (inv : FamilyInv initproc s)
    (effect : Effect initproc s c choice s') (inUse : s.state q ≠ .unused)
    (freed : s'.state q = .unused) : ∃ p, s.stack c = some p ∧ Reaps s s' p q := by
  have changed : s'.state q ≠ s.state q := fun same => inUse (same.symm.trans freed)
  cases effect with
  | sched off does =>
    cases does with
    | select => exact absurd (eq_of_update_eq freed nofun) inUse
    | _ => exact absurd rfl changed
  | @proc p _ on does =>
    cases does with
    | sleepState | yieldState | exitState => exact absurd (eq_of_update_eq freed nofun) inUse
    | @visit job r todo visited verdict at' visits =>
      by_cases same : q = r
      · subst same
        have now : (visited.setPc p (.leave job q todo verdict)).pc p = .leave job q todo verdict :=
          State.setPc_self ..
        cases visits with
        | wake | killAsleep | start => exact absurd (eq_of_update_eq freed nofun) inUse
        | alloc unused | noMemory unused => exact absurd unused inUse
        | reap zombie =>
          exact ⟨p, on, inv.visits p _ _ q todo at', zombie, freed, 0, _, todo, at', now,
            fun other => absurd rfl other⟩
        | @reapCopy addr _ zombie =>
          refine ⟨p, on, inv.visits p _ _ q todo at', zombie, freed, addr, _, todo, at', now,
            fun _ => ?_⟩
          change update s.memory p (update (s.memory p) addr (s.xstate q)) p addr = s.xstate q
          rw [update_self, update_self]
        | _ => exact absurd rfl changed
      · exact absurd (congrArg Slot.state (visits.slot_of_ne same)) changed
    | _ => exact absurd rfl changed

theorem exit_of_zombie (effect : Effect initproc s c choice s') (living : s.state q ≠ .zombie)
    (zombie : s'.state q = .zombie) :
    ∃ status, s.pc q = .exitState status ∧ s'.xstate q = status ∧ s'.pid q = s.pid q := by
  have changed : s'.state q ≠ s.state q := fun same => living (same.symm.trans zombie)
  cases effect with
  | sched off does =>
    cases does with
    | select => exact absurd (eq_of_update_eq zombie nofun) living
    | _ => exact absurd rfl changed
  | @proc p _ on does =>
    cases does with
    | sleepState | yieldState => exact absurd (eq_of_update_eq zombie nofun) living
    | @exitState status at' =>
      by_cases same : q = p
      · subst same
        exact ⟨status, at', update_self .., rfl⟩
      · exact absurd (update_of_ne same ..) changed
    | @visit job r todo visited verdict at' visits =>
      cases visits with
      | wake | killAsleep | alloc | start | reap | reapCopy =>
        exact absurd (eq_of_update_eq zombie nofun) living
      | noMemory unused =>
        have same : update (update s.state r .used) r .unused = s.state := by
          rw [update_idem, ← unused, update_eq_self]
        exact absurd (congrFun same q) changed
      | _ => exact absurd rfl changed
    | _ => exact absurd rfl changed

theorem zombie_step (inv : RunInv s) (effect : Effect initproc s c choice s')
    (zombie : s.state q = .zombie) :
    s'.state q = .unused ∨ s'.state q = .zombie ∧ s'.pid q = s.pid q ∧
    s'.xstate q = s.xstate q := by
  by_cases on : s.stack c = some q
  · have left : (s.pc q).expected = .zombie := (inv.cpus.on c q on).symm.trans zombie
    have does := effect.own on
    cases does with
    | sleepState at' | yieldState at' | exitState at' | visit at' =>
      rw [at'] at left
      cases left
    | _ => exact .inr ⟨zombie, rfl, rfl⟩
  · have out := effect.outside on
    change (s'.slot q).state = .unused ∨ (s'.slot q).state = .zombie ∧
      (s'.slot q).pid = s.pid q ∧ (s'.slot q).xstate = s.xstate q
    generalize s'.slot q = slot at out ⊢
    cases out with
    | same | kill | setParent | reparent | switch => exact .inr ⟨zombie, rfl, rfl⟩
    | wake _ _ is | killAsleep _ _ _ is | alloc _ _ is | noMemory _ _ is | select _ _ is =>
      rw [zombie] at is
      cases is
    | @start p _ todo _ at' =>
      have used := inv.cpus.child p q (by rw [at']; rfl)
      rw [zombie] at used
      cases used
    | reap => exact .inl rfl

/-- The parent of a process in use changes to the first process, and from a process
that has exited. -/
theorem FamilyInv.parent_step (inv : FamilyInv initproc s) (effect : Effect initproc s c choice s')
    (isParent : s.parent q = some p) (inUse : s'.state q ≠ .unused) :
    s'.parent q = some p ∨ s'.parent q = some initproc := by
  have used : s.state q ≠ .unused := fun unused => by
    have orphan : s.parent q = none := inv.tree.freed q unused
    rw [isParent] at orphan
    cases orphan
  cases effect with
  | sched off does => cases does <;> exact .inl isParent
  | @proc r _ on does =>
    cases does with
    | @forkParent np _ at' =>
      have other : q ≠ np := by
        rintro rfl
        have orphan := inv.fresh r q (by rw [at']; rfl)
        rw [isParent] at orphan
        cases orphan
      exact .inl ((update_of_ne other ..).trans isParent)
    | @reparent q' todo status at' =>
      by_cases same : q = q'
      · subst same
        exact .inr (update_self ..)
      · exact .inl ((update_of_ne same ..).trans isParent)
    | @visit job q' todo visited verdict at' visits =>
      by_cases same : q = q'
      · subst same
        cases visits with
        | noMemory unused => exact absurd unused used
        | reap | reapCopy => exact absurd (update_self ..) inUse
        | _ => exact .inl isParent
      · exact .inl ((congrArg Slot.parent (visits.slot_of_ne same)).trans isParent)
    | _ => exact .inl isParent

section runs

variable {t u : State n Cpu} {label : Cpu × Choice n}

theorem parent_of_run (reachable : (system n Cpu initproc).Reachable s)
    (isParent : s.parent q = some p)
    (run : (system n Cpu initproc).RunWhile (fun t => t.state q ≠ .unused) s t) :
    t.parent q = some p ∨ t.parent q = some initproc := by
  induction run with
  | refl => exact .inl isParent
  | step before _ moved inUse ih =>
    have inv := familyInv_of_reachable (before.reachable reachable)
    rcases ih with same | adopted
    · exact inv.parent_step (step_effect moved) same inUse
    · exact .inr ((inv.parent_step (step_effect moved) adopted inUse).elim id id)

/-- The slot of a process that has been reaped stays free until `fork` takes it. -/
theorem unused_of_run (reachable : (system n Cpu initproc).Reachable s)
    (unused : s.state q = .unused)
    (run : (system n Cpu initproc).RunWhile (fun t => t.state q ≠ .used) s t) :
    t.state q = .unused := by
  induction run with
  | refl => exact unused
  | step before _ moved notUsed ih =>
    by_contra inUse
    have inv := runInv_of_reachable (before.reachable reachable)
    exact notUsed (alloc_of_unused inv (step_effect moved) ih inUse).1

theorem wait_returns {addr : Nat} {havekids : Bool} {todo : List (Fin n)} {result : Int}
    (inv : RunInv t)
    (at' : t.pc p = .leave (.wait addr havekids) q todo (.hit result) ∨
      t.pc p = .waitUnlock addr result)
    (moved : t.step initproc c choice = .next u)
    (left :
      ¬ (u.pc p = .leave (.wait addr havekids) q todo (.hit result) ∨
        u.pc p = .waitUnlock addr result)) :
    u.pc p = .returned (.wait addr) result := by
  by_cases on : t.stack c = some p
  · rcases at' with at' | at'
    · simp only [State.step, on, State.procStep, State.codeStep, at'] at moved
      obtain ⟨_, rfl⟩ := releaseProc_next moved
      exact absurd (.inr (State.setPc_self ..)) left
    · simp only [State.step, on, State.procStep, State.codeStep, at'] at moved
      obtain ⟨_, rfl⟩ := release_next moved
      exact State.setPc_self ..
  · have busy : (t.pc p).Busy := by
      rcases at' with at' | at' <;> rw [at'] <;> trivial
    have out := (step_effect moved).outside on
    rcases (out.of_alive (inv.alive_of_busy busy)).2.2 with same | ⟨resume, parked, _⟩
    · have same : u.pc p = t.pc p := same
      exact absurd (same ▸ at') left
    · rcases at' with at' | at' <;> rw [at'] at parked <;> cases parked

omit [DecidableEq Cpu] in
theorem FamilyInv.not_asleep (inv : FamilyInv initproc s) (free : s.held .waitLock = none)
    {lk : Lock} {addr : Nat} (inWait : (s.pc p).sleepCall = some (lk, .wait addr))
    (asleep : s.state p = .sleeping) (isParent : s.parent q = some p) : s.state q ≠ .zombie := by
  intro zombie
  have phase : s.tree.phase p = .asleep := by
    by_cases away : ∀ resume, s.pc p ≠ .parked resume
    · have expected := inv.run.state_of_on away
      rw [asleep] at expected
      cases at' : s.pc p with
      | sched resume | swtch resume =>
        rw [at'] at expected inWait
        cases resume with
        | sleep => cases inWait; exact tree_phase_at at'
        | _ => cases expected
      | _ =>
        rw [at'] at expected
        cases expected
    · simp only [ne_eq, not_forall, not_not] at away
      obtain ⟨resume, parked⟩ := away
      have allows := inv.run.threads.allows p resume parked
      rw [parked] at inWait
      rw [asleep] at allows
      cases resume with
      | sleep =>
        cases inWait
        rw [tree_phase_at parked, asleep]
        rfl
      | forkret | exit => cases inWait
      | yield => simp [Resume.Allows] at allows
  obtain ⟨x, todo, rest, adopting, _⟩ := inv.tree.settled p q isParent zombie phase
  have owner : s.held .waitLock = some x := (inv.tree.knows x).owner (adopting ▸ trivial)
  rw [free] at owner
  cases owner

end runs

theorem wait_exit_protocol (reachable : (system n Cpu initproc).Reachable s) :
    -- Every process has a parent that can wait for it, once `fork` has set it.
    (∀ q, s.state q ≠ .unused → q ≠ initproc →
      (∃ p, s.parent q = some p ∧ s.state p ≠ .unused ∧ s.state p ≠ .zombie) ∨
      s.parent q = none ∧ ∃ p, (s.pc p).unparented = some q) ∧
    -- As long as it is in use, it keeps its parent or gets the first process for one.
    (∀ p q t, s.parent q = some p →
      (system n Cpu initproc).RunWhile (fun t => t.state q ≠ .unused) s t →
      (t.parent q = some p ∨ t.parent q = some initproc) ∧
      (t.state p = .zombie ∨ t.state p = .unused → t.parent q = some initproc)) ∧
    (∀ p q, s.state p = .zombie → s.parent q ≠ some p) ∧
    -- A process that exits keeps its pid and its status, until its parent frees it.
    (∀ label s', (system n Cpu initproc).step s label = .next s' → ∀ q,
      (s.state q ≠ .zombie → s'.state q = .zombie →
        ∃ status, s.pc q = .exitState status ∧ s'.xstate q = status) ∧
      (s.state q = .zombie → s'.state q = .unused ∨
        s'.state q = .zombie ∧ s'.pid q = s.pid q ∧ s'.xstate q = s.xstate q) ∧
      (s.state q ≠ .unused → s'.state q = .unused → ∃ p, s.stack label.1 = some p ∧
        Reaps s s' p q)) ∧
    -- The call that has freed it returns its pid, and no other call can free it.
    (∀ p q addr havekids todo result t u label,
      s.pc p = .leave (.wait addr havekids) q todo (.hit result) →
      (system n Cpu initproc).RunWhile (fun t =>
        t.pc p = .leave (.wait addr havekids) q todo (.hit result) ∨
          t.pc p = .waitUnlock addr result) s t →
      (system n Cpu initproc).step t label = .next u →
      ¬ (u.pc p = .leave (.wait addr havekids) q todo (.hit result) ∨
        u.pc p = .waitUnlock addr result) →
      u.pc p = .returned (.wait addr) result) ∧
    (∀ q t, s.state q = .unused →
      (system n Cpu initproc).RunWhile (fun t => t.state q ≠ .used) s t → t.state q = .unused) ∧
    -- Nobody sleeps in `wait` with a child to reap.
    (s.held .waitLock = none → ∀ p q lk addr, (s.pc p).sleepCall = some (lk, .wait addr) →
      s.state p = .sleeping → s.parent q = some p → s.state q ≠ .zombie) := by
  have inv := familyInv_of_reachable reachable
  refine ⟨fun q inUse other => ?_, fun p q t isParent run => ?_, fun p q zombie isParent => ?_,
    fun label s' moved q => ⟨fun living zombie => ?_, fun zombie => ?_, fun inUse freed => ?_⟩,
    fun p q addr havekids todo result t u label _ run moved left => ?_,
    fun q t unused run => unused_of_run reachable unused run,
    fun free p q lk addr inWait asleep isParent => inv.not_asleep free inWait asleep isParent⟩
  · cases isParent : s.parent q with
    | none => exact .inr ⟨rfl, inv.unparented q inUse other isParent⟩
    | some p => exact .inl ⟨p, rfl, inv.tree.alive p q isParent⟩
  · have now := parent_of_run reachable isParent run
    refine ⟨now, fun gone => now.resolve_left fun still => ?_⟩
    have alive := (familyInv_of_reachable (run.reachable reachable)).tree.alive p q still
    rcases gone with zombie | unused
    · exact alive.2 zombie
    · exact alive.1 unused
  · exact (inv.tree.alive p q isParent).2 zombie
  · obtain ⟨status, at', stored, _⟩ := exit_of_zombie (step_effect moved) living zombie
    exact ⟨status, at', stored⟩
  · exact zombie_step inv.run (step_effect moved) zombie
  · exact inv.reaps_of_freed (step_effect moved) inUse freed
  · exact wait_returns (runInv_of_reachable (run.reachable reachable)) run.last moved left

/-- The child of `forkRun` exits with status 7 and the parent finds it in `wait(8)`. -/
def exitRun : List (Bool × Choice 2) :=
  forkRun ++ [(false, .exit 7)] ++ List.replicate 16 (false, .go) ++ [(true, .wait 8)] ++
    List.replicate 3 (true, .go)

theorem wait_exit_protocol_reaped : ∃ s s' : State 2 Bool, (system 2 Bool 0).Reachable s ∧
    (system 2 Bool 0).step s (true, .go) = .next s' ∧ s.state 1 = .zombie ∧ s.xstate 1 = 7 ∧
    s'.state 1 = .unused ∧ Reaps s s' 0 1 := by
  obtain ⟨s, reachable, on, zombie, status, last⟩ := (system 2 Bool 0).exists_reachable
    (State.boot_initial 0) exitRun (motive := fun s => s.stack true = some 0 ∧
      s.state 1 = .zombie ∧ s.xstate 1 = 7 ∧
      ((system 2 Bool 0).step s (true, .go)).next?.map (·.state 1) = some .unused)
    (by decide +kernel)
  obtain ⟨s', moved, freed⟩ := Option.map_eq_some_iff.mp last
  have moved : (system 2 Bool 0).step s (true, .go) = .next s' := Outcome.next?_eq_some.mp moved
  obtain ⟨p, on', reaps⟩ := ((wait_exit_protocol reachable).2.2.2.1 _ s' moved 1).2.2
    (by simp [zombie]) freed
  obtain rfl : 0 = p := Option.some.inj (on.symm.trans on')
  exact ⟨s, s', reachable, moved, zombie, status, freed, reaps⟩

end Xv6.Proc
