import Xv6.Proc.Cpus

/-!
# CPU exclusivity

What the invariant of the CPUs says about a process whose lock is free, about
the processes that `wait` frees, and about the checks of `sched`.
-/

namespace Xv6.Proc

variable {n : Nat} {Cpu : Type} [DecidableEq Cpu] {initproc : Fin n} {s s' : State n Cpu}
  {c c' : Cpu} {p q : Fin n} {choice : Choice n}

namespace CpuInv

section

omit [DecidableEq Cpu]

theorem running_of_on (inv : CpuInv s) (free : s.plock p = none) (on : s.stack c = some p) :
    s.state p = .running := by
  rw [inv.on c p on]
  refine Pc.expected_running p fun own => ?_
  rw [← holding_on on, ← inv.plock, free] at own
  cases own

/-- `c->proc` is the process whose stack the CPU is on, if its lock is free. -/
theorem cproc_iff (inv : CpuInv s) (free : s.plock p = none) :
    s.cproc c = some p ↔ s.stack c = some p := by
  rw [inv.cproc]
  constructor
  · intro current
    cases there : s.stack c with
    | some q =>
      rw [(inv.stack c q).mp there] at current
      exact current
    | none =>
      have unlocked : (s.sched c).holds ≠ some p := fun held => by
        rw [← holding_off there, ← inv.plock, free] at held
        cases held
      revert current unlocked
      have notRunning : ∀ q, s.sched c ≠ .running q := fun q runs => by
        rw [(inv.stack c q).mpr runs] at there
        cases there
      cases at' : s.sched c with
      | running q => exact absurd at' (notRunning q)
      | _ => simp [SchedPc.current, SchedPc.holds]
  · intro on
    rw [(inv.stack c p).mp on]
    rfl

theorem running_iff (inv : CpuInv s) (free : s.plock p = none) :
    s.state p = .running ↔ ∃! c, s.cproc c = some p := by
  simp only [ExistsUnique, inv.cproc_iff free]
  constructor
  · intro runs
    by_cases isOff : s.Off p
    · obtain ⟨c, chosen⟩ := (inv.proc p).running isOff runs
      rw [inv.locked_of_chosen chosen] at free
      cases free
    · simp only [State.Off, not_forall, not_not] at isOff
      obtain ⟨c, on⟩ := isOff
      exact ⟨c, on, fun c' on' => (inv.proc p).alone c' c on' on⟩
  · rintro ⟨c, on, _⟩
    exact inv.running_of_on free on

/-- A process that could run, sleeps or has exited is off its stack. -/
theorem settled (inv : CpuInv s) (free : s.plock p = none)
    (idle : s.state p = .runnable ∨ s.state p = .sleeping ∨ s.state p = .zombie) :
    s.saved p = true ∧ s.Off p := by
  have notRunning : s.state p ≠ .running := by
    rcases idle with is | is | is <;> simp [is]
  have inUse : s.state p ≠ .unused := by
    rcases idle with is | is | is <;> simp [is]
  have isOff : s.Off p := fun c on => notRunning (inv.running_of_on free on)
  exact ⟨((inv.proc p).off isOff inUse).1, isOff⟩

/-- At `sched`, the thread holds its lock and has changed its state. -/
theorem sched_ready {resume : Resume n} (inv : CpuInv s) (on : s.stack c = some p)
    (at' : s.pc p = .sched resume) : s.plock p = some c ∧ s.state p ≠ .running := by
  constructor
  · rw [inv.plock, holding_on on, at']
    rfl
  · rw [inv.on c p on, at']
    cases resume <;> exact nofun

end

end CpuInv

section faults

variable {panic : Panic} {lk : Lock} {pc : Pc n} {next : State n Cpu → State n Cpu}

theorem acquireProc_fault (failed : s.acquireProc c q next = .fault panic) : panic = .acquire := by
  unfold State.acquireProc at failed
  split at failed
  next => cases failed
  next => split at failed <;> cases failed; rfl

theorem releaseProc_fault (failed : s.releaseProc c q next = .fault panic) : panic = .release := by
  unfold State.releaseProc at failed
  split at failed <;> cases failed
  rfl

theorem acquire_fault (failed : s.acquire c p lk pc = .fault panic) : panic = .acquire := by
  unfold State.acquire at failed
  split at failed
  next => cases failed
  next => split at failed <;> cases failed; rfl

theorem release_fault (failed : s.release c p lk pc = .fault panic) : panic = .release := by
  unfold State.release at failed
  split at failed <;> cases failed
  rfl

theorem call_fault (failed : s.call initproc c p choice = .fault panic) :
    panic = .acquire ∨ panic = .release ∨ panic = .initExiting := by
  unfold State.call at failed
  split at failed
  next => exact .inl (acquire_fault failed)
  next => exact .inr (.inl (release_fault failed))
  next => split at failed <;> cases failed; exact .inr (.inr rfl)
  next => split at failed <;> cases failed

theorem codeStep_fault (failed : s.codeStep initproc c p choice = .fault panic) :
    panic = .acquire ∨ panic = .release ∨ panic = .initExiting ∨ panic = .schedLocks ∨
      ∃ resume, s.pc p = .sched resume ∧ (s.plock p ≠ some c ∨ s.state p = .running) := by
  unfold State.codeStep at failed
  split at failed
  case h_1 | h_2 =>
    rcases call_fault failed with is | is | is <;> simp [is]
  case h_13 resume at' =>
    split at failed
    next unlocked => exact .inr (.inr (.inr (.inr ⟨resume, at', .inl unlocked⟩)))
    next =>
      split at failed
      next => cases failed; simp
      next =>
        split at failed
        next runs => exact .inr (.inr (.inr (.inr ⟨resume, at', .inr runs⟩)))
        next => cases failed
  case h_17 =>
    split at failed
    next => exact .inl (acquireProc_fault failed)
    next => cases failed
  case h_27 => split at failed <;> cases failed
  all_goals first
    | cases failed
    | exact .inl (acquireProc_fault failed)
    | exact .inl (acquire_fault failed)
    | exact .inr (.inl (releaseProc_fault failed))
    | exact .inr (.inl (release_fault failed))

theorem schedStep_fault (failed : s.schedStep c choice = .fault panic) :
    panic = .acquire ∨ panic = .release ∨ panic = .zombieExit := by
  unfold State.schedStep at failed
  split at failed
  case h_1 =>
    split at failed
    next => exact .inl (acquireProc_fault failed)
    next => cases failed
  case h_2 => split at failed <;> cases failed
  case h_4 =>
    split at failed
    next => split at failed <;> cases failed; simp
    next => cases failed
  case h_7 => exact .inr (.inl (releaseProc_fault failed))
  all_goals cases failed

theorem CpuInv.no_sched_panic (inv : CpuInv s) (failed : s.step initproc c choice = .fault panic) :
    panic ≠ .schedLock ∧ panic ≠ .schedRunning := by
  unfold State.step at failed
  split at failed
  next p on =>
    unfold State.procStep at failed
    split at failed
    next => split at failed <;> cases failed
    next =>
      rcases codeStep_fault failed with rfl | rfl | rfl | rfl | ⟨resume, at', bad⟩
      case inr.inr.inr.inr =>
        obtain ⟨locked, left⟩ := inv.sched_ready on at'
        rcases bad with unlocked | runs
        · exact absurd locked unlocked
        · exact absurd runs left
      all_goals exact ⟨nofun, nofun⟩
  next =>
    rcases schedStep_fault failed with rfl | rfl | rfl <;> exact ⟨nofun, nofun⟩

end faults

theorem cpu_exclusive (reachable : (system n Cpu initproc).Reachable s) :
    (∀ c c' p, s.stack c = some p → s.stack c' = some p → c = c') ∧
    (∀ p, s.plock p = none → (s.state p = .running ↔ ∃! c, s.cproc c = some p)) ∧
    (∀ p, s.plock p = none →
      s.state p = .runnable ∨ s.state p = .sleeping ∨ s.state p = .zombie →
      s.saved p = true ∧ s.Off p) ∧
    (∀ c p addr havekids q todo, s.stack c = some p →
      s.pc p = .visit (.wait addr havekids) q todo → s.state q = .zombie → s.Off q) ∧
    (∀ c choice panic, s.step initproc c choice = .fault panic →
      panic ≠ .schedLock ∧ panic ≠ .schedRunning) := by
  have inv : CpuInv s := cpuInv_of_reachable reachable
  refine ⟨fun c c' p => (inv.proc p).alone c c', fun p free => inv.running_iff free,
    fun p free => inv.settled free,
    fun c p addr havekids q todo on at' zombie => ?_,
    fun c choice panic failed => inv.no_sched_panic failed⟩
  exact inv.visited_off on at' (by simp [zombie])

def forkRun : List (Bool × Choice 2) :=
  [(true, .pick ⟨0, Nat.two_pos⟩)] ++ List.replicate 4 (true, .go) ++ [(true, .fork)] ++
    List.replicate 12 (true, .go) ++ [(false, .pick ⟨1, Nat.one_lt_two⟩)] ++
    List.replicate 4 (false, .go)

theorem cpu_exclusive_twoRunning : ∃ s, (system 2 Bool 0).Reachable s ∧
    s.plock 1 = none ∧ s.state 1 = .running ∧ ∃! c, s.cproc c = some 1 := by
  obtain ⟨s, reachable, free, runs⟩ := (system 2 Bool 0).exists_reachable (State.boot_initial 0)
    forkRun (motive := fun s => s.plock 1 = none ∧ s.state 1 = .running) (by decide +kernel)
  exact ⟨s, reachable, free, runs, ((cpu_exclusive reachable).2.1 1 free).mp runs⟩

end Xv6.Proc
