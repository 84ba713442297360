import Xv6.Proc.Reaping

/-!
# Kill

`kill` compares pids without looking at the state, and a slot that is not in use
has pid 0. As long as nobody calls `kill(0)`, a call affects a process in use
with that pid or nothing at all.
-/

namespace Xv6.Proc

open State

variable {n : Nat} {Cpu : Type} [DecidableEq Cpu]

/-- The call of `kill` that a thread is in, as long as it has not found the process: the
pid and the slots it has still to look at. -/
def Point.killCall : Point n → Option (Int × List (Fin n))
  | .scan (.kill pid) todo => some (pid, todo)
  | _ => none

@[inherit_doc Point.killCall]
def Pc.killCall : Pc n → Option (Int × List (Fin n))
  | .point back | .yieldAcquire back | .yieldState back | .unlock back
  | .sched (.yield back) | .swtch (.yield back) | .parked (.yield back) => back.killCall
  | .visit (.kill pid) q todo => some (pid, q :: todo)
  | .leave (.kill pid) _ todo .pass => some (pid, todo)
  | _ => none

namespace State

def Named (s : State n Cpu) (pid : Int) (q : Fin n) : Prop :=
  s.state q ≠ .unused ∧ s.pid q = pid

/-- What `kill` does to the process that it finds. -/
def markKilled (s : State n Cpu) (q : Fin n) : State n Cpu :=
  if s.state q = .sleeping then (s.setKilled q).setState q .runnable else s.setKilled q

end State

/-- The processes and the CPUs, when nobody calls `kill(0)`. -/
def killSystem (n : Nat) (Cpu : Type) [DecidableEq Cpu] (initproc : Fin n) :
    TransitionSystem (State n Cpu) (Cpu × Choice n) Panic :=
  { system n Cpu initproc with allowed := fun _ label => label.2 ≠ .kill 0 }

/-- The thread that CPU `c` executes is about to set `q->killed`, in `kill` of the pid of
`q` or in `setkilled`. -/
def State.accuses (s : State n Cpu) (c : Cpu) (q : Fin n) : Bool :=
  match s.stack c with
  | some p =>
    match s.pc p with
    | .visit (.kill pid) r _ => r = q ∧ s.pid q = pid
    | .setkilledWrite => p = q
    | _ => false
  | none => false

/-- Who has been killed since the slot was allocated. -/
def accuse (s : State n Cpu) (label : Cpu × Choice n) (s' : State n Cpu) (accused : Fin n → Bool)
    (q : Fin n) : Bool :=
  if s.state q = .unused ∧ s'.state q ≠ .unused then
    false
  else
    accused q || s.accuses label.1 q

/-- The history of the calls of `kill` and `setkilled` beside the state. -/
def killHistory (n : Nat) (Cpu : Type) [DecidableEq Cpu] (initproc : Fin n) :
    TransitionSystem (State n Cpu × (Fin n → Bool)) (Cpu × Choice n) Panic :=
  (killSystem n Cpu initproc).observe (fun _ => false) accuse

instance {initproc : Fin n} (state : State n Cpu × (Fin n → Bool)) (label : Cpu × Choice n) :
    Decidable ((killHistory n Cpu initproc).allowed state label) :=
  inferInstanceAs (Decidable (label.2 ≠ .kill 0))

variable {initproc : Fin n} {s s' : State n Cpu} {c : Cpu} {p q : Fin n} {choice : Choice n}
  {pid : Int} {todo : List (Fin n)}

theorem reachable_of_killSystem (reachable : (killSystem n Cpu initproc).Reachable s) :
    (system n Cpu initproc).Reachable s := by
  induction reachable with
  | initial starts => exact .initial starts
  | step _ _ moved ih => exact .step ih trivial moved

/-- Free slots have pid 0, which nobody looks for. -/
structure KillInv (s : State n Cpu) : Prop where
  free : ∀ q, s.state q = .unused → s.pid q = 0 ∧ s.killed q = false
  calls : ∀ p todo, (s.pc p).killCall ≠ some (0, todo)

section invariant

theorem Pc.killCall_lasting : Pc.Lasting (Pc.killCall : Pc n → _) := {}

theorem killCall_entry (does : ProcEffect initproc s c p choice s')
    (inCall : (s'.pc p).killCall = some (pid, todo)) :
    (∃ before, (s.pc p).killCall = some (pid, before)) ∨ choice = .kill pid := by
  have moves := does.moves
  generalize s.pc p = before, s'.pc p = pc at moves inCall
  cases moves with
  | yields yields => exact .inl ⟨_, (Pc.killCall_lasting.yields _ _ yields).symm.trans inCall⟩
  | call _ entry =>
    cases choice <;> cases entry <;> cases inCall
    exact .inr rfl
  | @finish job =>
    cases job with
    | wakeup chan after => cases after <;> cases inCall
    | wait addr havekids => cases havekids <;> cases inCall
    | _ => cases inCall
  | @skip job | @scan job =>
    cases job with
    | kill => cases inCall; exact .inl ⟨_, rfl⟩
    | _ => cases inCall
  | @visit job q todo' visited verdict =>
    cases job with
    | kill =>
      cases verdict with
      | pass => cases inCall; exact .inl ⟨_, rfl⟩
      | _ => cases inCall
    | _ => cases inCall
  | @leave job q todo' verdict =>
    cases job with
    | kill =>
      cases verdict with
      | pass => exact .inl ⟨_, inCall⟩
      | _ => cases inCall
    | wakeup chan after => cases verdict <;> cases after <;> cases inCall
    | _ => cases verdict <;> cases inCall
  | @reacquire _ after => cases after <;> cases inCall
  | _ => cases inCall

namespace KillInv

omit [DecidableEq Cpu] in
theorem named (inv : KillInv s) (at' : s.pc p = .visit (.kill pid) q todo) (found : s.pid q = pid) :
    s.Named pid q := by
  refine ⟨fun unused => inv.calls p (q :: todo) ?_, found⟩
  rw [at', ← found, (inv.free q unused).1]
  rfl

theorem free_step (inv : KillInv s) (family : FamilyInv initproc s)
    (effect : Effect initproc s c choice s') (unused : s'.state q = .unused) :
    s'.pid q = 0 ∧ s'.killed q = false := by
  by_cases on : s.stack c = some q
  · -- A process that runs is not freed: `wait` frees zombies.
    have used := family.run.used_of_on on
    obtain ⟨p, on', reaps⟩ := family.reaps_of_freed effect used unused
    obtain rfl : q = p := Option.some.inj (on.symm.trans on')
    obtain ⟨addr, havekids, todo, at', _⟩ := reaps.call
    have runs := family.run.cpus.on c q on
    rw [at', reaps.zombie] at runs
    cases runs
  · have out := effect.outside on
    change (s'.slot q).state = .unused at unused
    change (s'.slot q).pid = 0 ∧ (s'.slot q).killed = false
    generalize s'.slot q = slot at out unused ⊢
    cases out with
    | same | setParent | reparent | switch => exact inv.free q unused
    | kill _ at' found => exact absurd unused (inv.named at' found).1
    | noMemory | reap => exact ⟨rfl, rfl⟩
    | wake | killAsleep | alloc | start | select => cases unused

theorem calls_step (inv : KillInv s) (effect : Effect initproc s c choice s')
    (permitted : choice ≠ .kill 0) (p : Fin n) (todo : List (Fin n)) :
    (s'.pc p).killCall ≠ some (0, todo) := by
  intro inCall
  by_cases on : s.stack c = some p
  · have does := effect.own on
    rcases killCall_entry does inCall with ⟨before, inCall⟩ | called
    · exact inv.calls p before inCall
    · exact permitted called
  · exact inv.calls p todo ((effect.outside on).call_inv Pc.killCall_lasting inCall)

omit [DecidableEq Cpu] in
theorem of_initial (starts : Initial initproc s) : KillInv s := by
  refine ⟨fun q unused => ⟨starts.pid q ?_, starts.killed q⟩, fun p todo inCall => ?_⟩
  · rintro rfl
    rw [starts.init.1] at unused
    cases unused
  · rw [starts.pc] at inCall
    cases inCall

end KillInv

theorem killInv_of_reachable (reachable : (killSystem n Cpu initproc).Reachable s) : KillInv s :=
  reachable.invariant (motive := KillInv) (fun _ starts => .of_initial starts)
    (fun _ _ _ before inv permitted moved =>
      have family := familyInv_of_reachable (reachable_of_killSystem before)
      have effect := step_effect moved
      ⟨fun _ => inv.free_step family effect, inv.calls_step effect permitted⟩)

end invariant

section call

inductive Kills (s s' : State n Cpu) (p : Fin n) (pid : Int) : List (Fin n) → Prop where
  | stay {rest} : (s'.pc p).killCall = some (pid, rest) → s'.pid = s.pid → s'.killed = s.killed →
      (∀ r, r ≠ p → s'.slot r = s.slot r) → Kills s s' p pid rest
  | miss {r rest} : s.pid r ≠ pid → s' = s.setPc p (.leave (.kill pid) r rest .pass) →
      Kills s s' p pid (r :: rest)
  | hit {r rest} : s.pc p = .visit (.kill pid) r rest → s.pid r = pid →
      s' = (s.markKilled r).setPc p (.leave (.kill pid) r rest (.hit 0)) →
      Kills s s' p pid (r :: rest)
  | finish : s' = s.setPc p (.returned (.kill pid) (-1)) → Kills s s' p pid []

theorem killCall_own (inCall : (s.pc p).killCall = some (pid, todo))
    (effect : ProcEffect initproc s c p choice s') : Kills s s' p pid todo := by
  have moves := effect.moves
  generalize at' : s.pc p = before, now : s'.pc p = pc at moves inCall
  have stay : Alone s s' p → pc.killCall = some (pid, todo) → Kills s s' p pid todo :=
    fun alone inCall => .stay (now ▸ inCall) alone.pid alone.killed alone.others
  cases moves with
  | yields yields alone =>
    exact stay alone ((Pc.killCall_lasting.yields _ _ yields).trans inCall)
  | call resting | plain resting | exit resting => cases resting <;> cases inCall
  | @finish job is =>
    cases job with
    | kill => cases inCall; exact .finish is
    | _ => cases inCall
  | @skip job q _ other =>
    cases job with
    | kill => cases other
    | _ => cases inCall
  | @scan job q _ _ alone =>
    cases job with
    | kill => exact stay alone inCall
    | _ => cases inCall
  | visit does is =>
    cases does with
    | kill found awake =>
      cases inCall
      exact .hit at' found (by rw [is, markKilled, if_neg awake])
    | killAsleep found asleep =>
      cases inCall
      exact .hit at' found (by rw [is, markKilled, if_pos asleep])
    | otherPid other => cases inCall; exact .miss other is
    | _ => cases inCall
  | @leave job q _ verdict alone =>
    cases job with
    | kill =>
      cases verdict with
      | pass => exact stay alone inCall
      | hit | fail => cases inCall
    | _ => cases inCall
  | _ => cases inCall

/-- As long as the call has not found the process, every slot that it has passed was at
some time not that of a process with this pid. -/
theorem missed_of_run {t : State n Cpu} (reachable : (killSystem n Cpu initproc).Reachable s)
    (called : s.pc p = .scan (.kill pid) (table n))
    (run : (killSystem n Cpu initproc).RunWhile (fun t => (t.pc p).killCall ≠ none) s t) :
    ∃ todo, (t.pc p).killCall = some (pid, todo) ∧ ∀ q, q ∉ todo → ∃ v,
      (killSystem n Cpu initproc).RunWhile (fun t => (t.pc p).killCall ≠ none) s v ∧
      (killSystem n Cpu initproc).RunWhile (fun t => (t.pc p).killCall ≠ none) v t ∧
      ¬ v.Named pid q := by
  induction run with
  | refl =>
    exact ⟨table n, by rw [called]; rfl, fun q passed => absurd (List.mem_finRange q) passed⟩
  | @step t u label before permitted moved during ih =>
    obtain ⟨todo, inCall, missed⟩ := ih
    have inv := runInv_of_reachable (reachable_of_killSystem (before.reachable reachable))
    have effect := step_effect moved
    have later q (passed : q ∉ todo) := (missed q passed).imp fun v ⟨first, second, other⟩ =>
      And.intro first (And.intro (second.step permitted moved during) other)
    by_cases on : t.stack label.1 = some p
    · have does := effect.own on
      cases killCall_own inCall does with
      | stay inCall' => exact ⟨todo, inCall', later⟩
      | @miss r rest other is =>
        refine ⟨rest, by rw [is, setPc_self]; rfl, fun q passed => ?_⟩
        by_cases same : q = r
        · subst same
          refine ⟨t, before, .step (.refl before.last) permitted moved during, ?_⟩
          exact fun named => other named.2
        · exact later q (List.not_mem_cons_of_ne_of_not_mem same passed)
      | hit _ _ is | finish is =>
        rw [is, setPc_self] at during
        exact absurd rfl during
    · exact ⟨todo, (effect.outside on).call_eq Pc.killCall_lasting inv inCall, later⟩

end call

section history

omit [DecidableEq Cpu] in
theorem accuses_inv (accuses : s.accuses c q = true) :
    ∃ p, s.stack c = some p ∧ ((∃ todo, s.pc p = .visit (.kill (s.pid q)) q todo) ∨ p = q) := by
  unfold State.accuses at accuses
  split at accuses
  next p on =>
    refine ⟨p, on, ?_⟩
    split at accuses
    next pid r todo at' =>
      obtain ⟨rfl, rfl⟩ := of_decide_eq_true accuses
      exact .inl ⟨todo, at'⟩
    next => exact .inr (of_decide_eq_true accuses)
    next => cases accuses
  next => cases accuses

theorem accused_of_killed (effect : Effect initproc s c choice s') (killed : s'.killed q = true) :
    s.killed q = true ∨ s.accuses c q = true := by
  have hit : ∀ r : Fin n, Function.update s.killed r true q = true → s.killed q = true ∨ q = r :=
    fun r killed => by
      by_cases same : q = r
      · exact .inr same
      · rw [Function.update_of_ne same] at killed
        exact .inl killed
  cases effect with
  | sched off does => cases does <;> exact .inl killed
  | @proc p _ on does =>
    cases does with
    | setkilled at' =>
      rcases hit p killed with before | rfl
      · exact .inl before
      · exact .inr (by simp [accuses, on, at'])
    | @visit job r todo visited verdict at' visits =>
      by_cases same : q = r
      · subst same
        cases visits with
        | kill found | killAsleep found =>
          exact .inr (by simp [accuses, on, at', found])
        | noMemory | reap | reapCopy =>
          change Function.update s.killed q false q = true at killed
          rw [Function.update_self] at killed
          cases killed
        | _ => exact .inl killed
      · exact .inl ((congrArg Slot.killed (visits.slot_of_ne same)).symm.trans killed)
    | _ => exact .inl killed

theorem KillInv.fresh (inv : KillInv s) (run : RunInv s) (effect : Effect initproc s c choice s')
    (unused : s.state q = .unused) : s'.killed q = false := by
  by_contra killed
  rw [Bool.not_eq_false] at killed
  rcases accused_of_killed effect killed with before | accuses
  · rw [(inv.free q unused).2] at before
    cases before
  · obtain ⟨p, on, ⟨todo, at'⟩ | rfl⟩ := accuses_inv accuses
    · exact (inv.named at' rfl).1 unused
    · exact run.used_of_on on unused

theorem accused_of_reachable {state : State n Cpu × (Fin n → Bool)}
    (reachable : (killHistory n Cpu initproc).Reachable state) (q : Fin n)
    (killed : state.1.killed q = true) : state.2 q = true := by
  revert q
  refine reachable.invariant
    (motive := fun state => ∀ q, state.1.killed q = true → state.2 q = true)
    (fun state starts q killed => ?_)
      (fun state label state' before ih permitted moved q killed => ?_)
  · rw [starts.1.killed] at killed
    cases killed
  · have reached := TransitionSystem.reachable_of_observe _ before
    obtain ⟨moved, recorded⟩ := TransitionSystem.observe_next _ moved
    have effect := step_effect moved
    rw [recorded, accuse]
    split
    next allocated =>
      have fresh := (killInv_of_reachable reached).fresh
        (runInv_of_reachable (reachable_of_killSystem reached)) effect allocated.1
      rw [fresh] at killed
      cases killed
    next =>
      rcases accused_of_killed effect killed with before | accuses
      · rw [ih q before, Bool.true_or]
      · rw [accuses, Bool.or_true]

end history

variable {accused : Fin n → Bool}

/-- `kill` affects only the named process. From the call in `s`, each step of the caller
that does not decide the call leaves all other processes and every `killed` alone; the
call is decided by finding a process in use with that pid, which alone it marks and for
which it returns 0, or by having passed every slot, when it returns -1. -/
theorem kill_named (reachable : (killHistory n Cpu initproc).Reachable (s, accused)) :
    (∀ p pid t label u, s.pc p = .scan (.kill pid) (table n) →
      (killSystem n Cpu initproc).RunWhile (fun t => (t.pc p).killCall ≠ none) s t →
      (killSystem n Cpu initproc).step t label = .next u → t.stack label.1 = some p →
      ((u.pc p).killCall ≠ none ∧ u.pid = t.pid ∧ u.killed = t.killed ∧
        ∀ r, r ≠ p → u.slot r = t.slot r) ∨
      (∃ q todo, t.Named pid q ∧
        u = (t.markKilled q).setPc p (.leave (.kill pid) q todo (.hit 0))) ∨
      (u = t.setPc p (.returned (.kill pid) (-1)) ∧ ∀ q, ∃ v,
        (killSystem n Cpu initproc).RunWhile (fun t => (t.pc p).killCall ≠ none) s v ∧
        (killSystem n Cpu initproc).RunWhile (fun t => (t.pc p).killCall ≠ none) v t ∧
        ¬ v.Named pid q)) ∧
    (∀ p pid q todo label u, s.pc p = .leave (.kill pid) q todo (.hit 0) →
      (killSystem n Cpu initproc).step s label = .next u →
      u.pc p = .leave (.kill pid) q todo (.hit 0) ∨
      u = (s.dropLock label.1 q).setPc p (.returned (.kill pid) 0)) ∧
    (∀ q, s.killed q = true → s.state q ≠ .unused ∧ accused q = true) ∧
    (∀ q label u, s.state q = .unused → (killSystem n Cpu initproc).step s label = .next u →
      u.killed q = false) := by
  have reached : (killSystem n Cpu initproc).Reachable s :=
    TransitionSystem.reachable_of_observe _ reachable
  have inv := killInv_of_reachable reached
  have run := runInv_of_reachable (reachable_of_killSystem reached)
  refine ⟨fun p pid t label u called during moved on => ?_, fun p pid q todo label u at' moved =>
    ?_,
    fun q killed => ⟨fun unused => ?_, accused_of_reachable reachable q killed⟩,
    fun q label u unused moved => inv.fresh run (step_effect moved) unused⟩
  · obtain ⟨todo, inCall, missed⟩ := missed_of_run reached called during
    have does := (step_effect moved).own on
    cases killCall_own inCall does with
    | stay inCall' pids killed others =>
      exact .inl ⟨inCall' ▸ nofun, pids, killed, others⟩
    | miss other is =>
      subst is
      refine .inl ⟨?_, rfl, rfl, fun r other => slot_setPc_of_ne t other _⟩
      rw [setPc_self]
      exact nofun
    | @hit r rest at' found is =>
      exact .inr (.inl ⟨r, rest, (killInv_of_reachable (during.reachable reached)).named at' found,
        is⟩)
    | finish is => exact .inr (.inr ⟨is, fun q => missed q List.not_mem_nil⟩)
  · by_cases on : s.stack label.1 = some p
    · right
      change s.step initproc label.1 label.2 = .next u at moved
      simp only [step, on, procStep, codeStep, at'] at moved
      exact (releaseProc_next moved).2
    · left
      have busy : (s.pc p).Busy := by rw [at']; trivial
      rcases ((step_effect moved).outside on).of_alive (run.alive_of_busy busy) with
        ⟨_, _, same | ⟨resume, parked, _⟩⟩
      · exact same.trans at'
      · rw [at'] at parked
        cases parked
  · rw [(inv.free q unused).2] at killed
    cases killed

def killRun : List (Bool × Choice 2) :=
  forkRun ++ [(true, .kill 2)] ++ List.replicate 5 (true, .go)

theorem kill_named_child : ∃ s accused, (killHistory 2 Bool 0).Reachable (s, accused) ∧
    s.pc 0 = .leave (.kill 2) 1 [] (.hit 0) ∧ s.killed 1 = true ∧ s.state 1 ≠ .unused ∧
    accused 1 = true := by
  have starts : (killHistory 2 Bool 0).initial (boot 0, fun _ => false) := ⟨boot_initial 0, rfl⟩
  obtain ⟨⟨s, accused⟩, reachable, at', killed⟩ := (killHistory 2 Bool 0).exists_reachable starts
    killRun (motive := fun state => state.1.pc 0 = .leave (.kill 2) 1 [] (.hit 0) ∧
      state.1.killed 1 = true) (by decide +kernel)
  exact ⟨s, accused, reachable, at', killed, (kill_named reachable).2.2.1 1 killed⟩

/-- The first process calls `kill(0)`, and then `fork`. -/
def killZeroRun : List (Bool × Choice 2) :=
  [(true, .pick ⟨0, Nat.two_pos⟩)] ++ List.replicate 4 (true, .go) ++ [(true, .kill 0)] ++
    List.replicate 6 (true, .go)

theorem killZero_marks_free : ∃ s t : State 2 Bool,
    (system 2 Bool 0).replay (boot 0) killZeroRun = some s ∧
    s.pc 0 = .returned (.kill 0) 0 ∧ s.state 1 = .unused ∧ s.killed 1 = true ∧
    (system 2 Bool 0).replay s ([(true, .fork)] ++ List.replicate 12 (true, .go)) = some t ∧
    t.pc 0 = .returned .fork 2 ∧ t.pid 1 = 2 ∧ t.state 1 = .runnable ∧ t.killed 1 = true := by
  have ran : ((system 2 Bool 0).replay (boot 0) killZeroRun).map
      (fun s => (s.pc 0, s.state 1, s.killed 1)) =
      some (.returned (.kill 0) 0, .unused, true) := by decide +kernel
  obtain ⟨s, replayed, seen⟩ := Option.map_eq_some_iff.mp ran
  simp only [Prod.mk.injEq] at seen
  have forked : (((system 2 Bool 0).replay (boot 0) killZeroRun).bind (fun s =>
      (system 2 Bool 0).replay s ([(true, .fork)] ++ List.replicate 12 (true, .go)))).map
      (fun t => (t.pc 0, t.pid 1, t.state 1, t.killed 1)) =
      some (.returned .fork 2, 2, .runnable, true) := by decide +kernel
  rw [replayed, Option.bind_some] at forked
  obtain ⟨t, replayed', seen'⟩ := Option.map_eq_some_iff.mp forked
  simp only [Prod.mk.injEq] at seen'
  exact ⟨s, t, replayed, seen.1, seen.2.1, seen.2.2, replayed', seen'⟩

end Xv6.Proc
