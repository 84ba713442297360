import Xv6.Proc.Frame
import Xv6.Proc.Exclusion

/-!
# No lost wakeups

A call of `sleep(chan, lk)` that has released `lk` and a call of `wakeup(chan)`
that begins after that. Until the thread of the sleeper has been switched out,
it holds its `p->lock`, so that the loop of `wakeup` cannot pass it before it is
marked `SLEEPING`.
-/

namespace Xv6.Proc

open State

variable {n : Nat} {Cpu : Type} [DecidableEq Cpu]

/-- The call of `sleep` that a thread is in: its lock and where it returns to. -/
def Point.sleepCall : Point n → Option (Lock × AfterSleep)
  | .sleepReacquire lk after => some (lk, after)
  | _ => none

/-- The call of `wakeup` that a thread is in: its channel, where it returns to and
the processes it has still to look at. -/
def Point.wakeupCall : Point n → Option (Chan n × AfterWakeup n × List (Fin n))
  | .scan (.wakeup chan after) todo => some (chan, after, todo)
  | _ => none

namespace Pc

@[inherit_doc Point.sleepCall]
def sleepCall : Pc n → Option (Lock × AfterSleep)
  | .point back | .yieldAcquire back | .yieldState back | .unlock back
  | .sched (.yield back) | .swtch (.yield back) | .parked (.yield back) => back.sleepCall
  | .sleepAcquire _ lk after | .sleepRelease _ lk after | .sleepChan _ lk after
  | .sleepState lk after | .sleepTidy lk after | .sleepUnlock lk after
  | .sched (.sleep lk after) | .swtch (.sleep lk after) | .parked (.sleep lk after) =>
    some (lk, after)
  | _ => none

@[inherit_doc Point.wakeupCall]
def wakeupCall : Pc n → Option (Chan n × AfterWakeup n × List (Fin n))
  | .point back | .yieldAcquire back | .yieldState back | .unlock back
  | .sched (.yield back) | .swtch (.yield back) | .parked (.yield back) => back.wakeupCall
  | .visit (.wakeup chan after) q todo => some (chan, after, q :: todo)
  | .leave (.wakeup chan after) _ todo .pass => some (chan, after, todo)
  | _ => none

/-- What a thread is in the middle of, and is still when it has been switched out. -/
structure Lasting {α : Type} (f : Pc n → Option α) : Prop where
  idle : f (.parked .forkret) = none ∧ f (.sched .exit) = none ∧ f (.swtch .exit) = none ∧
    f (.parked .exit) = none ∧ f .exitUnlock = none := by exact ⟨rfl, rfl, rfl, rfl, rfl⟩
  resume : ∀ resume pc, resume.pc = some pc → f pc = f (.parked resume) := by
    intro resume _ resumes
    cases resume <;> cases resumes <;> rfl
  yields : ∀ pc pc', pc.Yields pc' → f pc' = f pc := by
    intro _ _ yields
    cases yields <;> first | rfl | (cases ‹Resume _› <;> rfl)

theorem sleepCall_lasting : Lasting (sleepCall : Pc n → _) := {}

theorem wakeupCall_lasting : Lasting (wakeupCall : Pc n → _) := {}

/-- After the release of `lk`, and before the thread has been switched out. -/
inductive FallingAsleep (lk : Lock) (after : AfterSleep) : Pc n → Prop where
  | state : FallingAsleep lk after (.sleepState lk after)
  | sched : FallingAsleep lk after (.sched (.sleep lk after))
  | swtch : FallingAsleep lk after (.swtch (.sleep lk after))

variable (lk : Lock) (after : AfterSleep) in
/-- After the return of `sched`. -/
inductive Woken : Pc n → Prop where
  | tidy : Woken (.sleepTidy lk after)
  | unlock : Woken (.sleepUnlock lk after)
  | reacquire : Woken (.sleepReacquire lk after)
  | yieldAcquire : Woken (.yieldAcquire (.sleepReacquire lk after))
  | yieldState : Woken (.yieldState (.sleepReacquire lk after))
  | sched : Woken (.sched (.yield (.sleepReacquire lk after)))
  | swtch : Woken (.swtch (.yield (.sleepReacquire lk after)))
  | parked : Woken (.parked (.yield (.sleepReacquire lk after)))
  | yielded : Woken (.unlock (.sleepReacquire lk after))

end Pc

variable (s : State n Cpu) (q : Fin n) (chan : Chan n) (lk : Lock) (after : AfterSleep) in
/-- The process `q` is in a call of `sleep(chan, lk)` that has released `lk`. -/
inductive Sleeper : Prop where
  | chan : s.pc q = .sleepChan chan lk after → Sleeper
  | falling : (s.pc q).FallingAsleep lk after → s.chan q = some chan → Sleeper
  | parked : s.pc q = .parked (.sleep lk after) → s.chan q = some chan → Sleeper
  | woken : (s.pc q).Woken lk after → Sleeper

variable {initproc : Fin n} {s s' : State n Cpu} {c : Cpu} {p q : Fin n} {choice : Choice n}
  {chan : Chan n} {lk : Lock} {after : AfterSleep}

/-- The call has been seen by a `wakeup`: it does not put the process to sleep any more. -/
inductive Roused (s : State n Cpu) (q : Fin n) (lk : Lock) (after : AfterSleep) : Prop where
  | parked : s.pc q = .parked (.sleep lk after) → s.state q ≠ .sleeping → Roused s q lk after
  | woken : (s.pc q).Woken lk after → Roused s q lk after

/-- What a call of `wakeup` on `chan` knows about a sleeper: it comes later in the loop
or has been roused. -/
def Pursued (s : State n Cpu) (q : Fin n) (chan : Chan n) (lk : Lock) (after : AfterSleep)
    (todo : List (Fin n)) : Prop :=
  Roused s q lk after ∨ q ∈ todo ∧ Sleeper s q chan lk after

variable {call : Chan n × AfterWakeup n × List (Fin n)} {slot : Slot n}

section alive

variable {α : Type} {f : Pc n → Option α} {inside : α} (lasting : Pc.Lasting f)

omit [DecidableEq Cpu]

include lasting

theorem RunInv.alive_of_call (inv : RunInv s) (inCall : f (s.pc q) = some inside) :
    (s.state q).Alive := by
  obtain ⟨forkret, sched, swtch, parked, unlock⟩ := lasting.idle
  refine inv.alive_of_busy ?_
  generalize s.pc q = pc at inCall
  unfold Pc.Busy
  split
  · exact nomatch forkret.symm.trans inCall
  · exact nomatch sched.symm.trans inCall
  · exact nomatch swtch.symm.trans inCall
  · exact nomatch parked.symm.trans inCall
  · exact nomatch unlock.symm.trans inCall
  · trivial

omit lasting in
/-- Nobody else puts a process to sleep or moves its thread, except for the scheduler,
which switches to it. -/
theorem Outside.of_alive (out : Outside initproc s c q slot) (alive : (s.state q).Alive) :
    slot.chan = s.chan q ∧ (slot.state = .sleeping → s.state q = .sleeping) ∧
      (slot.pc = s.pc q ∨ ∃ resume, s.pc q = .parked resume ∧ resume.pc = some slot.pc) := by
  obtain ⟨notUnused, notZombie⟩ : s.state q ≠ .unused ∧ s.state q ≠ .zombie := by
    rcases alive with is | is | is <;> simp [is]
  cases out with
  | same | kill | setParent | reparent => exact ⟨rfl, id, .inl rfl⟩
  | wake _ _ asleep | killAsleep _ _ _ asleep => exact ⟨rfl, fun _ => asleep, .inl rfl⟩
  | alloc _ _ unused | noMemory _ _ unused => exact absurd unused notUnused
  | start | select => exact ⟨rfl, nofun, .inl rfl⟩
  | reap _ _ zombie => exact absurd zombie notZombie
  | switch _ _ parked resumes => exact ⟨rfl, id, .inr ⟨_, parked, resumes⟩⟩

theorem Outside.call_eq (inv : RunInv s) (out : Outside initproc s c q slot)
    (inCall : f (s.pc q) = some inside) : f slot.pc = some inside := by
  rcases (out.of_alive (inv.alive_of_call lasting inCall)).2.2 with same | ⟨resume, parked, resumes⟩
  · rwa [same]
  · rwa [lasting.resume resume _ resumes, ← parked]

theorem Outside.call_inv (out : Outside initproc s c q slot) (inCall : f slot.pc = some inside) :
    f (s.pc q) = some inside := by
  cases out with
  | alloc => exact nomatch lasting.idle.1.symm.trans inCall
  | switch _ _ parked resumes => rwa [parked, ← lasting.resume _ _ resumes]
  | _ => exact inCall

end alive

section sleeper

theorem Pc.Woken.sleepCall_eq {pc : Pc n} (woken : pc.Woken lk after) :
    pc.sleepCall = some (lk, after) := by
  cases woken <;> rfl

section

omit [DecidableEq Cpu]

theorem Sleeper.sleepCall_eq (sleeper : Sleeper s q chan lk after) :
    (s.pc q).sleepCall = some (lk, after) := by
  cases sleeper with
  | chan at' | parked at' => rw [at']; rfl
  | falling at' => revert at'; cases s.pc q <;> intro at' <;> cases at' <;> rfl
  | woken at' => exact at'.sleepCall_eq

theorem Roused.sleepCall_eq (roused : Roused s q lk after) :
    (s.pc q).sleepCall = some (lk, after) := by
  cases roused with
  | parked at' => rw [at']; rfl
  | woken at' => exact at'.sleepCall_eq

theorem Pc.Woken.outside (inv : RunInv s) (woken : (s.pc q).Woken lk after)
    (out : Outside initproc s c q slot) : slot.pc.Woken lk after := by
  rcases (out.of_alive (inv.alive_of_call Pc.sleepCall_lasting woken.sleepCall_eq)).2.2 with
    same | ⟨resume, parked, resumes⟩
  · rwa [same]
  · rw [parked] at woken
    cases woken
    exact Option.some.inj resumes ▸ .yielded

theorem Pc.parked_or_woken {pc pc' : Pc n} (at' : pc = .parked (.sleep lk after))
    (moves : pc' = pc ∨ ∃ resume, pc = .parked resume ∧ resume.pc = some pc') :
    pc' = .parked (.sleep lk after) ∨ pc'.Woken lk after := by
  rcases moves with same | ⟨resume, parked, resumes⟩
  · exact .inl (same.trans at')
  · rw [at'] at parked
    cases parked
    exact .inr (Option.some.inj resumes ▸ .tidy)

theorem Roused.outside (inv : RunInv s) (roused : Roused s q lk after)
    (out : Outside initproc s c q (s'.slot q)) : Roused s' q lk after := by
  obtain ⟨_, asleep, moves⟩ :=
    out.of_alive (inv.alive_of_call Pc.sleepCall_lasting roused.sleepCall_eq)
  cases roused with
  | parked at' awake =>
    exact (Pc.parked_or_woken at' moves).elim (.parked · fun is => awake (asleep is)) .woken
  | woken at' => exact .woken (at'.outside inv out)

theorem Sleeper.outside (inv : RunInv s) (sleeper : Sleeper s q chan lk after)
    (out : Outside initproc s c q (s'.slot q)) : Sleeper s' q chan lk after := by
  obtain ⟨recorded, _, moves⟩ :=
    out.of_alive (inv.alive_of_call Pc.sleepCall_lasting sleeper.sleepCall_eq)
  cases sleeper with
  | chan at' =>
    rcases moves with same | ⟨resume, parked, _⟩
    · exact .chan (same.trans at')
    · rw [at'] at parked
      cases parked
  | falling at' heard =>
    rcases moves with same | ⟨resume, parked, _⟩
    · refine .falling ?_ (recorded.trans heard)
      rw [show s'.pc q = s.pc q from same]
      exact at'
    · rw [parked] at at'
      cases at'
  | parked at' heard =>
    exact (Pc.parked_or_woken at' moves).elim (.parked · (recorded.trans heard)) .woken
  | woken at' => exact .woken (at'.outside inv out)

end

theorem Pc.Woken.own (woken : (s.pc q).Woken lk after)
    (effect : ProcEffect initproc s c q choice s') :
    (s'.pc q).Woken lk after ∨ (s'.pc q).sleepCall = none ∧ s'.held lk = some q := by
  have moves := effect.moves
  generalize s.pc q = before, s'.pc q = pc at moves woken
  cases moves with
  | yields yields => cases yields <;> cases woken <;> exact .inl (by constructor)
  | call resting | plain resting | exit resting => cases resting <;> cases woken
  | sleepTidy => cases woken; exact .inl .unlock
  | sleepUnlock => cases woken; exact .inl .reacquire
  | @reacquire _ after held => cases woken; exact .inr ⟨by cases after <;> rfl, held⟩
  | _ => cases woken

/-- The process itself does not stop being a sleeper before it has `lk`. -/
theorem Sleeper.own (cpus : CpuInv s) (on : s.stack c = some q)
    (sleeper : Sleeper s q chan lk after) (moved : s.step initproc c choice = .next s') :
    Sleeper s' q chan lk after ∨ (s'.pc q).sleepCall = none ∧ s'.held lk = some q := by
  cases sleeper with
  | chan at' =>
    simp only [step, on, procStep, codeStep, at', Outcome.next.injEq] at moved
    subst moved
    exact .inl (.falling (setPc_self .. ▸ .state) (Function.update_self ..))
  | falling at' heard =>
    generalize before : s.pc q = pc at at'
    cases at' with
    | state =>
      simp only [step, on, procStep, codeStep, before, Outcome.next.injEq] at moved
      subst moved
      exact .inl (.falling (setPc_self .. ▸ .sched) heard)
    | sched =>
      obtain ⟨locked, left⟩ := cpus.sched_ready on before
      simp only [step, on, procStep, codeStep, before, locked, left, ne_eq,
        not_true_eq_false, if_false] at moved
      split at moved
      · cases moved
      · cases moved
        exact .inl (.falling (setPc_self .. ▸ .swtch) heard)
    | swtch =>
      simp only [step, on, procStep, codeStep, before, Outcome.next.injEq] at moved
      subst moved
      exact .inl (.parked (setPc_self _ q (.parked (.sleep lk after))) heard)
  | parked at' => exact absurd at' ((cpus.proc q).parked c _ on)
  | woken at' =>
    have effect := (step_effect moved).own on
    exact (at'.own effect).imp_left .woken

theorem Roused.own (cpus : CpuInv s) (on : s.stack c = some q) (roused : Roused s q lk after)
    (effect : ProcEffect initproc s c q choice s') :
    Roused s' q lk after ∨ (s'.pc q).sleepCall = none ∧ s'.held lk = some q := by
  cases roused with
  | parked at' => exact absurd at' ((cpus.proc q).parked c _ on)
  | woken at' => exact (at'.own effect).imp_left .woken

/-- A thread that leaves a call of `sleep` has just acquired the lock. -/
theorem sleepCall_own (inCall : (s.pc q).sleepCall = some (lk, after))
    (effect : ProcEffect initproc s c q choice s') :
    (s'.pc q).sleepCall = some (lk, after) ∨ s'.held lk = some q := by
  have moves := effect.moves
  generalize s.pc q = before, s'.pc q = pc at moves inCall
  cases moves with
  | yields yields => exact .inl ((Pc.sleepCall_lasting.yields _ _ yields).trans inCall)
  | call resting | plain resting | exit resting => cases resting <;> cases inCall
  | reacquire held => cases inCall; exact .inr held
  | sleepAcquire | sleepRelease | sleepChan | sleepState | sleepTidy | sleepUnlock =>
    exact .inl inCall
  | _ => cases inCall

end sleeper

section wakeup

variable {after : AfterWakeup n} {todo : List (Fin n)}

variable (s s' : State n Cpu) (p : Fin n) (chan : Chan n) (after : AfterWakeup n) in
/-- The steps of a call of `wakeup` in the thread of `p`. -/
inductive Wakes : List (Fin n) → Prop where
  | stay {rest} : (s'.pc p).wakeupCall = some (chan, after, rest) → Wakes rest
  | skip {rest} : (s'.pc p).wakeupCall = some (chan, after, rest) → Wakes (p :: rest)
  | visit {r rest} : s.pc p = .visit (.wakeup chan after) r rest →
      (s'.pc p).wakeupCall = some (chan, after, rest) →
      (s.chan r = some chan → s'.state r ≠ .sleeping) → Wakes (r :: rest)
  | finish : (s'.pc p).wakeupCall = none → Wakes []

theorem wakeupCall_own (inCall : (s.pc p).wakeupCall = some (chan, after, todo))
    (effect : ProcEffect initproc s c p choice s') : Wakes s s' p chan after todo := by
  have moves := effect.moves
  generalize at' : s.pc p = before, now : s'.pc p = pc at moves inCall
  cases moves with
  | yields yields =>
    exact .stay (now ▸ (Pc.wakeupCall_lasting.yields _ _ yields).trans inCall)
  | call resting | plain resting | exit resting => cases resting <;> cases inCall
  | @finish job =>
    cases job with
    | wakeup => cases inCall; exact .finish (now ▸ by cases after <;> rfl)
    | _ => cases inCall
  | @skip job q _ other =>
    cases job with
    | wakeup =>
      cases inCall
      obtain rfl : q = p := by simpa [concerns] using other
      exact .skip (now ▸ rfl)
    | _ => cases inCall
  | @scan job =>
    cases job with
    | wakeup => cases inCall; exact .stay (now ▸ rfl)
    | _ => cases inCall
  | @visit job q _ visited verdict does is =>
    subst is
    cases does with
    | wake =>
      cases inCall
      refine .visit at' (by rw [now]; rfl) fun _ => ?_
      rw [show ((s.setState q .runnable).setPc p _).state q = .runnable from setState_self ..]
      exact nofun
    | unheard deaf =>
      cases inCall
      exact .visit at' (by rw [now]; rfl) fun heard asleep => deaf ⟨asleep, heard⟩
    | _ => cases inCall
  | @leave job q _ verdict =>
    cases job with
    | wakeup =>
      cases verdict with
      | pass => exact .stay (now ▸ inCall)
      | hit | fail => cases inCall
    | _ => cases inCall
  | _ => cases inCall

theorem Pc.sleepCall_of_wakeupCall {pc : Pc n} (inCall : pc.wakeupCall = some call) :
    pc.sleepCall = none := by
  have atPoint : ∀ point : Point n, point.wakeupCall = some call → point.sleepCall = none :=
    fun point inCall => by cases point <;> first | rfl | cases inCall
  cases pc with
  | point back | yieldAcquire back | yieldState back | unlock back => exact atPoint back inCall
  | sched resume | swtch resume | parked resume =>
    cases resume with
    | yield back => exact atPoint back inCall
    | _ => cases inCall
  | visit | leave => rfl
  | _ => cases inCall

end wakeup

section pursuit

variable {wafter : AfterWakeup n} {todo : List (Fin n)} {job : Job n}

section

omit [DecidableEq Cpu]

theorem RunInv.unlocked_of_visit (inv : RunInv s) (on : s.stack c = some p)
    (at' : s.pc p = .visit job q todo) (other : q ≠ p) : (s.pc q).holds q ≠ some q := by
  intro own
  have away : ∀ resume, s.pc q ≠ .parked resume := fun resume parked => by
    rw [parked] at own
    cases own
  obtain ⟨c', there⟩ := inv.threads.on q away
  have locked : s.plock q = some c := by
    rw [inv.cpus.plock, CpuInv.holding_on on, at']
    rfl
  rw [← CpuInv.holding_on there, ← inv.cpus.plock, locked] at own
  obtain rfl : c = c' := Option.some.inj own
  exact other (Option.some.inj (there.symm.trans on))

theorem Sleeper.roused (inv : RunInv s) (sleeper : Sleeper s q chan lk after)
    (on : s.stack c = some p) (at' : s.pc p = .visit job q todo) (other : q ≠ p)
    (out : Outside initproc s c q (s'.slot q))
    (woken : s.chan q = some chan → s'.state q ≠ .sleeping) : Roused s' q lk after := by
  have unlocked := inv.unlocked_of_visit on at' other
  obtain ⟨_, _, moves⟩ := out.of_alive (inv.alive_of_call Pc.sleepCall_lasting sleeper.sleepCall_eq)
  cases sleeper with
  | chan falls =>
    rw [falls] at unlocked
    exact absurd rfl unlocked
  | falling falls =>
    generalize s.pc q = pc at unlocked falls
    cases falls <;> exact absurd rfl unlocked
  | parked parked heard =>
    exact (Pc.parked_or_woken parked moves).elim (.parked · (woken heard)) .woken
  | woken falls => exact .woken (falls.outside inv out)

theorem Pursued.outside (inv : RunInv s) (pursued : Pursued s q chan lk after todo)
    (out : Outside initproc s c q (s'.slot q)) : Pursued s' q chan lk after todo :=
  pursued.imp (·.outside inv out) (.imp_right (·.outside inv out))

theorem Pursued.tail {r : Fin n} (pursued : Pursued s q chan lk after (r :: todo))
    (found : q = r → Roused s q lk after) : Pursued s q chan lk after todo := by
  rcases pursued with roused | ⟨mem, sleeper⟩
  · exact .inl roused
  · rcases List.mem_cons.mp mem with is | later
    · exact .inl (found is)
    · exact .inr ⟨later, sleeper⟩

end

theorem Pursued.step (inv : RunInv s) (inCall : (s.pc p).wakeupCall = some (chan, wafter, todo))
    (pursued : Pursued s q chan lk after todo) (moved : s.step initproc c choice = .next s')
    (stays : (s'.pc q).sleepCall = some (lk, after)) :
    (∃ rest, (s'.pc p).wakeupCall = some (chan, wafter, rest) ∧ Pursued s' q chan lk after rest) ∨
      (s'.pc p).wakeupCall = none ∧ Roused s' q lk after := by
  have effect := step_effect moved
  have asleep : (s.pc q).sleepCall = some (lk, after) := by
    rcases pursued with roused | ⟨_, sleeper⟩
    · exact roused.sleepCall_eq
    · exact sleeper.sleepCall_eq
  have other : q ≠ p := by
    rintro rfl
    rw [Pc.sleepCall_of_wakeupCall inCall] at asleep
    cases asleep
  by_cases on : s.stack c = some q
  · -- The sleeper moves and the caller of `wakeup` does not.
    have out := effect.outside (q := p) fun on' => other (Option.some.inj (on.symm.trans on'))
    refine .inl ⟨todo, out.call_eq Pc.wakeupCall_lasting inv inCall, ?_⟩
    have stays' : ¬ ((s'.pc q).sleepCall = none ∧ s'.held lk = some q) := fun left => by
      rw [left.1] at stays
      cases stays
    rcases pursued with roused | ⟨mem, sleeper⟩
    · have does := effect.own on
      exact .inl ((roused.own inv.cpus on does).resolve_right stays')
    · exact .inr ⟨mem, (sleeper.own inv.cpus on moved).resolve_right stays'⟩
  · have out := effect.outside on
    have kept := pursued.outside inv out
    by_cases acts : s.stack c = some p
    · have does := effect.own acts
      cases wakeupCall_own inCall does with
      | stay inCall' => exact .inl ⟨todo, inCall', kept⟩
      | skip inCall' => exact .inl ⟨_, inCall', kept.tail fun is => absurd is other⟩
      | visit at' inCall' woken =>
        refine .inl ⟨_, inCall', kept.tail fun is => ?_⟩
        subst is
        rcases pursued with roused | ⟨_, sleeper⟩
        · exact roused.outside inv out
        · exact sleeper.roused inv acts at' other out woken
      | finish returned =>
        refine .inr ⟨returned, ?_⟩
        rcases kept with roused | ⟨mem, _⟩
        · exact roused
        · cases mem
    · exact .inl ⟨todo, (effect.outside acts).call_eq Pc.wakeupCall_lasting inv inCall, kept⟩

/-- While both calls are in progress, the sleeper is pursued. -/
theorem pursued_of_run {t : State n Cpu} (reachable : (system n Cpu initproc).Reachable s)
    (called : s.pc p = .scan (.wakeup chan wafter) (table n)) (sleeper : Sleeper s q chan lk after)
    (run : (system n Cpu initproc).RunWhile
      (fun t => (t.pc p).wakeupCall ≠ none ∧ (t.pc q).sleepCall = some (lk, after)) s t) :
    ∃ todo, (t.pc p).wakeupCall = some (chan, wafter, todo) ∧ Pursued t q chan lk after todo := by
  induction run with
  | refl => exact ⟨table n, by rw [called]; rfl, .inr ⟨List.mem_finRange q, sleeper⟩⟩
  | step before _ moved during ih =>
    obtain ⟨todo, inCall, pursued⟩ := ih
    have inv := runInv_of_reachable (before.reachable reachable)
    rcases pursued.step inv inCall moved during.2 with next | ⟨returned, _⟩
    · exact next
    · exact absurd returned during.1

/-- After the return of `wakeup`, a process that was in a call of `sleep` and is still in
it has been roused. -/
theorem roused_of_run {t u : State n Cpu} {label : Cpu × Choice n}
    (reachable : (system n Cpu initproc).Reachable s)
    (called : s.pc p = .scan (.wakeup chan wafter) (table n)) (sleeper : Sleeper s q chan lk after)
    (run : (system n Cpu initproc).RunWhile
      (fun t => (t.pc p).wakeupCall ≠ none ∧ (t.pc q).sleepCall = some (lk, after)) s t)
    (moved : t.step initproc label.1 label.2 = .next u) (returned : (u.pc p).wakeupCall = none)
    (stays : (u.pc q).sleepCall = some (lk, after)) : Roused u q lk after := by
  obtain ⟨todo, inCall, pursued⟩ := pursued_of_run reachable called sleeper run
  have inv := runInv_of_reachable (run.reachable reachable)
  rcases pursued.step inv inCall moved stays with ⟨rest, inCall', _⟩ | ⟨_, roused⟩
  · rw [returned] at inCall'
    cases inCall'
  · exact roused

omit [DecidableEq Cpu] in
theorem Roused.state (inv : RunInv s) (roused : Roused s q lk after) :
    s.state q = .runnable ∨ s.state q = .running := by
  cases roused with
  | parked at' awake => exact (inv.threads.allows q _ at').resolve_left awake
  | woken at' =>
    by_cases away : ∀ resume, s.pc q ≠ .parked resume
    · rw [inv.state_of_on away]
      generalize s.pc q = pc at at'
      cases at' <;> simp [Pc.expected, Resume.state]
    · simp only [ne_eq, not_forall, not_not] at away
      obtain ⟨resume, parked⟩ := away
      have allows := inv.threads.allows q resume parked
      rw [parked] at at'
      cases at'
      exact allows

end pursuit

/-- No wakeup is lost, and `sleep` returns with its lock. A call of `wakeup(chan)` is
made in `s`, with any call of `sleep(chan, lk)` that has released `lk`. -/
theorem no_lost_wakeup (reachable : (system n Cpu initproc).Reachable s) :
    (∀ p q chan lk after wafter t u label,
      s.pc p = .scan (.wakeup chan wafter) (table n) → Sleeper s q chan lk after →
      (system n Cpu initproc).RunWhile
        (fun t => (t.pc p).wakeupCall ≠ none ∧ (t.pc q).sleepCall = some (lk, after)) s t →
      (system n Cpu initproc).step t label = .next u → (u.pc p).wakeupCall = none →
      (u.pc q).sleepCall = some (lk, after) →
      u.state q = .runnable ∨ u.state q = .running) ∧
    (∀ q lk after label s', (system n Cpu initproc).step s label = .next s' →
      (s.pc q).sleepCall = some (lk, after) → (s'.pc q).sleepCall ≠ some (lk, after) →
      s'.held lk = some q) := by
  constructor
  · intro p q chan lk after wafter t u label called sleeper run moved returned stays
    have roused := roused_of_run reachable called sleeper run moved returned stays
    have reachable' : (system n Cpu initproc).Reachable u :=
      .step (run.reachable reachable) trivial moved
    exact roused.state (runInv_of_reachable reachable')
  · intro q lk after label s' moved inCall left
    have effect := step_effect moved
    by_cases on : s.stack label.1 = some q
    · have does := effect.own on
      exact (sleepCall_own inCall does).resolve_left left
    · exact absurd ((effect.outside on).call_eq Pc.sleepCall_lasting (runInv_of_reachable reachable)
        inCall) left

/-- The child of `forkRun` releases its lock in `sleep`; the parent acquires it and calls
`wakeup`. -/
def sleepRun : List (Bool × Choice 2) :=
  forkRun ++ [(false, .acquire 7), (false, .sleep (.other 5) 7), (false, .go), (false, .go),
    (true, .acquire 7), (true, .wakeup (.other 5))]

theorem no_lost_wakeup_early : ∃ s t u : State 2 Bool, (system 2 Bool 0).Reachable s ∧
    s.held (.other 7) = some 0 ∧ s.pc 0 = .scan (.wakeup (.other 5) .done) (table 2) ∧
    Sleeper s 1 (.other 5) (.other 7) .done ∧
    (system 2 Bool 0).RunWhile
      (fun t => (t.pc 0).wakeupCall ≠ none ∧ (t.pc 1).sleepCall = some (.other 7, .done)) s t ∧
    (system 2 Bool 0).step t (true, .go) = .next u ∧ (u.pc 0).wakeupCall = none ∧
    (u.state 1 = .runnable ∨ u.state 1 = .running) := by
  have ran : ((system 2 Bool 0).replay (boot 0) sleepRun).map
      (fun s => (s.held (.other 7), s.pc 0, s.pc 1)) =
      some (some 0, .scan (.wakeup (.other 5) .done) (table 2),
        .sleepChan (.other 5) (.other 7) .done) := by decide +kernel
  obtain ⟨s, replayed, seen⟩ := Option.map_eq_some_iff.mp ran
  have reachable : (system 2 Bool 0).Reachable s := .replay (.initial (boot_initial 0)) replayed
  simp only [Prod.mk.injEq] at seen
  obtain ⟨held, called, asleep⟩ := seen
  have woke : ((system 2 Bool 0).replay (boot 0) sleepRun).bind (fun s =>
      ((system 2 Bool 0).replayWhile
        (fun t => (t.pc 0).wakeupCall ≠ none ∧ (t.pc 1).sleepCall = some (.other 7, .done)) s
        ([(true, .go)] ++ List.replicate 6 (false, .go) ++ List.replicate 3 (true, .go))).bind
      (fun t => ((system 2 Bool 0).step t (true, .go)).next?.map
        (fun u => ((u.pc 0).wakeupCall, (u.pc 1).sleepCall)))) =
      some (none, some (.other 7, .done)) := by decide +kernel
  rw [replayed, Option.bind_some, Option.bind_eq_some_iff] at woke
  obtain ⟨t, replayed', last⟩ := woke
  obtain ⟨u, moved, seen⟩ := Option.map_eq_some_iff.mp last
  have moved : (system 2 Bool 0).step t (true, .go) = .next u := Outcome.next?_eq_some.mp moved
  have run := TransitionSystem.RunWhile.replay replayed'
  have returned : (u.pc 0).wakeupCall = none := congrArg Prod.fst seen
  have stays : (u.pc 1).sleepCall = some (.other 7, .done) := congrArg Prod.snd seen
  exact ⟨s, t, u, reachable, held, called, .chan asleep, run, moved, returned,
    (no_lost_wakeup reachable).1 0 1 _ _ _ _ t u (true, .go) called (.chan asleep) run moved
      returned
      stays⟩

end Xv6.Proc
