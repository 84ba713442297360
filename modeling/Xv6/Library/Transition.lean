import Mathlib

/-!
# Transition systems with faults

A step of a labelled system moves to a next state, is blocked, or ends in a
fault. `allowed` restricts the labels the environment offers in a state.
Invariants are proved once per step and hold in every reachable state.
-/

universe u v w

inductive Outcome (State : Type u) (Fault : Type v) where
  | next (state : State)
  | blocked
  | fault (reason : Fault)
  deriving DecidableEq

def Outcome.next? {State : Type u} {Fault : Type v} : Outcome State Fault → Option State
  | .next state => some state
  | _ => none

theorem Outcome.next?_eq_some {State : Type u} {Fault : Type v} {outcome : Outcome State Fault}
    {state : State} : outcome.next? = some state ↔ outcome = .next state := by
  cases outcome <;> simp [Outcome.next?]

structure TransitionSystem (State : Type u) (Label : Type v) (Fault : Type w) where
  initial : State → Prop
  allowed : State → Label → Prop
  step : State → Label → Outcome State Fault

namespace TransitionSystem

variable {State : Type u} {Label : Type v} {Fault : Type w}
variable (system : TransitionSystem State Label Fault)

inductive Reachable : State → Prop where
  | initial {state} : system.initial state → Reachable state
  | step {state state' label} : Reachable state → system.allowed state label →
      system.step state label = .next state' → Reachable state'

variable {system}

/-- A property that holds initially and survives every allowed step from a
reachable state holds in every reachable state. -/
theorem Reachable.invariant {motive : State → Prop}
    (base : ∀ state, system.initial state → motive state)
    (preserved : ∀ state label state', system.Reachable state → motive state →
      system.allowed state label → system.step state label = .next state' → motive state')
    {state : State} (reachable : system.Reachable state) : motive state := by
  induction reachable with
  | initial start => exact base _ start
  | step before permitted moved ih => exact preserved _ _ _ before ih permitted moved

variable (system)

variable {Record : Type*}

/-- The same system with something recorded about its run. -/
def observe (start : Record) (update : State → Label → State → Record → Record) :
    TransitionSystem (State × Record) Label Fault where
  initial state := system.initial state.1 ∧ state.2 = start
  allowed state := system.allowed state.1
  step state label :=
    match system.step state.1 label with
    | .next next => .next (next, update state.1 label next state.2)
    | .blocked => .blocked
    | .fault reason => .fault reason

theorem observe_next {start : Record} {update : State → Label → State → Record → Record}
    {state state' : State × Record} {label : Label}
    (moved : (system.observe start update).step state label = .next state') :
    system.step state.1 label = .next state'.1 ∧
      state'.2 = update state.1 label state'.1 state.2 := by
  simp only [observe] at moved
  split at moved
  next next moves =>
    cases moved
    exact ⟨moves, rfl⟩
  next => cases moved
  next => cases moved

theorem reachable_of_observe {start : Record} {update : State → Label → State → Record → Record}
    {state : State × Record} (reachable : (system.observe start update).Reachable state) :
    system.Reachable state.1 := by
  induction reachable with
  | initial starts => exact .initial starts.1
  | step _ permitted moved ih => exact .step ih permitted (system.observe_next moved).1

/-- A run all of whose states satisfy `during`. -/
inductive RunWhile (during : State → Prop) (start : State) : State → Prop where
  | refl : during start → RunWhile during start start
  | step {state state' label} : RunWhile during start state → system.allowed state label →
      system.step state label = .next state' → during state' → RunWhile during start state'

variable {system}

variable {during : State → Prop} {start state : State}

theorem RunWhile.reachable
    (reachable : system.Reachable start) (run : system.RunWhile during start state) :
    system.Reachable state := by
  induction run with
  | refl => exact reachable
  | step _ permitted moved _ ih => exact .step ih permitted moved

theorem RunWhile.last (run : system.RunWhile during start state) : during state := by
  cases run with
  | refl holds => exact holds
  | step _ _ _ holds => exact holds

theorem RunWhile.first (run : system.RunWhile during start state) : during start := by
  induction run with
  | refl holds => exact holds
  | step _ _ _ _ ih => exact ih

variable (system)

/-- Take the given steps one after the other, if each of them is allowed and
possible. -/
def replay [∀ state label, Decidable (system.allowed state label)] :
    State → List Label → Option State
  | state, [] => some state
  | state, label :: rest =>
    if system.allowed state label then
      match system.step state label with
      | .next state' => replay state' rest
      | _ => none
    else
      none

variable {system}

theorem Reachable.replay [∀ state label, Decidable (system.allowed state label)]
    {state state' : State} {labels : List Label} (reachable : system.Reachable state)
    (replayed : system.replay state labels = some state') : system.Reachable state' := by
  induction labels generalizing state with
  | nil =>
    simp only [TransitionSystem.replay, Option.some.injEq] at replayed
    exact replayed ▸ reachable
  | cons label rest ih =>
    simp only [TransitionSystem.replay] at replayed
    split at replayed
    next permitted =>
      split at replayed
      next middle moved => exact ih (.step reachable permitted moved) replayed
      next => cases replayed
    next => cases replayed

variable (system)

/-- A run from an initial state shows that a state of some kind is reachable. -/
theorem exists_reachable [∀ state label, Decidable (system.allowed state label)]
    {motive : State → Prop} [DecidablePred motive] {state : State} (start : system.initial state)
    (labels : List Label) (ends : (system.replay state labels).any (motive ·) = true) :
    ∃ state', system.Reachable state' ∧ motive state' := by
  obtain ⟨state', replayed, holds⟩ := (Option.any_eq_true ..).mp ends
  exact ⟨state', .replay (.initial start) replayed, of_decide_eq_true holds⟩

/-- Take the given steps, as long as the states satisfy `during`. -/
def replayWhile [∀ state label, Decidable (system.allowed state label)] (during : State → Prop)
    [DecidablePred during] : State → List Label → Option State
  | state, [] => if during state then some state else none
  | state, label :: rest =>
    if during state ∧ system.allowed state label then
      match system.step state label with
      | .next state' => replayWhile during state' rest
      | _ => none
    else
      none

variable {system}

theorem RunWhile.trans {start middle state : State}
    (first : system.RunWhile during start middle) (second : system.RunWhile during middle state) :
    system.RunWhile during start state := by
  induction second with
  | refl => exact first
  | step _ permitted moved holds ih => exact .step ih permitted moved holds

theorem RunWhile.replay [∀ state label, Decidable (system.allowed state label)]
    [DecidablePred during] {state state' : State} {labels : List Label}
    (replayed : system.replayWhile during state labels = some state') :
    system.RunWhile during state state' := by
  induction labels generalizing state with
  | nil =>
    simp only [replayWhile] at replayed
    split at replayed
    next holds => exact Option.some.inj replayed ▸ .refl holds
    next => cases replayed
  | cons label rest ih =>
    simp only [replayWhile] at replayed
    split at replayed
    next permitted =>
      split at replayed
      next middle moved =>
        have later := ih replayed
        exact .trans (.step (.refl permitted.1) permitted.2 moved later.first) later
      next => cases replayed
    next => cases replayed

end TransitionSystem
