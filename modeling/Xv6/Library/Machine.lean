import Mathlib

/-!
# Machines that answer every event

A machine moves from state to state with the events that come from outside, and gives
an output for each of them. A simulation between two machines shows that no sequence of
events tells them apart.
-/

universe u v w

/-- A machine with one output for each event. -/
structure Machine (State : Type u) (Event : Type v) (Output : Type w) where
  start : State
  step : State → Event → State × Output

namespace Machine

variable {State State' : Type u} {Event : Type v} {Output : Type w}

def after (machine : Machine State Event Output) (s : State) : List Event → State
  | [] => s
  | event :: events => machine.after (machine.step s event).1 events

def outputs (machine : Machine State Event Output) (s : State) : List Event → List Output
  | [] => []
  | event :: events => (machine.step s event).2 :: machine.outputs (machine.step s event).1 events

/-- Related states give the same output and go to related states. -/
structure Simulates (machine : Machine State Event Output) (other : Machine State' Event Output)
    (related : State → State' → Prop) : Prop where
  start : related machine.start other.start
  step : ∀ {s t}, related s t → ∀ event, related (machine.step s event).1 (other.step t event).1
  output : ∀ {s t}, related s t → ∀ event, (machine.step s event).2 = (other.step t event).2

variable {machine : Machine State Event Output} {other : Machine State' Event Output}
  {related : State → State' → Prop}

theorem Simulates.after (simulates : machine.Simulates other related) {s : State} {t : State'}
    (here : related s t) (events : List Event) :
    related (machine.after s events) (other.after t events) := by
  induction events generalizing s t with
  | nil => exact here
  | cons event events ih => exact ih (simulates.step here event)

theorem Simulates.outputs (simulates : machine.Simulates other related) {s : State} {t : State'}
    (here : related s t) (events : List Event) :
    machine.outputs s events = other.outputs t events := by
  induction events generalizing s t with
  | nil => rfl
  | cons event events ih =>
    simp only [Machine.outputs]
    rw [simulates.output here, ih (simulates.step here event)]

end Machine
