import Xv6.Library.Hoare

/-!
# Programs that shift a quantity

A quantity of the state lives in a commutative group. `Shifts measure prog shift`
says by how much the program changes it, as a function of what the program
returns and from every state: the shifts of statements add up.
-/

universe u v w

namespace Prog

variable {State : Type u} {Fault : Type v} {α β : Type u} {G : Type w} [AddCommGroup G]
  {allowed : Fault → Prop} {measure : State → G} {prog : Prog State Fault α} {shift : α → G}

def Shifts (allowed : Fault → Prop) (measure : State → G) (prog : Prog State Fault α)
    (shift : α → G) : Prop :=
  ∀ s, Ensures allowed prog s fun a s' => measure s' = measure s + shift a

namespace Shifts

theorem pure {a : α} (zero : shift a = 0) :
    Shifts allowed measure (Pure.pure a : Prog State Fault α) shift := fun s =>
  .pure (by rw [zero, add_zero])

theorem throw {fault : Fault} (permitted : allowed fault) :
    Shifts allowed measure (MonadExcept.throw fault : Prog State Fault α) shift := fun _ =>
  .throw permitted

theorem of_modify {f : State → State} {shift : PUnit → G}
    (moves : ∀ s, measure (f s) = measure s + shift ⟨⟩) :
    Shifts allowed measure (modify f : Prog State Fault PUnit) shift := fun s =>
  .of_modify (moves s)

theorem congr {shift' : α → G} (shifts : Shifts allowed measure prog shift)
    (same : ∀ a, shift a = shift' a) : Shifts allowed measure prog shift' := by
  rwa [← funext same]

/-- The second statement is left with what the first one did not do. -/
theorem bind {f : α → Prog State Fault β} {total : β → G}
    (first : Shifts allowed measure prog shift)
    (second : ∀ a, Shifts allowed measure (f a) fun b => total b - shift a) :
    Shifts allowed measure (prog >>= f) total := fun s =>
  .seq (first s) fun a s' moved => (second a s').mono fun b s'' moved' => by
    rw [moved', moved, add_assoc, add_sub_cancel]

theorem after {f : α → Prog State Fault β} {total : β → G}
    (keeps : Shifts allowed measure prog fun _ => 0)
    (rest : ∀ a, Shifts allowed measure (f a) total) : Shifts allowed measure (prog >>= f) total :=
  bind keeps fun a => (rest a).congr fun _ => (sub_zero _).symm

theorem get {f : State → Prog State Fault β} {total : β → G}
    (rest : ∀ s, Shifts allowed measure (f s) total) :
    Shifts allowed measure (MonadState.get >>= f) total := fun s =>
  .bind (.get (rest s s))

theorem ite {condition : Prop} [Decidable condition] {no : Prog State Fault α}
    (onTrue : condition → Shifts allowed measure prog shift)
    (onFalse : ¬ condition → Shifts allowed measure no shift) :
    Shifts allowed measure (if condition then prog else no) shift := by
  split
  next holds => exact onTrue holds
  next fails => exact onFalse fails

end Shifts

end Prog
