import Mathlib

/-!
# Programs with state and faults

A program reads and changes a state and returns a value or stops with a fault.
`Ensures allowed prog s post` says what holds after the program was run from
`s`: it returned and the result satisfies `post`, or it stopped with one of the
allowed faults. The rules below take a program apart statement by statement.
-/

universe u v w

/-- A program over `State` that may stop with a fault. -/
abbrev Prog (State : Type u) (Fault : Type v) (α : Type u) := StateT State (Except Fault) α

namespace Prog

variable {State : Type u} {Fault : Type v} {α β : Type u}

/-- What the program returns from `s`, and in which state. -/
@[irreducible] def Ensures (allowed : Fault → Prop) (prog : Prog State Fault α) (s : State)
    (post : α → State → Prop) : Prop :=
  match prog s with
  | .ok (a, s') => post a s'
  | .error fault => allowed fault

/-- The program returns: no fault is allowed. -/
abbrev Returns (prog : Prog State Fault α) (s : State) (post : α → State → Prop) : Prop :=
  Ensures (fun _ => False) prog s post

variable {allowed : Fault → Prop} {prog : Prog State Fault α} {s : State} {post : α → State → Prop}

variable {a : α} {s' : State}

theorem Ensures.of_eq (run : prog s = .ok (a, s')) (holds : post a s') :
    Ensures allowed prog s post := by
  unfold Ensures
  rwa [run]

theorem Returns.exists (returns : Returns prog s post) :
    ∃ a s', prog s = .ok (a, s') ∧ post a s' := by
  unfold Returns Ensures at returns
  split at returns
  next a s' run => exact ⟨a, s', run, returns⟩
  next => exact returns.elim

theorem Ensures.of_ok (ensures : Ensures allowed prog s post) (run : prog s = .ok (a, s')) :
    post a s' := by
  unfold Ensures at ensures
  rwa [run] at ensures

variable {fault : Fault}

theorem Ensures.of_error (ensures : Ensures allowed prog s post) (run : prog s = .error fault) :
    allowed fault := by
  unfold Ensures at ensures
  rwa [run] at ensures

theorem Ensures.mono {weaker : α → State → Prop} (ensures : Ensures allowed prog s post)
    (implies : ∀ a s', post a s' → weaker a s') : Ensures allowed prog s weaker := by
  unfold Ensures at ensures ⊢
  split at ensures
  next a s' run => exact implies a s' ensures
  next fault run => exact ensures

theorem Ensures.imp {more : Fault → Prop} (ensures : Ensures allowed prog s post)
    (implies : ∀ fault, allowed fault → more fault) : Ensures more prog s post := by
  unfold Ensures at ensures ⊢
  split at ensures
  next => exact ensures
  next fault run => exact implies fault ensures

theorem Ensures.and {also : Fault → Prop} {post' : α → State → Prop}
    (first : Ensures allowed prog s post) (second : Ensures also prog s post') :
    Ensures (fun fault => allowed fault ∧ also fault) prog s fun a s' => post a s' ∧
    post' a s' := by
  unfold Ensures at first second ⊢
  cases run : prog s with
  | ok result | error fault =>
    rw [run] at first second
    exact ⟨first, second⟩

theorem Ensures.of_returns (returns : Returns prog s post) : Ensures allowed prog s post := by
  obtain ⟨a, s', run, holds⟩ := returns.exists
  exact .of_eq run holds

theorem Ensures.run : Ensures (fun _ => True) prog s fun a s' => prog s = .ok (a, s') := by
  unfold Ensures
  split
  next run => exact run
  next => trivial

theorem Ensures.pure (holds : post a s) :
    Ensures allowed (Pure.pure a : Prog State Fault α) s post := .of_eq rfl holds

variable {f : α → Prog State Fault β}

theorem bind_ok (run : prog s = .ok (a, s')) :
    (prog >>= f) s = f a s' := by
  simp [Bind.bind, StateT.bind, Except.bind, run]

theorem bind_error (run : prog s = .error fault) :
    (prog >>= f) s = .error fault := by
  simp [Bind.bind, StateT.bind, Except.bind, run]

theorem bind_eq_ok {b : β} {s'' : State} (run : (prog >>= f) s = .ok (b, s'')) :
    ∃ a s', prog s = .ok (a, s') ∧ f a s' = .ok (b, s'') := by
  cases first : prog s with
  | error fault =>
    rw [bind_error first] at run
    cases run
  | ok result =>
    rw [bind_ok first] at run
    exact ⟨result.1, result.2, rfl, run⟩

theorem Ensures.bind {post : β → State → Prop}
    (ensures : Ensures allowed prog s fun a s' => Ensures allowed (f a) s' post) :
    Ensures allowed (prog >>= f) s post := by
  unfold Ensures at ensures ⊢
  cases run : prog s with
  | error fault =>
    rw [run] at ensures
    rwa [bind_error run]
  | ok result =>
    rw [run] at ensures
    rwa [bind_ok run]

theorem Ensures.seq {middle : α → State → Prop} {post : β → State → Prop}
    (first : Ensures allowed prog s middle)
    (rest : ∀ a s', middle a s' → Ensures allowed (f a) s' post) :
    Ensures allowed (prog >>= f) s post := .bind (first.mono rest)

theorem Ensures.throw (permitted : allowed fault) :
    Ensures allowed (MonadExcept.throw fault : Prog State Fault α) s post := by
  unfold Ensures
  exact permitted

theorem Ensures.get {post : State → State → Prop} (holds : post s s) :
    Ensures allowed (MonadState.get : Prog State Fault State) s post := .of_eq rfl holds

theorem Ensures.ite {condition : Prop} [Decidable condition] {no : Prog State Fault α}
    (onTrue : condition → Ensures allowed prog s post)
    (onFalse : ¬ condition → Ensures allowed no s post) :
    Ensures allowed (if condition then prog else no) s post := by
  split
  next holds => exact onTrue holds
  next fails => exact onFalse fails

theorem Ensures.of_modify {f : State → State} {post : PUnit → State → Prop}
    (holds : post ⟨⟩ (f s)) :
    Ensures allowed (modify f : Prog State Fault PUnit) s post := .of_eq rfl holds

/-- A program over a part of the state. -/
def onPart {Part : Type u} (part : State → Part) (replace : State → Part → State)
    (prog : Prog Part Fault α) : Prog State Fault α := fun s =>
  match prog (part s) with
  | .ok (a, new) => .ok (a, replace s new)
  | .error fault => .error fault

theorem Ensures.onPart {Part : Type u} {part : State → Part} {replace : State → Part → State}
    {prog : Prog Part Fault α}
    (ensures : Ensures allowed prog (part s) fun a new => post a (replace s new)) :
    Ensures allowed (Prog.onPart part replace prog) s post := by
  unfold Ensures at ensures ⊢
  unfold Prog.onPart
  split at ensures
  next a new run => rwa [run]
  next fault run => rwa [run]

/-- A loop over a list: what holds before an item of it, with the items still
to come, holds before the next. -/
theorem Ensures.forM {Item : Type w} {body : Item → Prog State Fault PUnit}
    (inv : List Item → State → Prop)
    (iteration : ∀ item items s, inv (item :: items) s → Ensures allowed (body item) s fun _ s' =>
      inv items s')
    {items : List Item} (holds : inv items s) :
    Ensures allowed (items.forM body) s fun _ s' => inv [] s' := by
  induction items generalizing s with
  | nil => exact .pure holds
  | cons item items ih => exact .seq (iteration item items s holds) fun _ s' next => ih next

/-- A loop whose body either goes on with new variables or leaves the loop
with a value. `fuel` bounds the number of iterations. -/
def loop {Vars : Type u} (diverged : Fault) (body : Vars → Prog State Fault (Vars ⊕ α)) :
    Nat → Vars → Prog State Fault α
  | 0, _ => MonadExcept.throw diverged
  | fuel + 1, vars => do
    match ← body vars with
    | .inl vars' => loop diverged body fuel vars'
    | .inr a => Pure.pure a

/-- The loop rule: an invariant that holds before every iteration, and a
measure that each iteration lowers. -/
theorem Ensures.loop {Vars : Type u} {diverged : Fault} {body : Vars → Prog State Fault (Vars ⊕ α)}
    (inv : Vars → State → Prop) (measure : Vars → Nat)
    (iteration : ∀ vars s, inv vars s → Ensures allowed (body vars) s fun next s' =>
      match next with
      | .inl vars' => inv vars' s' ∧ measure vars' < measure vars
      | .inr a => post a s')
    {fuel : Nat} {vars : Vars} (enough : measure vars < fuel) (holds : inv vars s) :
    Ensures allowed (Prog.loop diverged body fuel vars) s post := by
  induction fuel generalizing vars s with
  | zero => omega
  | succ fuel ih =>
    refine Ensures.seq (iteration vars s holds) ?_
    rintro (vars' | a) s' result
    · exact ih (by have := result.2; omega) result.1
    · exact .pure result

end Prog
