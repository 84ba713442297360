import Mathlib.Data.List.Basic

/-!
# Runs of calls that can fail

What every call keeps is kept by any number of them, and if no call fails none of them does.
-/

universe u v w

theorem Except.foldlM_keeps {Fault : Type u} {State : Type v} {Call : Type w}
    {call : State → Call → Except Fault State} {inv : State → Prop} {calls : List Call}
    (keeps : ∀ state, inv state → ∀ c ∈ calls, ∃ next, call state c = .ok next ∧ inv next)
    {state : State} (start : inv state) :
    ∃ final, calls.foldlM call state = .ok final ∧ inv final := by
  induction calls generalizing state with
  | nil => exact ⟨state, rfl, start⟩
  | cons c calls ih =>
    obtain ⟨next, run, holds⟩ := keeps state start c List.mem_cons_self
    obtain ⟨final, runs, holds'⟩ :=
      ih (fun state inv c later => keeps state inv c (List.mem_cons_of_mem _ later)) holds
    exact ⟨final, by rw [List.foldlM_cons, run]; exact runs, holds'⟩
