import Mathlib

/-!
# Counting

Sums of which one term changes, and how often things are referred to by the
entries of a table.
-/

variable {Index : Type*} [Fintype Index] [DecidableEq Index]

theorem sum_change {before after : Index → Nat} (i : Index)
    (same : ∀ j, j ≠ i → after j = before j) :
    ∑ j, after j + before i = ∑ j, before j + after i := by
  have others : ∑ j ∈ Finset.univ.erase i, after j = ∑ j ∈ Finset.univ.erase i, before j :=
    Finset.sum_congr rfl fun j member => same j (Finset.ne_of_mem_erase member)
  have whole := Finset.add_sum_erase Finset.univ after (Finset.mem_univ i)
  have wholeBefore := Finset.add_sum_erase Finset.univ before (Finset.mem_univ i)
  omega

variable {Value : Type*}

def occurrences [DecidableEq Value] (f : Index → Value) (value : Value) : Nat :=
  (Finset.univ.filter fun i => f i = value).card

theorem occurrences_update [DecidableEq Value] (f : Index → Value) (i : Index) (new value : Value) :
    (occurrences (Function.update f i new) value : Int) =
      occurrences f value - (if f i = value then 1 else 0) + (if new = value then 1 else 0) := by
  let before (j : Index) : Nat := if f j = value then 1 else 0
  let after (j : Index) : Nat := if Function.update f i new j = value then 1 else 0
  have same : ∀ j, j ≠ i → after j = before j := fun j other => by
    simp only [after, before, Function.update_of_ne other]
  have change := sum_change i same
  simp only [after, before, Function.update_self] at change
  rw [occurrences, occurrences, Finset.card_filter, Finset.card_filter]
  split_ifs at change ⊢ <;> omega

omit [DecidableEq Index] in
theorem occurrences_pos [DecidableEq Value] {f : Index → Value} {value : Value} :
    0 < occurrences f value ↔ ∃ i, f i = value := by
  simp [occurrences, Finset.card_pos, Finset.Nonempty]

/-! ## References from a table -/

namespace Count

variable {Item : Type*} [DecidableEq Item]

def one (item : Item) : Item → Int := Pi.single item 1

def perhaps : Option Item → Item → Int
  | none => 0
  | some item => one item

@[simp] theorem perhaps_none : perhaps (none : Option Item) = 0 := rfl

@[simp] theorem perhaps_some {item : Item} : perhaps (some item) = one item := rfl

theorem one_apply (item other : Item) : one item other = if other = item then 1 else 0 := by
  rw [one, Pi.single_apply]

theorem perhaps_apply (entry : Option Item) (item : Item) :
    perhaps entry item = if entry = some item then 1 else 0 := by
  cases entry with
  | none => rfl
  | some other => simp only [perhaps_some, one_apply, Option.some.injEq, eq_comm]

/-- How many entries refer to each item. -/
def tally (table : Index → Option Item) (item : Item) : Int := occurrences table (some item)

theorem tally_update (table : Index → Option Item) (i : Index) (new : Option Item) :
    tally (Function.update table i new) = tally table - perhaps (table i) + perhaps new := by
  funext item
  simp only [tally, Pi.add_apply, Pi.sub_apply, perhaps_apply, occurrences_update]

omit [DecidableEq Index] in
theorem tally_pos {table : Index → Option Item} {item : Item} :
    0 < tally table item ↔ ∃ i, table i = some item := by
  rw [tally, Int.natCast_pos, occurrences_pos]

omit [DecidableEq Index] in
@[simp] theorem tally_none : tally (fun _ : Index => (none : Option Item)) = 0 := by
  funext item
  simp [tally, occurrences]

end Count
