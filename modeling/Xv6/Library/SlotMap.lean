import Mathlib

/-!
# Finite maps in a table of slots

A slot has a key and its value, or is free. If no key is in two slots, the table is a
map: a new binding goes into a free slot, and to free a slot removes its binding.
-/

universe u v

namespace SlotMap

open Function

variable {κ : Type u} {β : Type v} {t : Nat → Option (κ × β)} {k : κ} {b : β} {i : Nat}

/-- No key is in two slots. -/
def Distinct (t : Nat → Option (κ × β)) : Prop :=
  ∀ i j k b b', t i = some (k, b) → t j = some (k, b') → i = j

open Classical in
/-- The value of a key. -/
noncomputable def toMap (t : Nat → Option (κ × β)) (k : κ) : Option β :=
  if bound : ∃ b i, t i = some (k, b) then some bound.choose else none

theorem toMap_eq_some_iff (distinct : Distinct t) :
    toMap t k = some b ↔ ∃ i, t i = some (k, b) := by
  unfold toMap
  split_ifs with bound
  · obtain ⟨j, chosen⟩ := bound.choose_spec
    rw [Option.some_inj]
    constructor
    · rintro rfl
      exact ⟨j, chosen⟩
    · rintro ⟨i, here⟩
      obtain rfl := distinct i j k b _ here chosen
      exact (Prod.mk.inj (Option.some.inj (chosen.symm.trans here))).2
  · refine iff_of_false (by simp) fun ⟨i, here⟩ => bound ⟨b, i, here⟩

theorem toMap_eq_none_iff (distinct : Distinct t) :
    toMap t k = none ↔ ∀ i b, t i ≠ some (k, b) := by
  rw [Option.eq_none_iff_forall_ne_some]
  simp only [ne_eq, toMap_eq_some_iff distinct, not_exists]
  exact forall_comm

/-! ## A new binding -/

section Add

variable (distinct : Distinct t) (free : t i = none) (absent : toMap t k = none)

include distinct absent

theorem Distinct.add : Distinct (update t i (some (k, b))) := by
  rw [toMap_eq_none_iff distinct] at absent
  intro j j' k' b₁ b₂ first second
  rw [update_apply] at first second
  split_ifs at first second with here here' here'
  · exact here.trans here'.symm
  · obtain ⟨rfl, -⟩ := Prod.mk.inj (Option.some.inj first)
    exact absurd second (absent j' b₂)
  · obtain ⟨rfl, -⟩ := Prod.mk.inj (Option.some.inj second)
    exact absurd first (absent j b₁)
  · exact distinct j j' k' b₁ b₂ first second

include free

theorem toMap_add [DecidableEq κ] :
    toMap (update t i (some (k, b))) = update (toMap t) k (some b) := by
  have added : Distinct (update t i (some (k, b))) := distinct.add absent
  ext k' b'
  rw [toMap_eq_some_iff added, update_apply]
  split_ifs with same
  · subst same
    rw [Option.some_inj]
    constructor
    · rintro ⟨j, here⟩
      rw [update_apply] at here
      split_ifs at here
      · exact (Prod.mk.inj (Option.some.inj here)).2
      · exact absurd here ((toMap_eq_none_iff distinct).mp absent j b')
    · rintro rfl
      exact ⟨i, update_self ..⟩
  · rw [toMap_eq_some_iff distinct]
    refine exists_congr fun j => ?_
    rw [update_apply]
    split_ifs with here
    · subst here
      simp [free, Ne.symm same]
    · rfl

end Add

/-! ## A slot that gets free -/

section Remove

variable (distinct : Distinct t)

include distinct

end Remove

end SlotMap
