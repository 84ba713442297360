import Mathlib

/-!
# Overwriting a part of a list

What a write to a sequential file does to its contents: the new data replace what is
there, and where they reach past the end the file gets longer.
-/

universe u

variable {α : Type u} {old a b data : List α} {off p : Nat}

/-- `old` with `data` in place of what is there from `off` on. -/
def overlay (old : List α) (off : Nat) (data : List α) : List α :=
  old.take off ++ data ++ old.drop (off + data.length)

namespace Overlay

open List

@[simp] theorem overlay_nil (old : List α) (off : Nat) : overlay old off [] = old := by
  simp [overlay]

theorem length_overlay (within : off ≤ old.length) :
    (overlay old off data).length = max old.length (off + data.length) := by
  simp only [overlay, length_append, length_take, length_drop]
  omega

theorem getElem?_overlay (within : off ≤ old.length) :
    (overlay old off data)[p]? =
      if off ≤ p ∧ p < off + data.length then data[p - off]? else old[p]? := by
  have front : (old.take off).length = off := length_take_of_le within
  rw [overlay, append_assoc]
  rcases Nat.lt_or_ge p off with before | after
  · rw [getElem?_append_left (by omega), getElem?_take_of_lt before, if_neg (by omega)]
  · rw [getElem?_append_right (by omega), front]
    rcases Nat.lt_or_ge p (off + data.length) with inside | beyond
    · rw [getElem?_append_left (by omega), if_pos ⟨after, inside⟩]
    · rw [getElem?_append_right (by omega), if_neg (by omega), getElem?_drop]
      congr 1
      omega

theorem overlay_overlay (within : off ≤ old.length) :
    overlay (overlay old off a) (off + a.length) b = overlay old off (a ++ b) := by
  have longer : off + a.length ≤ (overlay old off a).length := by
    rw [length_overlay within]
    exact le_max_right ..
  refine ext_getElem? fun p => ?_
  rw [getElem?_overlay longer, getElem?_overlay within, getElem?_overlay within, length_append]
  rcases Nat.lt_or_ge p (off + a.length) with early | late
  · rw [if_neg (by omega)]
    by_cases after : off ≤ p
    · rw [if_pos ⟨after, early⟩, if_pos ⟨after, by omega⟩, getElem?_append_left (by omega)]
    · rw [if_neg (by omega), if_neg (by omega)]
  · by_cases inside : p < off + a.length + b.length
    · rw [if_pos ⟨late, inside⟩, if_pos ⟨by omega, by omega⟩, getElem?_append_right (by omega)]
      congr 1
      omega
    · rw [if_neg (by omega), if_neg (by omega), if_neg (by omega)]

theorem take_drop_overlay (within : off ≤ old.length) :
    ((overlay old off data).drop off).take data.length = data := by
  have front : (old.take off).length = off := length_take_of_le within
  rw [overlay, append_assoc, drop_left' front, take_left]

end Overlay
