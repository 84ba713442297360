import Mathlib

/-!
# Rings with free-running counters

A producer writes at `hi` and a consumer reads at `lo`. Both counters run
freely, modulo a power of two, and are reduced modulo the size of the ring only
to find a slot. The entries between them form a queue as long as there are no
more of them than slots.
-/

universe u

variable {α : Type u} {width size : Nat} {lo hi : BitVec width}

/-- The entries from `lo` to `hi`, the oldest first. -/
def window (ring : Nat → α) (size : Nat) (lo hi : BitVec width) : List α :=
  (List.range (hi - lo).toNat).map fun k => ring ((lo + BitVec.ofNat width k).toNat % size)

namespace Window

open List

variable {ring ring' : Nat → α}

theorem length_window : (window ring size lo hi).length = (hi - lo).toNat := by
  simp [window]

theorem window_eq_map : window ring size lo hi = (window id size lo hi).map ring := by
  simp [window]

theorem window_eq_nil : window ring size lo hi = [] ↔ lo = hi := by
  rw [← length_eq_zero_iff, length_window]
  constructor
  · intro none
    have same : hi - lo = BitVec.zero width := BitVec.eq_of_toNat_eq (by simpa using none)
    exact (BitVec.sub_eq_iff_eq_add.mp same).trans (BitVec.zero_add lo) |>.symm
  · rintro rfl
    simp

theorem mem_slots {slot : Nat} : slot ∈ window id size lo hi ↔
    ∃ k, k < (hi - lo).toNat ∧ (lo + BitVec.ofNat width k).toNat % size = slot := by
  simp [window]

theorem window_congr (agree : ∀ slot ∈ window id size lo hi, ring' slot = ring slot) :
    window ring' size lo hi = window ring size lo hi := by
  calc window ring' size lo hi = (window id size lo hi).map ring' := window_eq_map
    _ = (window id size lo hi).map ring := map_congr_left agree
    _ = window ring size lo hi := window_eq_map.symm

theorem toNat_succ {x : BitVec width} : (x + 1).toNat = (x.toNat + 1) % 2 ^ width := by
  simp [BitVec.toNat_add]

theorem toNat_succ_of_ne {x : BitVec width} (moved : x + 1 ≠ 0) : (x + 1).toNat = x.toNat + 1 := by
  have bound := x.isLt
  by_cases last : x.toNat + 1 = 2 ^ width
  · exact absurd (BitVec.eq_of_toNat_eq (by rw [toNat_succ, last]; simp)) moved
  · rw [toNat_succ, Nat.mod_eq_of_lt (by omega)]

theorem window_cons (other : lo ≠ hi) :
    window ring size lo hi = ring (lo.toNat % size) :: window ring size (lo + 1) hi := by
  have next : hi - lo = hi - (lo + 1) + 1 := by ring
  have more : (hi - lo).toNat = (hi - (lo + 1)).toNat + 1 := by
    rw [next]
    refine toNat_succ_of_ne fun none => other ?_
    rw [← next] at none
    exact (sub_eq_zero.mp none).symm
  have step : ∀ k, lo + 1 + BitVec.ofNat width k = lo + BitVec.ofNat width (k + 1) := fun k => by
    rw [BitVec.ofNat_add]
    change _ = lo + (_ + 1)
    ring
  have first : lo + BitVec.ofNat width 0 = lo := add_zero lo
  simp only [window, more, range_succ_eq_map, map_cons, map_map, first]
  congr 1
  exact List.map_congr_left fun k _ => by rw [step]; rfl

theorem window_snoc (room : (window ring size lo hi).length + 1 < 2 ^ width) :
    window ring size lo (hi + 1) = window ring size lo hi ++ [ring (hi.toNat % size)] := by
  rw [length_window] at room
  have next : hi + 1 - lo = hi - lo + 1 := by ring
  have more : (hi + 1 - lo).toNat = (hi - lo).toNat + 1 := by
    rw [next, toNat_succ, Nat.mod_eq_of_lt room]
  have last : lo + BitVec.ofNat width (hi - lo).toNat = hi := by
    rw [BitVec.ofNat_toNat, BitVec.setWidth_eq]
    ring
  simp only [window, more, List.range_succ, List.map_append, List.map_cons, List.map_nil, last]

/-- A slot is found by its distance from the oldest entry. -/
theorem slot_eq (divides : size ∣ 2 ^ width) (k : Nat) :
    (lo + BitVec.ofNat width k).toNat % size = (lo.toNat + k) % size := by
  rw [BitVec.toNat_add, BitVec.toNat_ofNat, Nat.add_mod_mod, Nat.mod_mod_of_dvd _ divides]

theorem slot_free (divides : size ∣ 2 ^ width) (room : (window ring size lo hi).length < size) :
    hi.toNat % size ∉ window id size lo hi := by
  rw [length_window] at room
  rintro taken
  obtain ⟨k, inside, same⟩ := mem_slots.mp taken
  have last : hi = lo + BitVec.ofNat width (hi - lo).toNat := by
    rw [BitVec.ofNat_toNat, BitVec.setWidth_eq]
    ring
  rw [last, slot_eq divides, slot_eq divides] at same
  have close := (Nat.ModEq.add_left_cancel' lo.toNat same).eq_of_lt_of_lt (inside.trans room) room
  exact absurd close inside.ne

theorem window_write (divides : size ∣ 2 ^ width) (room : (window ring size lo hi).length < size)
    (x : α) :
    window (Function.update ring (hi.toNat % size) x) size lo hi = window ring size lo hi := by
  refine window_congr fun slot taken => Function.update_of_ne ?_ _ _
  rintro rfl
  exact slot_free divides room taken

variable {mid : BitVec width}

theorem toNat_between
    (fits : (window ring size lo mid).length + (window ring size mid hi).length < 2 ^ width) :
    (hi - lo).toNat = (mid - lo).toNat + (hi - mid).toNat := by
  rw [length_window, length_window] at fits
  have sum : hi - lo = (mid - lo) + (hi - mid) := by ring
  rw [sum, BitVec.toNat_add, Nat.mod_eq_of_lt fits]

theorem window_append
    (fits : (window ring size lo mid).length + (window ring size mid hi).length < 2 ^ width) :
    window ring size lo mid ++ window ring size mid hi = window ring size lo hi := by
  have start : ∀ k, mid + BitVec.ofNat width k = lo + BitVec.ofNat width ((mid - lo).toNat + k) :=
    fun k => by
    rw [BitVec.ofNat_add, BitVec.ofNat_toNat, BitVec.setWidth_eq]
    ring
  simp only [window, toNat_between fits, range_add, map_append, map_map]
  refine congrArg _ (map_congr_left fun k _ => ?_)
  rw [start]
  rfl

theorem window_last (other : lo ≠ hi) :
    window ring size lo hi = window ring size lo (hi - 1) ++ [ring ((hi - 1).toNat % size)] := by
  have next : hi - lo = hi - 1 - lo + 1 := by ring
  have more : (hi - lo).toNat = (hi - 1 - lo).toNat + 1 := by
    rw [next]
    refine toNat_succ_of_ne fun none => other ?_
    rw [← next] at none
    exact (sub_eq_zero.mp none).symm
  have room : (window ring size lo (hi - 1)).length + 1 < 2 ^ width := by
    rw [length_window, ← more]
    exact (hi - lo).isLt
  have back : hi - 1 + 1 = hi := by ring
  have whole := window_snoc room
  rwa [back] at whole

theorem window_pred (other : lo ≠ hi) :
    window ring size lo (hi - 1) = (window ring size lo hi).dropLast := by
  rw [window_last other, dropLast_concat]

end Window
