import Mathlib

/-!
# Little-endian fields in a byte space

A byte space assigns a byte to every address. Records of fixed-width fields
are read with `load` and written with `store`; two accesses interact only when
their address ranges meet.
-/

abbrev ByteSpace := Nat → UInt8

namespace ByteSpace

/-- The little-endian number held by `width` bytes from `addr` on. -/
def load (space : ByteSpace) (addr : Nat) : Nat → Nat
  | 0 => 0
  | width + 1 => (space addr).toNat + 256 * load space (addr + 1) width

/-- Write the low `width` bytes of `value` at `addr`, least significant first. -/
def store (space : ByteSpace) (addr width value : Nat) : ByteSpace := fun a =>
  if addr ≤ a ∧ a < addr + width then UInt8.ofNat (value / 256 ^ (a - addr)) else space a

theorem load_lt (space : ByteSpace) (addr width : Nat) :
    space.load addr width < 256 ^ width := by
  induction width generalizing addr with
  | zero => simp [load]
  | succ width ih =>
    have byte := (space addr).toNat_lt
    have rest := ih (addr + 1)
    simp only [load, pow_succ]
    omega

theorem load_congr {space other : ByteSpace} {addr width : Nat}
    (agree : ∀ a, addr ≤ a → a < addr + width → space a = other a) :
    space.load addr width = other.load addr width := by
  induction width generalizing addr with
  | zero => rfl
  | succ width ih =>
    have first := agree addr le_rfl (by omega)
    have rest : space.load (addr + 1) width = other.load (addr + 1) width :=
      ih fun a low high => agree a (by omega) (by omega)
    simp only [load, first, rest]

theorem store_of_outside (space : ByteSpace) {addr width a : Nat} (value : Nat)
    (outside : a < addr ∨ addr + width ≤ a) : space.store addr width value a = space a := by
  simp only [store]
  rw [if_neg (by omega)]

@[simp]
theorem load_store_same (space : ByteSpace) (addr width value : Nat) :
    (space.store addr width value).load addr width = value % 256 ^ width := by
  suffices digits : ∀ count skip, skip + count = width →
      (space.store addr width value).load (addr + skip) count =
        value / 256 ^ skip % 256 ^ count by
    simpa using digits width 0 (by omega)
  intro count
  induction count with
  | zero => intro skip _; simp [load, Nat.mod_one]
  | succ count ih =>
    intro skip length
    have byte : (space.store addr width value (addr + skip)).toNat =
        value / 256 ^ skip % 256 := by
      simp only [store]
      rw [if_pos ⟨by omega, by omega⟩]
      simp
    have rest := ih (skip + 1) (by omega)
    simp only [load, byte]
    rw [Nat.add_assoc addr skip 1, rest, pow_succ 256 skip, ← Nat.div_div_eq_div_mul,
      pow_succ' 256 count, Nat.mod_mul]

variable {addr width other length : Nat}

theorem load_store_disjoint (space : ByteSpace) (value : Nat)
    (disjoint : other + length ≤ addr ∨ addr + width ≤ other) :
    (space.store addr width value).load other length = space.load other length :=
  load_congr fun a low high => store_of_outside space value (by omega)

/-- Copy `width` bytes over those at `addr`. -/
def blit (space : ByteSpace) (addr width : Nat) (bytes : ByteSpace) : ByteSpace := fun a =>
  if addr ≤ a ∧ a < addr + width then bytes (a - addr) else space a

theorem blit_of_outside (space bytes : ByteSpace) {addr width a : Nat}
    (outside : a < addr ∨ addr + width ≤ a) : space.blit addr width bytes a = space a := by
  simp only [blit]
  rw [if_neg (by omega)]

theorem blit_of_inside (space bytes : ByteSpace) {addr width a : Nat} (inside : a < width) :
    space.blit addr width bytes (addr + a) = bytes a := by
  simp only [blit]
  rw [if_pos (by omega), Nat.add_sub_cancel_left]

theorem blit_congr (space : ByteSpace) {bytes other : ByteSpace} {addr width : Nat}
    (agree : ∀ a < width, bytes a = other a) :
    space.blit addr width bytes = space.blit addr width other := by
  funext a
  simp only [blit]
  split
  next inside => exact agree _ (by omega)
  next => rfl

theorem load_shift (space : ByteSpace) (shift addr width : Nat) :
    load (fun a => space (shift + a)) addr width = space.load (shift + addr) width := by
  induction width generalizing addr with
  | zero => rfl
  | succ width ih =>
    simp only [load]
    rw [ih, Nat.add_assoc]

theorem load_blit_inside (space bytes : ByteSpace) (inside : other + length ≤ width) :
    (space.blit addr width bytes).load (addr + other) length = bytes.load other length := by
  rw [← load_shift]
  exact load_congr fun a low high => blit_of_inside space bytes (by omega)

theorem load_blit_disjoint (space bytes : ByteSpace)
    (disjoint : other + length ≤ addr ∨ addr + width ≤ other) :
    (space.blit addr width bytes).load other length = space.load other length :=
  load_congr fun a low high => blit_of_outside space bytes (by omega)

def words (value : Nat → Nat) : ByteSpace := fun a => UInt8.ofNat (value (a / 4) / 256 ^ (a % 4))

theorem load_words (value : Nat → Nat) (k : Nat) :
    (words value).load (4 * k) 4 = value k % 256 ^ 4 := by
  rw [← load_store_same (fun _ => 0) (4 * k) 4 (value k)]
  refine load_congr fun a low high => ?_
  have word : a / 4 = k := by omega
  have byte : a % 4 = a - 4 * k := by omega
  simp only [words, store]
  rw [if_pos ⟨low, high⟩, word, byte]

@[simp]
theorem load_zero (addr width : Nat) : load (fun _ => 0) addr width = 0 := by
  induction width generalizing addr with
  | zero => rfl
  | succ width ih => simp [load, ih]

end ByteSpace
