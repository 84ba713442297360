import Xv6.Vm.Memory

/-!
# Page-table entries

The macros of `kernel/riscv.h` that pack a physical page and its flags into an
entry and split a virtual address into the three indices of Sv39.
-/

namespace Xv6.Vm

def pteV : Nat := 1 <<< 0
def pteR : Nat := 1 <<< 1
def pteW : Nat := 1 <<< 2
def pteX : Nat := 1 <<< 3
def pteU : Nat := 1 <<< 4

def pa2pte (pa : Nat) : Nat := u64 ((pa >>> 12) <<< 10)

def pte2pa (pte : Nat) : Nat := u64 ((pte >>> 10) <<< 12)

def pteFlags (pte : Nat) : Nat := pte &&& 0x3FF

/-- `PX`, the index of a virtual address at a level. -/
def px (level va : Nat) : Nat := (va >>> (12 + 9 * level)) &&& 0x1FF

def maxVa : Nat := 1 <<< (9 + 9 + 9 + 12 - 1)

theorem px_eq (level va : Nat) : px level va = va / 2 ^ (12 + 9 * level) % 512 := by
  rw [px, Nat.shiftRight_eq_div_pow]
  exact Nat.and_two_pow_sub_one_eq_mod _ 9

theorem px_lt (level va : Nat) : px level va < 512 := by
  rw [px_eq]
  exact Nat.mod_lt _ (by decide)

theorem px_page {va va' : Nat} (same : va' / pgSize = va / pgSize) (level : Nat) :
    px level va' = px level va := by
  have split : ∀ a, a / 2 ^ (12 + 9 * level) = a / pgSize / 2 ^ (9 * level) := fun a => by
    rw [Nat.div_div_eq_div_mul, pow_add]
    rfl
  rw [px_eq, px_eq, split, split, same]

/-- Two addresses with the same indices are in the same page. `MAXVA` is one
bit less than the indices can tell apart. -/
theorem px_inj {va va' : Nat} (below : va < 2 * maxVa) (below' : va' < 2 * maxVa)
    (same : ∀ level, level ≤ 2 → px level va = px level va') : va / pgSize = va' / pgSize := by
  have low := same 0 (by omega)
  have middle := same 1 (by omega)
  have high := same 2 (by omega)
  simp only [px_eq] at low middle high
  simp only [maxVa, pgSize] at *
  omega

theorem pteFlags_eq (pte : Nat) : pteFlags pte = pte % 1024 :=
  Nat.and_two_pow_sub_one_eq_mod pte 10

theorem flags_and (pte : Nat) {flag : Nat} (low : 0x3FF &&& flag = flag) :
    pteFlags pte &&& flag = pte &&& flag := by
  rw [pteFlags, Nat.and_assoc, low]

theorem valid_iff (pte : Nat) : pte &&& pteV ≠ 0 ↔ pte % 2 = 1 := by
  rw [show pteV = 1 from rfl, Nat.and_one_is_mod]
  omega

theorem pte2pa_eq (pte : Nat) : pte2pa pte = pte / 1024 * 4096 % 2 ^ 64 := by
  simp only [pte2pa, u64, Nat.shiftRight_eq_div_pow, Nat.shiftLeft_eq]

theorem pte2pa_aligned (pte : Nat) : pte2pa pte % pgSize = 0 := by
  rw [pte2pa_eq]
  unfold pgSize
  omega

theorem pa2pte_or {pa flags : Nat} (aligned : pa % pgSize = 0) (fits : pa < 2 ^ 56)
    (small : flags < 1024) : pa2pte pa ||| flags = pa / 4096 * 1024 + flags := by
  have packed : pa2pte pa = (pa / 4096) <<< 10 := by
    simp only [pa2pte, u64, Nat.shiftRight_eq_div_pow, Nat.shiftLeft_eq]
    unfold pgSize at aligned
    omega
  rw [packed, ← Nat.shiftLeft_add_eq_or_of_lt (by simpa using small), Nat.shiftLeft_eq]

theorem pte_roundTrip {pa flags : Nat} (aligned : pa % pgSize = 0) (fits : pa < 2 ^ 56)
    (small : flags < 1024) : pte2pa (pa2pte pa ||| flags) = pa ∧
      pteFlags (pa2pte pa ||| flags) = flags ∧ pa2pte pa ||| flags < 2 ^ 64 := by
  rw [pa2pte_or aligned fits small, pte2pa_eq, pteFlags_eq]
  unfold pgSize at aligned
  omega

end Xv6.Vm
