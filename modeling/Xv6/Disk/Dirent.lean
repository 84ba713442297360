import Xv6.Disk.Inode

/-!
# Names

An entry of a directory has the name of a file, filled up with zeros. `namecmp`
tells two names apart if neither has a zero in it.
-/

namespace Xv6.Disk

/-- What is left of a string at the first zero or after `dirsiz` bytes. -/
def padded (name : List UInt8) : List UInt8 := (List.range dirsiz).map fun i => name.getD i 0

def IsName (name : List UInt8) : Prop := 0 ∉ name ∧ name.length ≤ dirsiz
  deriving Decidable

theorem strncmp_iff {n : Nat} {s t : List UInt8} :
    strncmp n s t = true ↔ ∀ i < n, (∀ j < i, s.getD j 0 ≠ 0) → s.getD i 0 = t.getD i 0 := by
  induction n generalizing s t with
  | zero => simp [strncmp]
  | succ n ih =>
    have head : ∀ l : List UInt8, l.headD 0 = l.getD 0 0 := by
      intro l
      cases l <;> rfl
    have tail : ∀ (l : List UInt8) i, l.tail.getD i 0 = l.getD (i + 1) 0 := by
      intro l i
      cases l <;> simp
    unfold strncmp
    rw [head, head]
    by_cases differ : s.getD 0 0 = t.getD 0 0
    · rw [if_neg (not_not_intro differ)]
      by_cases ended : s.getD 0 0 = 0
      · rw [if_pos ended]
        refine iff_of_true rfl fun i inside before => ?_
        cases i with
        | zero => exact differ
        | succ i => exact absurd ended (before 0 (by omega))
      · rw [if_neg ended, ih]
        constructor
        · intro rest i inside before
          cases i with
          | zero => exact differ
          | succ i =>
            rw [← tail, ← tail]
            refine rest i (by omega) fun j earlier => ?_
            rw [tail]
            exact before (j + 1) (by omega)
        · intro all i inside before
          rw [tail, tail]
          refine all (i + 1) (by omega) fun j earlier => ?_
          cases j with
          | zero => exact ended
          | succ j =>
            rw [← tail]
            exact before j (by omega)
    · rw [if_pos differ]
      refine iff_of_false (by decide) fun all => differ (all 0 (by omega) fun j earlier => by omega)

theorem getD_padded {name : List UInt8} {i : Nat} (inside : i < dirsiz) :
    (padded name).getD i 0 = name.getD i 0 := by
  simp [padded, inside]

theorem getD_ne_zero {name : List UInt8} (isName : IsName name) {i : Nat} :
    name.getD i 0 ≠ 0 ↔ i < name.length := by
  constructor
  · intro char
    by_contra beyond
    exact char (by simp [beyond])
  · intro inside char
    rw [List.getD_eq_getElem name 0 inside] at char
    exact isName.1 (char ▸ List.getElem_mem inside)

theorem namecmp_padded {name other : List UInt8} (isName : IsName name) (isName' : IsName other) :
    namecmp name (padded other) = true ↔ name = other := by
  unfold namecmp
  rw [strncmp_iff]
  constructor
  · intro agree
    have short := isName.2
    have short' := isName'.2
    -- before the end of the name the bytes are the same
    have chars : ∀ i < dirsiz, i ≤ name.length → name.getD i 0 = other.getD i 0 := by
      intro i inside before
      rw [agree i inside fun j earlier => (getD_ne_zero isName).mpr (by omega), getD_padded inside]
    have lengths : name.length = other.length := by
      apply Nat.le_antisymm
      · by_contra longer
        have := chars other.length (by omega) (by omega)
        have ended : ¬ other.getD other.length 0 ≠ 0 := fun more =>
          lt_irrefl _ ((getD_ne_zero isName').mp more)
        rw [← this] at ended
        exact ended ((getD_ne_zero isName).mpr (by omega))
      · by_contra longer
        have := chars name.length (by omega) le_rfl
        have ended : ¬ name.getD name.length 0 ≠ 0 := fun more =>
          lt_irrefl _ ((getD_ne_zero isName).mp more)
        rw [this] at ended
        exact ended ((getD_ne_zero isName').mpr (by omega))
    apply List.ext_getElem lengths
    intro i inside inside'
    have := chars i (by omega) (by omega)
    rwa [List.getD_eq_getElem name 0 inside, List.getD_eq_getElem other 0 inside'] at this
  · rintro rfl i inside -
    rw [getD_padded inside]

theorem Dirent.load_bytes (de : Dirent) :
    Dirent.load ((List.range direntSize).map de.bytes) = ⟨de.inum % 2 ^ 16, padded de.name⟩ := by
  unfold Dirent.load
  rw [Dirent.mk.injEq]
  constructor
  · have same : ByteSpace.load (fun i => ((List.range direntSize).map de.bytes).getD i 0) 0 2 =
        (zeroes.store 0 2 de.inum).load 0 2 := by
      apply ByteSpace.load_congr
      intro i low high
      have small : i < direntSize := by
        change _ < 16
        omega
      have inumByte : i < 2 := by omega
      simp [small, Dirent.bytes, inumByte]
    rw [same, ByteSpace.load_store_same]
    rfl
  · rfl

end Xv6.Disk
