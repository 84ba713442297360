import Xv6.Vm.Copy

/-!
# User memory

What a process sees of its memory: a byte at every address, some of which it may
write. For the functions that copy to it byte by byte the page table does not
matter otherwise.
-/

namespace Xv6.Vm

open Function

@[ext]
structure UserSpace where
  bytes : Nat → UInt8
  writable : Nat → Bool

/-- `copyout` of one byte; `none` if it returns -1. -/
def UserSpace.copyByte (user : UserSpace) (va : Nat) (ch : UInt8) : Option UserSpace :=
  if user.writable va then some { user with bytes := update user.bytes va ch } else none

/-- Bytes that were copied are in memory. -/
def deliver (user : UserSpace) (addr : Nat) : List UInt8 → UserSpace
  | [] => user
  | ch :: rest =>
    let user := deliver user (addr + 1) rest
    { user with bytes := update user.bytes (u64 addr) ch }

theorem deliver_outside (user : UserSpace) (addr : Nat) (copied : List UInt8) {a : Nat}
    (apart : ∀ i < copied.length, a ≠ u64 (addr + i)) :
    (deliver user addr copied).bytes a = user.bytes a := by
  induction copied generalizing addr with
  | nil => rfl
  | cons ch rest ih =>
    refine (update_of_ne (apart 0 (Nat.succ_pos _)) ..).trans (ih (addr + 1) fun i below => ?_)
    rw [Nat.add_assoc, Nat.add_comm 1]
    exact apart (i + 1) (Nat.succ_lt_succ below)

theorem deliver_inside (user : UserSpace) (addr : Nat) {copied : List UInt8} {i : Nat}
    (below : i < copied.length) (short : copied.length < 2 ^ 64) :
    (deliver user addr copied).bytes (u64 (addr + i)) = copied.getD i 0 := by
  induction copied generalizing addr i with
  | nil => cases below
  | cons ch rest ih =>
    simp only [List.length_cons] at below short
    cases i with
    | zero => exact update_self ..
    | succ i =>
      have later : u64 (addr + (i + 1)) ≠ u64 addr := by
        unfold u64
        omega
      refine (update_of_ne later ..).trans ?_
      rw [Nat.add_comm i, ← Nat.add_assoc, ih (addr + 1) (by omega) (by omega), Nat.add_comm 1]
      rfl

theorem deliver_writable (user : UserSpace) (addr : Nat) (copied : List UInt8) :
    (deliver user addr copied).writable = user.writable := by
  induction copied generalizing addr with
  | nil => rfl
  | cons ch rest ih => exact ih (addr + 1)

def spaceOf (m : Memory) (root : Nat) : UserSpace where
  bytes := userByte m root
  writable va :=
    (pageMap m root (va / pgSize)).any fun (_, flags) => toWrite.all fun flag => flags &&& flag ≠ 0

variable {m : Memory} {root : Nat}

theorem spaceOf_writable (va : Nat) :
    (spaceOf m root).writable va = true ↔ Permits toWrite m root (va / pgSize) := by
  simp [spaceOf, Permits, Option.any_eq_true]

/-- What `copyout` copies is delivered, up to the first address that cannot be written. -/
theorem copyout_deliver {src : List UInt8} {va : Nat} (table : UserTable m root)
    (isAddr : va < 2 ^ 64) (short : src.length < 2 ^ 64) :
    Prog.Returns (copyout root va src) m fun r m' => UserTable m' root ∧ ∃ k ≤ src.length,
      (∀ i < k, (spaceOf m root).writable (u64 (va + i)) = true) ∧
      spaceOf m' root = deliver (spaceOf m root) va (src.take k) ∧
      (r = 0 ∧ k = src.length ∨
        r = -1 ∧ k < src.length ∧ (spaceOf m root).writable (u64 (va + k)) ≠ true) := by
  refine (copyout_spec table va short).mono ?_
  rintro r m' ⟨k, bound, stored, permitted, result⟩
  have inside : ∀ i < k, va + i < maxVa := fun i below => by
    by_contra above
    obtain ⟨pa, flags, mapped, -⟩ := permitted i below
    cases mapped.symm.trans (pageMap_above table.toSv39 (Nat.not_lt.mp above))
  have same : ∀ i ≤ k, u64 (va + i) = va + i := fun i atMost => by
    have := inside (i - 1)
    unfold maxVa at this
    exact Nat.mod_eq_of_lt (by omega)
  have length : (src.take k).length = k := by rw [List.length_take, min_eq_left bound]
  refine ⟨table.frame (stored.unchanged table) fun _ member outside => outside member, k, bound,
    fun i below => ?_, ?_, result.imp id fun failed => ⟨failed.1, failed.2.1, ?_⟩⟩
  · rw [same i below.le, spaceOf_writable]
    exact permitted i below
  · have writable : (spaceOf m' root).writable = (spaceOf m root).writable := by
      simp only [spaceOf, stored.pageMap table]
    refine UserSpace.ext (funext fun a => ?_) (writable.trans (deliver_writable ..).symm)
    by_cases here : ∃ i < k, a = va + i
    · obtain ⟨i, below, rfl⟩ := here
      refine (stored.userByte table permitted below).trans ?_
      rw [← same i below.le, deliver_inside _ _ (by omega) (by omega)]
      simp [List.getD_eq_getElem?_getD, below]
    · push Not at here
      rw [deliver_outside _ _ _ fun i below => by rw [same i (by omega)]; exact here i (by omega)]
      exact stored.userByte_outside table fun i below is => here i below is.symm
  · rw [same k le_rfl, Ne, spaceOf_writable]
    exact failed.2.2

theorem copyout_byte {va : Nat} (table : UserTable m root) (isAddr : va < 2 ^ 64) (ch : UInt8) :
    Prog.Returns (copyout root va [ch]) m fun r m' => UserTable m' root ∧
      match (spaceOf m root).copyByte va ch with
      | some user => r = 0 ∧ spaceOf m' root = user
      | none => r = -1 ∧ spaceOf m' root = spaceOf m root := by
  have address : u64 va = va := Nat.mod_eq_of_lt isAddr
  refine (copyout_deliver table isAddr (by simp)).mono ?_
  rintro r m' ⟨table', k, -, permitted, space, ⟨rfl, rfl⟩ | ⟨rfl, short, denied⟩⟩
  · have here := permitted 0 Nat.one_pos
    rw [Nat.add_zero, address] at here
    rw [UserSpace.copyByte, if_pos here, space]
    exact ⟨table', rfl, by simp [deliver, address]⟩
  · obtain rfl : k = 0 := Nat.lt_one_iff.mp short
    rw [Nat.add_zero, address] at denied
    rw [UserSpace.copyByte, if_neg denied]
    exact ⟨table', rfl, space⟩

end Xv6.Vm
