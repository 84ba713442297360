import Xv6.Library.Bytes

/-!
# Moving bytes in memory

`memmove` of `kernel/string.c` and of `user/ulib.c`. Both copy byte by byte, and a
byte of the source may be overwritten before it is read, unless the copy goes in the
right direction. Going up is right unless the destination begins inside the source,
and going down unless the source begins inside the destination; the two functions
choose by different tests.
-/

namespace Xv6.User

open Function

/-- A pointer moved by `n` bytes. -/
def offset (p : Nat) (n : Int) : Nat := ((p + n) % 2 ^ 64).toNat

/-- `while(n-- > 0) *dst++ = *src++;` -/
def copyUp : Nat → Nat → Nat → ByteSpace → ByteSpace
  | 0, _, _, mem => mem
  | n + 1, dst, src, mem =>
    copyUp n (offset dst 1) (offset src 1) (update mem dst (mem src))

/-- `while(n-- > 0) *--dst = *--src;` -/
def copyDown : Nat → Nat → Nat → ByteSpace → ByteSpace
  | 0, _, _, mem => mem
  | n + 1, dst, src, mem =>
    copyDown n (offset dst (-1)) (offset src (-1))
      (update mem (offset dst (-1)) (mem (offset src (-1))))

/-- `memmove` of the kernel, with an `uint`. -/
def kmemmove (dst src n : Nat) (mem : ByteSpace) : ByteSpace :=
  if n = 0 then
    mem
  else if src < dst ∧ offset src n > dst then
    copyDown n (offset dst n) (offset src n) mem
  else
    copyUp n dst src mem

/-- `memmove` of user programs, with an `int`. -/
def memmove (dst src : Nat) (n : Int) (mem : ByteSpace) : ByteSpace :=
  if src > dst then
    copyUp n.toNat dst src mem
  else
    copyDown n.toNat (offset dst n) (offset src n) mem

/-- The memory when the `n` bytes from `src` on have been moved to `dst`. -/
def moved (dst src n : Nat) (mem : ByteSpace) : ByteSpace := fun a =>
  if dst ≤ a ∧ a < dst + n then mem (src + (a - dst)) else mem a

variable {dst src n : Nat}

theorem offset_of_lt (inside : dst + n < 2 ^ 64) : offset dst n = dst + n := by
  unfold offset
  omega

theorem offset_pred (within : dst + (n + 1) ≤ 2 ^ 64) :
    offset (offset dst (n + 1 : Nat)) (-1) = dst + n := by
  unfold offset
  omega

theorem moved_zero (dst src : Nat) (mem : ByteSpace) : moved dst src 0 mem = mem := by
  funext a
  exact if_neg (by omega)

theorem copyUp_eq (source : src + n ≤ 2 ^ 64) (destination : dst + n ≤ 2 ^ 64)
    (clear : dst ≤ src ∨ src + n ≤ dst) (mem : ByteSpace) :
    copyUp n dst src mem = moved dst src n mem := by
  induction n generalizing dst src mem with
  | zero => rw [moved_zero, copyUp]
  | succ n ih =>
    have next (mem : ByteSpace) :
        copyUp n (offset dst 1) (offset src 1) mem = copyUp n (dst + 1) (src + 1) mem := by
      cases n with
      | zero => rfl
      | succ n =>
        rw [show offset dst 1 = dst + 1 from offset_of_lt (n := 1) (by omega),
          show offset src 1 = src + 1 from offset_of_lt (n := 1) (by omega)]
    rw [copyUp, next, ih (by omega) (by omega) (by omega)]
    funext a
    unfold moved
    rcases Nat.lt_trichotomy a dst with before | first | after
    · rw [if_neg (by omega), if_neg (by omega), update_of_ne (by omega)]
    · rw [if_neg (by omega), if_pos (by omega), first, update_self, Nat.sub_self, Nat.add_zero]
    · by_cases inside : a < dst + (n + 1)
      · rw [if_pos (by omega), if_pos (by omega), update_of_ne (by omega)]
        congr 1
        omega
      · rw [if_neg (by omega), if_neg (by omega), update_of_ne (by omega)]

theorem copyDown_eq (source : src + n ≤ 2 ^ 64) (destination : dst + n ≤ 2 ^ 64)
    (clear : src ≤ dst ∨ dst + n ≤ src) (mem : ByteSpace) :
    copyDown n (offset dst n) (offset src n) mem = moved dst src n mem := by
  induction n generalizing mem with
  | zero => rw [moved_zero, copyDown]
  | succ n ih =>
    have next (mem : ByteSpace) : copyDown n (dst + n) (src + n) mem =
        copyDown n (offset dst n) (offset src n) mem := by
      rw [offset_of_lt (by omega), offset_of_lt (by omega)]
    rw [copyDown, offset_pred destination, offset_pred source, next,
      ih (by omega) (by omega) (by omega)]
    funext a
    unfold moved
    rcases Nat.lt_trichotomy a (dst + n) with before | last | after
    · by_cases inside : dst ≤ a
      · rw [if_pos (by omega), if_pos (by omega), update_of_ne (by omega)]
      · rw [if_neg (by omega), if_neg (by omega), update_of_ne (by omega)]
    · rw [if_neg (by omega), if_pos (by omega), last, update_self, Nat.add_sub_cancel_left]
    · rw [if_neg (by omega), if_neg (by omega), update_of_ne (by omega)]

/-- Whatever the overlap, both functions move the bytes and change no other, so they
agree. -/
theorem memmove_moves (source : src + n ≤ 2 ^ 64) (destination : dst + n ≤ 2 ^ 64)
    (mem : ByteSpace) :
    kmemmove dst src n mem = moved dst src n mem ∧ memmove dst src n mem = moved dst src n mem ∧
      kmemmove dst src n mem = memmove dst src n mem := by
  have kernel : kmemmove dst src n mem = moved dst src n mem := by
    unfold kmemmove
    split
    next none => rw [none, moved_zero]
    next =>
      split
      next behind => exact copyDown_eq source destination (.inl behind.1.le) mem
      next ahead =>
        refine copyUp_eq source destination ?_ mem
        unfold offset at ahead
        omega
  have user : memmove dst src n mem = moved dst src n mem := by
    unfold memmove
    rw [Int.toNat_natCast]
    split
    next ahead => exact copyUp_eq source destination (.inl ahead.le) mem
    next behind => exact copyDown_eq source destination (.inl (Nat.not_lt.mp behind)) mem
  exact ⟨kernel, user, kernel.trans user.symm⟩

theorem memmove_moves_overlap : moved 1 0 3 (fun a => .ofNat a) 3 = 2 ∧
    kmemmove 1 0 3 (fun a => .ofNat a) = moved 1 0 3 fun a => .ofNat a :=
  ⟨by decide, (memmove_moves (by decide) (by decide) _).1⟩

end Xv6.User
