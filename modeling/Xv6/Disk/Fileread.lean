import Xv6.Console.Driver
import Xv6.Disk.SharedOffset
import Xv6.Pipe.Delivery

/-!
# Reading from a file

`fileread` of `kernel/file.c` on a pipe, on the console and on an inode. It takes an
`int`, and a negative one asks for nothing. But `readi` takes an `uint`: to it, that is
a number so large that it reads up to the end of the file, unless the end of the
range wraps around.
-/

namespace Xv6.Disk

open List
open Function
open Vm (UserSpace deliver deliver_outside u64)
open Prog (Ensures Returns)

/-- `CONSOLE`, the only device with a driver. -/
def console : Int := 1

/-- The type of a `struct file`, with the fields that are for this type. -/
inductive FileType where
  | pipe
  | device (major : Int)
  | inode (inum off : Nat)
  deriving DecidableEq

structure File where
  readable : Bool
  type : FileType

/-- What a call finds when it has waited for it, unless the process was killed. -/
structure Input where
  pipe : Option Pipes.Pipe
  typed : Nat → Option UInt8

/-- The loop of `consoleread` with `left` bytes to go. -/
def consoleread (typed : Nat → Option UInt8) (addr : Nat) : Nat → Nat → UserSpace → Int × UserSpace
  | 0, i, user => (i, user)
  | left + 1, i, user =>
    match typed i with
    | none => (-1, user)
    | some c =>
      if c = Console.ctrl 'D' then
        (i, user)
      else
        match user.copyByte (u64 (addr + i)) c with
        | none => (i, user)
        | some user =>
          if c = Console.newline then (((i + 1 : Nat) : Int), user)
          else consoleread typed addr left (i + 1) user

section

variable (sb : Superblock)

/-- What is done under the lock of the inode: the result of `readi` and the new `f->off`. -/
def readSection (inum : Nat) (writable : Nat → Bool) (off n : Nat) :
    StoreM ((Int × List UInt8) × Nat) := do
  let ip ← ilock sb inum
  let (result, ip) ← readi sb ip writable off n
  let off := if 0 < result.1 then (off + result.1.toNat) % 2 ^ 32 else off
  iunlock inum ip
  return (result, off)

def fileread (f : File) (user : UserSpace) (addr : Nat) (n : BitVec 32) (input : Input) :
    StoreM (Int × File × UserSpace) :=
  if f.readable = false then
    return (-1, f, user)
  else
    match f.type with
    | .pipe =>
      match input.pipe with
      | none => return (-1, f, user)
      | some pipe =>
        let (r, _, user) := Pipes.piperead pipe user addr n.toInt
        return (r, f, user)
    | .device major =>
      if major < 0 ∨ ndev ≤ major ∨ major ≠ console then
        return (-1, f, user)
      else
        let (r, user) := consoleread input.typed addr n.toInt.toNat 0 user
        return (r, f, user)
    | .inode inum off => do
      let ((r, copied), off) ← readSection sb inum (fun i => user.writable (u64 (addr + i))) off
        n.toNat
      return (r, { f with type := .inode inum off }, deliver user addr copied)

end

def FileType.advance (k : Nat) : FileType → FileType
  | .inode inum off => .inode inum (off + k)
  | type => type

/-- The call has delivered no more than `n` bytes. -/
structure Bounded (f : File) (user : UserSpace) (addr : Nat) (n : BitVec 32)
    (result : Int × File × UserSpace) : Prop where
  outside : ∀ a, (∀ i < n.toInt.toNat, a ≠ u64 (addr + i)) → result.2.2.bytes a = user.bytes a
  value : result.1 = -1 ∨ 0 ≤ result.1 ∧ result.1 ≤ max n.toInt 0
  moved : result.2.1.type = f.type.advance result.1.toNat

/-- The call gets bytes from a file although `n` is negative. `overreads_writable` says it of
the table and the disk before the call, for a file without holes. A hole is filled on the way
if `bmap` finds a block for it and `log_write` has room, so there the calls are asked. -/
structure Overreads (sb : Superblock) (inum off : Nat) (writable : Nat → Bool) (n : BitVec 32)
    (s : Store) : Prop where
  negative : n.toInt < 0
  first : writable 0 = true
  /-- `off + n` does not wrap. -/
  low : (off : Int) < -n.toInt
  block : ∃ ip s₁ b s₂, ilock sb inum s = .ok (ip, s₁) ∧ off < ip.size ∧
    bmap sb ip (off / bsize) s₁ = .ok (b, s₂) ∧ b.1 ≠ 0
  returns : ∃ r, readSection sb inum writable off n.toNat s = .ok r

variable {sb : Superblock} {s : Store} {inum off addr : Nat} {user : UserSpace}
  {writable : Nat → Bool} {f : File} {n : BitVec 32} {input : Input}

/-! ## Pipes and the console -/

theorem Bounded.failed : Bounded f user addr n (-1, f, user) where
  outside _ _ := rfl
  value := .inl rfl
  moved := by cases f with | mk readable type => cases type <;> rfl

theorem consoleread_bounded (typed : Nat → Option UInt8) (addr left i : Nat) (user : UserSpace) :
    ((consoleread typed addr left i user).1 = -1 ∨
      (i : Int) ≤ (consoleread typed addr left i user).1 ∧
        (consoleread typed addr left i user).1 ≤ (i + left : Nat)) ∧
    ∀ a, (∀ j < i + left, a ≠ u64 (addr + j)) →
    (consoleread typed addr left i user).2.bytes a = user.bytes a := by
  induction left generalizing i user with
  | zero => exact ⟨.inr ⟨le_rfl, le_rfl⟩, fun _ _ => rfl⟩
  | succ left ih =>
    unfold consoleread
    cases typed i with
    | none => exact ⟨.inl rfl, fun _ _ => rfl⟩
    | some c =>
      have stopped : ((i : Int) = -1 ∨ (i : Int) ≤ i ∧ (i : Int) ≤ (i + (left + 1) : Nat)) :=
        .inr ⟨le_rfl, by omega⟩
      by_cases ends : c = Console.ctrl 'D'
      · simp only [if_pos ends]
        exact ⟨stopped, fun _ _ => trivial⟩
      · simp only [if_neg ends]
        cases copied : user.copyByte (u64 (addr + i)) c with
        | none => exact ⟨stopped, fun _ _ => rfl⟩
        | some user₁ =>
          have kept : ∀ a, (∀ j < i + (left + 1), a ≠ u64 (addr + j)) →
              user₁.bytes a = user.bytes a := by
            intro a apart
            unfold UserSpace.copyByte at copied
            split at copied
            next =>
              cases copied
              exact update_of_ne (apart i (by omega)) ..
            next => cases copied
          by_cases line : c = Console.newline
          · simp only [if_pos line]
            exact ⟨.inr ⟨by omega, by omega⟩, kept⟩
          · simp only [if_neg line]
            obtain ⟨value, outside⟩ := ih (i + 1) user₁
            refine ⟨value.imp id fun bounds => by omega, fun a apart => ?_⟩
            exact (outside a fun j below => apart j (by omega)).trans (kept a apart)

/-! ## Files -/

variable {copied : List UInt8}

/-- `readi` returns -1 or the number of bytes that it has copied. -/
theorem readBlocks_copied {fuel tot left : Nat} {inode : Dinode} (count : copied.length = tot) :
    Ensures (fun _ => True) (readBlocks sb writable fuel inode off tot left copied) s fun r _ =>
      copied <+: r.1.2 ∧ r.1.2.length ≤ tot + left ∧ (r.1.1 = -1 ∨ r.1.1 = r.1.2.length) := by
  have stopped : copied <+: copied ∧ copied.length ≤ tot + left ∧
    ((tot : Int) = -1 ∨ (tot : Int) = copied.length) :=
    ⟨prefix_rfl, by omega, .inr (by omega)⟩
  induction fuel generalizing s inode off tot left copied with
  | zero => exact .pure stopped
  | succ fuel ih =>
    unfold readBlocks
    refine .ite (fun _ => .pure stopped) fun _ => .seq Ensures.run ?_
    rintro ⟨block, inode'⟩ s' -
    refine .ite (fun _ => .pure stopped) fun _ => .bind (.of_eq rfl ?_)
    have m_le := chunk_le off left
    have sent := length_takeWhile_range (fun i => writable (tot + i)) (chunk off left)
    refine .ite (fun _ => .pure ⟨prefix_append .., ?_, .inl rfl⟩) fun whole => ?_
    · simp only [length_append, length_map]
      omega
    · refine (ih ?_ ?_).mono fun r _ result =>
        ⟨(prefix_append ..).trans result.1, by omega, result.2.2⟩
      all_goals simp only [length_append, length_map]
      · omega
      · exact ⟨prefix_rfl, by omega, .inr (by omega)⟩

theorem readi_copied {inode : Dinode} {n : Nat} :
    Ensures (fun _ => True) (readi sb inode writable off n) s fun r _ =>
      r.1.2.length ≤ readSpan inode.size off n ∧ (r.1.1 = -1 ∨ r.1.1 = r.1.2.length) ∧
        (r.1.2 ≠ [] ↔ 0 < readSpan inode.size off n ∧ writable 0 = true ∧
          ∃ b s', bmap sb inode (off / bsize) s = .ok (b, s') ∧ b.1 ≠ 0) := by
  unfold readi readSpan
  by_cases outside : inode.size < off ∨ (off + n) % 2 ^ 32 < off
  · rw [if_pos outside, if_pos outside]
    exact .pure ⟨le_rfl, .inr rfl, by simp⟩
  rw [if_neg outside, if_neg outside]
  have span : (if inode.size < off + n then inode.size - off else n) =
      min n (inode.size - off) := by
    split <;> omega
  rw [span]
  cases min n (inode.size - off) with
  | zero => exact .pure ⟨le_rfl, .inr rfl, by simp⟩
  | succ left =>
    unfold readBlocks
    refine .ite (fun none => by cases none) fun _ => .seq Ensures.run ?_
    rintro ⟨block, inode'⟩ s' run
    refine .ite (fun absent => .pure ⟨Nat.zero_le _, .inr rfl, ?_⟩) fun present =>
      .bind (.of_eq rfl ?_)
    · simp [run, absent]
    have m_pos : 0 < chunk off (left + 1) := chunk_pos (Nat.succ_pos left)
    have m_le := chunk_le off (left + 1)
    have first : (range (chunk off (left + 1))).takeWhile (fun i => writable (0 + i)) ≠ [] ↔
        writable 0 = true := by
      obtain ⟨m, isM⟩ := Nat.exists_eq_add_one.mpr m_pos
      simp [isM, range_succ_eq_map, takeWhile_cons]
    have sent := length_takeWhile_range (fun i => writable (0 + i)) (chunk off (left + 1))
    have there : ∃ b s', bmap sb inode (off / bsize) s = .ok (b, s') ∧ b.1 ≠ 0 :=
      ⟨_, _, run, present⟩
    refine .ite (fun _ => .pure ⟨?_, .inl rfl, ?_⟩) fun whole => ?_
    · simp only [nil_append, length_map]
      omega
    · simp only [nil_append, ne_eq, map_eq_nil_iff]
      exact ⟨fun some => ⟨Nat.succ_pos left, first.mp some, there⟩, fun all => first.mpr all.2.1⟩
    · refine (readBlocks_copied ?_).mono ?_
      · simp only [nil_append, length_map]
        omega
      · rintro r s'' ⟨begins, bound, value⟩
        have some := first.mp (ne_nil_of_length_pos (by omega))
        refine ⟨by omega, value, fun _ => ⟨Nat.succ_pos left, some, there⟩, fun _ none => ?_⟩
        have length := begins.length_le
        rw [none, nil_append, length_map, length_nil] at length
        omega

theorem ilock_size (sizes : (s.table inum).inode.size < 2 ^ 32) :
    Ensures (fun _ => True) (ilock sb inum) s fun ip _ => ip.size < 2 ^ 32 := by
  have stops : ∀ (panic : Panic) (s : Store), Ensures (fun _ => True) (fail panic : StoreM Dinode) s
    fun ip _ =>
      ip.size < 2 ^ 32 := fun panic s => .bind (.get (.throw trivial))
  unfold ilock setEntry
  refine .bind
    (.get
      (.ite (fun _ => stops _ _) fun _ => .ite (fun _ => stops _ _) fun _ =>
        .ite (fun _ => ?_) fun _ => ?_))
  · exact .bind (.of_modify (.pure sizes))
  · exact .bind (.of_modify (.ite (fun _ => stops _ _) fun _ => .pure (loadDinode_fits ..).size))

theorem readSection_copied {n : Nat} (sizes : (s.table inum).inode.size < 2 ^ 32) :
    Ensures (fun _ => True) (readSection sb inum writable off n) s fun r _ =>
      (r.1.1 = -1 ∨ r.1.1 = r.1.2.length) ∧ r.1.2.length ≤ n ∧ r.2 = off + r.1.1.toNat ∧
        (r.1.2 ≠ [] ↔ writable 0 = true ∧ ∃ ip s₁ b s₂, ilock sb inum s = .ok (ip, s₁) ∧
          0 < readSpan ip.size off n ∧ bmap sb ip (off / bsize) s₁ = .ok (b, s₂) ∧ b.1 ≠ 0) := by
  unfold readSection
  refine .bind ((Ensures.run.and (ilock_size sizes)).imp (fun _ _ => trivial) |>.mono ?_)
  rintro ip s₁ ⟨locked, small⟩
  refine .seq readi_copied ?_
  rintro ⟨⟨r, copied⟩, ip'⟩ s₂ ⟨length, value, some⟩
  refine .seq Ensures.run fun _ s₃ _ => .pure ⟨value, ?_, ?_, ?_⟩
  · refine length.trans ?_
    unfold readSpan
    split <;> omega
  · clear some
    simp only at length value ⊢
    have fits : off + copied.length < 2 ^ 32 ∨ copied.length = 0 := by
      unfold readSpan at length
      split at length <;> omega
    split <;> omega
  · refine some.trans
      ⟨fun ⟨span, first, b, s', run, present⟩ => ⟨first, ip, s₁, b, s', locked, span, run, present⟩,
      ?_⟩
    rintro ⟨first, ip₁, s₁', b, s', locked', span, run, present⟩
    cases locked.symm.trans locked'
    exact ⟨span, first, b, s', run, present⟩

theorem readSpan_pos_iff {size : Nat} (negative : n.toInt < 0) (small : size < 2 ^ 32) :
    0 < readSpan size off n.toNat ↔ off < size ∧ (off : Int) < -n.toInt := by
  have signed := n.toInt_eq_toNat_cond
  have bound := n.isLt
  unfold readSpan
  split <;> omega

theorem Bounded.of_read {readable : Bool} {r : Int} (value : r = -1 ∨ r = copied.length)
    (few : copied.length ≤ n.toInt.toNat) :
    Bounded ⟨readable, .inode inum off⟩ user addr n
      (r, ⟨readable, .inode inum (off + r.toNat)⟩, deliver user addr copied) where
  outside a apart := deliver_outside user addr copied fun i below => apart i (by omega)
  value := by simp only; omega
  moved := rfl

theorem readBlocks_permitted {fuel tot left : Nat} {inode : Dinode} (count : copied.length = tot)
    (permitted : ∀ i < copied.length, writable i = true) :
    Ensures (fun _ => True) (readBlocks sb writable fuel inode off tot left copied) s fun r _ =>
      ∀ i < r.1.2.length, writable i = true := by
  induction fuel generalizing s inode off tot left copied with
  | zero => exact .pure permitted
  | succ fuel ih =>
    unfold readBlocks
    refine .ite (fun _ => .pure permitted) fun _ => .seq Ensures.run ?_
    rintro ⟨block, inode'⟩ s' -
    refine .ite (fun _ => .pure permitted) fun _ => .bind (.of_eq rfl ?_)
    have sent := length_takeWhile_range (fun i => writable (tot + i)) (chunk off left)
    have more (f : Nat → UInt8) : ∀ i < (copied ++ ((range (chunk off left)).takeWhile
        fun i => writable (tot + i)).map f).length, writable i = true := by
      intro i below
      rw [length_append, length_map] at below
      by_cases old : i < copied.length
      · exact permitted i old
      · have new :=
          of_lt_takeWhile (m := chunk off left) (p := fun i => writable (tot + i)) (j := i - tot)
          (by omega)
        rwa [Nat.add_sub_cancel' (by omega)] at new
    refine .ite (fun _ => .pure (more _)) fun whole => ih ?_ (more _)
    rw [length_append, length_map]
    omega

theorem readSection_permitted {n : Nat} :
    Ensures (fun _ => True) (readSection sb inum writable off n) s fun r _ =>
      ∀ i < r.1.2.length, writable i = true := by
  unfold readSection readi
  refine .seq Ensures.run fun ip _ _ => .seq (.ite (fun _ => .pure (by simp)) fun _ =>
    readBlocks_permitted rfl (by simp)) fun r _ all => .seq Ensures.run fun _ _ _ => .pure all

/-- What a call has read from a file can be copied to the page table of the reader, and then its
memory is as after the call. -/
theorem readSection_memory {m : Vm.Memory} {root n : Nat} (table : Vm.UserTable m root)
    (isAddr : addr < 2 ^ 64) (sizes : (s.table inum).inode.size < 2 ^ 32) (short : n < 2 ^ 32) :
    Ensures (fun _ => True)
      (readSection sb inum (fun i => (Vm.spaceOf m root).writable (u64 (addr + i))) off n) s
      fun r _ => Returns (Vm.copyout root addr r.1.2) m fun status m' =>
        status = 0 ∧ Vm.spaceOf m' root = deliver (Vm.spaceOf m root) addr r.1.2 := by
  refine (readSection_permitted.and (readSection_copied sizes)).imp (fun _ _ => trivial) |>.mono ?_
  rintro ⟨⟨r, copied⟩, off'⟩ - ⟨all, -, few, -⟩
  refine (Vm.copyout_deliver table isAddr (by omega)).mono ?_
  rintro status m' ⟨-, k, -, -, space, ⟨rfl, rfl⟩ | ⟨-, less, denied⟩⟩
  · exact ⟨rfl, by rw [space, take_length]⟩
  · exact absurd (all k less) denied

/-- Something is read with a negative `n` only in this case. -/
theorem overreads_iff (sizes : (s.table inum).inode.size < 2 ^ 32) (negative : n.toInt < 0)
    {r : Int} {off' : Nat} {s' : Store}
    (run : readSection sb inum writable off n.toNat s = .ok (((r, copied), off'), s')) :
    Overreads sb inum off writable n s ↔ copied ≠ [] := by
  refine Iff.trans ?_ ((readSection_copied sizes).of_ok run).2.2.2.symm
  constructor
  · rintro ⟨-, first, low, ⟨ip, s₁, b, s₂, locked, below, mapped, present⟩, -⟩
    have span := (readSpan_pos_iff negative ((ilock_size sizes).of_ok locked)).mpr ⟨below, low⟩
    exact ⟨first, ip, s₁, b, s₂, locked, span, mapped, present⟩
  · rintro ⟨first, ip, s₁, b, s₂, locked, span, mapped, present⟩
    obtain ⟨below, low⟩ := (readSpan_pos_iff negative ((ilock_size sizes).of_ok locked)).mp span
    exact ⟨negative, first, low, ⟨ip, s₁, b, s₂, locked, below, mapped, present⟩, _, run⟩

theorem fileread_inode_iff {writable : Nat → Bool} (sizes : (s.table inum).inode.size < 2 ^ 32) :
    (∀ bytes,
      Ensures (fun _ => True) (fileread sb ⟨true, .inode inum off⟩ ⟨bytes, writable⟩ addr n input) s
      fun r _ => Bounded ⟨true, .inode inum off⟩ ⟨bytes, writable⟩ addr n r) ↔
    ¬ Overreads sb inum off (fun i => writable (u64 (addr + i))) n s := by
  constructor
  · intro bounded overreads
    obtain ⟨⟨⟨⟨r, copied⟩, off'⟩, s'⟩, run⟩ := overreads.returns
    have negative := overreads.negative
    -- the first byte that is copied is not the one that was there
    obtain ⟨ch, rest, rfl⟩ :=
      exists_cons_of_ne_nil ((overreads_iff sizes negative run).mp overreads)
    have result := (bounded fun _ => ch + 1).of_ok (Prog.bind_ok run)
    have changed := result.outside (u64 addr) fun i below => by omega
    have new : ch = ch + 1 := (update_self ..).symm.trans changed
    simp at new
  · intro harmless bytes
    refine .bind ((Ensures.run.and (readSection_copied sizes)).imp (fun _ _ => trivial) |>.mono ?_)
    rintro ⟨⟨r, copied⟩, off'⟩ s' ⟨run, value, few, moved, -⟩
    simp only at value few moved ⊢
    subst moved
    refine .pure (.of_read value ?_)
    have signed := n.toInt_eq_toNat_cond
    by_cases negative : n.toInt < 0
    · have none : copied = [] :=
        by_contra fun some => harmless ((overreads_iff sizes negative run).mpr some)
      rw [none]
      exact Nat.zero_le _
    · omega

theorem fileread_bounded (other : ∀ inum off, f ≠ ⟨true, .inode inum off⟩)
    (counters : ∀ pipe ∈ input.pipe, pipe.Fits) :
    Ensures (fun _ => True) (fileread sb f user addr n input) s fun r _ =>
      Bounded f user addr n r := by
  obtain ⟨readable, type⟩ := f
  unfold fileread
  refine .ite (fun _ => .pure .failed) fun isOpen => ?_
  cases type with
  | inode inum off =>
    obtain rfl : readable = true := by simpa using isOpen
    exact absurd rfl (other inum off)
  | pipe =>
    cases waited : input.pipe with
    | none => exact .pure .failed
    | some pipe =>
      obtain ⟨k, bound, user', -, -, outside, result⟩ :=
        Pipes.piperead_spec user addr n.toInt (counters pipe waited)
      have read : ∃ pipe', Pipes.piperead pipe user addr n.toInt = (k, pipe', user') :=
        result.elim (fun whole => ⟨_, whole.2⟩) fun short => ⟨_, short.2.2⟩
      obtain ⟨pipe', run⟩ := read
      simp only [run]
      refine .pure ⟨fun a apart => outside a fun i below => apart i (by omega), .inr ?_, rfl⟩
      simp only
      omega
  | device major =>
    refine .ite (fun _ => .pure .failed) fun _ => ?_
    obtain ⟨value, outside⟩ := consoleread_bounded input.typed addr n.toInt.toNat 0 user
    rw [Nat.zero_add] at value outside
    refine .pure ⟨outside, ?_, rfl⟩
    simp only
    omega

/-- In a file without holes there is a block at every offset. -/
theorem overreads_writable (inode : Writable sb inum s) :
    Overreads sb inum off writable n s ↔
      n.toInt < 0 ∧ (off : Int) < -n.toInt ∧ off < (dinodeAt sb s.disk inum).size ∧
      writable 0 = true := by
  obtain ⟨ip, s₁, locked, rfl, disk, -, -, ref, isLocked⟩ := (ilock_writable inode).exists
  constructor
  · rintro ⟨negative, first, low, ⟨ip, s₁', b, s₂, locked', below, -⟩, -⟩
    cases locked.symm.trans locked'
    exact ⟨negative, low, below, first⟩
  · rintro ⟨negative, low, below, first⟩
    have view : viewOf sb s₁.disk inum (dinodeAt sb s.disk inum) = volumeOf sb s.disk := by
      rw [disk, viewOf_dinodeAt _ inode.inside]
    have mapped := inode.holeFree.mappedBelow
    rw [volumeOf_inode inode.inside] at mapped
    obtain ⟨low', present⟩ := mapped.block below
    rw [← view] at mapped present
    refine ⟨negative, first, low, ⟨_, s₁, _, _, locked, below, bmap_mapped low' present, present⟩,
      ?_⟩
    have owned := inode.owned
    rw [← view] at owned
    have part : MappedBelow (viewOf sb s₁.disk inum (dinodeAt sb s.disk inum)) inum
        (min (off + n.toNat) (dinodeAt sb s.disk inum).size) :=
      ⟨by have := mapped.1; omega, fun bn inside => mapped.2 bn (by omega)⟩
    have reads : Returns (readi sb _ writable off n.toNat) s₁ _ := readi_spec owned part
    obtain ⟨⟨result, ip⟩, s₂, read, rfl, -⟩ := reads.exists
    have unlocks : Returns (iunlock inum ip) s₂ fun _ _ => True := by
      unfold iunlock setEntry
      refine .bind (.get (.ite (fun wrong => ?_) fun _ => .of_modify trivial))
      rcases wrong with unlocked | none
      · exact absurd (unlocked.symm.trans isLocked) (by decide)
      · omega
    obtain ⟨⟨⟩, s₃, unlocked, -⟩ := unlocks.exists
    exact ⟨_, (Prog.bind_ok locked).trans ((Prog.bind_ok read).trans (Prog.bind_ok unlocked))⟩

/-- A call delivers too much only from an inode, and only if `n` is negative. -/
theorem fileread_bounded_iff (sb : Superblock) (f : File) (writable : Nat → Bool) (addr : Nat)
    (n : BitVec 32) (input : Input) (s : Store) (counters : ∀ pipe ∈ input.pipe, pipe.Fits)
    (sizes : ∀ inum, (s.table inum).inode.size < 2 ^ 32) :
    ((∀ bytes, Ensures (fun _ => True) (fileread sb f ⟨bytes, writable⟩ addr n input) s fun r _ =>
        Bounded f ⟨bytes, writable⟩ addr n r) ↔
      ∀ inum off, f = ⟨true, .inode inum off⟩ →
      ¬ Overreads sb inum off (fun i => writable (u64 (addr + i))) n s) ∧
    ∀ inum off, Writable sb inum s →
    (Overreads sb inum off (fun i => writable (u64 (addr + i))) n s ↔
      n.toInt < 0 ∧ (off : Int) < -n.toInt ∧ off < (dinodeAt sb s.disk inum).size ∧
      writable (u64 addr) = true) := by
  refine ⟨?_, fun inum off inode => overreads_writable inode⟩
  by_cases file : ∃ inum off, f = ⟨true, .inode inum off⟩
  · obtain ⟨inum, off, rfl⟩ := file
    rw [fileread_inode_iff (sizes inum)]
    refine ⟨?_, fun harmless => harmless inum off rfl⟩
    rintro harmless _ _ ⟨⟩
    exact harmless
  · have other := fun inum off isFile => file ⟨inum, off, isFile⟩
    exact ⟨fun _ inum off isFile => absurd isFile (other inum off),
      fun _ bytes => fileread_bounded other counters⟩

/-- The first byte of three can be written, and the file has five bytes. -/
theorem fileread_bounded_iff_three :
    Ensures (fun _ => True)
      (fileread OneFile.layout ⟨true, .inode 1 0⟩ ⟨fun _ => 0, fun a => a = 0⟩ 0 3
        ⟨none, fun _ => none⟩)
      SharedOffset.opened fun r _ =>
        Bounded ⟨true, .inode 1 0⟩ ⟨fun _ => 0, fun a => a = 0⟩ 0 3 r := by
  obtain ⟨bounded, overreads⟩ :=
    fileread_bounded_iff OneFile.layout ⟨true, .inode 1 0⟩ (fun a => a = 0) 0 3
    ⟨none, fun _ => none⟩ SharedOffset.opened nofun fun _ => Nat.two_pow_pos 32
  refine bounded.mpr ?_ _
  rintro _ _ ⟨⟩
  rw [overreads 1 0 SharedOffset.opened_writable]
  exact fun negative => absurd negative.1 (by decide)

/-- `read` with -1 for the number of bytes returns the whole file. -/
theorem fileread_negative :
    (fileread OneFile.layout ⟨true, .inode 1 0⟩ ⟨fun _ => 7, fun _ => true⟩ 0 (-1)
      ⟨none, fun _ => none⟩
      SharedOffset.opened).toOption.map
        (fun ((r, f, user), _) => (r, f.type, (range 6).map user.bytes)) =
        some (5, .inode 1 5, [0, 0, 0, 0, 0, 7]) := by
  decide +kernel

end Xv6.Disk
