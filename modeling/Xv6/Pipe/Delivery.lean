import Xv6.Pipe.Fifo
import Xv6.Vm.UserSpace

/-!
# Bytes that a reader gets

The copy loop of `piperead` takes a byte out of the pipe before it copies it to the
reader. When the copy fails the byte is gone, and `piperead` does not count it. The
readers of `Pipes.State` run the same loop, and on a page table it does the same.
-/

namespace Xv6.Pipes

open List
open Function
open Vm (Memory Permits UserSpace UserTable VmM copyout copyout_byte pgSize spaceOf spaceOf_writable
  toWrite u64)

/-- The copy loop of `piperead` with `left` iterations to go. Returns `i`, the pipe and
the memory of the reader. -/
def copyLoop (addr : Nat) : Nat → Nat → Pipe → UserSpace → Nat × Pipe × UserSpace
  | 0, i, pipe, user => (i, pipe, user)
  | left + 1, i, pipe, user =>
    if pipe.nread = pipe.nwrite then
      (i, pipe, user)
    else
      let ch := pipe.data (pipe.nread % pipeSize)
      let pipe := { pipe with nread := (pipe.nread + 1) % 2 ^ 32 }
      match user.copyByte (u64 (addr + i)) ch with
      | none => (i, pipe, user)
      | some user => copyLoop addr left (i + 1) pipe user

/-- `piperead` from the end of its wait on. -/
def piperead (pipe : Pipe) (user : UserSpace) (addr : Nat) (n : Int) : Nat × Pipe × UserSpace :=
  copyLoop addr n.toNat 0 pipe user

namespace Pipe

structure Fits (pipe : Pipe) : Prop where
  nread : pipe.nread < 2 ^ 32
  nwrite : pipe.nwrite < 2 ^ 32

def available (pipe : Pipe) : Nat := (pipe.nwrite + (2 ^ 32 - pipe.nread)) % 2 ^ 32

/-- The bytes in the pipe, in the order in which they are read. -/
def front (pipe : Pipe) (k : Nat) : UInt8 := pipe.data ((pipe.nread + k) % 2 ^ 32 % pipeSize)

def advance (pipe : Pipe) (k : Nat) : Pipe := { pipe with nread := (pipe.nread + k) % 2 ^ 32 }

theorem advance_advance (pipe : Pipe) (j k : Nat) :
    (pipe.advance j).advance k = pipe.advance (j + k) := by
  simp only [advance, Nat.mod_add_mod, Nat.add_assoc]

theorem front_advance (pipe : Pipe) (j k : Nat) :
    (pipe.advance j).front k = pipe.front (j + k) := by
  simp only [front, advance, Nat.mod_add_mod, Nat.add_assoc]

variable {pipe : Pipe}

theorem Fits.advance (fits : pipe.Fits) (k : Nat) : (pipe.advance k).Fits :=
  ⟨Nat.mod_lt _ (by decide), fits.nwrite⟩

theorem Fits.advance_zero (fits : pipe.Fits) : pipe.advance 0 = pipe := by
  simp only [Pipe.advance, Nat.add_zero, Nat.mod_eq_of_lt fits.nread]

theorem Fits.front_zero (fits : pipe.Fits) : pipe.front 0 = pipe.data (pipe.nread % pipeSize) := by
  simp only [front, Nat.add_zero, Nat.mod_eq_of_lt fits.nread]

theorem Fits.available_eq_zero (fits : pipe.Fits) :
    pipe.available = 0 ↔ pipe.nread = pipe.nwrite := by
  have := fits.nread
  have := fits.nwrite
  unfold available
  omega

theorem Fits.available_advance (fits : pipe.Fits) {k : Nat} (enough : k ≤ pipe.available) :
    (pipe.advance k).available = pipe.available - k := by
  have := fits.nread
  have := fits.nwrite
  simp only [available, Pipe.advance] at *
  omega

end Pipe

/-- `k` bytes from the pipe are in memory from place `i` of the destination on. -/
structure Received (addr i k : Nat) (pipe : Pipe) (user user' : UserSpace) : Prop where
  writable : user'.writable = user.writable
  inside : ∀ j < k, user'.bytes (u64 (addr + (i + j))) = pipe.front j
  outside : ∀ a, (∀ j < k, a ≠ u64 (addr + (i + j))) → user'.bytes a = user.bytes a

variable {pipe : Pipe} {user user' : UserSpace} {addr : Nat}

theorem Received.cons {i k : Nat} {user₁ : UserSpace} (fits : pipe.Fits) (few : k < 2 ^ 32)
    (copied : user.copyByte (u64 (addr + i)) (pipe.data (pipe.nread % pipeSize)) = some user₁)
    (rest : Received addr (i + 1) k (pipe.advance 1) user₁ user') :
    user.writable (u64 (addr + i)) = true ∧ Received addr i (k + 1) pipe user user' := by
  unfold UserSpace.copyByte at copied
  split at copied
  next here =>
    cases copied
    refine ⟨here, rest.writable, fun j below => ?_, fun a apart => ?_⟩
    · cases j with
      | zero =>
        refine (rest.outside _ fun j _ => ?_).trans ?_
        · unfold u64
          omega
        · rw [fits.front_zero]
          exact update_self ..
      | succ j =>
        have place : i + (j + 1) = i + 1 + j := by omega
        rw [place, rest.inside j (by omega), pipe.front_advance, Nat.add_comm 1 j]
    · refine (rest.outside a fun j below => ?_).trans (update_of_ne (apart 0 (by omega)) ..)
      rw [show i + 1 + j = i + (j + 1) by omega]
      exact apart (j + 1) (by omega)
  next => cases copied

/-- The loop goes on until the request is met, the pipe is empty or a copy fails. -/
theorem copyLoop_spec (user : UserSpace) (addr left i : Nat) (fits : pipe.Fits) :
    ∃ k ≤ min left pipe.available, (copyLoop addr left i pipe user).1 = i + k ∧
      (∀ j < k, user.writable (u64 (addr + (i + j))) = true) ∧
      Received addr i k pipe user (copyLoop addr left i pipe user).2.2 ∧
      (k = min left pipe.available ∧ (copyLoop addr left i pipe user).2.1 = pipe.advance k ∨
        k < min left pipe.available ∧ user.writable (u64 (addr + (i + k))) = false ∧
          (copyLoop addr left i pipe user).2.1 = pipe.advance (k + 1)) := by
  have nothing : Received addr i 0 pipe user user :=
    ⟨rfl, fun _ none => absurd none (Nat.not_lt_zero _), fun _ _ => rfl⟩
  induction left generalizing i pipe user with
  | zero => exact ⟨0, Nat.zero_le _, rfl, nofun, nothing, .inl ⟨by simp, fits.advance_zero.symm⟩⟩
  | succ left ih =>
    by_cases empty : pipe.nread = pipe.nwrite
    · have none := fits.available_eq_zero.mpr empty
      simp only [copyLoop, if_pos empty]
      exact ⟨0, Nat.zero_le _, rfl, nofun, nothing, .inl ⟨by omega, fits.advance_zero.symm⟩⟩
    · have some : pipe.available ≠ 0 := fun none => empty (fits.available_eq_zero.mp none)
      have few : pipe.available < 2 ^ 32 := Nat.mod_lt _ (by decide)
      have fewer := fits.available_advance (k := 1) (by omega)
      simp only [copyLoop, if_neg empty]
      cases copied : user.copyByte (u64 (addr + i)) (pipe.data (pipe.nread % pipeSize)) with
      | none =>
        refine ⟨0, Nat.zero_le _, rfl, nofun, nothing, .inr ⟨by omega, ?_, rfl⟩⟩
        unfold UserSpace.copyByte at copied
        simpa using copied
      | some user₁ =>
        obtain ⟨k, bound, count, permitted, rest, result⟩ := ih user₁ (i + 1) (fits.advance 1)
          ⟨rfl, fun _ none => absurd none (Nat.not_lt_zero _), fun _ _ => rfl⟩
        obtain ⟨here, received⟩ := Received.cons fits (by omega) copied rest
        have same : user₁.writable = user.writable := rest.writable.symm.trans received.writable
        rw [same] at permitted result
        refine ⟨k + 1, by omega, by rw [← Nat.add_assoc, Nat.add_right_comm]; exact count,
          fun j below => ?_,
          received, ?_⟩
        · cases j with
          | zero => exact here
          | succ j => exact Nat.add_right_comm i 1 j ▸ permitted j (by omega)
        · rcases result with ⟨all, moved⟩ | ⟨short, denied, moved⟩
          · exact .inl ⟨by omega, moved.trans (by rw [pipe.advance_advance, Nat.add_comm])⟩
          · exact .inr ⟨by omega, Nat.add_right_comm i 1 k ▸ denied,
              moved.trans (by rw [pipe.advance_advance, Nat.add_comm])⟩

/-- Every byte that is taken out of the pipe is counted, and the reader has it. -/
def Delivers (pipe : Pipe) (addr : Nat) : Nat × Pipe × UserSpace → Prop
  | (r, pipe', user') => pipe'.nread = (pipe.nread + r) % 2 ^ 32 ∧
      ∀ i < r, user'.bytes (u64 (addr + i)) = pipe.front i

/-- The reader may write to all the places to which bytes are copied. -/
def Writable (pipe : Pipe) (user : UserSpace) (addr : Nat) (n : Int) : Prop :=
  ∀ i < min n.toNat pipe.available, user.writable (u64 (addr + i)) = true

theorem piperead_spec (user : UserSpace) (addr : Nat) (n : Int) (fits : pipe.Fits) :
    ∃ k ≤ min n.toNat pipe.available, ∃ user', (∀ i < k, user.writable (u64 (addr + i)) = true) ∧
      (∀ i < k, user'.bytes (u64 (addr + i)) = pipe.front i) ∧
      (∀ a, (∀ i < k, a ≠ u64 (addr + i)) → user'.bytes a = user.bytes a) ∧
      (k = min n.toNat pipe.available ∧ piperead pipe user addr n = (k, pipe.advance k, user') ∨
        k < min n.toNat pipe.available ∧ user.writable (u64 (addr + k)) = false ∧
          piperead pipe user addr n = (k, pipe.advance (k + 1), user')) := by
  have spec := copyLoop_spec user addr n.toNat 0 fits
  simp only [Nat.zero_add] at spec
  obtain ⟨k, bound, count, permitted, received, result⟩ := spec
  have inside := received.inside
  have outside := received.outside
  simp only [Nat.zero_add] at inside outside
  refine ⟨k, bound, _, permitted, inside, outside,
    result.imp (fun done => ⟨done.1, ?_⟩) fun failed => ⟨failed.1, failed.2.1, ?_⟩⟩
  · exact Prod.ext count (Prod.ext done.2 rfl)
  · exact Prod.ext count (Prod.ext failed.2.2 rfl)

theorem delivers_iff {n : Int} (fits : pipe.Fits) :
    Delivers pipe addr (piperead pipe user addr n) ↔ Writable pipe user addr n := by
  obtain ⟨k, -, user', permitted, inside, -, ⟨all, run⟩ | ⟨short, denied, run⟩⟩ :=
    piperead_spec user addr n fits
  · rw [run]
    exact ⟨fun _ i below => permitted i (all ▸ below), fun _ => ⟨rfl, inside⟩⟩
  · rw [run]
    refine ⟨fun delivers => ?_, fun all => absurd (all k short) (by simp [denied])⟩
    have counted : (pipe.nread + (k + 1)) % 2 ^ 32 = (pipe.nread + k) % 2 ^ 32 := delivers.1
    omega

/-! ## The loop in the other models -/

section

variable {Pid : Type} [DecidableEq Pid] {s : State Pid} {p : Pid} {n : Int} {i : Nat}

/-- Process `p` gets to such a state on its own, for some results of its copies. -/
def State.RunsTo (s : State Pid) (p : Pid) (motive : State Pid → Prop) : Prop :=
  ∃ (copies : List (Option UInt8)) (t : State Pid),
    (system Pid).replay s (copies.map fun copied => (p, .run copied)) = some t ∧ motive t

theorem State.RunsTo.readStep {motive : State Pid → Prop} (at' : s.pc p = .reading n i)
    (copied : Option UInt8) (rest : (s.readStep p n i copied).RunsTo p motive) :
    s.RunsTo p motive := by
  obtain ⟨copies, t, run, holds⟩ := rest
  have step : (system Pid).step s (p, .run copied) = .next (s.readStep p n i copied) := by
    simp only [system, State.step, at']
  refine ⟨copied :: copies, t, ?_, holds⟩
  rw [map_cons, TransitionSystem.replay, if_pos (by exact trivial), step]
  exact run

/-- A reader that is let run does as `copyLoop` does, when its copies succeed and fail alike. -/
theorem copyLoop_runsTo {left : Nat} (at' : s.pc p = .reading n i) (count : n.toNat = i + left)
    (user : UserSpace) (addr : Nat) :
    s.RunsTo p fun t => t.pc p = .readDone (copyLoop addr left i s.pipe user).1 ∧
      t.pipe = (copyLoop addr left i s.pipe user).2.1 := by
  induction left generalizing s i user with
  | zero =>
    have done : ¬ (i : Int) < n := by omega
    refine .readStep at' none ⟨[], _, rfl, ?_⟩
    rw [State.readStep, if_neg done]
    exact ⟨State.setPc_self .., rfl⟩
  | succ left ih =>
    have more : (i : Int) < n := by omega
    by_cases empty : s.pipe.nread = s.pipe.nwrite
    · refine .readStep at' none ⟨[], _, rfl, ?_⟩
      rw [State.readStep, if_pos more, if_pos empty, copyLoop, if_pos empty]
      exact ⟨State.setPc_self .., rfl⟩
    cases copied : user.copyByte (u64 (addr + i)) (s.pipe.data (s.pipe.nread % pipeSize)) with
    | none =>
      refine .readStep at' none ⟨[], _, rfl, ?_⟩
      simp only [State.readStep, if_pos more, copyLoop, if_neg empty, copied]
      exact ⟨State.setPc_self .., rfl⟩
    | some user' =>
      obtain ⟨copies, t, run, result⟩ :=
        ih (State.setPc_self s.take p (.reading n (i + 1))) (by omega) user'
      refine .readStep at' (some 0) ⟨copies, t, ?_, ?_⟩
      · rw [State.readStep, if_pos more, if_neg empty]
        exact run
      · simp only [copyLoop, if_neg empty, copied]
        exact result

end

/-- The loop with `copyout` to the page table of the reader. -/
def copyoutLoop (root addr : Nat) : Nat → Nat → Pipe → VmM (Nat × Pipe)
  | 0, i, pipe => pure (i, pipe)
  | left + 1, i, pipe =>
    if pipe.nread = pipe.nwrite then
      pure (i, pipe)
    else do
      let ch := pipe.data (pipe.nread % pipeSize)
      let pipe := { pipe with nread := (pipe.nread + 1) % 2 ^ 32 }
      let r ← copyout root (u64 (addr + i)) [ch]
      if r = -1 then
        return (i, pipe)
      else
        copyoutLoop root addr left (i + 1) pipe

theorem copyoutLoop_spec {m : Memory} {root : Nat} (table : UserTable m root)
    (addr left i : Nat) (pipe : Pipe) :
    Prog.Returns (copyoutLoop root addr left i pipe) m fun r m' => UserTable m' root ∧
      copyLoop addr left i pipe (spaceOf m root) = (r.1, r.2, spaceOf m' root) := by
  induction left generalizing i pipe m with
  | zero => exact .pure ⟨table, rfl⟩
  | succ left ih =>
    unfold copyoutLoop copyLoop
    refine .ite (fun empty => .pure ⟨table, by rw [if_pos empty]⟩) fun some => ?_
    rw [if_neg some]
    have isAddr : u64 (addr + i) < 2 ^ 64 := Nat.mod_lt _ (by decide)
    refine .seq (copyout_byte table isAddr _) ?_
    rintro r m' ⟨table', result⟩
    dsimp only
    cases copied : (spaceOf m root).copyByte (u64 (addr + i))
      (pipe.data (pipe.nread % pipeSize)) with
    | none =>
      rw [copied] at result
      refine .ite (fun _ => .pure ⟨table', ?_⟩) fun wrong => absurd result.1 wrong
      rw [result.2]
    | some user =>
      rw [copied] at result
      obtain ⟨rfl, rfl⟩ := result
      exact .ite (fun wrong => absurd wrong (by decide)) fun _ => ih table' (i + 1) _

/-- `piperead` to a page table delivers what it takes exactly when the pages of all that it takes
can be written. -/
theorem pipereadMemory_delivers {m : Memory} {root : Nat} (table : UserTable m root)
    (fits : pipe.Fits) (n : Int) :
    Prog.Returns (copyoutLoop root addr n.toNat 0 pipe) m fun r m' =>
      Delivers pipe addr (r.1, r.2, spaceOf m' root) ↔
        ∀ i < min n.toNat pipe.available, Permits toWrite m root (u64 (addr + i) / pgSize) := by
  refine (copyoutLoop_spec table addr n.toNat 0 pipe).mono ?_
  rintro r m' ⟨-, run⟩
  rw [← run]
  refine (delivers_iff fits).trans (forall₂_congr fun i _ => spaceOf_writable _)

/-! ## Many reads -/

/-- A pipe, what was written to it and what its readers got. -/
structure Stream where
  pipe : Pipe
  stored : List UInt8
  delivered : List UInt8

inductive Call where
  /-- `pipewrite` stores a byte, if the pipe is not full. -/
  | store (ch : UInt8)
  | piperead (user : UserSpace) (addr : Nat) (n : Int)

def Stream.step (s : Stream) : Call → Stream
  | .store ch =>
    if s.pipe.nwrite = (s.pipe.nread + pipeSize) % 2 ^ 32 then
      s
    else
      { s with
        pipe := { s.pipe with
          data := update s.pipe.data (s.pipe.nwrite % pipeSize) ch
          nwrite := (s.pipe.nwrite + 1) % 2 ^ 32 }
        stored := s.stored ++ [ch] }
  | .piperead user addr n =>
    let (r, pipe, user) := Pipes.piperead s.pipe user addr n
    { s with pipe, delivered := s.delivered ++ (range r).map fun i => user.bytes (u64 (addr + i)) }

/-- All reads go to memory that can be written. -/
def streams : TransitionSystem Stream Call Empty where
  initial s := s.pipe.nread = 0 ∧ s.pipe.nwrite = 0 ∧ s.stored = [] ∧ s.delivered = []
  allowed s
    | .store _ => True
    | .piperead user addr n => Writable s.pipe user addr n
  step s call := .next (s.step call)

namespace Fifo

variable {stored taken : List UInt8}

theorem fits (fifo : Fifo pipe stored taken) : pipe.Fits := by
  constructor
  · rw [fifo.nread]
    exact Nat.mod_lt _ (by decide)
  · rw [fifo.nwrite]
    exact Nat.mod_lt _ (by decide)

theorem available (fifo : Fifo pipe stored taken) :
    pipe.available = stored.length - taken.length := by
  have := fifo.order.length_le
  have := fifo.capacity
  rw [Pipe.available, fifo.nread, fifo.nwrite]
  unfold pipeSize at *
  omega

theorem advance (fifo : Fifo pipe stored taken) {k : Nat} (enough : k ≤ pipe.available) :
    Fifo (pipe.advance k) stored (taken ++ (range k).map pipe.front) := by
  induction k with
  | zero => simpa [fifo.fits.advance_zero] using fifo
  | succ k ih =>
    have before := ih (by omega)
    have more : (pipe.advance k).nread ≠ (pipe.advance k).nwrite := fun empty => by
      have none := (fifo.fits.advance k).available_eq_zero.mpr empty
      rw [fifo.fits.available_advance (by omega)] at none
      omega
    have taken := before.take more
    rw [← (fifo.fits.advance k).front_zero, pipe.front_advance] at taken
    rw [range_succ, map_append, ← append_assoc, ← pipe.advance_advance]
    exact taken

end Fifo

theorem Stream.fifo_step {s : Stream} {call : Call} (fifo : Fifo s.pipe s.stored s.delivered)
    (allowed : streams.allowed s call) :
    Fifo (s.step call).pipe (s.step call).stored (s.step call).delivered := by
  cases call with
  | store ch =>
    by_cases full : s.pipe.nwrite = (s.pipe.nread + pipeSize) % 2 ^ 32
    · simpa only [Stream.step, if_pos full] using fifo
    · simpa only [Stream.step, if_neg full] using fifo.store full
  | piperead user addr n =>
    obtain ⟨k, bound, user', -, inside, -, ⟨-, run⟩ | ⟨short, denied, -⟩⟩ :=
      piperead_spec user addr n fifo.fits
    · have bytes : ((range k).map fun i => user'.bytes (u64 (addr + i))) =
        (range k).map s.pipe.front :=
        map_congr_left fun i member => inside i (mem_range.mp member)
      simp only [Stream.step, run, bytes]
      exact fifo.advance (by omega)
    · exact absurd (allowed k short) (by simp [denied])

/-- A read delivers what it takes out of the pipe exactly when all of that can be
written, and readers who see to that get what was written. -/
theorem piperead_delivers (pipe : Pipe) (user : UserSpace) (addr : Nat) (n : Int)
    (fits : pipe.Fits) :
    (Delivers pipe addr (piperead pipe user addr n) ↔ Writable pipe user addr n) ∧
    ∀ s, streams.Reachable s → s.delivered <+: s.stored ∧
      s.pipe.available = s.stored.length - s.delivered.length := by
  refine ⟨delivers_iff fits, fun s reachable => ?_⟩
  have fifo : Fifo s.pipe s.stored s.delivered := by
    refine reachable.invariant (motive := fun s => Fifo s.pipe s.stored s.delivered) ?_ ?_
    · rintro s ⟨nread, nwrite, stored, delivered⟩
      rw [stored, delivered]
      exact ⟨nwrite, nread, Nat.zero_le _, prefix_rfl,
        fun k _ below => absurd below (Nat.not_lt_zero k)⟩
    · intro s call s' _ fifo allowed moved
      cases moved
      exact Stream.fifo_step fifo allowed
  exact ⟨fifo.order, fifo.available⟩

def Stream.start : Stream := ⟨⟨fun _ => 0, 0, 0, true, true⟩, [], []⟩

def Stream.twoBytes : Stream := (start.step (.store 1)).step (.store 2)

def memory (writable : Bool) : UserSpace := ⟨fun _ => 0, fun _ => writable⟩

theorem piperead_delivers_twoBytes :
    Delivers Stream.twoBytes.pipe 0 (piperead Stream.twoBytes.pipe (memory true) 0 2) ∧
      Stream.twoBytes.delivered <+: Stream.twoBytes.stored := by
  have first : streams.Reachable (Stream.start.step (.store 1)) :=
    .step (.initial ⟨rfl, rfl, rfl, rfl⟩)
      (show streams.allowed Stream.start (.store 1) from trivial) rfl
  have reachable : streams.Reachable Stream.twoBytes :=
    .step first (show streams.allowed _ (.store 2) from trivial) rfl
  obtain ⟨delivers, runs⟩ :=
    piperead_delivers Stream.twoBytes.pipe (memory true) 0 2 ⟨by decide, by decide⟩
  exact ⟨delivers.mpr fun _ _ => rfl, (runs _ reachable).1⟩

/-- A read to memory that cannot be written returns zero, and the next one gets the
second byte. -/
theorem piperead_loses :
    (piperead Stream.twoBytes.pipe (memory false) 0 1).1 = 0 ∧
    (piperead Stream.twoBytes.pipe (memory false) 0 1).2.1.nread = 1 ∧
    ((Stream.twoBytes.step (.piperead (memory false) 0 1)).step
      (.piperead (memory true) 0 1)).delivered = [2] ∧
    ((Stream.twoBytes.step (.piperead (memory false) 0 1)).step
      (.piperead (memory true) 0 1)).stored = [1, 2] := by
  decide

end Xv6.Pipes
