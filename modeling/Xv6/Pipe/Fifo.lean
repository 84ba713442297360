import Xv6.Pipe.Protocol

/-!
# A pipe is a bounded queue

The counters of a pipe are the lengths of two histories, modulo `2 ^ 32`: the
bytes stored and the bytes taken. Since `PIPESIZE` divides `2 ^ 32`, the position
of a byte in `data` is its position in the history modulo `PIPESIZE`, however
often the counters have wrapped.
-/

namespace Xv6.Pipes

open List
open Function

variable {pipe : Pipe} {stored taken : List UInt8} {ch : UInt8}

structure Fifo (pipe : Pipe) (stored taken : List UInt8) : Prop where
  nwrite : pipe.nwrite = stored.length % 2 ^ 32
  nread : pipe.nread = taken.length % 2 ^ 32
  capacity : stored.length ≤ taken.length + pipeSize
  order : taken <+: stored
  data : ∀ k, taken.length ≤ k → k < stored.length → stored[k]? = some (pipe.data (k % pipeSize))

namespace Fifo

section

variable (fifo : Fifo pipe stored taken)

include fifo

theorem nread_eq_nwrite_iff :
    pipe.nread = pipe.nwrite ↔ taken.length = stored.length := by
  have := fifo.order.length_le
  have := fifo.capacity
  rw [fifo.nread, fifo.nwrite]
  unfold pipeSize at *
  omega

theorem full_iff :
    pipe.nwrite = (pipe.nread + pipeSize) % 2 ^ 32 ↔ stored.length = taken.length + pipeSize := by
  have := fifo.order.length_le
  have := fifo.capacity
  rw [fifo.nread, fifo.nwrite]
  unfold pipeSize at *
  omega

theorem slot :
    pipe.nwrite % pipeSize = stored.length % pipeSize ∧
      pipe.nread % pipeSize = taken.length % pipeSize := by
  rw [fifo.nread, fifo.nwrite]
  unfold pipeSize
  omega

theorem store (room : pipe.nwrite ≠ (pipe.nread + pipeSize) % 2 ^ 32) :
    Fifo { pipe with
      data := update pipe.data (pipe.nwrite % pipeSize) ch
      nwrite := (pipe.nwrite + 1) % 2 ^ 32 } (stored ++ [ch]) taken := by
  have shorter := fifo.order.length_le
  have capacity := fifo.capacity
  have notFull : stored.length ≠ taken.length + pipeSize :=
    fun full => room (fifo.full_iff.mpr full)
  refine ⟨?_, fifo.nread, ?_, fifo.order.trans (prefix_append _ _), fun k low high => ?_⟩
  · change (pipe.nwrite + 1) % 2 ^ 32 = _
    rw [length_append, length_singleton, fifo.nwrite]
    omega
  · rw [length_append, length_singleton]
    omega
  · rw [length_append, length_singleton] at high
    change _ = some (update pipe.data (pipe.nwrite % pipeSize) ch (k % pipeSize))
    rw [fifo.slot.1]
    by_cases last : k = stored.length
    · subst last
      rw [update_self]
      simp
    · -- another position of the pipe, less than a whole turn away
      have elsewhere : k % pipeSize ≠ stored.length % pipeSize := by
        unfold pipeSize at *
        omega
      rw [update_of_ne elsewhere, getElem?_append_left (by omega)]
      exact fifo.data k low (by omega)

theorem take (more : pipe.nread ≠ pipe.nwrite) :
    Fifo { pipe with nread := (pipe.nread + 1) % 2 ^ 32 } stored
      (taken ++ [pipe.data (pipe.nread % pipeSize)]) := by
  have shorter := fifo.order.length_le
  have capacity := fifo.capacity
  have nonempty : taken.length < stored.length := by
    have different : taken.length ≠ stored.length :=
      fun same => more (fifo.nread_eq_nwrite_iff.mpr same)
    omega
  refine ⟨fifo.nwrite, ?_, ?_, ?_, fun k low high => ?_⟩
  · change (pipe.nread + 1) % 2 ^ 32 = _
    rw [length_append, length_singleton, fifo.nread]
    omega
  · rw [length_append, length_singleton]
    omega
  · have next := fifo.data taken.length le_rfl nonempty
    obtain ⟨rest, rfl⟩ := fifo.order
    rw [fifo.slot.2]
    cases rest with
    | nil => simp at nonempty
    | cons first rest =>
      obtain rfl : first = pipe.data (taken.length % pipeSize) := by simpa using next
      exact ⟨rest, by simp⟩
  · rw [length_append, length_singleton] at low
    exact fifo.data k (by omega) high

end

end Fifo

/-- The bytes that a call of `pipewrite` has stored, by the code's own account. -/
def Pc.progress : Pc → Option Nat
  | .writeCall _ => some 0
  | .writing _ i _ | .writeFull _ i | .writeAsleep _ i | .writeWoken _ i => some i
  | .written result => if 0 ≤ result then some result.toNat else none
  | _ => none

@[simp] theorem Pc.progress_wakeRead (pc : Pc) : pc.wakeRead.progress = pc.progress := by
  cases pc <;> rfl

@[simp] theorem Pc.progress_wakeWrite (pc : Pc) : pc.wakeWrite.progress = pc.progress := by
  cases pc <;> rfl

theorem Pc.progress_written (i : Nat) : (Pc.written i).progress = some i := by
  simp [Pc.progress]

variable {Pid : Type} [DecidableEq Pid] {s s' : State Pid} {p : Pid} {action : Action}
  {pc : Pc}

/-- Every call counts right. -/
def Counted (s : State Pid) : Prop := ∀ p i, (s.pc p).progress = some i → s.count p = i

namespace Counted

theorem setPc (counted : Counted s) (here : ∀ i, pc.progress = some i → s.count p = i) :
    Counted (s.setPc p pc) := by
  intro q i progress
  by_cases same : q = p
  · subst same
    rw [State.setPc_self] at progress
    exact here i progress
  · rw [State.setPc_of_ne _ _ same] at progress
    exact counted q i progress

theorem keep {before : Pc} (counted : Counted s) (at' : s.pc p = before)
    (same : ∀ i, pc.progress = some i → before.progress = some i) : Counted (s.setPc p pc) :=
  counted.setPc fun i progress => counted p i (at' ▸ same i progress)

omit [DecidableEq Pid] in
theorem wakeRead (counted : Counted s) : Counted s.wakeRead := by
  intro q i progress
  exact counted q i (by simpa [State.wakeRead] using progress)

omit [DecidableEq Pid] in
theorem wakeWrite (counted : Counted s) : Counted s.wakeWrite := by
  intro q i progress
  exact counted q i (by simpa [State.wakeWrite] using progress)

theorem recount (counted : Counted s) (count : Nat) (here : ∀ i, pc.progress = some i → count = i) :
    Counted ({ s with count := update s.count p count }.setPc p pc) := by
  intro q i progress
  by_cases same : q = p
  · subst same
    rw [State.setPc_self] at progress
    exact (update_self ..).trans (here i progress)
  · rw [State.setPc_of_ne _ _ same] at progress
    exact (update_of_ne same ..).trans (counted q i progress)

end Counted

structure Inv (s : State Pid) : Prop where
  fifo : Fifo s.pipe s.stored s.taken
  counted : Counted s

namespace Inv

omit [DecidableEq Pid] in
theorem initial (start : Initial s) : Inv s := by
  refine ⟨?_, fun p i progress => ?_⟩
  · rw [start.stored, start.taken]
    exact ⟨start.nwrite, start.nread, by simp, nil_prefix, by simp⟩
  · simp [start.pc p, Pc.progress] at progress

omit [DecidableEq Pid] in
theorem pipeclose (inv : Inv s) (writable : Bool) : Inv (s.pipeclose writable) := by
  obtain ⟨⟨nwrite, nread, capacity, order, data⟩, counted⟩ := inv
  cases writable with
  | true => exact ⟨⟨nwrite, nread, capacity, order, data⟩, counted.wakeRead⟩
  | false => exact ⟨⟨nwrite, nread, capacity, order, data⟩, counted.wakeWrite⟩

/-- Asleep or not, a killed process has stored what it had stored. -/
theorem kill (inv : Inv s) : Inv (s.kill p) := by
  refine ⟨inv.fifo, fun q i progress => inv.counted q i ?_⟩
  by_cases same : q = p
  · subst same
    simpa [State.kill, State.setPc] using progress
  · simpa [State.kill, State.setPc, update_of_ne same] using progress

theorem step (inv : Inv s) (effect : Effect s p action s') : Inv s' := by
  obtain ⟨fifo, counted⟩ := inv
  cases effect with
  | callWrite resting => exact ⟨fifo, counted.recount 0 (by simp [Pc.progress])⟩
  | callRead | lockRead | giveUp | sleepRead | stopRead | startRead =>
    exact ⟨fifo, counted.setPc (by simp [Pc.progress])⟩
  | @lockWrite n i _ at' free =>
    refine ⟨fifo, Counted.setPc (s := { s with lock := some p }) counted fun j progress => ?_⟩
    rcases at' with ⟨at', rfl⟩ | at'
    · exact counted p j (at' ▸ progress)
    · exact counted p j (at' ▸ progress)
  | @full n i start _ at' readopen full =>
    have woken : s.wakeRead.pc p = .writing n i start := by simp [State.wakeRead, at', Pc.wakeRead]
    exact ⟨fifo, counted.wakeRead.keep woken fun _ => id⟩
  | @store n i start ch _ at' readopen alive room =>
    refine ⟨fifo.store room, ?_⟩
    have before := counted p i (by simp [at', Pc.progress])
    refine counted.recount (s.count p + 1) fun j progress => ?_
    rw [before]
    exact Option.some.inj progress
  | @finishWrite n i start _ at' =>
    have woken : s.wakeRead.pc p = .writing n i start := by simp [State.wakeRead, at', Pc.wakeRead]
    refine ⟨fifo, counted.wakeRead.keep woken fun j => ?_⟩
    rw [Pc.progress_written]
    exact id
  | sleepWrite at' => exact ⟨fifo, counted.keep at' fun _ => id⟩
  | take at' more => exact ⟨fifo.take more, counted.setPc (by simp [Pc.progress])⟩
  | takeLast at' more => exact ⟨fifo.take more, counted.wakeWrite.setPc (by simp [Pc.progress])⟩
  | finishRead at' => exact ⟨fifo, counted.wakeWrite.setPc (by simp [Pc.progress])⟩
  | pipeclose resting free => exact pipeclose ⟨fifo, counted⟩ _
  | kill => exact kill ⟨fifo, counted⟩

end Inv

theorem reachable_inv (reachable : (system Pid).Reachable s) : Inv s :=
  reachable.invariant (motive := Inv) (fun _ start => .initial start)
    fun _ _ _ _ inv _ moved => inv.step (step_effect moved)

/-- A pipe never holds more than `PIPESIZE` bytes, it hands them out in the
order in which they came in, and `pipewrite` returns how many it stored. -/
theorem pipe_fifo (reachable : (system Pid).Reachable s) :
    (s.pipe.nwrite + 2 ^ 32 - s.pipe.nread) % 2 ^ 32 ≤ pipeSize ∧ s.taken <+: s.stored ∧
      ∀ p result, s.pc p = .written result → 0 ≤ result → result = s.count p := by
  have inv := reachable_inv reachable
  refine ⟨?_, inv.fifo.order, fun p result returned nonneg => ?_⟩
  · have := inv.fifo.order.length_le
    have := inv.fifo.capacity
    rw [inv.fifo.nwrite, inv.fifo.nread]
    unfold pipeSize at *
    omega
  · rw [inv.counted p result.toNat (by simp [returned, Pc.progress, nonneg])]
    exact (Int.toNat_of_nonneg nonneg).symm

def newPipe : State Bool where
  pipe := ⟨fun _ => 0, 0, 0, true, true⟩
  lock := none
  freed := false
  killed _ := false
  pc _ := .outside
  stored := []
  taken := []
  count _ := 0

theorem newPipe_initial : Initial newPipe :=
  ⟨rfl, rfl, rfl, rfl, rfl, rfl, fun _ => rfl, rfl, rfl⟩

instance {Pid : Type} [DecidableEq Pid] (s : State Pid) (label : Pid × Action) :
    Decidable ((system Pid).allowed s label) :=
  isTrue trivial

/-- Two bytes are written, `copyin` of the third fails, and one is read. -/
theorem pipe_fifo_oneRead : ∃ s, (system Bool).Reachable s ∧ s.pc true = .written 2 ∧
    s.taken = [7] ∧ s.taken <+: s.stored := by
  obtain ⟨s, reachable, written, taken⟩ := (system Bool).exists_reachable newPipe_initial
    [(true, .pipewrite 3), (true, .run none), (true, .run (some 7)), (true, .run (some 8)),
      (true, .run none), (false, .piperead 1), (false, .run none), (false, .run none),
      (false, .run (some 0)), (false, .run none)]
    (motive := fun s => s.pc true = .written 2 ∧ s.taken = [7]) (by decide +kernel)
  exact ⟨s, reachable, written, taken, (pipe_fifo reachable).2.1⟩

end Xv6.Pipes
