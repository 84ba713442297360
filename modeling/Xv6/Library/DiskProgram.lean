import Mathlib

/-!
# Programs over a block device with a buffer cache

A program fetches blocks from the cache, changes cached copies and flushes
them to the disk one block at a time. Only flushes reach the disk, in program
order, so a crash leaves the disk after some prefix of the flushes.
-/

universe u v

/-- Apply a sequence of block writes, the last one to a block winning. -/
def applyWrites {Content : Type u} :
    List (Nat × Content) → (Nat → Content) → Nat → Content
  | [], disk => disk
  | (block, content) :: rest, disk => applyWrites rest (Function.update disk block content)

section applyWrites

variable {Content : Type u}

@[simp]
theorem applyWrites_nil (disk : Nat → Content) : applyWrites [] disk = disk := rfl

@[simp]
theorem applyWrites_cons (block : Nat) (content : Content) (rest : List (Nat × Content))
    (disk : Nat → Content) :
    applyWrites ((block, content) :: rest) disk =
      applyWrites rest (Function.update disk block content) := rfl

theorem applyWrites_append (first second : List (Nat × Content)) (disk : Nat → Content) :
    applyWrites (first ++ second) disk = applyWrites second (applyWrites first disk) := by
  induction first generalizing disk with
  | nil => rfl
  | cons write rest ih =>
    obtain ⟨block, content⟩ := write
    exact ih _

variable {writes : List (Nat × Content)}

theorem applyWrites_of_untouched {block : Nat}
    (untouched : ∀ write ∈ writes, write.1 ≠ block) (disk : Nat → Content) :
    applyWrites writes disk block = disk block := by
  induction writes generalizing disk with
  | nil => rfl
  | cons write rest ih =>
    obtain ⟨target, content⟩ := write
    have different : block ≠ target := (untouched (target, content) (by simp)).symm
    rw [applyWrites_cons, ih (fun write member => untouched write (by simp [member])),
      Function.update_of_ne different]

/-- A block that is written ends with a value that does not depend on the disk
it started from. -/
theorem applyWrites_congr {block : Nat} {disk other : Nat → Content}
    (covered : (∃ write ∈ writes, write.1 = block) ∨ disk block = other block) :
    applyWrites writes disk block = applyWrites writes other block := by
  induction writes generalizing disk other with
  | nil =>
    rcases covered with ⟨write, member, _⟩ | equal
    · simp at member
    · exact equal
  | cons write rest ih =>
    obtain ⟨target, content⟩ := write
    apply ih
    by_cases here : block = target
    · subst here
      right
      simp
    · rcases covered with ⟨write, member, rfl⟩ | equal
      · rcases List.mem_cons.mp member with rfl | member
        · exact absurd rfl here
        · exact .inl ⟨write, member, rfl⟩
      · right
        simp [Function.update_of_ne here, equal]

/-- Repeating a sequence of writes after an interrupted first attempt has the
effect of a single attempt. -/
theorem applyWrites_take_redo (writes : List (Nat × Content)) (count : Nat) (disk : Nat → Content) :
    applyWrites writes (applyWrites (writes.take count) disk) = applyWrites writes disk := by
  funext block
  apply applyWrites_congr
  by_cases covered : ∃ write ∈ writes, write.1 = block
  · exact .inl covered
  · right
    apply applyWrites_of_untouched
    intro write member hits
    exact covered ⟨write, List.mem_of_mem_take member, hits⟩

end applyWrites

/-- The block device of a running machine: what the cache returns for each
block, and what the disk holds. -/
structure Device (Content : Type u) where
  cache : Nat → Content
  disk : Nat → Content

/-- A restarted machine knows only the disk. -/
def Device.reboot {Content : Type u} (disk : Nat → Content) : Device Content := ⟨disk, disk⟩

inductive DiskProgram (Content : Type u) (Result : Type v) where
  | done (result : Result)
  | fetch (block : Nat) (next : Content → DiskProgram Content Result)
  | modify (block : Nat) (content : Content) (next : DiskProgram Content Result)
  | flush (block : Nat) (next : DiskProgram Content Result)

namespace DiskProgram

open Function

variable {Content : Type u} {Result Other : Type v}

def andThen : DiskProgram Content Result → (Result → DiskProgram Content Other) →
    DiskProgram Content Other
  | .done result, k => k result
  | .fetch block next, k => .fetch block fun content => andThen (next content) k
  | .modify block content next, k => .modify block content (andThen next k)
  | .flush block next, k => .flush block (andThen next k)

instance : Monad (DiskProgram Content) where
  pure := .done
  bind := andThen

def run : DiskProgram Content Result → Device Content → Result × Device Content
  | .done result, device => (result, device)
  | .fetch block next, device => run (next (device.cache block)) device
  | .modify block content next, device =>
    run next { device with cache := update device.cache block content }
  | .flush block next, device =>
    run next { device with disk := update device.disk block (device.cache block) }

/-- The disk writes of an uninterrupted run, in program order. -/
def writes : DiskProgram Content Result → Device Content → List (Nat × Content)
  | .done _, _ => []
  | .fetch block next, device => writes (next (device.cache block)) device
  | .modify block content next, device =>
    writes next { device with cache := update device.cache block content }
  | .flush block next, device =>
    (block, device.cache block) ::
      writes next { device with disk := update device.disk block (device.cache block) }

/-- The disk found after a crash that let `count` writes through. -/
def crash (program : DiskProgram Content Result) (count : Nat) (device : Device Content) :
    Nat → Content :=
  applyWrites ((program.writes device).take count) device.disk

@[simp]
theorem writes_bind (program : DiskProgram Content Result)
    (k : Result → DiskProgram Content Other) (device : Device Content) :
    (program >>= k).writes device =
      program.writes device ++ (k (program.run device).1).writes (program.run device).2 := by
  change (andThen program k).writes device = _
  induction program generalizing device with
  | done result => simp [andThen, writes, run]
  | fetch block next ih => simpa [andThen, writes, run] using ih _ device
  | modify block content next ih | flush block next ih => simpa [andThen, writes, run] using ih _

@[simp]
theorem run_bind (program : DiskProgram Content Result)
    (k : Result → DiskProgram Content Other) (device : Device Content) :
    (program >>= k).run device = (k (program.run device).1).run (program.run device).2 := by
  change (andThen program k).run device = _
  induction program generalizing device with
  | done result => rfl
  | fetch block next ih => simpa [andThen, run] using ih _ device
  | modify block content next ih | flush block next ih => simpa [andThen, run] using ih _

@[simp]
theorem writes_pure (result : Result) (device : Device Content) :
    (pure result : DiskProgram Content Result).writes device = [] := rfl

@[simp]
theorem run_pure (result : Result) (device : Device Content) :
    (pure result : DiskProgram Content Result).run device = (result, device) := rfl

/-- An uninterrupted run leaves on the disk exactly its writes. -/
theorem run_disk (program : DiskProgram Content Result) (device : Device Content) :
    (program.run device).2.disk = applyWrites (program.writes device) device.disk := by
  induction program generalizing device with
  | done result => rfl
  | fetch block next ih => exact ih _ device
  | modify block content next ih => exact ih _
  | flush block next ih => exact ih _

end DiskProgram
