import Xv6.Log.Commit

/-!
# Crash atomicity of the log

The disk that recovery would produce is a function of the disk alone. Every
write of `recoverFromLog` keeps it, so interrupting and restarting recovery is
harmless; every write of `commit` keeps it too, except the first header write,
which installs the whole transaction at once.
-/

namespace Xv6.Log

open List
open Function

def pending (start : Nat) (disk : Nat → Block) : List (Nat × Block) :=
  homeWrites disk start 0 (decodeHeader (disk start))

/-- The disk overlaid with the blocks its header lists. -/
def recovered (start : Nat) (disk : Nat → Block) : Nat → Block :=
  applyWrites (pending start disk) disk

/-- The header on disk lists blocks outside the log, no more than there are
slots for. -/
structure SoundHeader (start size : Nat) (disk : Nat → Block) : Prop where
  room : (decodeHeader (disk start)).length < size
  outside : ∀ blockno ∈ decodeHeader (disk start), blockno < start ∨ start + size ≤ blockno

variable {disk : Nat → Block}

theorem recovered_of_cleared {start : Nat} (cleared : decodeHeader (disk start) = []) :
    recovered start disk = disk := by
  simp [recovered, pending, cleared, homeWrites]

variable {start size : Nat}

theorem SoundHeader.of_cleared (positive : 0 < size) (cleared : decodeHeader (disk start) = []) :
    SoundHeader start size disk :=
  ⟨by simpa [cleared] using positive, by simp [cleared]⟩

section

variable (sound : SoundHeader start size disk)

include sound

theorem pending_outside {write : Nat × Block} (member : write ∈ pending start disk) :
    write.1 < start ∨ start + size ≤ write.1 :=
  sound.outside _ (mem_homeWrites member)

theorem applyWrites_pending_region (count : Nat) {blockno : Nat}
    (low : start ≤ blockno) (high : blockno < start + size) :
    applyWrites ((pending start disk).take count) disk blockno = disk blockno := by
  apply applyWrites_of_untouched
  intro write member
  have := pending_outside sound (mem_of_mem_take member)
  omega

/-- The disk after a prefix of the home writes owes the same home writes. -/
theorem pending_installing (count : Nat) :
    pending start (applyWrites ((pending start disk).take count) disk) = pending start disk := by
  have room := sound.room
  have header := applyWrites_pending_region sound count (le_refl start) (by omega)
  simp only [pending] at header ⊢
  rw [header]
  apply homeWrites_congr
  intro i _ high
  exact applyWrites_pending_region sound count (by omega) (by omega)

theorem recoverFromLog_writes :
    (recoverFromLog start).writes (.reboot disk) =
      pending start disk ++ [(start, encodeHeader (disk start) [])] := by
  have room := sound.room
  have installed := installTransFrom_spec start 0 (decodeHeader (disk start)) (.reboot disk)
    fun blockno member => by have := sound.outside blockno member; omega
  have header : applyWrites (homeWrites disk start 0 (decodeHeader (disk start))) disk start =
      disk start := by
    have := applyWrites_pending_region sound (pending start disk).length (le_refl start) (by omega)
    rwa [take_length] at this
  simp only [recoverFromLog, readHead, installTrans, DiskProgram.writes_bind,
    DiskProgram.run_bind, bread_writes, bread_run, DiskProgram.writes_pure,
    DiskProgram.run_pure, nil_append, writeHead_writes]
  change (installTransFrom start 0 (decodeHeader (disk start))).writes (.reboot disk) ++
    [(start, encodeHeader
      (((installTransFrom start 0 (decodeHeader (disk start))).run (.reboot disk)).2.cache start)
        [])] = _
  rw [installed.1, installed.2]
  simp only [written, Device.reboot, pending, header]

end

/-- The three facts about a disk that every write of recovery preserves. -/
structure Recovers (start size : Nat) (target disk : Nat → Block) : Prop where
  sound : SoundHeader start size disk
  agrees : ∀ blockno, blockno < start ∨ start + size ≤ blockno →
    recovered start disk blockno = target blockno

section

variable {target : Nat → Block} (recovers : Recovers start size target disk)

include recovers

theorem Recovers.cleared :
    Recovers start size target
        (update (recovered start disk) start (encodeHeader (disk start) [])) ∧
      headerCount (update (recovered start disk) start
        (encodeHeader (disk start) []) start) = 0 := by
  have zero : headerCount (update (recovered start disk) start
      (encodeHeader (disk start) []) start) = 0 := by simp
  have empty := decodeHeader_of_count_zero zero
  have room := recovers.sound.room
  refine ⟨⟨.of_cleared (by omega) empty, ?_⟩, zero⟩
  intro blockno outside
  rw [recovered_of_cleared empty, update_of_ne (by omega)]
  exact recovers.agrees blockno outside

/-- A crash at any point of recovery leaves a disk with the same recovered
contents. -/
theorem Recovers.crash (count : Nat) :
    Recovers start size target ((recoverFromLog start).crash count (.reboot disk)) := by
  have room := recovers.sound.room
  simp only [DiskProgram.crash, recoverFromLog_writes recovers.sound]
  by_cases installing : count ≤ (pending start disk).length
  · rw [take_append_of_le_length installing]
    have same := pending_installing recovers.sound count
    have header := applyWrites_pending_region recovers.sound count (le_refl start) (by omega)
    refine ⟨⟨?_, ?_⟩, ?_⟩
    · simpa only [Device.reboot, header] using room
    · simpa only [Device.reboot, header] using recovers.sound.outside
    · intro blockno outside
      simp only [Device.reboot]
      rw [recovered, same, applyWrites_take_redo]
      exact recovers.agrees blockno outside
  · rw [take_of_length_le (by simp; omega), applyWrites_append]
    exact recovers.cleared.1

theorem Recovers.restarts (restarts : List Nat) :
    Recovers start size target
      (restarts.foldl (fun found count => (recoverFromLog start).crash count (.reboot found))
        disk) := by
  induction restarts generalizing disk with
  | nil => exact recovers
  | cons count rest ih => exact ih (recovers.crash count)

theorem Recovers.complete :
    (∀ blockno, blockno < start ∨ start + size ≤ blockno →
        ((recoverFromLog start).run (.reboot disk)).2.disk blockno = target blockno) ∧
      headerCount (((recoverFromLog start).run (.reboot disk)).2.disk start) = 0 := by
  rw [DiskProgram.run_disk, recoverFromLog_writes recovers.sound, applyWrites_append]
  obtain ⟨clean, zero⟩ := recovers.cleared
  refine ⟨?_, zero⟩
  intro blockno outside
  have := clean.agrees blockno outside
  rwa [recovered_of_cleared (decodeHeader_of_count_zero zero)] at this

end

theorem applyWrites_map (blocks : List Nat) (source disk : Nat → Block) (blockno : Nat) :
    applyWrites (blocks.map fun b => (b, source b)) disk blockno =
      if blockno ∈ blocks then source blockno else disk blockno := by
  induction blocks generalizing disk with
  | nil => simp
  | cons first rest ih =>
    rw [map_cons, applyWrites_cons, ih]
    by_cases later : blockno ∈ rest
    · simp [later]
    · by_cases here : blockno = first
      · simp [here]
      · simp [later, here]

variable (log : Log) (device : Device Block)

/-- The disk after the transaction: every logged block holds its cached
contents. -/
def committedDisk : Nat → Block := fun blockno =>
  if blockno ∈ log.lh.block then device.cache blockno else device.disk blockno

def headedDisk : Nat → Block :=
  update
    (applyWrites (slotWrites log.start 0 (log.lh.block.map device.cache)) device.disk)
    log.start (encodeHeader (device.cache log.start) log.lh.block)

section commit

variable {log device}
variable (room : log.lh.block.length + 1 ≤ log.size)
  (outside : ∀ blockno ∈ log.lh.block, ¬ log.Region blockno)

include outside in
theorem home_outside (blockno : Nat) (member : blockno ∈ log.lh.block) :
    blockno < log.start ∨ log.start + log.size ≤ blockno := by
  have := outside blockno member
  simp only [Log.Region, not_and_or] at this
  omega

theorem decodeHeader_headedDisk :
    decodeHeader (headedDisk log device log.start) = log.lh.block := by
  simp only [headedDisk, update_self]
  exact decodeHeader_encodeHeader _ _ log.lh.length_le log.lh.fits

theorem pending_headedDisk : pending log.start (headedDisk log device) =
    log.lh.block.map fun blockno => (blockno, device.cache blockno) := by
  rw [pending, decodeHeader_headedDisk, ← homeWrites_slotWrites log.lh.block device.cache
    log.start 0 device.disk]
  apply homeWrites_congr
  intro i _ _
  exact update_of_ne (by omega) _ _

include room outside in
theorem headedDisk_recovers :
    Recovers log.start log.size (committedDisk log device) (headedDisk log device) := by
  refine ⟨⟨?_, ?_⟩, ?_⟩
  · rw [decodeHeader_headedDisk]
    omega
  · rw [decodeHeader_headedDisk]
    exact home_outside outside
  · intro blockno away
    rw [recovered, pending_headedDisk, applyWrites_map, committedDisk]
    split
    · rfl
    · rw [headedDisk, update_of_ne (by omega)]
      apply applyWrites_of_untouched
      intro write member
      have := mem_slotWrites member
      simp only [length_map] at this
      omega

include room outside in
/-- The writes of `commit` are the slot writes, the header write, and then the
writes of a recovery that starts from the disk with that header. -/
theorem commit_writes (positive : 0 < log.lh.block.length) :
    (commit log).writes device =
      slotWrites log.start 0 (log.lh.block.map device.cache) ++
        (log.start, encodeHeader (device.cache log.start) log.lh.block) ::
          (recoverFromLog log.start).writes (.reboot (headedDisk log device)) := by
  have away := home_outside outside
  have copied := writeLogFrom_spec log.start 0 log.lh.block device
    fun blockno member => by have := away blockno member; omega
  have sound : SoundHeader log.start log.size (headedDisk log device) :=
    (headedDisk_recovers room outside).sound
  set slots := slotWrites log.start 0 (log.lh.block.map device.cache)
  have untouched : ∀ write ∈ slots, write.1 ≠ log.start := by
    intro write member
    have := mem_slotWrites member
    omega
  have headerCache : applyWrites slots device.cache log.start = device.cache log.start :=
    applyWrites_of_untouched untouched _
  set headed := written [(log.start, encodeHeader (device.cache log.start) log.lh.block)]
    (written slots device) with headedDef
  have installed := installTransFrom_spec log.start 0 log.lh.block headed
    fun blockno member => by have := away blockno member; omega
  have homes : homeWrites headed.cache log.start 0 log.lh.block =
      pending log.start (headedDisk log device) := by
    rw [pending_headedDisk, ← homeWrites_slotWrites log.lh.block device.cache log.start 0
      device.cache]
    apply homeWrites_congr
    intro i _ _
    exact update_of_ne (by omega) _ _
  have cleared : applyWrites (pending log.start (headedDisk log device)) headed.cache log.start =
      headedDisk log device log.start := by
    rw [applyWrites_of_untouched]
    · simp [headedDef, written, headedDisk]
    · intro write member
      have := pending_outside sound member
      omega
  rw [recoverFromLog_writes sound, commit, if_pos positive]
  simp only [writeLog, installTrans, DiskProgram.writes_bind, copied.1, copied.2,
    writeHead_writes, writeHead_run]
  simp only [written, headerCache]
  change slots ++ ([_] ++ ((installTransFrom log.start 0 log.lh.block).writes headed ++
    [(log.start, encodeHeader
      (((installTransFrom log.start 0 log.lh.block).run headed).2.cache log.start) [])])) = _
  rw [installed.1, installed.2, homes]
  simp only [written, cleared, singleton_append]

include room outside in
/-- A crash before the header write leaves the old disk to be recovered, a
crash after it the new one. -/
theorem commit_crash_recovers (positive : 0 < log.lh.block.length)
    (clean : headerCount (device.disk log.start) = 0) (count : Nat) :
    (count ≤ log.lh.block.length ∧
        Recovers log.start log.size device.disk ((commit log).crash count device)) ∨
      (log.lh.block.length < count ∧
        Recovers log.start log.size (committedDisk log device)
          ((commit log).crash count device)) := by
  have sequence : (commit log).writes device = _ := commit_writes room outside positive
  set slots := slotWrites log.start 0 (log.lh.block.map device.cache) with slotsDef
  have length : slots.length = log.lh.block.length := by simp [slotsDef]
  simp only [DiskProgram.crash, sequence]
  by_cases early : count ≤ log.lh.block.length
  · left
    refine ⟨early, ?_⟩
    rw [take_append_of_le_length (by omega)]
    have inside : ∀ write ∈ slots.take count,
        log.start < write.1 ∧ write.1 < log.start + log.size := by
      intro write member
      have := mem_slotWrites (mem_of_mem_take member)
      simp only [length_map] at this
      omega
    have header : applyWrites (slots.take count) device.disk log.start =
        device.disk log.start :=
      applyWrites_of_untouched (fun write member => by have := inside write member; omega) _
    have empty : decodeHeader (applyWrites (slots.take count) device.disk log.start) = [] := by
      rw [header]
      exact decodeHeader_of_count_zero clean
    refine ⟨.of_cleared (by omega) empty, ?_⟩
    intro blockno away
    rw [recovered_of_cleared empty]
    exact applyWrites_of_untouched (fun write member => by have := inside write member; omega) _
  · right
    refine ⟨by omega, ?_⟩
    have split : count = slots.length + (count - slots.length - 1 + 1) := by omega
    rw [split, take_length_add_append, take_succ_cons, applyWrites_append, applyWrites_cons]
    exact (headedDisk_recovers room outside).crash _

end commit

/-- The disk after `commit` was cut off by a crash, each of `restarts` let one
recovery run for that many writes, and a last recovery completed. -/
def diskAfterCrash (count : Nat) (restarts : List Nat) : Nat → Block :=
  let crashed := (commit log).crash count device
  let found := restarts.foldl
    (fun disk writes => (recoverFromLog log.start).crash writes (.reboot disk)) crashed
  ((recoverFromLog log.start).run (.reboot found)).2.disk

/-- Whatever the crash points, recovery produces the old disk or the new one
outside the log: the new one as soon as there was one write more than there are
blocks in the transaction, which is the header write. It leaves an empty header. -/
theorem commit_crash_atomic (room : log.lh.block.length + 1 ≤ log.size)
    (outside : ∀ blockno ∈ log.lh.block, ¬ log.Region blockno)
    (clean : headerCount (device.disk log.start) = 0) (count : Nat) (restarts : List Nat) :
    (count ≤ log.lh.block.length → ∀ blockno, ¬ log.Region blockno →
        diskAfterCrash log device count restarts blockno = device.disk blockno) ∧
      (log.lh.block.length < count → ∀ blockno, ¬ log.Region blockno →
        diskAfterCrash log device count restarts blockno = committedDisk log device blockno) ∧
      ((∃ write ∈ ((commit log).writes device).take count, write.1 = log.start) →
        ∀ blockno, ¬ log.Region blockno →
          diskAfterCrash log device count restarts blockno =
            committedDisk log device blockno) ∧
      headerCount (diskAfterCrash log device count restarts log.start) = 0 := by
  have away : ∀ blockno, ¬ log.Region blockno →
      blockno < log.start ∨ log.start + log.size ≤ blockno := by
    intro blockno notRegion
    simp only [Log.Region, not_and_or] at notRegion
    omega
  have finish : ∀ target, Recovers log.start log.size target ((commit log).crash count device) →
      (∀ blockno, ¬ log.Region blockno →
        diskAfterCrash log device count restarts blockno = target blockno) ∧
      headerCount (diskAfterCrash log device count restarts log.start) = 0 := by
    intro target recovers
    have done := (recovers.restarts restarts).complete
    exact ⟨fun blockno notRegion => done.1 blockno (away blockno notRegion), done.2⟩
  by_cases positive : 0 < log.lh.block.length
  · rcases commit_crash_recovers room outside positive clean count with
      ⟨early, recovers⟩ | ⟨late, recovers⟩
    · refine ⟨fun _ => (finish _ recovers).1, fun late => absurd late (by omega), ?_,
        (finish _ recovers).2⟩
      rintro ⟨write, member, header⟩
      rw [commit_writes room outside positive, take_append_of_le_length] at member
      · have := mem_slotWrites (mem_of_mem_take member)
        omega
      · simpa [slotWrites_length] using early
    · have new := (finish _ recovers).1
      exact ⟨fun early => absurd early (by omega), fun _ => new, fun _ => new,
        (finish _ recovers).2⟩
  · -- an empty transaction writes nothing, so old and new disk coincide
    have empty : log.lh.block = [] := length_eq_zero_iff.mp (by omega)
    have same : committedDisk log device = device.disk := by
      funext blockno
      simp [committedDisk, empty]
    have idle : (commit log).crash count device = device.disk := by
      simp [commit, empty, DiskProgram.crash]
    have recovers : Recovers log.start log.size device.disk ((commit log).crash count device) := by
      rw [idle]
      refine ⟨.of_cleared (by omega) (decodeHeader_of_count_zero clean), ?_⟩
      intro blockno _
      rw [recovered_of_cleared (decodeHeader_of_count_zero clean)]
    rw [same]
    have both := (finish _ recovers).1
    exact ⟨fun _ => both, fun _ => both, fun _ => both, (finish _ recovers).2⟩

def twoBlockLog : Log := ⟨2, logSize, ⟨[40, 50], by decide, by decide⟩⟩

def modifiedDevice : Device Block := ⟨fun _ _ => 1, fun _ _ => 0⟩

/-- Two of the six writes leave the old blocks, and three the new ones. -/
theorem commit_crash_atomic_twoBlocks :
    (∀ blockno ∈ [40, 50], diskAfterCrash twoBlockLog modifiedDevice 2 [1, 0] blockno = fun _ =>
      0) ∧
      (∀ blockno ∈ [40, 50], diskAfterCrash twoBlockLog modifiedDevice 3 [1, 0] blockno = fun _ =>
        1) ∧
      headerCount (diskAfterCrash twoBlockLog modifiedDevice 3 [1, 0] twoBlockLog.start) = 0 := by
  have outside : ∀ blockno ∈ [40, 50], ¬ twoBlockLog.Region blockno := by
    simp [twoBlockLog, Log.Region, logSize, maxOpBlocks]
  have atomic : ∀ count, _ := fun count =>
    commit_crash_atomic twoBlockLog modifiedDevice (by decide) outside (by decide) count [1, 0]
  refine ⟨fun blockno member => (atomic 2).1 (by decide) blockno (outside blockno member),
    fun blockno member => ?_, (atomic 3).2.2.2⟩
  rw [(atomic 3).2.1 (by decide) blockno (outside blockno member)]
  exact if_pos member

end Xv6.Log
