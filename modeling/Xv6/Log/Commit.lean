import Xv6.Param
import Xv6.Library.Bytes
import Xv6.Library.DiskProgram

/-!
# The redo log: commit and recovery

`kernel/log.c` keeps a header block at `log.start` and one slot per logged
block after it. `commit` copies the cached blocks to the slots, writes the
header, installs the slots at their home blocks and clears the header;
`recoverFromLog` repeats the last two steps from whatever header it finds.

The central notion is the recovered disk: the disk overlaid with the blocks
its header lists. Installing and clearing keep it unchanged at every write,
and the one header write of `commit` moves it from the old to the new disk.
-/

namespace Xv6

open List
open Function

/-- The contents of one disk block, read as bytes `0` to `bsize - 1`. -/
abbrev Block := ByteSpace

/-- `log.lh`: the home block numbers `block[0..n)` of the current transaction.
They fill a C array of `logSize` 32-bit words. -/
structure LogHeader where
  block : List Nat
  length_le : block.length ≤ logSize
  fits : ∀ blockno ∈ block, blockno < 256 ^ 4

structure Log where
  start : Nat
  size : Nat
  lh : LogHeader

def Log.Region (log : Log) (blockno : Nat) : Prop :=
  log.start ≤ blockno ∧ blockno < log.start + log.size

namespace Log

abbrev DiskM := DiskProgram Block

/-- `bread`: the cached contents of a block. -/
def bread (blockno : Nat) : DiskM Block := .fetch blockno .done

/-- Replace the cached contents of a block and `bwrite` it. -/
def bwrite (blockno : Nat) (data : Block) : DiskM Unit :=
  .modify blockno data (.flush blockno (.done ()))

/-- `hb->block[i] = log.lh.block[i]` for the blocks from index `i` on. -/
def storeBlocks (hb : Block) (i : Nat) : List Nat → Block
  | [] => hb
  | blockno :: rest => storeBlocks (hb.store (4 + 4 * i) 4 blockno) (i + 1) rest

/-- A header block after `writeHead` filled in `n` and the block numbers. -/
def encodeHeader (hb : Block) (blocks : List Nat) : Block :=
  storeBlocks (hb.store 0 4 blocks.length) 0 blocks

def headerCount (hb : Block) : Nat := hb.load 0 4

/-- The block numbers a header block lists. Its `n` is a signed integer, so a
value of `2^31` or more lists nothing. -/
def decodeHeader (hb : Block) : List Nat :=
  let n := headerCount hb
  (range (if n < 2 ^ 31 then n else 0)).map fun i => hb.load (4 + 4 * i) 4

def writeHead (start : Nat) (blocks : List Nat) : DiskM Unit := do
  let hb ← bread start
  bwrite start (encodeHeader hb blocks)

def readHead (start : Nat) : DiskM (List Nat) := do
  let hb ← bread start
  return decodeHeader hb

def installTransFrom (start tail : Nat) : List Nat → DiskM Unit
  | [] => pure ()
  | blockno :: rest => do
    let lbuf ← bread (start + tail + 1)
    let _dbuf ← bread blockno
    bwrite blockno lbuf
    installTransFrom start (tail + 1) rest

def installTrans (start : Nat) (blocks : List Nat) : DiskM Unit :=
  installTransFrom start 0 blocks

def writeLogFrom (start tail : Nat) : List Nat → DiskM Unit
  | [] => pure ()
  | blockno :: rest => do
    let _to ← bread (start + tail + 1)
    let source ← bread blockno
    bwrite (start + tail + 1) source
    writeLogFrom start (tail + 1) rest

def writeLog (start : Nat) (blocks : List Nat) : DiskM Unit :=
  writeLogFrom start 0 blocks

def recoverFromLog (start : Nat) : DiskM Unit := do
  let blocks ← readHead start
  installTrans start blocks
  writeHead start []

def commit (log : Log) : DiskM Unit :=
  if log.lh.block.length > 0 then do
    writeLog log.start log.lh.block
    writeHead log.start log.lh.block
    installTrans log.start log.lh.block
    writeHead log.start []
  else
    pure ()

/-! ## The header block -/

theorem load_storeBlocks_before (hb : Block) (i : Nat) (blocks : List Nat) {off : Nat}
    (before : off + 4 ≤ 4 + 4 * i) : (storeBlocks hb i blocks).load off 4 = hb.load off 4 := by
  induction blocks generalizing hb i with
  | nil => rfl
  | cons blockno rest ih =>
    rw [storeBlocks, ih _ _ (by omega), ByteSpace.load_store_disjoint _ _ (.inl before)]

theorem load_storeBlocks (hb : Block) (i : Nat) (blocks : List Nat)
    (fits : ∀ blockno ∈ blocks, blockno < 256 ^ 4) (j : Nat) (bound : j < blocks.length) :
    (storeBlocks hb i blocks).load (4 + 4 * (i + j)) 4 = blocks[j] := by
  induction blocks generalizing hb i j with
  | nil => simp at bound
  | cons blockno rest ih =>
    cases j with
    | zero =>
      rw [storeBlocks, load_storeBlocks_before _ _ _ (by omega), Nat.add_zero,
        ByteSpace.load_store_same, getElem_cons_zero]
      exact Nat.mod_eq_of_lt (fits blockno (by simp))
    | succ j =>
      have rest := ih (hb.store (4 + 4 * i) 4 blockno) (i + 1)
        (fun b member => fits b (by simp [member])) j (by simpa using bound)
      rw [storeBlocks, getElem_cons_succ, ← rest]
      congr 2
      omega

theorem headerCount_encodeHeader (hb : Block) (blocks : List Nat)
    (length_le : blocks.length ≤ logSize) :
    headerCount (encodeHeader hb blocks) = blocks.length := by
  simp only [logSize, maxOpBlocks] at length_le
  rw [headerCount, encodeHeader, load_storeBlocks_before _ _ _ (by omega),
    ByteSpace.load_store_same]
  exact Nat.mod_eq_of_lt (by omega)

theorem decodeHeader_encodeHeader (hb : Block) (blocks : List Nat)
    (length_le : blocks.length ≤ logSize) (fits : ∀ blockno ∈ blocks, blockno < 256 ^ 4) :
    decodeHeader (encodeHeader hb blocks) = blocks := by
  simp only [decodeHeader, headerCount_encodeHeader hb blocks length_le]
  simp only [logSize, maxOpBlocks] at length_le
  rw [if_pos (by omega)]
  apply ext_getElem (by simp)
  intro j bound inside
  simp only [getElem_map, getElem_range]
  simpa [encodeHeader] using load_storeBlocks (hb.store 0 4 blocks.length) 0 blocks fits j inside

theorem decodeHeader_of_count_zero {hb : Block} (zero : headerCount hb = 0) :
    decodeHeader hb = [] := by
  simp [decodeHeader, zero]

@[simp]
theorem headerCount_cleared (hb : Block) : headerCount (encodeHeader hb []) = 0 :=
  headerCount_encodeHeader hb [] (by simp)

/-! ## Writes of the log programs -/

@[simp]
theorem bread_writes (blockno : Nat) (device : Device Block) :
    (bread blockno).writes device = [] := rfl

@[simp]
theorem bread_run (blockno : Nat) (device : Device Block) :
    (bread blockno).run device = (device.cache blockno, device) := rfl

@[simp]
theorem bwrite_writes (blockno : Nat) (data : Block) (device : Device Block) :
    (bwrite blockno data).writes device = [(blockno, data)] := by
  simp [bwrite, DiskProgram.writes]

def written (writes : List (Nat × Block)) (device : Device Block) : Device Block :=
  ⟨applyWrites writes device.cache, applyWrites writes device.disk⟩

@[simp]
theorem bwrite_run (blockno : Nat) (data : Block) (device : Device Block) :
    (bwrite blockno data).run device = ((), written [(blockno, data)] device) := by
  simp [bwrite, DiskProgram.run, written]

theorem written_written (first second : List (Nat × Block)) (device : Device Block) :
    written second (written first device) = written (first ++ second) device := by
  simp [written, applyWrites_append]

/-- Slot writes: `contents` go to consecutive slots from index `tail` on. -/
def slotWrites (start tail : Nat) : List Block → List (Nat × Block)
  | [] => []
  | data :: rest => (start + tail + 1, data) :: slotWrites start (tail + 1) rest

/-- Home writes: each listed block receives the slot of its index. -/
def homeWrites (disk : Nat → Block) (start tail : Nat) : List Nat → List (Nat × Block)
  | [] => []
  | blockno :: rest => (blockno, disk (start + tail + 1)) :: homeWrites disk start (tail + 1) rest

@[simp]
theorem slotWrites_length (start tail : Nat) (contents : List Block) :
    (slotWrites start tail contents).length = contents.length := by
  induction contents generalizing tail with
  | nil => rfl
  | cons data rest ih => simp [slotWrites, ih]

variable {start tail : Nat}

theorem mem_slotWrites {contents : List Block} {write : Nat × Block}
    (member : write ∈ slotWrites start tail contents) :
    start + tail < write.1 ∧ write.1 ≤ start + tail + contents.length := by
  induction contents generalizing tail with
  | nil => simp [slotWrites] at member
  | cons data rest ih =>
    simp only [slotWrites, mem_cons, length_cons] at member ⊢
    rcases member with rfl | member
    · simp only
      omega
    · have bounds := ih member
      omega

theorem mem_homeWrites {disk : Nat → Block} {blocks : List Nat}
    {write : Nat × Block} (member : write ∈ homeWrites disk start tail blocks) :
    write.1 ∈ blocks := by
  induction blocks generalizing tail with
  | nil => simp [homeWrites] at member
  | cons blockno rest ih =>
    simp only [homeWrites, mem_cons] at member ⊢
    rcases member with rfl | member
    · exact .inl rfl
    · exact .inr (ih member)

theorem homeWrites_congr {disk other : Nat → Block} {blocks : List Nat}
    (agree : ∀ i, tail ≤ i → i < tail + blocks.length →
      disk (start + i + 1) = other (start + i + 1)) :
    homeWrites disk start tail blocks = homeWrites other start tail blocks := by
  induction blocks generalizing tail with
  | nil => rfl
  | cons blockno rest ih =>
    simp only [length_cons] at agree
    rw [homeWrites, homeWrites, agree tail le_rfl (by omega),
      ih fun i low high => agree i (by omega) (by omega)]

theorem homeWrites_slotWrites (blocks : List Nat) (source : Nat → Block) (start tail : Nat)
    (disk : Nat → Block) :
    homeWrites (applyWrites (slotWrites start tail (blocks.map source)) disk) start tail blocks =
      blocks.map fun blockno => (blockno, source blockno) := by
  induction blocks generalizing tail disk with
  | nil => rfl
  | cons blockno rest ih =>
    have first : applyWrites (slotWrites start (tail + 1) (rest.map source))
        (update disk (start + tail + 1) (source blockno)) (start + tail + 1) =
          source blockno := by
      rw [applyWrites_of_untouched, update_self]
      intro write member
      have bounds := mem_slotWrites member
      omega
    simp only [map_cons, slotWrites, applyWrites_cons, homeWrites, first, ih]

/-- `write_log` copies the cached blocks to the slots. The blocks lie outside
the slots, so filling a slot does not change what later ones receive. -/
theorem writeLogFrom_spec (start tail : Nat) (blocks : List Nat) (device : Device Block)
    (outside : ∀ blockno ∈ blocks, blockno ≤ start + tail ∨
      start + tail + blocks.length < blockno) :
    (writeLogFrom start tail blocks).writes device =
        slotWrites start tail (blocks.map device.cache) ∧
      (writeLogFrom start tail blocks).run device =
        ((), written (slotWrites start tail (blocks.map device.cache)) device) := by
  induction blocks generalizing tail device with
  | nil => exact ⟨rfl, rfl⟩
  | cons blockno rest ih =>
    simp only [mem_cons, forall_eq_or_imp, length_cons] at outside
    have later := ih (tail + 1) (written [(start + tail + 1, device.cache blockno)] device)
      fun b member => by have := outside.2 b member; omega
    have same : rest.map (written [(start + tail + 1, device.cache blockno)] device).cache =
        rest.map device.cache := by
      apply map_congr_left
      intro b member
      have := outside.2 b member
      simp only [written, applyWrites_cons, applyWrites_nil]
      exact update_of_ne (by omega) _ _
    rw [same] at later
    simp only [writeLogFrom, DiskProgram.writes_bind, DiskProgram.run_bind, bread_writes,
      bread_run, bwrite_writes, bwrite_run, nil_append, later, map_cons, slotWrites,
      singleton_append, written_written, and_self]

/-- `install_trans` copies the slots to the listed blocks, which lie outside
the slots. -/
theorem installTransFrom_spec (start tail : Nat) (blocks : List Nat) (device : Device Block)
    (outside : ∀ blockno ∈ blocks, blockno ≤ start + tail ∨
      start + tail + blocks.length < blockno) :
    (installTransFrom start tail blocks).writes device =
        homeWrites device.cache start tail blocks ∧
      (installTransFrom start tail blocks).run device =
        ((), written (homeWrites device.cache start tail blocks) device) := by
  induction blocks generalizing tail device with
  | nil => exact ⟨rfl, rfl⟩
  | cons blockno rest ih =>
    simp only [mem_cons, forall_eq_or_imp, length_cons] at outside
    have later := ih (tail + 1) (written [(blockno, device.cache (start + tail + 1))] device)
      fun b member => by have := outside.2 b member; omega
    have same : homeWrites (written [(blockno, device.cache (start + tail + 1))] device).cache
        start (tail + 1) rest = homeWrites device.cache start (tail + 1) rest := by
      apply homeWrites_congr
      intro i low high
      simp only [written, applyWrites_cons, applyWrites_nil]
      exact update_of_ne (by omega) _ _
    rw [same] at later
    simp only [installTransFrom, DiskProgram.writes_bind, DiskProgram.run_bind, bread_writes,
      bread_run, bwrite_writes, bwrite_run, nil_append, later, homeWrites,
      singleton_append, written_written, and_self]

@[simp]
theorem writeHead_writes (start : Nat) (blocks : List Nat) (device : Device Block) :
    (writeHead start blocks).writes device =
      [(start, encodeHeader (device.cache start) blocks)] := by
  simp [writeHead]

@[simp]
theorem writeHead_run (start : Nat) (blocks : List Nat) (device : Device Block) :
    (writeHead start blocks).run device =
      ((), written [(start, encodeHeader (device.cache start) blocks)] device) := by
  simp [writeHead]

end Log

end Xv6
