import Xv6.Library.Transition
import Xv6.Library.Window
import Xv6.Param

/-!
# The disk driver and its device

`kernel/virtio_disk.c` with any number of processes in `virtio_disk_rw`, any
number of CPUs in `virtio_disk_intr`, and the device. What the driver does to
memory that the device or the interrupt handler also uses is a step of its own;
`sleep` and `wakeup` are atomic. The device takes the published chains one by one
and completes them in any order; the data that it transfers is left out.
-/

namespace Xv6.Virtio

open Function

/-- `NUM`, the number of descriptors and of slots in each ring. -/
def num : Nat := 8

def descNext : BitVec 16 := 1

def descWrite : BitVec 16 := 2

inductive Addr (Buf : Type) where
  | null
  /-- `&disk.ops[i]` -/
  | op (i : Nat)
  /-- `b->data` -/
  | data (b : Buf)
  /-- `&disk.info[i].status` -/
  | status (i : Nat)
  deriving DecidableEq

structure Desc (Buf : Type) where
  addr : Addr Buf
  len : Nat
  flags : BitVec 16
  next : Nat
  deriving DecidableEq

structure BlkReq where
  type : Nat
  reserved : Nat
  sector : Nat
  deriving DecidableEq

structure Info (Buf : Type) where
  b : Option Buf
  status : Nat

/-- `struct virtq_avail` and `struct virtq_used`. -/
structure Ring where
  idx : BitVec 16
  ring : Nat → Nat

/-- The arguments of `virtio_disk_rw`, with `b->blockno`. -/
structure Call (Buf : Type) where
  b : Buf
  blockno : BitVec 32
  write : Bool
  deriving DecidableEq

structure Triple where
  head : Nat
  data : Nat
  status : Nat
  deriving DecidableEq

/-- The statements that prepare and publish a chain. -/
inductive Stage where
  | head
  | data
  | status
  /-- `b->disk` and `info[idx[0]].b` -/
  | record
  /-- `avail->ring` -/
  | ring
  /-- `avail->idx` -/
  | idx
  deriving DecidableEq

/-- The next step of a process. -/
inductive Pc (Buf : Type) where
  | idle
  | acquire (call : Call Buf)
  /-- `alloc3_desc`, with the descriptors allocated so far. -/
  | alloc (call : Call Buf) (idx : List Nat)
  /-- A failed `alloc3_desc`, with the descriptors to be freed. -/
  | undo (call : Call Buf) (todo : List Nat)
  /-- In `sleep(&disk.free[0])`. -/
  | sleepFree (call : Call Buf)
  | format (stage : Stage) (call : Call Buf) (idx : Triple)
  /-- `while(b->disk == 1)` -/
  | wait (call : Call Buf) (idx : Triple)
  /-- In `sleep(b)`. -/
  | sleepBuf (call : Call Buf) (idx : Triple)
  /-- `info[idx[0]].b = 0` -/
  | forget (call : Call Buf) (idx : Triple)
  | freeChain (call : Call Buf) (idx : Triple) (i : Nat)
  | release (call : Call Buf) (idx : Triple)
  deriving DecidableEq

/-- The next step of `virtio_disk_intr` on a CPU. -/
inductive Intr where
  | idle
  | acquire
  /-- `while(disk.used_idx != disk.used->idx)` -/
  | loop
  | read
  /-- The rest of the body of the loop. -/
  | finish (id : Nat)
  | release
  deriving DecidableEq

inductive Chan (Buf : Type) where
  /-- `&disk.free[0]` -/
  | free
  | buf (b : Buf)
  deriving DecidableEq

/-- What the device keeps to itself. -/
structure Device where
  /-- How far it has looked in the ring of available chains. -/
  lastAvail : BitVec 16
  /-- The chains taken and not completed. -/
  taken : List Nat
  /-- The chains with their status written. -/
  done : List Nat
  /-- The chain in the used ring that `used->idx` does not count yet. -/
  appended : Option Nat

inductive Fault where
  /-- `free_desc 1` -/
  | freeDesc1
  /-- `free_desc 2` -/
  | freeDesc2
  /-- `virtio_disk_intr status` -/
  | intrStatus
  /-- `virtio_disk_intr` finds no buffer. -/
  | nullBuf
  | release
  /-- The device finds no chain. -/
  | badChain
  deriving DecidableEq

structure State (Proc Cpu Buf : Type) where
  desc : Nat → Desc Buf
  avail : Ring
  used : Ring
  free : Nat → Bool
  usedIdx : BitVec 16
  info : Nat → Info Buf
  ops : Nat → BlkReq
  /-- `b->disk` -/
  disk : Buf → Bool
  /-- The holder of `vdisk_lock`. -/
  lock : Option (Proc ⊕ Cpu)
  asleep : Proc → Option (Chan Buf)
  pc : Proc → Pc Buf
  intr : Cpu → Intr
  device : Device

section format

variable {Buf : Type}

/-- `b->blockno * (BSIZE / 512)`, in 32 bits. -/
def Call.sector (call : Call Buf) : Nat := (call.blockno * BitVec.ofNat 32 (bsize / 512)).toNat

def Call.op (call : Call Buf) : BlkReq where
  type := if call.write then 1 else 0
  reserved := 0
  sector := call.sector

def Triple.headDesc (idx : Triple) : Desc Buf where
  addr := .op idx.head
  len := 16
  flags := descNext
  next := idx.data

def Triple.dataDesc (idx : Triple) (call : Call Buf) : Desc Buf where
  addr := .data call.b
  len := bsize
  flags := (if call.write then 0 else descWrite) ||| descNext
  next := idx.status

def Triple.statusDesc (idx : Triple) : Desc Buf where
  addr := .status idx.head
  len := 1
  flags := descWrite
  next := 0

end format

/-- The successful end of `alloc3_desc` at the third descriptor. -/
def Pc.allocated {Buf : Type} (call : Call Buf) : List Nat → Pc Buf
  | [head, data, status] => .format .head call ⟨head, data, status⟩
  | idx => .alloc call idx

/-- What the device reads from a chain. -/
structure Request (Buf : Type) where
  op : BlkReq
  b : Buf
  /-- Whether the device may write to the buffer. -/
  write : Bool
  /-- The entry of `disk.info` that gets the status. -/
  status : Nat
  deriving DecidableEq

namespace State

variable {Proc Cpu Buf : Type} [DecidableEq Proc] [DecidableEq Cpu] [DecidableEq Buf]
  (s : State Proc Cpu Buf)

def setPc (p : Proc) (pc : Pc Buf) : State Proc Cpu Buf :=
  { s with pc := update s.pc p pc }

def setIntr (c : Cpu) (pc : Intr) : State Proc Cpu Buf :=
  { s with intr := update s.intr c pc }

def wakeup (chan : Chan Buf) : State Proc Cpu Buf :=
  { s with asleep := fun p => if s.asleep p = some chan then none else s.asleep p }

/-- `sleep(chan, &disk.vdisk_lock)` up to the point where the lock is free. -/
def sleep (p : Proc) (chan : Chan Buf) : State Proc Cpu Buf :=
  { s with lock := none, asleep := update s.asleep p (some chan) }

def acquire (holder : Proc ⊕ Cpu) (next : State Proc Cpu Buf) :
    Outcome (State Proc Cpu Buf) Fault :=
  match s.lock with
  | none => .next { next with lock := some holder }
  | some _ => .blocked

def release (holder : Proc ⊕ Cpu) (next : State Proc Cpu Buf) :
    Outcome (State Proc Cpu Buf) Fault :=
  if s.lock = some holder then .next { next with lock := none } else .fault .release

def allocDesc : Option Nat := (List.range num).find? s.free

def setFree (i : Nat) (free : Bool) : State Proc Cpu Buf :=
  { s with free := update s.free i free }

def setDesc (i : Nat) (desc : Desc Buf) : State Proc Cpu Buf :=
  { s with desc := update s.desc i desc }

/-- What `free_desc` does when it does not panic. -/
def clearDesc (i : Nat) : State Proc Cpu Buf :=
  ((s.setDesc i ⟨.null, 0, 0, 0⟩).setFree i true).wakeup .free

def freeDesc (i : Nat) (next : State Proc Cpu Buf → State Proc Cpu Buf) :
    Outcome (State Proc Cpu Buf) Fault :=
  if num ≤ i then .fault .freeDesc1
  else if s.free i then .fault .freeDesc2
  else .next (next (s.clearDesc i))

def setInfo (i : Nat) (info : Info Buf) : State Proc Cpu Buf :=
  { s with info := update s.info i info }

def setDisk (b : Buf) (disk : Bool) : State Proc Cpu Buf :=
  { s with disk := update s.disk b disk }

/-- A statement of `virtio_disk_rw` between the allocation and the wait, with the next one. -/
def format (call : Call Buf) (idx : Triple) :
    Stage → State Proc Cpu Buf × Pc Buf
  | .head =>
    ({ s.setDesc idx.head idx.headDesc with ops := update s.ops idx.head call.op },
      .format .data call idx)
  | .data => (s.setDesc idx.data (idx.dataDesc call), .format .status call idx)
  | .status =>
    ((s.setInfo idx.head { s.info idx.head with status := 0xff }).setDesc idx.status idx.statusDesc,
      .format .record call idx)
  | .record =>
    ((s.setDisk call.b true).setInfo idx.head { s.info idx.head with b := some call.b },
      .format .ring call idx)
  | .ring =>
    ({ s with avail.ring := update s.avail.ring (s.avail.idx.toNat % num) idx.head },
      .format .idx call idx)
  | .idx => ({ s with avail.idx := s.avail.idx + 1 }, .wait call idx)

def procStep (p : Proc) : Outcome (State Proc Cpu Buf) Fault :=
  match s.pc p with
  | .idle => .blocked
  | .acquire call => s.acquire (.inl p) (s.setPc p (.alloc call []))
  | .alloc call idx =>
    match s.allocDesc with
    | some i => .next ((s.setFree i false).setPc p (.allocated call (idx ++ [i])))
    | none => .next (s.setPc p (.undo call idx))
  | .undo call (i :: todo) => s.freeDesc i (·.setPc p (.undo call todo))
  | .undo call [] => .next ((s.sleep p .free).setPc p (.sleepFree call))
  | .sleepFree call =>
    if s.asleep p = none then s.acquire (.inl p) (s.setPc p (.alloc call [])) else .blocked
  | .format stage call idx =>
    let done := s.format call idx stage
    .next (done.1.setPc p done.2)
  | .wait call idx =>
    if s.disk call.b then .next ((s.sleep p (.buf call.b)).setPc p (.sleepBuf call idx))
    else .next (s.setPc p (.forget call idx))
  | .sleepBuf call idx =>
    if s.asleep p = none then s.acquire (.inl p) (s.setPc p (.wait call idx)) else .blocked
  | .forget call idx =>
    .next ((s.setInfo idx.head { s.info idx.head with b := none }).setPc p
      (.freeChain call idx idx.head))
  | .freeChain call idx i =>
    s.freeDesc i (·.setPc p
      (if (s.desc i).flags &&& descNext ≠ 0 then .freeChain call idx (s.desc i).next
      else .release call idx))
  | .release _ _ => s.release (.inl p) (s.setPc p .idle)

def intrStep (c : Cpu) : Outcome (State Proc Cpu Buf) Fault :=
  match s.intr c with
  | .idle => .blocked
  | .acquire => s.acquire (.inr c) (s.setIntr c .loop)
  | .loop => .next (s.setIntr c (if s.usedIdx ≠ s.used.idx then .read else .release))
  | .read => .next (s.setIntr c (.finish (s.used.ring (s.usedIdx.toNat % num))))
  | .finish id =>
    if (s.info id).status ≠ 0 then .fault .intrStatus
    else
      match (s.info id).b with
      | none => .fault .nullBuf
      | some b =>
        .next ({ (s.setDisk b false).wakeup (.buf b) with usedIdx := s.usedIdx + 1 }.setIntr c
          .loop)
  | .release => s.release (.inr c) (s.setIntr c .idle)

/-- The chain of descriptors that begins at `head`, as the device reads it. -/
def chain (head : Nat) : Option (Request Buf) :=
  let first := s.desc head
  let second := s.desc first.next
  let third := s.desc second.next
  if first.flags &&& descNext ≠ 0 ∧ second.flags &&& descNext ≠ 0 ∧
    third.flags &&& descNext = 0 then
    match first.addr, second.addr, third.addr with
    | .op i, .data b, .status j => some ⟨s.ops i, b, second.flags &&& descWrite ≠ 0, j⟩
    | _, _, _ => none
  else
    none

end State

inductive Label (Proc Cpu Buf : Type) where
  /-- `virtio_disk_rw` is called. -/
  | call (p : Proc) (call : Call Buf)
  | run (p : Proc)
  /-- The process is woken for another reason. -/
  | wake (p : Proc)
  /-- The interrupt of the device gets to the CPU. -/
  | interrupt (c : Cpu)
  | intr (c : Cpu)
  -- the device
  | take
  | complete (head : Nat)
  | append (head : Nat)
  | bump

namespace State

variable {Proc Cpu Buf : Type} [DecidableEq Proc] [DecidableEq Cpu] [DecidableEq Buf]

def step (s : State Proc Cpu Buf) : Label Proc Cpu Buf → Outcome (State Proc Cpu Buf) Fault
  | .call p call => if s.pc p = .idle then .next (s.setPc p (.acquire call)) else .blocked
  | .run p => s.procStep p
  | .wake p => .next { s with asleep := update s.asleep p none }
  | .interrupt c => if s.intr c = .idle then .next (s.setIntr c .acquire) else .blocked
  | .intr c => s.intrStep c
  | .take =>
    if s.device.lastAvail ≠ s.avail.idx then
      .next { s with
        device.taken := s.device.taken ++ [s.avail.ring (s.device.lastAvail.toNat % num)]
        device.lastAvail := s.device.lastAvail + 1 }
    else .blocked
  | .complete head =>
    if head ∈ s.device.taken then
      match s.chain head with
      | some request =>
        .next { s.setInfo request.status { s.info request.status with status := 0 } with
          device.taken := s.device.taken.erase head
          device.done := s.device.done ++ [head] }
      | none => .fault .badChain
    else .blocked
  | .append head =>
    if head ∈ s.device.done ∧ s.device.appended = none then
      .next { s with
        used.ring := update s.used.ring (s.used.idx.toNat % num) head
        device.done := s.device.done.erase head
        device.appended := some head }
    else .blocked
  | .bump =>
    match s.device.appended with
    | some _ => .next { s with used.idx := s.used.idx + 1, device.appended := none }
    | none => .blocked

end State

def Pc.call {Buf : Type} : Pc Buf → Option (Call Buf)
  | .idle => none
  | .acquire call | .alloc call _ | .undo call _ | .sleepFree call | .format _ call _ | .wait call _
  | .sleepBuf call _ | .forget call _ | .freeChain call _ _ | .release call _ => some call

/-- The buffer of the call, which the process has locked. -/
def Pc.buf {Buf : Type} (pc : Pc Buf) : Option Buf := pc.call.map Call.b

structure Initial {Proc Cpu Buf : Type} (s : State Proc Cpu Buf) : Prop where
  avail : s.avail.idx = 0
  used : s.used.idx = 0
  usedIdx : s.usedIdx = 0
  free : ∀ i, i < num → s.free i = true
  disk : ∀ b, s.disk b = false
  lock : s.lock = none
  asleep : ∀ p, s.asleep p = none
  pc : ∀ p, s.pc p = .idle
  intr : ∀ c, s.intr c = .idle
  lastAvail : s.device.lastAvail = 0
  taken : s.device.taken = []
  done : s.device.done = []
  appended : s.device.appended = none

/-- Processes call `virtio_disk_rw` with buffers that no other one has locked. -/
def system (Proc Cpu Buf : Type) [DecidableEq Proc] [DecidableEq Cpu] [DecidableEq Buf] :
    TransitionSystem (State Proc Cpu Buf) (Label Proc Cpu Buf) Fault where
  initial := Initial
  allowed s
    | .call _ call => ∀ q, (s.pc q).buf ≠ some call.b
    | _ => True
  step := State.step

instance {Proc Cpu Buf : Type} [DecidableEq Proc] [DecidableEq Cpu] [DecidableEq Buf] [Fintype Proc]
    (s : State Proc Cpu Buf) (label : Label Proc Cpu Buf) :
    Decidable ((system Proc Cpu Buf).allowed s label) := by
  cases label <;> dsimp only [system] <;> infer_instance

def State.boot {Proc Cpu Buf : Type} : State Proc Cpu Buf where
  desc _ := ⟨.null, 0, 0, 0⟩
  avail := ⟨0, fun _ => 0⟩
  used := ⟨0, fun _ => 0⟩
  free i := i < num
  usedIdx := 0
  info _ := ⟨none, 0⟩
  ops _ := ⟨0, 0, 0⟩
  disk _ := false
  lock := none
  asleep _ := none
  pc _ := .idle
  intr _ := .idle
  device := ⟨0, [], [], none⟩

theorem State.boot_initial {Proc Cpu Buf : Type} : Initial (State.boot : State Proc Cpu Buf) where
  avail := rfl
  used := rfl
  usedIdx := rfl
  free _ small := decide_eq_true small
  disk _ := rfl
  lock := rfl
  asleep _ := rfl
  pc _ := rfl
  intr _ := rfl
  lastAvail := rfl
  taken := rfl
  done := rfl
  appended := rfl

end Xv6.Virtio
