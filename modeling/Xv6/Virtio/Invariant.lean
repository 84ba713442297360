import Xv6.Virtio.Ownership

/-!
# Requests in flight

A published chain is in the ring of available chains, with the device, or in the
used ring, until the interrupt handler clears `b->disk`. These places hold each
head once, and they hold the heads of the processes that wait with `b->disk` set.
-/

namespace Xv6.Virtio

open Finset
open Triple
open Function (update update_of_ne)

variable {Proc Cpu Buf : Type}

/-- The descriptors and the header of a request are written. -/
structure Chained (s : State Proc Cpu Buf) (call : Call Buf) (idx : Triple) : Prop where
  op : s.ops idx.head = call.op
  head : s.desc idx.head = idx.headDesc
  data : s.desc idx.data = idx.dataDesc call
  status : s.desc idx.status = idx.statusDesc

namespace State

def freeCount (s : State Proc Cpu Buf) : Nat := {i ∈ range num | s.free i = true}.card

/-- The chains published and not taken. -/
def availQueue (s : State Proc Cpu Buf) : List Nat :=
  window s.avail.ring num s.device.lastAvail s.avail.idx

/-- The chains that the device has returned and the handler has not seen. -/
def usedQueue (s : State Proc Cpu Buf) : List Nat := window s.used.ring num s.usedIdx s.used.idx

/-- The chains that the driver has published and not got back. -/
def heads (s : State Proc Cpu Buf) : List Nat :=
  s.availQueue ++ s.device.taken ++ s.device.done ++ s.device.appended.toList ++ s.usedQueue

end State

/-- The request that a process waits for. -/
def Pc.waiting : Pc Buf → Option (Call Buf × Triple)
  | .wait call idx | .sleepBuf call idx => some (call, idx)
  | _ => none

/-- What the code has established at each place. -/
def Knows (s : State Proc Cpu Buf) : Pc Buf → Prop
  | .alloc _ idx => idx.length < 3
  | .undo _ todo => s.freeCount + todo.length < 3
  | .format .data call idx => s.ops idx.head = call.op ∧ s.desc idx.head = idx.headDesc
  | .format .status call idx =>
    s.ops idx.head = call.op ∧ s.desc idx.head = idx.headDesc ∧
      s.desc idx.data = idx.dataDesc call
  | .format .record call idx => Chained s call idx ∧ (s.info idx.head).status = 0xff
  | .format .ring call idx =>
    Chained s call idx ∧ (s.info idx.head).status = 0xff ∧ (s.info idx.head).b = some call.b ∧
      s.disk call.b = true
  | .format .idx call idx =>
    Chained s call idx ∧ (s.info idx.head).status = 0xff ∧ (s.info idx.head).b = some call.b ∧
      s.disk call.b = true ∧ s.avail.ring (s.avail.idx.toNat % num) = idx.head
  | .wait call idx | .sleepBuf call idx =>
    Chained s call idx ∧ (s.info idx.head).b = some call.b ∧
      (s.disk call.b = false → (s.info idx.head).status = 0)
  | .forget call idx =>
    Chained s call idx ∧ s.disk call.b = false ∧ (s.info idx.head).status = 0
  | .freeChain call idx i =>
    s.disk call.b = false ∧ idx.list.Nodup ∧ i ∈ idx.list ∧
      (i = idx.head → s.desc idx.head = idx.headDesc) ∧
      (i = idx.head ∨ i = idx.data → s.desc idx.data = idx.dataDesc call) ∧
      s.desc idx.status = idx.statusDesc
  | .release call _ => s.disk call.b = false
  | .idle | .acquire _ | .sleepFree _ | .format .head _ _ => True

def Waits (s : State Proc Cpu Buf) (head : Nat) : Prop :=
  ∃ p call idx, (s.pc p).waiting = some (call, idx) ∧ idx.head = head ∧ s.disk call.b = true

structure FlightInv (s : State Proc Cpu Buf) : Prop where
  nodup : s.heads.Nodup
  waits : ∀ head, head ∈ s.heads ↔ Waits s head
  fresh : ∀ head, head ∈ s.availQueue ++ s.device.taken → (s.info head).status = 0xff
  done : ∀ head, head ∈ s.device.done ++ s.device.appended.toList ++ s.usedQueue →
    (s.info head).status = 0
  appended : ∀ head, s.device.appended = some head → s.used.ring (s.used.idx.toNat % num) = head
  read : ∀ c, s.intr c = .read → s.usedQueue ≠ []
  finish : ∀ c id, s.intr c = .finish id → s.usedQueue.head? = some id

structure SleepInv (s : State Proc Cpu Buf) : Prop where
  free : ∀ p, s.asleep p = some .free → (∃ call, s.pc p = .sleepFree call) ∧ s.freeCount < 3
  buf : ∀ p b, s.asleep p = some (.buf b) →
    ∃ call idx, s.pc p = .sleepBuf call idx ∧ call.b = b ∧ s.disk b = true

structure Inv (s : State Proc Cpu Buf) : Prop where
  locks : LockInv s
  owners : OwnInv s
  knows : ∀ p, Knows s (s.pc p)
  flight : FlightInv s
  sleeps : SleepInv s

variable {s s' : State Proc Cpu Buf} {p q : Proc} {c : Cpu} {i : Nat} {pc : Pc Buf}
  {call : Call Buf} {idx : Triple}

section count

theorem freeCount_alloc (free : s'.free = update s.free i false) :
    s'.freeCount ≤ s.freeCount := by
  refine card_le_card fun j mem => ?_
  simp only [mem_filter, free] at mem ⊢
  by_cases is : j = i
  · simp [is] at mem
  · rwa [update_of_ne is] at mem

theorem freeCount_free (free : s'.free = update s.free i true) :
    s'.freeCount ≤ s.freeCount + 1 := by
  refine (card_le_card fun j mem => ?_).trans (card_insert_le i _)
  simp only [mem_filter, mem_insert, free] at mem ⊢
  by_cases is : j = i
  · exact .inl is
  · rw [update_of_ne is] at mem
    exact .inr mem

theorem freeCount_eq_zero (none : s.allocDesc = none) : s.freeCount = 0 := by
  refine card_eq_zero.mpr (filter_eq_empty_iff.mpr fun j small => ?_)
  exact List.find?_eq_none.mp none j (List.mem_range.mpr (mem_range.mp small))

theorem allocDesc_some (found : s.allocDesc = some i) : i < num ∧ s.free i = true :=
  ⟨List.mem_range.mp (List.mem_of_find?_eq_some found), List.find?_some found⟩

end count

section contents

theorem Triple.mem_rest (mem : i ∈ idx.list) : i ∈ idx.rest i ∧ idx.status ∈ idx.rest i ∧
    (i = idx.head ∨ i = idx.data → idx.data ∈ idx.rest i) := by
  simp only [list, List.mem_cons, List.not_mem_nil, or_false] at mem
  unfold rest
  split
  next is => simp [is, list]
  next =>
    split
    next is => simp [is]
    next => rcases mem with is | is | is <;> simp_all

/-- What is known depends on the descriptors and the buffer of the process and, inside
the critical section, on the ring and the free descriptors. -/
theorem Knows.of_agree (knows : Knows s pc) (ops : ∀ i ∈ pc.owned, s'.ops i = s.ops i)
    (desc : ∀ i ∈ pc.owned, s'.desc i = s.desc i) (info : ∀ i ∈ pc.owned, s'.info i = s.info i)
    (disk : ∀ b, pc.buf = some b → s'.disk b = s.disk b)
    (rest : pc.critical = true → s'.avail = s.avail ∧ s'.freeCount = s.freeCount) :
    Knows s' pc := by
  have chained : ∀ call idx, pc.owned = idx.list → Chained s call idx → Chained s' call idx := by
    rintro call idx owned ⟨op, head, data, status⟩
    rw [owned] at ops desc
    refine ⟨?_, ?_, ?_, ?_⟩
    · rw [ops idx.head (by simp [list]), op]
    · rw [desc idx.head (by simp [list]), head]
    · rw [desc idx.data (by simp [list]), data]
    · rw [desc idx.status (by simp [list]), status]
  cases pc with
  | idle | acquire | sleepFree => trivial
  | alloc => exact knows
  | undo =>
    change s'.freeCount + _ < 3
    rw [(rest rfl).2]
    exact knows
  | format stage call idx =>
    have op := ops idx.head (by simp [Pc.owned, list])
    have head := desc idx.head (by simp [Pc.owned, list])
    have data := desc idx.data (by simp [Pc.owned, list])
    have record := info idx.head (by simp [Pc.owned, list])
    have marked := disk call.b rfl
    cases stage with
    | head => trivial
    | data => exact ⟨op.trans knows.1, head.trans knows.2⟩
    | status => exact ⟨op.trans knows.1, head.trans knows.2.1, data.trans knows.2.2⟩
    | record => exact ⟨chained call idx rfl knows.1, record ▸ knows.2⟩
    | ring =>
      exact ⟨chained call idx rfl knows.1, record ▸ knows.2.1, record ▸ knows.2.2.1,
        marked.trans knows.2.2.2⟩
    | idx =>
      exact ⟨chained call idx rfl knows.1, record ▸ knows.2.1, record ▸ knows.2.2.1,
        marked.trans knows.2.2.2.1, (rest rfl).1 ▸ knows.2.2.2.2⟩
  | wait call idx | sleepBuf call idx =>
    have record := info idx.head (by simp [Pc.owned, list])
    exact ⟨chained call idx rfl knows.1, record ▸ knows.2.1, record ▸ disk call.b rfl ▸ knows.2.2⟩
  | forget call idx =>
    have record := info idx.head (by simp [Pc.owned, list])
    exact ⟨chained call idx rfl knows.1, (disk call.b rfl).trans knows.2.1, record ▸ knows.2.2⟩
  | freeChain call idx i =>
    obtain ⟨clear, apart, mem, head, data, status⟩ := knows
    obtain ⟨mine, last, second⟩ := mem_rest mem
    refine ⟨(disk call.b rfl).trans clear, apart, mem, fun is => ?_, fun is => ?_, ?_⟩
    · rw [desc idx.head (is ▸ mine), head is]
    · rw [desc idx.data (second is), data is]
    · rw [desc idx.status last, status]
  | release call idx => exact (disk call.b rfl).trans knows

theorem Chained.chain_eq (chained : Chained s call idx) :
    s.chain idx.head = some ⟨call.op, call.b, !call.write, idx.head⟩ := by
  obtain ⟨op, head, data, status⟩ := chained
  simp only [State.chain, head, headDesc, data, dataDesc, status, statusDesc, op]
  cases call.write <;> rfl

end contents

section frame

variable [DecidableEq Proc] [DecidableEq Buf]

/-- A process writes to its own descriptors and to its own buffer. -/
theorem ProcEffect.frame (does : ProcEffect s p s') (knows : Knows s (s.pc p)) :
    (∀ j, j ∉ (s.pc p).owned → s'.desc j = s.desc j ∧ s'.ops j = s.ops j ∧ s'.info j = s.info j) ∧
    (∀ b, (s.pc p).buf ≠ some b → s'.disk b = s.disk b) := by
  have cleared : ∀ i, i ∈ (s.pc p).owned → ∀ j, j ∉ (s.pc p).owned →
      (s.clearDesc i).desc j = s.desc j := fun i mine j other =>
    update_of_ne (fun is : j = i => other (is.symm ▸ mine)) _ _
  cases does with
  | undo at' =>
    exact ⟨fun j other => ⟨cleared _ (by rw [at']; exact List.mem_cons_self) j other, rfl, rfl⟩,
      fun _ _ => rfl⟩
  | freeNext at' | freeLast at' =>
    rw [at'] at knows
    have mine := (mem_rest knows.2.2.1).1
    exact ⟨fun j other => ⟨cleared _ (by rw [at']; exact mine) j other, rfl, rfl⟩, fun _ _ => rfl⟩
  | forget at' =>
    refine ⟨fun j other => ⟨rfl, rfl, update_of_ne ?_ _ _⟩, fun _ _ => rfl⟩
    rintro rfl
    rw [at'] at other
    exact other (by simp [Pc.owned, list])
  | @format stage call idx at' =>
    have apart : ∀ j, j ∉ (s.pc p).owned → j ≠ idx.head ∧ j ≠ idx.data ∧ j ≠ idx.status := by
      intro j other
      rw [at'] at other
      simpa [Pc.owned, list] using other
    have buf : ∀ b, (s.pc p).buf ≠ some b → b ≠ call.b := by
      rintro b other rfl
      rw [at'] at other
      exact other rfl
    cases stage with
    | head =>
      exact ⟨fun j other => ⟨update_of_ne (apart j other).1 _ _,
        update_of_ne (apart j other).1 _ _, rfl⟩, fun _ _ => rfl⟩
    | data =>
      exact ⟨fun j other => ⟨update_of_ne (apart j other).2.1 _ _, rfl, rfl⟩, fun _ _ => rfl⟩
    | status =>
      exact ⟨fun j other => ⟨update_of_ne (apart j other).2.2 _ _, rfl,
        update_of_ne (apart j other).1 _ _⟩, fun _ _ => rfl⟩
    | record =>
      exact ⟨fun j other => ⟨rfl, rfl, update_of_ne (apart j other).1 _ _⟩,
        fun b other => update_of_ne (buf b other) _ _⟩
    | ring | idx => exact ⟨fun _ _ => ⟨rfl, rfl, rfl⟩, fun _ _ => rfl⟩
  | _ => exact ⟨fun _ _ => ⟨rfl, rfl, rfl⟩, fun _ _ => rfl⟩

theorem ProcEffect.pc_other (does : ProcEffect s p s') (other : q ≠ p) :
    s'.pc q = s.pc q := by
  cases does with
  | @format stage => cases stage <;> exact update_of_ne other _ _
  | _ => exact update_of_ne other _ _

end frame

end Xv6.Virtio
