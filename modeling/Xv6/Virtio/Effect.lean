import Xv6.Virtio.Driver

/-!
# What a step can do

The steps of processes, of the interrupt handler and of the device, with the
tests they have passed.
-/

namespace Xv6.Virtio

variable {Proc Cpu Buf : Type} [DecidableEq Proc] [DecidableEq Cpu] [DecidableEq Buf]

inductive ProcEffect (s : State Proc Cpu Buf) (p : Proc) : State Proc Cpu Buf → Prop where
  | acquire {call} : s.pc p = .acquire call → s.lock = none →
      ProcEffect s p { s.setPc p (.alloc call []) with lock := some (.inl p) }
  | retry {call} : s.pc p = .sleepFree call → s.asleep p = none → s.lock = none →
      ProcEffect s p { s.setPc p (.alloc call []) with lock := some (.inl p) }
  | recheck {call idx} : s.pc p = .sleepBuf call idx → s.asleep p = none → s.lock = none →
      ProcEffect s p { s.setPc p (.wait call idx) with lock := some (.inl p) }
  | alloc {call idx i} : s.pc p = .alloc call idx → s.allocDesc = some i →
      ProcEffect s p ((s.setFree i false).setPc p (.allocated call (idx ++ [i])))
  | noDesc {call idx} : s.pc p = .alloc call idx → s.allocDesc = none →
      ProcEffect s p (s.setPc p (.undo call idx))
  | undo {call i todo} : s.pc p = .undo call (i :: todo) → i < num → s.free i = false →
      ProcEffect s p ((s.clearDesc i).setPc p (.undo call todo))
  | sleepFree {call} : s.pc p = .undo call [] →
      ProcEffect s p ((s.sleep p .free).setPc p (.sleepFree call))
  | format {stage call idx} : s.pc p = .format stage call idx →
      ProcEffect s p ((s.format call idx stage).1.setPc p (s.format call idx stage).2)
  | sleepBuf {call idx} : s.pc p = .wait call idx → s.disk call.b = true →
      ProcEffect s p ((s.sleep p (.buf call.b)).setPc p (.sleepBuf call idx))
  | pass {call idx} : s.pc p = .wait call idx → s.disk call.b = false →
      ProcEffect s p (s.setPc p (.forget call idx))
  | forget {call idx} : s.pc p = .forget call idx →
      ProcEffect s p ((s.setInfo idx.head { s.info idx.head with b := none }).setPc p
        (.freeChain call idx idx.head))
  | freeNext {call idx i} : s.pc p = .freeChain call idx i → i < num → s.free i = false →
      (s.desc i).flags &&& descNext ≠ 0 →
      ProcEffect s p ((s.clearDesc i).setPc p (.freeChain call idx (s.desc i).next))
  | freeLast {call idx i} : s.pc p = .freeChain call idx i → i < num → s.free i = false →
      (s.desc i).flags &&& descNext = 0 →
      ProcEffect s p ((s.clearDesc i).setPc p (.release call idx))
  | release {call idx} : s.pc p = .release call idx → s.lock = some (.inl p) →
      ProcEffect s p { s.setPc p .idle with lock := none }

inductive IntrEffect (s : State Proc Cpu Buf) (c : Cpu) : State Proc Cpu Buf → Prop where
  | acquire : s.intr c = .acquire → s.lock = none →
      IntrEffect s c { s.setIntr c .loop with lock := some (.inr c) }
  | more : s.intr c = .loop → s.usedIdx ≠ s.used.idx → IntrEffect s c (s.setIntr c .read)
  | empty : s.intr c = .loop → s.usedIdx = s.used.idx → IntrEffect s c (s.setIntr c .release)
  | read : s.intr c = .read →
      IntrEffect s c (s.setIntr c (.finish (s.used.ring (s.usedIdx.toNat % num))))
  | finish {id b} : s.intr c = .finish id → (s.info id).status = 0 → (s.info id).b = some b →
      IntrEffect s c
        ({ (s.setDisk b false).wakeup (.buf b) with usedIdx := s.usedIdx + 1 }.setIntr c
        .loop)
  | release : s.intr c = .release → s.lock = some (.inr c) →
      IntrEffect s c { s.setIntr c .idle with lock := none }

inductive DeviceEffect (s : State Proc Cpu Buf) : State Proc Cpu Buf → Prop where
  | take : s.device.lastAvail ≠ s.avail.idx →
      DeviceEffect s { s with
        device.taken := s.device.taken ++ [s.avail.ring (s.device.lastAvail.toNat % num)]
        device.lastAvail := s.device.lastAvail + 1 }
  | complete {head request} : head ∈ s.device.taken → s.chain head = some request →
      DeviceEffect s { s.setInfo request.status { s.info request.status with status := 0 } with
        device.taken := s.device.taken.erase head
        device.done := s.device.done ++ [head] }
  | append {head} : head ∈ s.device.done → s.device.appended = none →
      DeviceEffect s { s with
        used.ring := Function.update s.used.ring (s.used.idx.toNat % num) head
        device.done := s.device.done.erase head
        device.appended := some head }
  | bump {head} : s.device.appended = some head →
      DeviceEffect s { s with used.idx := s.used.idx + 1, device.appended := none }

inductive Effect (s : State Proc Cpu Buf) : Label Proc Cpu Buf → State Proc Cpu Buf → Prop where
  | call {p call} : s.pc p = .idle → Effect s (.call p call) (s.setPc p (.acquire call))
  | run {p s'} : ProcEffect s p s' → Effect s (.run p) s'
  | wake {p} : Effect s (.wake p) { s with asleep := Function.update s.asleep p none }
  | interrupt {c} : s.intr c = .idle → Effect s (.interrupt c) (s.setIntr c .acquire)
  | intr {c s'} : IntrEffect s c s' → Effect s (.intr c) s'
  | device {label s'} : DeviceEffect s s' → Effect s label s'

section steps

variable {s s' next : State Proc Cpu Buf} {p : Proc} {c : Cpu} {i : Nat} {holder : Proc ⊕ Cpu}
  {update : State Proc Cpu Buf → State Proc Cpu Buf}

omit [DecidableEq Proc] [DecidableEq Cpu] [DecidableEq Buf] in
theorem acquire_next (moved : s.acquire holder next = .next s') :
    s.lock = none ∧ s' = { next with lock := some holder } := by
  unfold State.acquire at moved
  split at moved
  next free => cases moved; exact ⟨free, rfl⟩
  next => cases moved

omit [DecidableEq Buf] in
theorem release_next (moved : s.release holder next = .next s') :
    s.lock = some holder ∧ s' = { next with lock := none } := by
  unfold State.release at moved
  split at moved
  next held => cases moved; exact ⟨held, rfl⟩
  next => cases moved

omit [DecidableEq Proc] [DecidableEq Cpu] in
theorem freeDesc_next (moved : s.freeDesc i update = .next s') :
    i < num ∧ s.free i = false ∧ s' = update (s.clearDesc i) := by
  unfold State.freeDesc at moved
  split at moved
  next => cases moved
  next small =>
    split at moved
    next => cases moved
    next taken =>
      cases moved
      exact ⟨Nat.lt_of_not_le small, Bool.eq_false_iff.mpr taken, rfl⟩

theorem procStep_effect (moved : s.procStep p = .next s') : ProcEffect s p s' := by
  unfold State.procStep at moved
  split at moved
  case h_1 => cases moved
  case h_2 call at' =>
    obtain ⟨unlocked, rfl⟩ := acquire_next moved
    exact .acquire at' unlocked
  case h_3 call idx at' =>
    split at moved
    next i found => cases moved; exact .alloc at' found
    next none => cases moved; exact .noDesc at' none
  case h_4 call i todo at' =>
    obtain ⟨small, taken, rfl⟩ := freeDesc_next moved
    exact .undo at' small taken
  case h_5 call at' => cases moved; exact .sleepFree at'
  case h_6 call at' =>
    split at moved
    next awake =>
      obtain ⟨unlocked, rfl⟩ := acquire_next moved
      exact .retry at' awake unlocked
    next => cases moved
  case h_7 stage call idx at' => cases moved; exact .format at'
  case h_8 call idx at' =>
    split at moved
    next busy => cases moved; exact .sleepBuf at' busy
    next idle => cases moved; exact .pass at' (Bool.eq_false_iff.mpr idle)
  case h_9 call idx at' =>
    split at moved
    next awake =>
      obtain ⟨unlocked, rfl⟩ := acquire_next moved
      exact .recheck at' awake unlocked
    next => cases moved
  case h_10 call idx at' => cases moved; exact .forget at'
  case h_11 call idx i at' =>
    obtain ⟨small, taken, rfl⟩ := freeDesc_next moved
    by_cases more : (s.desc i).flags &&& descNext ≠ 0
    · rw [if_pos more]
      exact .freeNext at' small taken more
    · rw [if_neg more]
      exact .freeLast at' small taken (not_not.mp more)
  case h_12 call idx at' =>
    obtain ⟨locked, rfl⟩ := release_next moved
    exact .release at' locked

theorem intrStep_effect (moved : s.intrStep c = .next s') : IntrEffect s c s' := by
  unfold State.intrStep at moved
  split at moved
  case h_1 => cases moved
  case h_2 at' =>
    obtain ⟨unlocked, rfl⟩ := acquire_next moved
    exact .acquire at' unlocked
  case h_3 at' =>
    cases moved
    split
    next more => exact .more at' more
    next none => exact .empty at' (not_not.mp none)
  case h_4 at' => cases moved; exact .read at'
  case h_5 id at' =>
    split at moved
    next => cases moved
    next zero =>
      split at moved
      next => cases moved
      next b recorded => cases moved; exact .finish at' (not_not.mp zero) recorded
  case h_6 at' =>
    obtain ⟨locked, rfl⟩ := release_next moved
    exact .release at' locked

theorem step_effect {label : Label Proc Cpu Buf} (moved : s.step label = .next s') :
    Effect s label s' := by
  cases label with
  | call p call =>
    simp only [State.step] at moved
    split at moved
    next idle => cases moved; exact .call idle
    next => cases moved
  | run p => exact .run (procStep_effect moved)
  | wake p => cases moved; exact .wake
  | interrupt c =>
    simp only [State.step] at moved
    split at moved
    next idle => cases moved; exact .interrupt idle
    next => cases moved
  | intr c => exact .intr (intrStep_effect moved)
  | take =>
    simp only [State.step] at moved
    split at moved
    next more => cases moved; exact .device (.take more)
    next => cases moved
  | complete head =>
    simp only [State.step] at moved
    split at moved
    next taken =>
      split at moved
      next request chained => cases moved; exact .device (.complete taken chained)
      next => cases moved
    next => cases moved
  | append head =>
    simp only [State.step] at moved
    split at moved
    next ready => cases moved; exact .device (.append ready.1 ready.2)
    next => cases moved
  | bump =>
    simp only [State.step] at moved
    split at moved
    next head ready => cases moved; exact .device (.bump ready)
    next => cases moved

end steps

end Xv6.Virtio
