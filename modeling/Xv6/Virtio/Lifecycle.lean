import Xv6.Virtio.Steps

/-!
# The life of a request
-/

namespace Xv6.Virtio

open List
open State
open Function

variable {Proc Cpu Buf : Type} [DecidableEq Proc] [DecidableEq Cpu] [DecidableEq Buf]
  {s s' : State Proc Cpu Buf} {p q : Proc} {c : Cpu} {i : Nat} {call : Call Buf} {idx : Triple}
  {label : Label Proc Cpu Buf}

def Pc.published : Pc Buf → Option (Call Buf × Triple)
  | .format .idx call idx | .wait call idx | .sleepBuf call idx | .forget call idx
  | .freeChain call idx _ | .release call idx => some (call, idx)
  | _ => none

def Pc.allocating : Pc Buf → Option (Call Buf)
  | .alloc call _ | .undo call _ => some call
  | _ => none

namespace Inv

omit [DecidableEq Proc] [DecidableEq Cpu] [DecidableEq Buf] in
theorem held (inv : Inv s) (inside : (s.pc p).critical = true) : s.lock = some (.inl p) :=
  (inv.locks.proc p).mp inside

omit [DecidableEq Cpu] in
theorem proc_eq (inv : Inv s) (inside : (s.pc p).critical = true) (does : ProcEffect s q s') :
    q = p := by
  have held := inv.held inside
  cases does with
  | acquire _ unlocked | retry _ _ unlocked | recheck _ _ unlocked =>
    rw [held] at unlocked
    cases unlocked
  | alloc at' | noDesc at' | undo at' | sleepFree at' | format at' | sleepBuf at' | pass at'
  | forget at' | freeNext at' | freeLast at' | release at' =>
    exact inv.locks.proc_alone (by rw [at']; rfl) inside

/-- The descriptors of a request that a process waits for do not change. -/
theorem chain_kept (inv : Inv s) (effect : Effect s label s')
    (waiting : (s.pc p).waiting = some (call, idx)) :
    (∀ i ∈ idx.list, s'.desc i = s.desc i ∧ s'.free i = s.free i) ∧
      s'.ops idx.head = s.ops idx.head ∧ (s'.info idx.head).b = (s.info idx.head).b := by
  have head : idx.head ∈ idx.list := mem_cons_self
  have owned := (Pc.waiting_inv (s := s) waiting).1
  have taken : ∀ i ∈ idx.list, s.free i = false := fun i mem => by
    have mine : i ∈ (s.pc p).owned := owned ▸ mem
    exact (inv.owners.taken i (inv.owners.bound p i mine)).mpr ⟨p, mine⟩
  cases effect with
  | call | wake | interrupt => exact ⟨fun _ _ => ⟨rfl, rfl⟩, rfl, rfl⟩
  | intr does => cases does <;> exact ⟨fun _ _ => ⟨rfl, rfl⟩, rfl, rfl⟩
  | device does =>
    cases does with
    | take | append | bump => exact ⟨fun _ _ => ⟨rfl, rfl⟩, rfl, rfl⟩
    | @complete head request =>
      refine ⟨fun _ _ => ⟨rfl, rfl⟩, rfl, ?_⟩
      change (update s.info request.status _ idx.head).b = _
      by_cases is : idx.head = request.status
      · rw [is, update_self]
      · rw [update_of_ne is]
  | @run q _ does =>
    by_cases is : q = p
    · subst is
      cases does with
      | recheck | sleepBuf | pass => exact ⟨fun _ _ => ⟨rfl, rfl⟩, rfl, rfl⟩
      | acquire at' | retry at' | alloc at' | noDesc at' | undo at' | sleepFree at' | format at'
      | forget at' | freeNext at' | freeLast at' | release at' =>
        rw [at'] at waiting
        cases waiting
    · have apart : ∀ i ∈ idx.list, i ∉ (s.pc q).owned := fun i mem yours =>
        is (inv.owners.alone q p i yours (owned ▸ mem))
      have frame := (does.frame (inv.knows q)).1
      refine ⟨fun i mem => ⟨(frame i (apart i mem)).1, ?_⟩, (frame _ (apart _ head)).2.1,
        congrArg Info.b (frame _ (apart _ head)).2.2⟩
      cases does with
      | alloc _ found =>
        refine update_of_ne ?_ _ _
        rintro rfl
        have isFree := (allocDesc_some found).2
        rw [taken _ mem] at isFree
        cases isFree
      | undo at' =>
        refine update_of_ne ?_ _ _
        rintro rfl
        exact apart _ mem (by rw [at']; exact mem_cons_self)
      | freeNext at' | freeLast at' =>
        refine update_of_ne ?_ _ _
        rintro rfl
        have knows := inv.knows q
        rw [at'] at knows
        exact apart _ mem (by rw [at']; exact (Triple.mem_rest knows.2.2.1).1)
      | @format stage => cases stage <;> rfl
      | _ => rfl

/-- The driver writes to a slot of the ring that the device has read. -/
theorem avail_kept (inv : Inv s) (effect : Effect s label s') :
    ∀ slot ∈ window id num s.device.lastAvail s.avail.idx, s'.avail.ring slot =
      s.avail.ring slot := by
  intro slot pending
  cases effect with
  | call | wake | interrupt => rfl
  | intr does => cases does <;> rfl
  | device does => cases does <;> rfl
  | @run p _ does =>
    cases does with
    | @format stage call idx at' =>
      cases stage with
      | ring =>
        refine update_of_ne ?_ _ _
        rintro rfl
        have mine : idx.head ∈ (s.pc p).owned := by rw [at']; exact mem_cons_self
        exact Window.slot_free num_dvd (inv.room mine (by rw [at']; rfl)) pending
      | _ => rfl
    | _ => rfl

/-- The device writes to a slot of the ring that the driver has read. -/
theorem used_kept (inv : Inv s) (effect : Effect s label s') :
    ∀ slot ∈ window id num s.usedIdx s.used.idx, s'.used.ring slot = s.used.ring slot := by
  intro slot pending
  cases effect with
  | call | wake | interrupt => rfl
  | intr does => cases does <;> rfl
  | run does =>
    cases does with
    | @format stage => cases stage <;> rfl
    | _ => rfl
  | device does =>
    cases does with
    | take | complete | bump => rfl
    | @append head ready =>
      have bound := inv.length_heads
      have nonempty := length_pos_of_mem ready
      simp only [heads, length_append] at bound
      have room : s.usedQueue.length < num := by omega
      refine update_of_ne ?_ _ _
      rintro rfl
      exact Window.slot_free num_dvd room pending

/-- Only the interrupt handler clears `b->disk`, for the request of that buffer. -/
theorem cleared (inv : Inv s) (effect : Effect s label s') {b : Buf} (marked : s.disk b = true)
    (clear : s'.disk b = false) :
    ∃ c p call idx, label = .intr c ∧ s.intr c = .finish idx.head ∧
      (s.pc p).waiting = some (call, idx) ∧ call.b = b := by
  have changed : s'.disk b ≠ s.disk b := fun same => by
    rw [same, marked] at clear
    cases clear
  cases effect with
  | call | wake | interrupt => exact absurd rfl changed
  | device does => cases does <;> exact absurd rfl changed
  | run does =>
    cases does with
    | @format stage call idx at' =>
      cases stage with
      | record =>
        change update s.disk call.b true b = false at clear
        by_cases is : b = call.b
        · rw [is, update_self] at clear
          cases clear
        · exact absurd (update_of_ne is _ _) changed
      | _ => exact absurd rfl changed
    | _ => exact absurd rfl changed
  | @intr c _ does =>
    cases does with
    | @finish id b' at' _ record =>
      obtain ⟨p, call, idx, waiting, rfl, _, record', _⟩ := inv.finishes at'
      obtain rfl : b' = call.b := Option.some.inj (record.symm.trans record')
      refine ⟨c, p, call, idx, rfl, at', waiting, ?_⟩
      by_contra other
      exact changed (update_of_ne (Ne.symm other) _ _)
    | _ => exact absurd rfl changed

omit [DecidableEq Proc] [DecidableEq Cpu] [DecidableEq Buf] in
/-- A process that sleeps waits for a request in flight, or some process that holds
descriptors is awake or waits for one. -/
theorem sleeper_waits (inv : Inv s) {chan : Chan Buf} (sleeps : s.asleep p = some chan) :
    s.heads ≠ [] ∨ ∃ q, s.asleep q = none ∧ (s.pc q).owned ≠ [] := by
  have onBuf : ∀ q b, s.asleep q = some (.buf b) → s.heads ≠ [] := fun q b sleeps none => by
    obtain ⟨call, idx, at', rfl, marked⟩ := inv.sleeps.buf q b sleeps
    have flying := (inv.flight.waits idx.head).mpr ⟨q, call, idx, by rw [at']; rfl, rfl, marked⟩
    rw [none] at flying
    cases flying
  cases chan with
  | buf b => exact .inl (onBuf p b sleeps)
  | free =>
    have few := (inv.sleeps.free p sleeps).2
    obtain ⟨i, small, taken⟩ : ∃ i, i < num ∧ s.free i = false := by
      by_contra none
      push Not at none
      have all : s.freeCount = num := by
        rw [freeCount, Finset.filter_true_of_mem, Finset.card_range]
        intro i mem
        simpa using none i (Finset.mem_range.mp mem)
      rw [all] at few
      exact absurd few (by decide)
    obtain ⟨q, mine⟩ := (inv.owners.taken i small).mp taken
    cases awake : s.asleep q with
    | none => exact .inr ⟨q, awake, ne_nil_of_mem mine⟩
    | some chan =>
      cases chan with
      | buf b => exact .inl (onBuf q b awake)
      | free =>
        obtain ⟨⟨_, at'⟩, _⟩ := inv.sleeps.free q awake
        rw [at'] at mine
        cases mine

end Inv

section faults

variable {fault : Fault} {update : State Proc Cpu Buf → State Proc Cpu Buf}

omit [DecidableEq Proc] [DecidableEq Cpu] in
theorem freeDesc_no_fault (small : i < num) (taken : s.free i = false) :
    s.freeDesc i update ≠ .fault fault := by
  rw [freeDesc, if_neg (Nat.not_le.mpr small), if_neg (by simp [taken])]
  rintro ⟨⟩

theorem Inv.procStep_no_fault (inv : Inv s) : s.procStep p ≠ .fault fault := by
  have knows := inv.knows p
  have freeing : ∀ i, i ∈ (s.pc p).owned → i < num ∧ s.free i = false := fun i mine =>
    have small := inv.owners.bound p i mine
    ⟨small, (inv.owners.taken i small).mpr ⟨p, mine⟩⟩
  unfold procStep
  cases at' : s.pc p with
  | idle | format | forget => rintro ⟨⟩
  | acquire => simp only [acquire]; split <;> rintro ⟨⟩
  | alloc | wait => simp only; split <;> rintro ⟨⟩
  | undo call todo =>
    cases todo with
    | nil => rintro ⟨⟩
    | cons i todo =>
      obtain ⟨small, taken⟩ := freeing i (by rw [at']; exact mem_cons_self)
      exact freeDesc_no_fault small taken
  | sleepFree | sleepBuf =>
    simp only [acquire]
    split
    · split <;> rintro ⟨⟩
    · rintro ⟨⟩
  | freeChain call idx i =>
    rw [at'] at knows
    obtain ⟨small, taken⟩ := freeing i (by rw [at']; exact (Triple.mem_rest knows.2.2.1).1)
    exact freeDesc_no_fault small taken
  | release =>
    have held := inv.held (p := p) (by rw [at']; rfl)
    simp only [release, held, if_true]
    rintro ⟨⟩

theorem Inv.intrStep_no_fault (inv : Inv s) : s.intrStep c ≠ .fault fault := by
  unfold intrStep
  cases at' : s.intr c with
  | idle | loop | read => rintro ⟨⟩
  | acquire => simp only [acquire]; split <;> rintro ⟨⟩
  | finish id =>
    obtain ⟨p, call, idx, _, _, _, record, done⟩ := inv.finishes at'
    simp only [done, record, ne_eq, not_true_eq_false, if_false]
    rintro ⟨⟩
  | release =>
    have held := (inv.locks.cpu c).mp (by rw [at']; rfl)
    simp only [release, held, if_true]
    rintro ⟨⟩

theorem Inv.no_fault (inv : Inv s) : s.step label ≠ .fault fault := by
  cases label with
  | call | interrupt | take | append | bump => simp only [State.step]; split <;> rintro ⟨⟩
  | run => exact inv.procStep_no_fault
  | wake => rintro ⟨⟩
  | intr => exact inv.intrStep_no_fault
  | complete head =>
    simp only [State.step]
    split
    next taken =>
      have flying : head ∈ s.heads := by
        simp only [heads, mem_append]
        tauto
      obtain ⟨p, call, idx, waiting, rfl, _⟩ := (inv.flight.waits head).mp flying
      have chained := ((Pc.waiting_inv waiting).2.2 (inv.knows p)).1
      rw [chained.chain_eq]
      rintro ⟨⟩
    next => rintro ⟨⟩

end faults

section runs

/-- While a process is in `alloc3_desc`, the free descriptors and its own are those that were
free before. -/
theorem free_of_run {t : State Proc Cpu Buf} (reachable : (system Proc Cpu Buf).Reachable s)
    (called : s.pc p = .alloc call [])
    (run : (system Proc Cpu Buf).RunWhile (fun t => (t.pc p).allocating = some call) s t) :
    ∀ i, s.free i = true ↔ t.free i = true ∨ i ∈ (t.pc p).owned := by
  induction run with
  | refl =>
    intro i
    rw [called]
    simp [Pc.owned]
  | @step t u label before permitted moved during ih =>
    have inv := reachable_inv (before.reachable reachable)
    have inside : (t.pc p).critical = true := by
      have call := before.last
      cases at' : t.pc p with
      | alloc | undo => rfl
      | _ => rw [at'] at call; cases call
    intro i
    rw [ih i]
    cases step_effect moved with
    | @call q _ idle =>
      have other : p ≠ q := by
        rintro rfl
        rw [idle] at inside
        cases inside
      change _ ↔ t.free i = true ∨ i ∈ (update t.pc q _ p).owned
      rw [update_of_ne other]
    | wake | interrupt => exact Iff.rfl
    | intr does | device does => cases does <;> exact Iff.rfl
    | @run q _ does =>
      obtain rfl : q = p := inv.proc_eq inside does
      have was := before.last
      cases does with
      | @alloc call idx j at' found =>
        change _ ↔ update t.free j false i = true ∨ i ∈ (update t.pc q _ q).owned
        rw [update_self, Pc.owned_allocated, at', mem_append, mem_singleton]
        by_cases is : i = j
        · simp [is, (allocDesc_some found).2]
        · simp [is, Pc.owned]
      | noDesc at' =>
        change _ ↔ t.free i = true ∨ i ∈ (update t.pc q _ q).owned
        rw [update_self, at']
        rfl
      | @undo call j todo at' =>
        change _ ↔ update t.free j true i = true ∨ i ∈ (update t.pc q _ q).owned
        rw [update_self, at']
        by_cases is : i = j
        · simp [is, Pc.owned]
        · simp [is, Pc.owned]
      | sleepFree =>
        change (update t.pc q _ q).allocating = _ at during
        rw [update_self] at during
        cases during
      | acquire at' | retry at' | recheck at' | format at' | sleepBuf at' | pass at' | forget at'
      | freeNext at' | freeLast at' | release at' =>
        rw [at'] at was
        cases was

omit [DecidableEq Proc] [DecidableEq Cpu] [DecidableEq Buf] in
theorem Pc.published_inv {pc : Pc Buf} (published : pc.published = some (call, idx)) :
    pc.buf = some call.b ∧ ∀ call' idx', pc.waiting = some (call', idx') → idx' = idx := by
  cases pc with
  | format stage =>
    cases stage with
    | idx => cases published; exact ⟨rfl, nofun⟩
    | _ => cases published
  | wait | sleepBuf => cases published; exact ⟨rfl, fun _ _ is => by cases is; rfl⟩
  | forget | freeChain | release => cases published; exact ⟨rfl, nofun⟩
  | _ => cases published

/-- Between the publication of a chain and a state with `b->disk` clear, the handler has got
this chain back from the device. -/
theorem completed_of_run {t : State Proc Cpu Buf} (reachable : (system Proc Cpu Buf).Reachable s)
    (publishes : s.pc p = .format .idx call idx)
    (run : (system Proc Cpu Buf).RunWhile (fun t => (t.pc p).published = some (call, idx)) s t)
    (clear : t.disk call.b = false) :
    ∃ v w c, (system Proc Cpu Buf).RunWhile (fun t => (t.pc p).published = some (call, idx)) s v ∧
      v.intr c = .finish idx.head ∧ (system Proc Cpu Buf).step v (.intr c) = .next w ∧
      (system Proc Cpu Buf).RunWhile (fun t => (t.pc p).published = some (call, idx)) w t := by
  induction run with
  | refl =>
    have knows := (reachable_inv reachable).knows p
    rw [publishes] at knows
    have marked : s.disk call.b = true := knows.2.2.2.1
    rw [marked] at clear
    cases clear
  | @step t u label before permitted moved during ih =>
    by_cases earlier : t.disk call.b = false
    · obtain ⟨v, w, c, first, finishes, completes, second⟩ := ih earlier
      exact ⟨v, w, c, first, finishes, completes, second.step permitted moved during⟩
    · have inv := reachable_inv (before.reachable reachable)
      rw [Bool.not_eq_false] at earlier
      obtain ⟨c, q, call', idx', rfl, finishes, waiting, same⟩ :=
        inv.cleared (step_effect moved) earlier clear
      obtain ⟨buf, waits⟩ := Pc.published_inv before.last
      have is : q = p := by
        refine inv.owners.bufs q p call.b ?_ buf
        rw [← same]
        exact (Pc.waiting_inv (s := t) waiting).2.1
      rw [is] at waiting
      rw [waits call' idx' waiting] at finishes
      exact ⟨t, u, c, before, finishes, moved, .refl during⟩

end runs

theorem request_lifecycle (reachable : (system Proc Cpu Buf).Reachable s) :
    -- the descriptors of the processes are disjoint, and those in flight are chains of three
    (∀ p q, p ≠ q → (s.pc p).owned.Disjoint (s.pc q).owned) ∧
    (∀ head ∈ s.heads, ∃ p call idx, (s.pc p).waiting = some (call, idx) ∧ idx.head = head ∧
      s.disk call.b = true ∧ idx.list.Nodup ∧ (∀ i ∈ idx.list, i < num ∧ s.free i = false) ∧
      (s.desc head).next = idx.data ∧ (s.desc idx.data).next = idx.status ∧
      s.chain head = some ⟨call.op, call.b, !call.write, head⟩ ∧
      (s.info head).b = some call.b) ∧
    -- a step changes neither these nor a slot that is still to be read
    (∀ label s', (system Proc Cpu Buf).allowed s label →
      (system Proc Cpu Buf).step s label = .next s' →
      (∀ p call idx, (s.pc p).waiting = some (call, idx) →
        (∀ i ∈ idx.list, s'.desc i = s.desc i ∧ s'.free i = s.free i) ∧
          s'.ops idx.head = s.ops idx.head ∧ (s'.info idx.head).b = (s.info idx.head).b) ∧
      (∀ slot ∈ window id num s.device.lastAvail s.avail.idx,
        s'.avail.ring slot = s.avail.ring slot) ∧
      (∀ slot ∈ window id num s.usedIdx s.used.idx, s'.used.ring slot = s.used.ring slot) ∧
      (∀ b, s.disk b = true → s'.disk b = false → ∃ c p call idx, label = .intr c ∧
        s.intr c = .finish idx.head ∧ (s.pc p).waiting = some (call, idx) ∧ call.b = b)) ∧
    -- a completion is for the buffer of its request, and a call returns after its own one
    (∀ c id, s.intr c = .finish id → ∃ p call idx s', (s.pc p).waiting = some (call, idx) ∧
      idx.head = id ∧ s.disk call.b = true ∧
      (system Proc Cpu Buf).step s (.intr c) = .next s' ∧
      s'.disk = update s.disk call.b false) ∧
    (∀ p call idx t, s.pc p = .format .idx call idx →
      (system Proc Cpu Buf).RunWhile (fun t => (t.pc p).published = some (call, idx)) s t →
      t.pc p = .release call idx →
      ∃ v w c, (system Proc Cpu Buf).RunWhile (fun t => (t.pc p).published = some (call, idx)) s v ∧
        v.intr c = .finish idx.head ∧ (system Proc Cpu Buf).step v (.intr c) = .next w ∧
        (system Proc Cpu Buf).RunWhile (fun t => (t.pc p).published = some (call, idx)) w t) ∧
    -- a failed allocation
    (∀ p call t, s.pc p = .alloc call [] →
      (system Proc Cpu Buf).RunWhile (fun t => (t.pc p).allocating = some call) s t →
      t.pc p = .undo call [] → t.free = s.free) ∧
    -- no panic
    (∀ label fault, (system Proc Cpu Buf).step s label ≠ .fault fault) ∧
    -- who sleeps has a reason to
    (∀ p, s.asleep p = some .free → s.freeCount < 3) ∧
    (∀ p b, s.asleep p = some (.buf b) → s.disk b = true ∧
      ∃ call idx, s.pc p = .sleepBuf call idx ∧ call.b = b ∧ idx.head ∈ s.heads) ∧
    (∀ p chan, s.asleep p = some chan →
      s.heads ≠ [] ∨ ∃ q, s.asleep q = none ∧ (s.pc q).owned ≠ []) := by
  have inv := reachable_inv reachable
  refine ⟨fun p q other i mine yours => other (inv.owners.alone p q i mine yours), ?_,
    fun label s' permitted moved => ?_, ?_, ?_, ?_, fun label fault => inv.no_fault,
    fun p sleeps => (inv.sleeps.free p sleeps).2, ?_, fun p chan => inv.sleeper_waits⟩
  · intro head flying
    obtain ⟨p, call, idx, waiting, rfl, marked⟩ := (inv.flight.waits head).mp flying
    obtain ⟨owned, _, known⟩ := Pc.waiting_inv (s := s) waiting
    obtain ⟨chained, record, _⟩ := known (inv.knows p)
    refine ⟨p, call, idx, waiting, rfl, marked, owned ▸ inv.owners.nodup p, fun i mem => ?_, ?_, ?_,
      chained.chain_eq, record⟩
    · have mine : i ∈ (s.pc p).owned := owned ▸ mem
      have small := inv.owners.bound p i mine
      exact ⟨small, (inv.owners.taken i small).mpr ⟨p, mine⟩⟩
    · rw [chained.head]
      rfl
    · rw [chained.data]
      rfl
  · have effect := step_effect moved
    exact ⟨fun p call idx waiting => inv.chain_kept effect waiting, inv.avail_kept effect,
      inv.used_kept effect, fun b marked clear => inv.cleared effect marked clear⟩
  · intro c id at'
    obtain ⟨p, call, idx, waiting, rfl, marked, record, done⟩ := inv.finishes at'
    refine ⟨p, call, idx, ({ (s.setDisk call.b false).wakeup (.buf call.b) with
      usedIdx := s.usedIdx + 1 }.setIntr c .loop), waiting, rfl, marked, ?_, rfl⟩
    simp [system, step, intrStep, at', done, record]
  · intro p call idx t publishes run ends
    have knows := (reachable_inv (run.reachable reachable)).knows p
    rw [ends] at knows
    exact completed_of_run reachable publishes run knows
  · intro p call t called run ends
    funext i
    have same := free_of_run reachable called run i
    rw [ends] at same
    refine Bool.eq_iff_iff.mpr ?_
    simpa [Pc.owned] using same.symm
  · intro p b sleeps
    obtain ⟨call, idx, at', rfl, marked⟩ := inv.sleeps.buf p b sleeps
    exact ⟨marked, call, idx, at', rfl,
      (inv.flight.waits _).mpr ⟨p, call, idx, by rw [at']; rfl, rfl, marked⟩⟩

/-- Two processes wait for their requests and a third one for descriptors; the device has
completed the second request first. -/
def threeCalls : List (Label (Fin 3) Unit (Fin 3)) :=
  [.call 0 ⟨0, 7, true⟩] ++ replicate 11 (.run 0) ++ [.call 1 ⟨1, 8, false⟩] ++
    replicate 11 (.run 1) ++ [.call 2 ⟨2, 9, false⟩] ++ replicate 7 (.run 2) ++
    [.take, .take, .complete 3, .append 3, .bump, .interrupt (), .intr (), .intr (), .intr ()]

theorem request_lifecycle_secondFirst : ∃ s, (system (Fin 3) Unit (Fin 3)).Reachable s ∧
    s.asleep 2 = some .free ∧ s.freeCount < 3 ∧ s.intr () = .finish 3 ∧
    ∃ p call idx s', (s.pc p).waiting = some (call, idx) ∧ idx.head = 3 ∧ s.disk call.b = true ∧
      (system (Fin 3) Unit (Fin 3)).step s (.intr ()) = .next s' ∧
      s'.disk = update s.disk call.b false := by
  obtain ⟨s, reachable, sleeps, finishes⟩ := (system (Fin 3) Unit (Fin 3)).exists_reachable
    boot_initial threeCalls (motive := fun s => s.asleep 2 = some .free ∧ s.intr () = .finish 3)
    (by decide +kernel)
  obtain ⟨_, _, _, completes, _, _, _, few, _⟩ := request_lifecycle reachable
  exact ⟨s, reachable, sleeps, few 2 sleeps, finishes, completes () 3 finishes⟩

end Xv6.Virtio
