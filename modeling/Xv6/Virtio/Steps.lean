import Xv6.Virtio.Flight

/-!
# Every step keeps the invariant
-/

namespace Xv6.Virtio

open Function

variable {Proc Cpu Buf : Type} {s s' : State Proc Cpu Buf} {p q : Proc} {c : Cpu} {i : Nat}
  {call : Call Buf} {idx : Triple}

section shared

theorem Knows.of_unchanged {pc : Pc Buf} (knows : Knows s pc) (ops : s'.ops = s.ops)
    (desc : s'.desc = s.desc) (info : s'.info = s.info) (disk : s'.disk = s.disk)
    (avail : s'.avail = s.avail) (free : s'.free = s.free) : Knows s' pc :=
  knows.of_agree (fun _ _ => by rw [ops]) (fun _ _ => by rw [desc]) (fun _ _ => by rw [info])
    (fun _ _ => by rw [disk]) fun _ => ⟨avail, by rw [State.freeCount, State.freeCount, free]⟩

theorem Knows.of_waiting {pc : Pc Buf} (waiting : pc.waiting = some (call, idx))
    (chained : Chained s call idx) (record : (s.info idx.head).b = some call.b)
    (done : s.disk call.b = false → (s.info idx.head).status = 0) : Knows s pc := by
  cases pc with
  | wait | sleepBuf => cases waiting; exact ⟨chained, record, done⟩
  | _ => cases waiting

theorem Inv.knows_device (inv : Inv s) (does : DeviceEffect s s') (q : Proc) :
    Knows s' (s'.pc q) := by
  have knows := inv.knows q
  cases does with
  | take | append | bump => exact knows.of_unchanged rfl rfl rfl rfl rfl rfl
  | @complete head request taken chain =>
    have flying : head ∈ s.heads := by
      simp only [State.heads, List.mem_append]
      tauto
    rw [inv.request_status flying chain]
    obtain ⟨p, call, idx, waiting, rfl, _, mine⟩ := inv.head_owned flying
    by_cases is : q = p
    · subst is
      obtain ⟨chained, record, _⟩ := (Pc.waiting_inv waiting).2.2 knows
      refine .of_waiting waiting (chained.of_same rfl fun _ _ => rfl) ?_ fun _ => ?_
      · change (update s.info idx.head _ idx.head).b = _
        rw [update_self]
        exact record
      · change (update s.info idx.head _ idx.head).status = _
        rw [update_self]
    · refine knows.of_agree (fun _ _ => rfl) (fun _ _ => rfl) (fun i yours => ?_) (fun _ _ => rfl)
        fun _ => ⟨rfl, rfl⟩
      refine update_of_ne (fun same => is ?_) _ _
      exact inv.owners.alone q p i yours (same ▸ mine)

variable [DecidableEq Buf]

theorem Inv.knows_intr [DecidableEq Cpu] (inv : Inv s) (does : IntrEffect s c s') (q : Proc) :
    Knows s' (s'.pc q) := by
  have knows := inv.knows q
  cases does with
  | acquire | more | empty | read | release => exact knows.of_unchanged rfl rfl rfl rfl rfl rfl
  | @finish id b at' done record =>
    obtain ⟨p, call, idx, waiting, rfl, _, record', _⟩ := inv.finishes at'
    obtain rfl : b = call.b := Option.some.inj (record.symm.trans record')
    by_cases is : q = p
    · subst is
      obtain ⟨chained, _, _⟩ := (Pc.waiting_inv waiting).2.2 knows
      exact .of_waiting waiting (chained.of_same rfl fun _ _ => rfl) record fun _ => done
    · refine knows.of_agree (fun _ _ => rfl) (fun _ _ => rfl) (fun _ _ => rfl) (fun b mine => ?_)
        fun _ => ⟨rfl, rfl⟩
      refine update_of_ne (fun same => is ?_) _ _
      exact inv.owners.bufs q p call.b (same ▸ mine) (Pc.waiting_inv (s := s) waiting).2.1

end shared

section sleep

/-- Processes only wake up, and those that go on sleeping still have a reason to. -/
theorem SleepInv.mono (inv : SleepInv s)
    (asleep : ∀ q chan, s'.asleep q = some chan → s.asleep q = some chan ∧ s'.pc q = s.pc q)
    (count : ∀ q, s'.asleep q = some .free → s'.freeCount ≤ s.freeCount)
    (disk : ∀ q b, s'.asleep q = some (.buf b) → s.disk b = true → s'.disk b = true) :
    SleepInv s' := by
  constructor
  · intro q sleeps
    obtain ⟨before, same⟩ := asleep q _ sleeps
    obtain ⟨at', few⟩ := inv.free q before
    exact ⟨same ▸ at', (count q sleeps).trans_lt few⟩
  · intro q b sleeps
    obtain ⟨before, same⟩ := asleep q _ sleeps
    obtain ⟨call, idx, at', is, marked⟩ := inv.buf q b before
    exact ⟨call, idx, same ▸ at', is, disk q b sleeps marked⟩

variable [DecidableEq Proc] [DecidableEq Buf]

omit [DecidableEq Proc] in
theorem wakeup_asleep {chan chan' : Chan Buf} (sleeps : (s.wakeup chan).asleep q = some chan') :
    s.asleep q = some chan' ∧ chan' ≠ chan := by
  change (if s.asleep q = some chan then none else s.asleep q) = some chan' at sleeps
  split at sleeps
  next => cases sleeps
  next other =>
    refine ⟨sleeps, fun is => other ?_⟩
    rw [sleeps, is]

theorem SleepInv.awake (inv : SleepInv s) (does : ProcEffect s p s') : s.asleep p = none := by
  cases sleeps : s.asleep p with
  | none => rfl
  | some chan =>
    have place : (∃ call, s.pc p = .sleepFree call) ∨ ∃ call idx, s.pc p = .sleepBuf call idx := by
      cases chan with
      | free => exact .inl (inv.free p sleeps).1
      | buf b =>
        obtain ⟨call, idx, at', _⟩ := inv.buf p b sleeps
        exact .inr ⟨call, idx, at'⟩
    cases does with
    | retry _ awake | recheck _ awake => exact sleeps.symm.trans awake
    | acquire at' | alloc at' | noDesc at' | undo at' | sleepFree at' | format at' | sleepBuf at'
    | pass at' | forget at' | freeNext at' | freeLast at' | release at' =>
      rw [at'] at place
      rcases place with ⟨call, is⟩ | ⟨call, idx, is⟩ <;> cases is

theorem Inv.sleeps_proc (inv : Inv s) (does : ProcEffect s p s') : SleepInv s' := by
  have sleeps := inv.sleeps
  have awake := sleeps.awake does
  have other : ∀ q chan, s.asleep q = some chan → q ≠ p := by
    rintro q chan before rfl
    rw [awake] at before
    cases before
  have kept : ∀ q chan, s.asleep q = some chan → s.asleep q = some chan ∧ s'.pc q = s.pc q :=
    fun q chan before => ⟨before, does.pc_other (other q chan before)⟩
  have freed : ∀ i q chan, (s.clearDesc i).asleep q = some chan →
      (s.asleep q = some chan ∧ s'.pc q = s.pc q) ∧ chan ≠ .free := fun i q chan now => by
    obtain ⟨before, other⟩ := wakeup_asleep now
    exact ⟨kept q chan before, other⟩
  cases does with
  | acquire | retry | recheck | noDesc | pass | forget | release =>
    exact sleeps.mono kept (fun _ _ => le_rfl) fun _ _ _ => id
  | alloc => exact sleeps.mono kept (fun _ _ => freeCount_alloc rfl) fun _ _ _ => id
  | undo | freeNext | freeLast =>
    exact sleeps.mono (fun q chan now => (freed _ q chan now).1)
      (fun q now => absurd rfl (freed _ q _ now).2) fun _ _ _ => id
  | @format stage call idx at' =>
    have asleep : ((s.format call idx stage).1.setPc p (s.format call idx stage).2).asleep =
        s.asleep := by cases stage <;> rfl
    refine sleeps.mono (fun q chan now => kept q chan (asleep ▸ now)) (fun _ _ => ?_)
      fun q b _ marked => ?_
    · cases stage <;> exact le_rfl
    · cases stage with
      | record =>
        change update s.disk call.b true b = true
        by_cases is : b = call.b
        · rw [is, update_self]
        · rw [update_of_ne is]
          exact marked
      | _ => exact marked
  | @sleepFree call at' =>
    have knows := inv.knows p
    rw [at'] at knows
    constructor
    · intro q now
      change (∃ call', update s.pc p (.sleepFree call) q = .sleepFree call') ∧ s.freeCount < 3
      by_cases is : q = p
      · rw [is, update_self]
        exact ⟨⟨call, rfl⟩, knows⟩
      · rw [update_of_ne is]
        refine sleeps.free q ?_
        exact (update_of_ne is ..).symm.trans now
    · intro q b now
      have is : q ≠ p := by
        rintro rfl
        change update s.asleep q (some .free) q = _ at now
        rw [update_self] at now
        cases now
      change ∃ call' idx, update s.pc p _ q = .sleepBuf call' idx ∧ _ ∧ _
      rw [update_of_ne is]
      exact sleeps.buf q b ((update_of_ne is ..).symm.trans now)
  | @sleepBuf call idx at' marked =>
    constructor
    · intro q now
      have is : q ≠ p := by
        rintro rfl
        change update s.asleep q (some (.buf call.b)) q = _ at now
        rw [update_self] at now
        cases now
      change (∃ call', update s.pc p _ q = .sleepFree call') ∧ s.freeCount < 3
      rw [update_of_ne is]
      exact sleeps.free q ((update_of_ne is ..).symm.trans now)
    · intro q b now
      change ∃ call' idx', update s.pc p (.sleepBuf call idx) q = .sleepBuf call' idx' ∧
        _ ∧ s.disk b = true
      by_cases is : q = p
      · rw [is, update_self]
        rw [is] at now
        change update s.asleep p (some (.buf call.b)) p = _ at now
        rw [update_self] at now
        cases now
        exact ⟨call, idx, rfl, rfl, marked⟩
      · rw [update_of_ne is]
        exact sleeps.buf q b ((update_of_ne is ..).symm.trans now)

omit [DecidableEq Proc] in
theorem SleepInv.of_intrEffect [DecidableEq Cpu] (inv : SleepInv s) (does : IntrEffect s c s') :
    SleepInv s' := by
  cases does with
  | acquire | more | empty | read | release => exact ⟨inv.free, inv.buf⟩
  | @finish id b =>
    refine inv.mono (fun q chan now => ⟨(wakeup_asleep now).1, rfl⟩) (fun _ _ => le_rfl)
      fun q b' now marked => ?_
    have other : b' ≠ b := fun is => (wakeup_asleep now).2 (by rw [is])
    exact (update_of_ne other ..).trans marked

end sleep

section reachable

variable [DecidableEq Proc] [DecidableEq Cpu] [DecidableEq Buf] {label : Label Proc Cpu Buf}

theorem Inv.step (inv : Inv s) (permitted : (system Proc Cpu Buf).allowed s label)
    (effect : Effect s label s') : Inv s' := by
  have locks := inv.locks.of_effect effect
  cases effect with
  | @call p call idle =>
    have asleep : ∀ q chan, s.asleep q = some chan → s.asleep q = some chan ∧
        (s.setPc p (.acquire call)).pc q = s.pc q := fun q chan sleeps => by
      refine ⟨sleeps, update_of_ne ?_ _ _⟩
      rintro rfl
      cases chan with
      | free =>
        obtain ⟨⟨_, at'⟩, _⟩ := inv.sleeps.free q sleeps
        rw [idle] at at'
        cases at'
      | buf b =>
        obtain ⟨_, _, at', _⟩ := inv.sleeps.buf q b sleeps
        rw [idle] at at'
        cases at'
    refine ⟨locks, ?_, fun q => ?_, ?_, inv.sleeps.mono asleep (fun _ _ => le_rfl) fun _ _ _ => id⟩
    · refine inv.owners.setPc (by rw [idle]; rfl) (fun b mine => .inr fun q yours => ?_) rfl rfl
      cases mine
      exact permitted q yours
    · change Knows _ (update s.pc p _ q)
      by_cases is : q = p
      · rw [is, update_self]
        trivial
      · rw [update_of_ne is]
        exact (inv.knows q).of_unchanged rfl rfl rfl rfl rfl rfl
    · exact inv.flight.of_same rfl rfl rfl rfl rfl (fun _ _ => rfl)
        (waits_congr (waiting_update rfl (by rw [idle]; rfl)) fun _ _ _ _ => rfl)
  | @run p _ does =>
    refine ⟨locks, inv.owners.of_procEffect (inv.knows p) does, fun q => ?_, inv.flight_proc does,
      inv.sleeps_proc does⟩
    by_cases is : q = p
    · rw [is]
      exact inv.knows_own does
    · exact inv.knows_other does is
  | @wake p =>
    refine ⟨locks, inv.owners.of_same rfl rfl,
      fun q => (inv.knows q).of_unchanged rfl rfl rfl rfl rfl rfl,
      inv.flight.of_same rfl rfl rfl rfl rfl (fun _ _ => rfl) fun _ => Iff.rfl,
      inv.sleeps.mono (fun q chan now => ⟨?_, rfl⟩) (fun _ _ => le_rfl) fun _ _ _ => id⟩
    change update s.asleep p none q = some chan at now
    by_cases is : q = p
    · rw [is, update_self] at now
      cases now
    · rwa [update_of_ne is] at now
  | interrupt =>
    exact ⟨locks, inv.owners.of_same rfl rfl,
      fun q => (inv.knows q).of_unchanged rfl rfl rfl rfl rfl rfl, inv.flight.setIntr nofun nofun,
      inv.sleeps.free, inv.sleeps.buf⟩
  | intr does =>
    refine ⟨locks, inv.owners.of_same ?_ ?_, inv.knows_intr does, inv.flight_intr does,
      inv.sleeps.of_intrEffect does⟩ <;> cases does <;> rfl
  | device does =>
    refine ⟨locks, inv.owners.of_same ?_ ?_, inv.knows_device does, inv.flight_device does, ?_⟩
    · cases does <;> rfl
    · cases does <;> rfl
    · cases does <;> exact ⟨inv.sleeps.free, inv.sleeps.buf⟩

omit [DecidableEq Proc] [DecidableEq Cpu] [DecidableEq Buf] in
theorem Inv.initial (starts : Initial s) : Inv s := by
  have idle : ∀ p, s.pc p = .idle := starts.pc
  have noHeads : s.heads = [] := by
    have avail : s.availQueue = [] := by
      rw [State.availQueue, Window.window_eq_nil, starts.lastAvail, starts.avail]
    have used : s.usedQueue = [] := by
      rw [State.usedQueue, Window.window_eq_nil, starts.usedIdx, starts.used]
    rw [State.heads, avail, used, starts.taken, starts.done, starts.appended]
    rfl
  refine ⟨⟨fun p => ?_, fun c => ?_⟩, ⟨?_, ?_, ?_, ?_, ?_⟩, ?_, ?_, ?_⟩
  · rw [idle, starts.lock]
    constructor <;> rintro ⟨⟩
  · rw [starts.intr, starts.lock]
    constructor <;> rintro ⟨⟩
  · intro p q b mine
    rw [idle] at mine
    cases mine
  · intro p i mine
    rw [idle] at mine
    cases mine
  · intro p
    rw [idle]
    exact List.nodup_nil
  · intro p q i mine
    rw [idle] at mine
    cases mine
  · intro i small
    rw [starts.free i small]
    refine ⟨(fun free => by cases free), ?_⟩
    rintro ⟨p, mine⟩
    rw [idle] at mine
    cases mine
  · intro p
    rw [idle]
    trivial
  · have none : ∀ head, head ∉ s.heads := fun head mem => by rw [noHeads] at mem; cases mem
    refine ⟨noHeads ▸ List.nodup_nil, fun head => ⟨fun mem => absurd mem (none head), ?_⟩, ?_, ?_,
      ?_,
      ?_, ?_⟩
    · rintro ⟨p, _, _, waiting, _⟩
      rw [idle] at waiting
      cases waiting
    · intro head mem
      refine absurd ?_ (none head)
      simp only [State.heads, List.mem_append] at mem ⊢
      tauto
    · intro head mem
      refine absurd ?_ (none head)
      simp only [State.heads, List.mem_append] at mem ⊢
      tauto
    · intro head is
      rw [starts.appended] at is
      cases is
    · intro c reads
      rw [starts.intr] at reads
      cases reads
    · intro c id finishes
      rw [starts.intr] at finishes
      cases finishes
  · constructor
    · intro p sleeps
      rw [starts.asleep] at sleeps
      cases sleeps
    · intro p b sleeps
      rw [starts.asleep] at sleeps
      cases sleeps

theorem reachable_inv (reachable : (system Proc Cpu Buf).Reachable s) : Inv s :=
  reachable.invariant (motive := Inv) (fun _ starts => .initial starts)
    fun _ _ _ _ inv permitted moved => inv.step permitted (step_effect moved)

end reachable

end Xv6.Virtio
