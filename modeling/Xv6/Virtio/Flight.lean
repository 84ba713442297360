import Xv6.Virtio.Contents

/-!
# Requests on their way

Every step keeps the account of the requests in flight: a process publishes a
chain, the device moves it, and the handler gets it back.
-/

namespace Xv6.Virtio

open List
open Window
open State
open Function

variable {Proc Cpu Buf : Type} {s s' : State Proc Cpu Buf} {p q : Proc} {c : Cpu} {i : Nat}
  {call : Call Buf} {idx : Triple}

section flight

theorem Pc.waiting_inv {pc : Pc Buf} (waiting : pc.waiting = some (call, idx)) :
    pc.owned = idx.list ∧ pc.buf = some call.b ∧
      (Knows s pc → Chained s call idx ∧ (s.info idx.head).b = some call.b ∧
        (s.disk call.b = false → (s.info idx.head).status = 0)) := by
  cases pc with
  | wait | sleepBuf => cases waiting; exact ⟨rfl, rfl, id⟩
  | _ => cases waiting

theorem length_le_of_nodup {list : List Nat} {bound : Nat} (nodup : list.Nodup)
    (small : ∀ x ∈ list, x < bound) : list.length ≤ bound :=
  calc list.length = list.toFinset.card := (toFinset_card_of_nodup nodup).symm
    _ ≤ (Finset.range bound).card := Finset.card_le_card fun x mem =>
        Finset.mem_range.mpr (small x (mem_toFinset.mp mem))
    _ = bound := Finset.card_range bound

theorem num_dvd : num ∣ 2 ^ 16 := by decide

theorem num_lt : num < 2 ^ 16 := by decide

theorem waits_congr (waiting : ∀ q, (s'.pc q).waiting = (s.pc q).waiting)
    (disk : ∀ q call idx, (s.pc q).waiting = some (call, idx) → s'.disk call.b = s.disk call.b)
    (head : Nat) : Waits s' head ↔ Waits s head := by
  constructor
  · rintro ⟨q, call, idx, mine, rfl, marked⟩
    rw [waiting] at mine
    exact ⟨q, call, idx, mine, rfl, disk q call idx mine ▸ marked⟩
  · rintro ⟨q, call, idx, mine, rfl, marked⟩
    exact ⟨q, call, idx, (waiting q).trans mine, rfl, (disk q call idx mine).trans marked⟩

theorem FlightInv.of_same (inv : FlightInv s) (avail : s'.availQueue = s.availQueue)
    (usedIdx : s'.usedIdx = s.usedIdx) (used : s'.used = s.used) (device : s'.device = s.device)
    (intr : s'.intr = s.intr)
    (status : ∀ head ∈ s.heads, (s'.info head).status = (s.info head).status)
    (waits : ∀ head, Waits s' head ↔ Waits s head) : FlightInv s' := by
  have usedQueue : s'.usedQueue = s.usedQueue := by rw [State.usedQueue, usedIdx, used]; rfl
  have heads : s'.heads = s.heads := by rw [State.heads, avail, device, usedQueue]; rfl
  refine ⟨heads ▸ inv.nodup, fun head => ?_, fun head mem => ?_, fun head mem => ?_, ?_, ?_, ?_⟩
  · rw [heads, waits, inv.waits]
  · rw [avail, device] at mem
    rw [status head, inv.fresh head mem]
    simp only [State.heads, mem_append] at mem ⊢
    tauto
  · rw [usedQueue, device] at mem
    rw [status head, inv.done head mem]
    simp only [State.heads, mem_append] at mem ⊢
    tauto
  · rw [device, used]
    exact inv.appended
  · rw [intr, usedQueue]
    exact inv.read
  · rw [intr, usedQueue]
    exact inv.finish

namespace Inv

theorem head_owned (inv : Inv s) {head : Nat} (flying : head ∈ s.heads) :
    ∃ p call idx, (s.pc p).waiting = some (call, idx) ∧ idx.head = head ∧ s.disk call.b = true ∧
      head ∈ (s.pc p).owned := by
  obtain ⟨p, call, idx, waiting, rfl, marked⟩ := (inv.flight.waits head).mp flying
  refine ⟨p, call, idx, waiting, rfl, marked, ?_⟩
  rw [(Pc.waiting_inv (s := s) waiting).1]
  exact mem_cons_self

theorem head_lt (inv : Inv s) {head : Nat} (flying : head ∈ s.heads) : head < num := by
  obtain ⟨p, _, _, _, _, _, mine⟩ := inv.head_owned flying
  exact inv.owners.bound p head mine

theorem length_heads (inv : Inv s) : s.heads.length ≤ num :=
  length_le_of_nodup inv.flight.nodup fun _ flying => inv.head_lt flying

theorem not_flying (inv : Inv s) (mine : i ∈ (s.pc p).owned) (busy : (s.pc p).waiting = none) :
    i ∉ s.heads := fun flying => by
  obtain ⟨q, call, idx, waiting, _, _, yours⟩ := inv.head_owned flying
  rw [inv.owners.alone q p i yours mine, busy] at waiting
  cases waiting

theorem room (inv : Inv s) (mine : i ∈ (s.pc p).owned) (busy : (s.pc p).waiting = none) :
    s.availQueue.length < num := by
  have bound : (i :: s.heads).length ≤ num := by
    refine length_le_of_nodup (nodup_cons.mpr ⟨inv.not_flying mine busy, inv.flight.nodup⟩) ?_
    intro head mem
    rcases mem_cons.mp mem with rfl | flying
    · exact inv.owners.bound p _ mine
    · exact inv.head_lt flying
  simp only [heads, length_cons, length_append] at bound
  omega

end Inv

theorem Pc.waiting_allocated (call : Call Buf) (idx : List Nat) :
    (Pc.allocated call idx).waiting = none := by
  unfold Pc.allocated
  split <;> rfl

variable [DecidableEq Proc]

theorem waiting_update {pc : Pc Buf} (pcs : s'.pc = update s.pc p pc)
    (same : pc.waiting = (s.pc p).waiting) (q : Proc) : (s'.pc q).waiting = (s.pc q).waiting := by
  rw [pcs]
  by_cases is : q = p
  · rw [is, update_self, same]
  · rw [update_of_ne is]

variable [DecidableEq Buf]

theorem Inv.publish (inv : Inv s) (at' : s.pc p = .format .idx call idx) :
    FlightInv ((s.format call idx .idx).1.setPc p (.wait call idx)) := by
  obtain ⟨_, fresh, _, marked, published⟩ : Knows s (.format .idx call idx) := at' ▸ inv.knows p
  have mine : idx.head ∈ (s.pc p).owned := by rw [at']; exact mem_cons_self
  have busy : (s.pc p).waiting = none := by rw [at']; rfl
  have room := inv.room mine busy
  have absent := inv.not_flying mine busy
  obtain ⟨nodup, waits, fresh', done, appended, read, finish⟩ := inv.flight
  generalize after : (s.format call idx .idx).1.setPc p (.wait call idx) = t
  have avail : t.availQueue = s.availQueue ++ [idx.head] := by
    rw [← after, ← published]
    exact window_snoc (Nat.lt_of_le_of_lt room num_lt)
  have heads : t.heads.Perm (idx.head :: s.heads) := by
    have rest : t.heads = s.availQueue ++ [idx.head] ++ s.device.taken ++ s.device.done ++
        s.device.appended.toList ++ s.usedQueue := by rw [heads, avail, ← after]; rfl
    rw [rest]
    refine perm_iff_count.mpr fun head => ?_
    simp only [heads, count_append, count_cons, count_nil]
    omega
  have info : t.info = s.info := by rw [← after]; rfl
  have disk : t.disk = s.disk := by rw [← after]; rfl
  have pcs : t.pc = update s.pc p (.wait call idx) := by rw [← after]; rfl
  refine ⟨heads.nodup_iff.mpr (nodup_cons.mpr ⟨absent, nodup⟩), fun head => ?_, fun head mem => ?_,
    ?_, ?_, ?_, ?_⟩
  · rw [heads.mem_iff, mem_cons, waits]
    simp only [Waits, disk, pcs]
    constructor
    · rintro (rfl | ⟨q, call', idx', waiting, is, marked'⟩)
      · exact ⟨p, call, idx, by rw [update_self]; rfl, rfl, marked⟩
      · refine ⟨q, call', idx', ?_, is, marked'⟩
        rw [update_of_ne]
        · exact waiting
        · rintro rfl
          rw [busy] at waiting
          cases waiting
    · rintro ⟨q, call', idx', waiting, is, marked'⟩
      by_cases same : q = p
      · rw [same, update_self] at waiting
        cases waiting
        exact .inl is.symm
      · rw [update_of_ne same] at waiting
        exact .inr ⟨q, call', idx', waiting, is, marked'⟩
  · have device : t.device = s.device := by rw [← after]; rfl
    rw [avail, device] at mem
    rw [info]
    simp only [mem_append, mem_singleton] at mem
    rcases mem with (before | rfl) | taken
    · exact fresh' head (mem_append_left _ before)
    · exact fresh
    · exact fresh' head (mem_append_right _ taken)
  all_goals rw [← after]
  · exact done
  · exact appended
  · exact read
  · exact finish

theorem Inv.flight_proc (inv : Inv s) (does : ProcEffect s p s') : FlightInv s' := by
  have flight := inv.flight
  cases does with
  | acquire at' | retry at' | recheck at' | noDesc at' | undo at' | sleepFree at' | sleepBuf at'
  | freeNext at' | freeLast at' | release at' =>
    exact flight.of_same rfl rfl rfl rfl rfl (fun _ _ => rfl)
      (waits_congr (waiting_update rfl (by rw [at']; rfl)) fun _ _ _ _ => rfl)
  | alloc at' =>
    exact flight.of_same rfl rfl rfl rfl rfl (fun _ _ => rfl)
      (waits_congr (waiting_update rfl (by rw [at', Pc.waiting_allocated]; rfl)) fun _ _ _ _ => rfl)
  | @pass call idx at' clear =>
    refine flight.of_same rfl rfl rfl rfl rfl (fun _ _ => rfl) fun head => ?_
    constructor
    · rintro ⟨q, call', idx', waiting, is, marked⟩
      change (update s.pc p (.forget call idx) q).waiting = _ at waiting
      by_cases same : q = p
      · rw [same, update_self] at waiting
        cases waiting
      · rw [update_of_ne same] at waiting
        exact ⟨q, call', idx', waiting, is, marked⟩
    · rintro ⟨q, call', idx', waiting, is, marked⟩
      refine ⟨q, call', idx', ?_, is, marked⟩
      change (update s.pc p (.forget call idx) q).waiting = _
      rw [update_of_ne]
      · exact waiting
      · rintro rfl
        rw [at'] at waiting
        cases waiting
        rw [clear] at marked
        cases marked
  | @forget call idx at' =>
    refine flight.of_same rfl rfl rfl rfl rfl (fun head _ => ?_)
      (waits_congr (waiting_update rfl (by rw [at']; rfl)) fun _ _ _ _ => rfl)
    change (update s.info idx.head _ head).status = _
    by_cases is : head = idx.head
    · rw [is, update_self]
    · rw [update_of_ne is]
  | @format stage call idx at' =>
    have mine : idx.head ∈ (s.pc p).owned := by rw [at']; exact mem_cons_self
    have busy : (s.pc p).waiting = none := by rw [at']; rfl
    have others : ∀ head ∈ s.heads, head ≠ idx.head := fun head flying is =>
      inv.not_flying mine busy (is ▸ flying)
    cases stage with
    | head | data =>
      exact flight.of_same rfl rfl rfl rfl rfl (fun _ _ => rfl)
        (waits_congr (waiting_update rfl (by rw [at']; rfl)) fun _ _ _ _ => rfl)
    | status =>
      refine flight.of_same rfl rfl rfl rfl rfl (fun head flying => ?_)
        (waits_congr (waiting_update rfl (by rw [at']; rfl)) fun _ _ _ _ => rfl)
      exact congrArg Info.status (update_of_ne (others head flying) _ _)
    | record =>
      refine flight.of_same rfl rfl rfl rfl rfl (fun head flying => ?_)
        (waits_congr (waiting_update rfl (by rw [at']; rfl)) fun q call' idx' waiting => ?_)
      · exact congrArg Info.status (update_of_ne (others head flying) _ _)
      · refine update_of_ne (fun is => ?_) _ _
        have buf := (Pc.waiting_inv (s := s) waiting).2.1
        have same := inv.owners.bufs q p call.b (is ▸ buf) (by rw [at']; rfl)
        rw [same, busy] at waiting
        cases waiting
    | ring =>
      exact flight.of_same (window_write num_dvd (inv.room mine busy) _) rfl rfl rfl rfl
        (fun _ _ => rfl)
        (waits_congr (waiting_update rfl (by rw [at']; rfl)) fun _ _ _ _ => rfl)
    | idx => exact inv.publish at'

end flight

section device

theorem FlightInv.of_perm (inv : FlightInv s) (heads : s'.heads.Perm s.heads) (pcs : s'.pc = s.pc)
    (disk : s'.disk = s.disk)
    (fresh : ∀ head, head ∈ s'.availQueue ++ s'.device.taken → (s'.info head).status = 0xff)
    (done : ∀ head, head ∈ s'.device.done ++ s'.device.appended.toList ++ s'.usedQueue →
      (s'.info head).status = 0)
    (appended : ∀ head, s'.device.appended = some head →
      s'.used.ring (s'.used.idx.toNat % num) = head)
    (intr : s'.intr = s.intr)
    (queue : ∀ id, s.usedQueue.head? = some id → s'.usedQueue.head? = some id) : FlightInv s' := by
  refine ⟨heads.nodup_iff.mpr inv.nodup, fun head => ?_, fresh, done, appended, fun c reads => ?_,
    fun c id finishes => ?_⟩
  · rw [heads.mem_iff, inv.waits, Waits, Waits, pcs, disk]
  · rw [intr] at reads
    obtain ⟨id, rest, is⟩ := exists_cons_of_ne_nil (inv.read c reads)
    have first := queue id (by rw [is]; rfl)
    rintro none
    rw [none] at first
    cases first
  · rw [intr] at finishes
    exact queue id (inv.finish c id finishes)

/-- The device writes to the status of the chain that it completes. -/
theorem Inv.request_status (inv : Inv s) {head : Nat} (flying : head ∈ s.heads)
    {request : Request Buf} (chain : s.chain head = some request) : request.status = head := by
  obtain ⟨p, call, idx, waiting, rfl, _⟩ := (inv.flight.waits head).mp flying
  have chained := ((Pc.waiting_inv waiting).2.2 (inv.knows p)).1
  rw [chained.chain_eq] at chain
  cases chain
  rfl

theorem Inv.flight_device (inv : Inv s) (does : DeviceEffect s s') :
    FlightInv s' := by
  have flight := inv.flight
  have bound := inv.length_heads
  simp only [heads, length_append] at bound
  cases does with
  | take more =>
    have avail : s.availQueue = s.avail.ring (s.device.lastAvail.toNat % num) ::
        window s.avail.ring num (s.device.lastAvail + 1) s.avail.idx := window_cons more
    refine flight.of_perm ?_ rfl rfl (fun head mem => flight.fresh head ?_) flight.done
      flight.appended rfl fun _ => id
    · refine perm_iff_count.mpr fun head => ?_
      rw [heads, heads, avail]
      simp only [availQueue, usedQueue, count_append, count_cons, count_nil]
      omega
    · rw [avail]
      simp only [availQueue, mem_append, mem_cons] at mem ⊢
      tauto
  | @complete head request taken chain =>
    have flying : head ∈ s.heads := by
      simp only [heads, mem_append]
      tauto
    rw [inv.request_status flying chain]
    have moved := perm_cons_erase taken
    have unique := flight.nodup
    have once : ∀ other, other ∈ s.availQueue ++ s.device.taken.erase head → other ≠ head := by
      rintro other mem rfl
      have count : s.heads.count other ≤ 1 := nodup_iff_count_le_one.mp unique other
      have more := moved.count_eq other
      have pos : 0 < (s.availQueue ++ s.device.taken.erase other).count other :=
        count_pos_iff.mpr mem
      simp only [heads, count_append, count_cons_self] at count more pos
      omega
    refine flight.of_perm ?_ rfl rfl (fun other mem => ?_) (fun other mem => ?_) flight.appended rfl
      fun _ => id
    · refine perm_iff_count.mpr fun other => ?_
      have more := moved.count_eq other
      simp only [heads, availQueue, usedQueue, setInfo, count_append,
        count_cons, count_nil] at more ⊢
      omega
    · change (update s.info head _ other).status = _
      rw [update_of_ne (once other mem)]
      refine flight.fresh other ?_
      simp only [mem_append] at mem ⊢
      exact mem.imp_right mem_of_mem_erase
    · change (update s.info head _ other).status = _
      by_cases is : other = head
      · rw [is, update_self]
      · rw [update_of_ne is]
        refine flight.done other ?_
        change other ∈ s.device.done ++ [head] ++ s.device.appended.toList ++ s.usedQueue at mem
        simp only [mem_append, mem_singleton] at mem ⊢
        tauto
  | @append head ready none =>
    have moved := perm_cons_erase ready
    have nonempty := length_pos_of_mem ready
    have room : s.usedQueue.length < num := by omega
    have used : window (update s.used.ring (s.used.idx.toNat % num) head) num s.usedIdx
        s.used.idx = s.usedQueue := window_write num_dvd room head
    refine flight.of_perm ?_ rfl rfl flight.fresh (fun other mem => flight.done other ?_) ?_ rfl
      fun id first => ?_
    · refine perm_iff_count.mpr fun other => ?_
      have more := moved.count_eq other
      rw [heads, heads, usedQueue, used, none]
      simp only [availQueue, count_append, count_cons, count_nil,
        Option.toList_some, Option.toList_none] at more ⊢
      omega
    · change other ∈ s.device.done.erase head ++ [head] ++ window _ num s.usedIdx s.used.idx at mem
      rw [used] at mem
      simp only [mem_append, mem_singleton] at mem ⊢
      rcases mem with (erased | rfl) | old
      · exact .inl (.inl (mem_of_mem_erase erased))
      · exact .inl (.inl ready)
      · exact .inr old
    · rintro other is
      cases is
      exact update_self ..
    · change (window _ num s.usedIdx s.used.idx).head? = _
      rw [used]
      exact first
  | @bump head ready =>
    have room : s.usedQueue.length < num := by
      rw [ready] at bound
      simp only [Option.toList_some, length_singleton] at bound
      omega
    have used : window s.used.ring num s.usedIdx (s.used.idx + 1) = s.usedQueue ++ [head] := by
      rw [← flight.appended head ready]
      exact window_snoc (Nat.lt_of_le_of_lt room num_lt)
    refine flight.of_perm ?_ rfl rfl flight.fresh (fun other mem => flight.done other ?_) nofun rfl
      fun id first => ?_
    · refine perm_iff_count.mpr fun other => ?_
      rw [heads, heads, usedQueue, used, ready]
      simp only [availQueue, count_append, count_cons, count_nil,
        Option.toList_some, Option.toList_none]
      omega
    · change other ∈ s.device.done ++ [] ++ window _ num s.usedIdx (s.used.idx + 1) at mem
      rw [used] at mem
      rw [ready]
      simp only [mem_append, mem_singleton, Option.toList_some, not_mem_nil] at mem ⊢
      tauto
    · change (window _ num s.usedIdx (s.used.idx + 1)).head? = _
      rw [used, head?_append, first]
      rfl

end device

section handler

/-- The handler is about to clear `b->disk` for the process that waits for the chain. -/
theorem Inv.finishes (inv : Inv s) {id : Nat} (at' : s.intr c = .finish id) :
    ∃ p call idx, (s.pc p).waiting = some (call, idx) ∧ idx.head = id ∧ s.disk call.b = true ∧
      (s.info id).b = some call.b ∧ (s.info id).status = 0 := by
  have first := inv.flight.finish c id at'
  have mem : id ∈ s.usedQueue := mem_of_head? first
  have flying : id ∈ s.heads := mem_append_right _ mem
  obtain ⟨p, call, idx, waiting, rfl, marked⟩ := (inv.flight.waits id).mp flying
  obtain ⟨_, record, _⟩ := (Pc.waiting_inv waiting).2.2 (inv.knows p)
  exact ⟨p, call, idx, waiting, rfl, marked, record, inv.flight.done _ (mem_append_right _ mem)⟩

theorem OwnInv.waiting_alone {call' : Call Buf} {idx' : Triple} (inv : OwnInv s)
    (waiting : (s.pc p).waiting = some (call, idx))
    (waiting' : (s.pc q).waiting = some (call', idx'))
    (same : call.b = call'.b ∨ idx.head = idx'.head) : call = call' ∧ idx = idx' := by
  obtain ⟨owned, buf, _⟩ := Pc.waiting_inv (s := s) waiting
  obtain ⟨owned', buf', _⟩ := Pc.waiting_inv (s := s) waiting'
  have is : p = q := by
    rcases same with same | same
    · exact inv.bufs p q call.b buf (same ▸ buf')
    · refine inv.alone p q idx.head (owned ▸ mem_cons_self) ?_
      rw [owned', same]
      exact mem_cons_self
  rw [is, waiting'] at waiting
  cases waiting
  exact ⟨rfl, rfl⟩

theorem OwnInv.waits_finish [DecidableEq Buf] (inv : OwnInv s)
    (waiting : (s.pc p).waiting = some (call, idx)) (pcs : s'.pc = s.pc)
    (disk : s'.disk = update s.disk call.b false) (head : Nat) :
    Waits s' head ↔ Waits s head ∧ head ≠ idx.head := by
  simp only [Waits, pcs, disk]
  constructor
  · rintro ⟨q, call', idx', waiting', rfl, marked⟩
    have other : call'.b ≠ call.b := fun same => by
      rw [same, update_self] at marked
      cases marked
    rw [update_of_ne other] at marked
    refine ⟨⟨q, call', idx', waiting', rfl, marked⟩, fun same => other ?_⟩
    rw [(inv.waiting_alone waiting' waiting (.inr same)).1]
  · rintro ⟨⟨q, call', idx', waiting', rfl, marked⟩, other⟩
    refine ⟨q, call', idx', waiting', rfl, ?_⟩
    rw [update_of_ne]
    · exact marked
    · exact fun same => other (by rw [(inv.waiting_alone waiting' waiting (.inl same)).2])

variable [DecidableEq Cpu]

theorem FlightInv.setIntr (inv : FlightInv s) {intr : Intr} {lock : Option (Proc ⊕ Cpu)}
    (read : intr = .read → s.usedQueue ≠ [])
    (finish : ∀ id, intr = .finish id → s.usedQueue.head? = some id) :
    FlightInv { s.setIntr c intr with lock } := by
  refine ⟨inv.nodup, inv.waits, inv.fresh, inv.done, inv.appended, fun d reads => ?_,
    fun d id finishes => ?_⟩
  · change update s.intr c intr d = _ at reads
    by_cases is : d = c
    · rw [is, update_self] at reads
      exact read reads
    · rw [update_of_ne is] at reads
      exact inv.read d reads
  · change update s.intr c intr d = _ at finishes
    by_cases is : d = c
    · rw [is, update_self] at finishes
      exact finish id finishes
    · rw [update_of_ne is] at finishes
      exact inv.finish d id finishes

variable [DecidableEq Buf]

/-- The handler gets the first chain of the used ring back. -/
theorem Inv.flight_finish (inv : Inv s) {id : Nat} {b : Buf} (at' : s.intr c = .finish id)
    (record : (s.info id).b = some b) :
    FlightInv ({ (s.setDisk b false).wakeup (.buf b) with usedIdx := s.usedIdx + 1 }.setIntr c
      .loop) := by
  obtain ⟨p, call, idx, waiting, head, marked, record', _⟩ := inv.finishes at'
  obtain rfl : b = call.b := Option.some.inj (record.symm.trans record')
  have first := inv.flight.finish c id at'
  have more : s.usedIdx ≠ s.used.idx := fun same => by
    rw [usedQueue, window_eq_nil.mpr same] at first
    cases first
  have used : s.usedQueue = id :: window s.used.ring num (s.usedIdx + 1) s.used.idx := by
    have cons : s.usedQueue = _ := window_cons more
    rw [cons] at first ⊢
    rw [Option.some.inj first]
  generalize after : { (s.setDisk call.b false).wakeup (.buf call.b) with
    usedIdx := s.usedIdx + 1 }.setIntr c .loop = t
  have info : t.info = s.info := by rw [← after]; rfl
  have device : t.device = s.device := by rw [← after]; rfl
  have avail : t.availQueue = s.availQueue := by rw [← after]; rfl
  have queue : s.usedQueue = id :: t.usedQueue := by rw [used, ← after]; rfl
  have heads : s.heads.Perm (id :: t.heads) := by
    rw [heads, heads, queue, avail, device]
    exact perm_middle
  have unique := heads.nodup_iff.mp inv.flight.nodup
  rw [nodup_cons] at unique
  -- No other handler is inside, and this one is back at the loop.
  have outside : ∀ d, (t.intr d).critical = true → t.intr d = .loop := fun d inside => by
    by_cases is : d = c
    · rw [is, ← after]
      exact update_self ..
    · have same : t.intr d = s.intr d := by rw [← after]; exact update_of_ne is _ _
      rw [same] at inside
      exact absurd (inv.locks.cpu_alone inside (by rw [at']; rfl)) is
  refine ⟨unique.2, fun head' => ?_, ?_, fun other mem => ?_, ?_, fun d reads => ?_,
    fun d id' finishes => ?_⟩
  · rw [inv.owners.waits_finish waiting (by rw [← after]; rfl) (by rw [← after]; rfl),
      ← inv.flight.waits, heads.mem_iff, mem_cons, head]
    constructor
    · exact fun mem => ⟨.inr mem, fun is => unique.1 (is ▸ mem)⟩
    · exact fun mem => mem.1.resolve_left mem.2
  · rw [info, device, avail]
    exact inv.flight.fresh
  · rw [info]
    refine inv.flight.done other ?_
    rw [queue, ← device]
    simp only [mem_append, mem_cons] at mem ⊢
    tauto
  · rw [device, ← after]
    exact inv.flight.appended
  · have is := outside d (by rw [reads]; rfl)
    rw [reads] at is
    cases is
  · have is := outside d (by rw [finishes]; rfl)
    rw [finishes] at is
    cases is

theorem Inv.flight_intr (inv : Inv s) (does : IntrEffect s c s') : FlightInv s' := by
  cases does with
  | acquire | empty | release => exact inv.flight.setIntr nofun nofun
  | more _ other =>
    exact inv.flight.setIntr (fun _ none => other (window_eq_nil.mp none)) nofun
  | read at' =>
    have nonempty := inv.flight.read c at'
    have other : s.usedIdx ≠ s.used.idx := fun same => nonempty (window_eq_nil.mpr same)
    refine inv.flight.setIntr nofun fun id is => ?_
    cases is
    rw [usedQueue, window_cons other]
    rfl
  | finish at' _ record => exact inv.flight_finish at' record

end handler

end Xv6.Virtio
