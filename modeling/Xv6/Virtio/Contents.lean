import Xv6.Virtio.Invariant

/-!
# Steps of a process

A process keeps what it knows about its own descriptors, and the other processes
keep what they know about theirs.
-/

namespace Xv6.Virtio

open List
open Triple
open Function

variable {Proc Cpu Buf : Type} {s s' : State Proc Cpu Buf} {p q : Proc} {c : Cpu} {i : Nat}
  {call : Call Buf} {idx : Triple}

namespace Triple

theorem rest_head : idx.rest idx.head = idx.list := if_pos rfl

theorem rest_data (apart : idx.list.Nodup) : idx.rest idx.data = [idx.data, idx.status] := by
  simp only [list, nodup_cons, mem_cons, not_mem_nil, or_false, not_or] at apart
  rw [rest, if_neg (Ne.symm apart.1.1), if_pos rfl]

theorem rest_status (apart : idx.list.Nodup) : idx.rest idx.status = [idx.status] := by
  simp only [list, nodup_cons, mem_cons, not_mem_nil, or_false, not_or] at apart
  rw [rest, if_neg (Ne.symm apart.1.2), if_neg (Ne.symm apart.2.1), if_pos rfl]

theorem headDesc_flags : (idx.headDesc : Desc Buf).flags &&& descNext ≠ 0 := by
  change descNext &&& descNext ≠ 0
  decide

theorem dataDesc_flags : (idx.dataDesc call).flags &&& descNext ≠ 0 := by
  simp only [dataDesc]
  cases call.write <;> decide

theorem statusDesc_flags : (idx.statusDesc : Desc Buf).flags &&& descNext = 0 := by
  change descWrite &&& descNext = 0
  decide

end Triple

/-- At a descriptor with a successor, `free_chain` goes on to the next one of the three. -/
theorem rest_next (knows : Knows s (.freeChain call idx i))
    (more : (s.desc i).flags &&& descNext ≠ 0) :
    (i = idx.head ∧ (s.desc i).next = idx.data ∨ i = idx.data ∧ (s.desc i).next = idx.status) ∧
      idx.rest i = i :: idx.rest (s.desc i).next := by
  obtain ⟨_, apart, mem, head, data, status⟩ := knows
  simp only [list, mem_cons, not_mem_nil, or_false] at mem
  rcases mem with rfl | rfl | rfl
  · have next : (s.desc idx.head).next = idx.data := by rw [head rfl]; rfl
    rw [next, rest_head, rest_data apart]
    exact ⟨.inl ⟨rfl, rfl⟩, rfl⟩
  · have next : (s.desc idx.data).next = idx.status := by rw [data (.inr rfl)]; rfl
    rw [next, rest_data apart, rest_status apart]
    exact ⟨.inr ⟨rfl, rfl⟩, rfl⟩
  · rw [status] at more
    exact absurd statusDesc_flags more

theorem rest_last (knows : Knows s (.freeChain call idx i))
    (last : (s.desc i).flags &&& descNext = 0) : idx.rest i = [i] := by
  obtain ⟨_, apart, mem, head, data, status⟩ := knows
  simp only [list, mem_cons, not_mem_nil, or_false] at mem
  rcases mem with rfl | rfl | rfl
  · rw [head rfl] at last
    exact absurd last headDesc_flags
  · rw [data (.inr rfl)] at last
    exact absurd last dataDesc_flags
  · exact rest_status apart

section owners

variable [DecidableEq Proc] [DecidableEq Buf]

theorem OwnInv.of_procEffect (inv : OwnInv s) (knows : Knows s (s.pc p))
    (does : ProcEffect s p s') : OwnInv s' := by
  cases does with
  | acquire at' | retry at' | recheck at' | noDesc at' | sleepFree at' | sleepBuf at' | pass at' =>
    exact inv.setPc (by rw [at']; rfl) (fun b mine => .inl (by rw [at']; exact mine)) rfl rfl
  | forget at' =>
    exact inv.setPc (by rw [at']; exact rest_head)
      (fun b mine => .inl (by rw [at']; exact mine)) rfl rfl
  | release at' => exact inv.setPc (by rw [at']; rfl) (fun b mine => by cases mine) rfl rfl
  | @format stage call idx at' =>
    have pcs : ((s.format call idx stage).1.setPc p (s.format call idx stage).2).pc =
        update s.pc p (s.format call idx stage).2 := by cases stage <;> rfl
    refine inv.setPc ?_ (fun b mine => .inl ?_) pcs (by cases stage <;> rfl)
    · rw [at']
      cases stage <;> rfl
    · rw [at']
      cases stage <;> exact mine
  | alloc at' found =>
    obtain ⟨small, free⟩ := allocDesc_some found
    exact inv.gain small free (by rw [Pc.owned_allocated, at']; rfl)
      (by rw [Pc.buf_allocated, at']; rfl) rfl rfl
  | undo at' => exact inv.lose (by rw [at']; rfl) (by rw [at']; rfl) rfl rfl
  | freeNext at' _ _ more =>
    rw [at'] at knows
    exact inv.lose (by rw [at']; exact (rest_next knows more).2) (by rw [at']; rfl) rfl rfl
  | freeLast at' _ _ last =>
    rw [at'] at knows
    exact inv.lose (by rw [at']; exact rest_last knows last) (by rw [at']; rfl) rfl rfl

end owners

section knows

theorem Chained.of_same (chained : Chained s call idx) (ops : s'.ops = s.ops)
    (desc : ∀ i ∈ idx.list, s'.desc i = s.desc i) : Chained s' call idx := by
  obtain ⟨op, head, data, status⟩ := chained
  refine ⟨ops ▸ op, ?_, ?_, ?_⟩
  · rw [desc idx.head (by simp [list]), head]
  · rw [desc idx.data (by simp [list]), data]
  · rw [desc idx.status (by simp [list]), status]

variable [DecidableEq Buf]

theorem Knows.format {stage : Stage} (knows : Knows s (.format stage call idx))
    (apart : idx.list.Nodup) :
    Knows (s.format call idx stage).1 (s.format call idx stage).2 := by
  simp only [list, nodup_cons, mem_cons, not_mem_nil, or_false, not_or] at apart
  cases stage with
  | head => exact ⟨update_self .., update_self ..⟩
  | data =>
    obtain ⟨op, head⟩ := knows
    exact ⟨op, (update_of_ne apart.1.1 ..).trans head, update_self ..⟩
  | status =>
    obtain ⟨op, head, data⟩ := knows
    refine ⟨⟨op, (update_of_ne apart.1.2 ..).trans head,
      (update_of_ne apart.2.1 ..).trans data, update_self ..⟩, ?_⟩
    change (update s.info idx.head _ idx.head).status = _
    rw [update_self]
  | record =>
    obtain ⟨chained, fresh⟩ := knows
    have record : (s.format call idx .record).1.info idx.head =
        { s.info idx.head with b := some call.b } := update_self ..
    refine ⟨chained.of_same rfl fun _ _ => rfl, ?_, ?_, update_self ..⟩
    · rw [record]
      exact fresh
    · rw [record]
  | ring =>
    obtain ⟨chained, fresh, record, marked⟩ := knows
    exact ⟨chained.of_same rfl fun _ _ => rfl, fresh, record, marked, update_self ..⟩
  | idx =>
    obtain ⟨chained, fresh, record, marked, _⟩ := knows
    refine ⟨chained.of_same rfl fun _ _ => rfl, record, fun clear => ?_⟩
    exact absurd (marked.symm.trans clear) (by decide)

variable [DecidableEq Proc]

omit [DecidableEq Buf] in
theorem setPc_self (s : State Proc Cpu Buf) (p : Proc) (pc : Pc Buf) : (s.setPc p pc).pc p = pc :=
  update_self ..

theorem Inv.knows_own (inv : Inv s) (does : ProcEffect s p s') : Knows s' (s'.pc p) := by
  have knows := inv.knows p
  have apart := inv.owners.nodup p
  cases does with
  | acquire | retry =>
    rw [setPc_self]
    exact Nat.zero_lt_succ 2
  | recheck at' | sleepBuf at' =>
    rw [setPc_self]
    rw [at'] at knows
    exact ⟨knows.1.of_same rfl fun _ _ => rfl, knows.2⟩
  | sleepFree | release =>
    rw [setPc_self]
    trivial
  | @alloc call idx i at' =>
    rw [setPc_self]
    rw [at'] at knows
    change idx.length < 3 at knows
    rcases idx with _ | ⟨a, _ | ⟨b, _ | ⟨c, rest⟩⟩⟩
    · exact Nat.one_lt_succ_succ 1
    · exact Nat.lt_succ_self 2
    · trivial
    · simp only [length_cons] at knows
      omega
  | @noDesc call idx at' none =>
    rw [setPc_self]
    rw [at'] at knows
    change s.freeCount + idx.length < 3
    rw [freeCount_eq_zero none, Nat.zero_add]
    exact knows
  | @undo call i todo at' =>
    rw [setPc_self]
    rw [at'] at knows
    change s.freeCount + (todo.length + 1) < 3 at knows
    change (s.clearDesc i).freeCount + todo.length < 3
    have more : (s.clearDesc i).freeCount ≤ s.freeCount + 1 := freeCount_free rfl
    omega
  | @format stage call idx at' =>
    rw [at'] at knows apart
    rw [setPc_self]
    refine (knows.format apart).of_agree (fun _ _ => rfl) (fun _ _ => rfl) (fun _ _ => rfl)
      (fun _ _ => rfl) (fun _ => ⟨rfl, rfl⟩)
  | pass at' clear =>
    rw [setPc_self]
    rw [at'] at knows
    exact ⟨knows.1.of_same rfl fun _ _ => rfl, clear, knows.2.2 clear⟩
  | @forget call idx at' =>
    rw [setPc_self]
    rw [at'] at knows apart
    exact ⟨knows.2.1, apart, by simp [list], fun _ => knows.1.head, fun _ => knows.1.data,
      knows.1.status⟩
  | @freeNext call idx i at' small taken more =>
    rw [setPc_self]
    rw [at'] at knows
    obtain ⟨next, _⟩ := rest_next knows more
    obtain ⟨clear, apart, mem, head, data, status⟩ := knows
    have distinct := apart
    simp only [list, nodup_cons, mem_cons, not_mem_nil, or_false, not_or] at distinct
    have kept : ∀ j, j ≠ i → (s.clearDesc i).desc j = s.desc j := fun j other =>
      update_of_ne other _ _
    rcases next with ⟨rfl, next⟩ | ⟨rfl, next⟩
    · rw [next]
      refine ⟨clear, apart, by simp [list], fun is => absurd is.symm distinct.1.1, fun _ => ?_, ?_⟩
      · exact (kept _ (Ne.symm distinct.1.1)).trans (data (.inl rfl))
      · exact (kept _ (Ne.symm distinct.1.2)).trans status
    · rw [next]
      refine ⟨clear, apart, by simp [list], fun is => absurd is.symm distinct.1.2,
        fun is => ?_, (kept _ (Ne.symm distinct.2.1)).trans status⟩
      rcases is with is | is
      · exact absurd is.symm distinct.1.2
      · exact absurd is.symm distinct.2.1
  | freeLast at' =>
    rw [setPc_self]
    rw [at'] at knows
    exact knows.1

theorem Inv.knows_other (inv : Inv s) (does : ProcEffect s p s') (other : q ≠ p) :
    Knows s' (s'.pc q) := by
  rw [does.pc_other other]
  obtain ⟨local', disk⟩ := does.frame (inv.knows p)
  have apart : ∀ i ∈ (s.pc q).owned, i ∉ (s.pc p).owned := fun i mine yours =>
    other (inv.owners.alone q p i mine yours)
  refine (inv.knows q).of_agree (fun i mine => (local' i (apart i mine)).2.1)
    (fun i mine => (local' i (apart i mine)).1) (fun i mine => (local' i (apart i mine)).2.2)
    (fun b mine => disk b fun yours => other (inv.owners.bufs q p b mine yours)) fun inside => ?_
  -- A step outside the critical section touches neither the ring nor the descriptors.
  have outside : (s.pc p).critical ≠ true :=
    fun inside' => other (inv.locks.proc_alone inside inside')
  cases does with
  | acquire | retry | recheck => exact ⟨rfl, rfl⟩
  | alloc at' | noDesc at' | undo at' | sleepFree at' | format at' | sleepBuf at' | pass at'
  | forget at' | freeNext at' | freeLast at' | release at' =>
    rw [at'] at outside
    exact absurd rfl outside

end knows

end Xv6.Virtio
