import Xv6.Inode.Invariant

/-!
# Safety of the inode table

What processes may rely on in every interleaving: an entry in use keeps its
inode, `ilock` returns the dinode, an inode is freed once and by nobody but its
last user, and `iput` does not wait for a sleep lock.
-/

namespace Xv6.Itable

open State

variable {Pid : Type} [DecidableEq Pid]

section steps

variable {ninodes : Nat} {s s' : State Pid} {p : Pid} {e : Fin ninode} {dev inum : Nat}

/-- The inode as `ilock` promises it. -/
structure Locked (s : State Pid) (p : Pid) (e : Fin ninode) : Prop where
  holder : s.holder e = some p
  valid : (s.entry e).valid
  current : (s.entry e).inode = s.onDisk e
  typed : (s.entry e).inode.type ≠ 0

/-- The step of process `p` frees the inode: it is the last write of an `iput`
that has dropped the only counted reference to an inode without links. -/
structure FreedBy (s : State Pid) (p : Pid) (dev inum : Nat) (e : Fin ninode) : Prop where
  stage : s.pc p = .on e .typing
  caches : Caches s e dev inum
  last : (s.entry e).ref = 1
  unreferenced : ∀ q, s.refs q e = 0
  unlinked : (s.disk dev inum).nlink = 0

/-- Entries are recycled only while nobody counts. -/
theorem Effect.keeps_key (effect : Effect s p s') (used : 0 < (s.entry e).ref) :
    (s'.entry e).dev = (s.entry e).dev ∧ (s'.entry e).inum = (s.entry e).inum := by
  cases effect with
  | @recycle c _ _ _ unused _ =>
    have other : e ≠ c := by
      rintro rfl
      omega
    simp [setPc, setRefs, setEntry, other]
  | @hit c | @idup c | @load c | @loadDone c | @modify c | @iupdate c | @iputDrop c | @truncate c
  | @writeFree c | @clear c | @drop c =>
    by_cases same : e = c <;>
      simp [setPc, setRefs, setInode, setEntry, setHolder, flush, setDisk, same]
  | pass | lock | acquire | found | iunlock | iputFree | ialloc | claim | skip
  | giveUp => exact ⟨rfl, rfl⟩

variable [Fintype Pid]

/-- What a step does to one inode on disk, as far as its type goes. -/
theorem Inv.type_change (inv : Inv s) (effect : Effect s p s') (dev inum : Nat) :
    (((s'.disk dev inum).type = 0 ↔ (s.disk dev inum).type = 0) ∧
      s'.allocs dev inum = s.allocs dev inum ∧ s'.frees dev inum = s.frees dev inum) ∨
    ((s.disk dev inum).type = 0 ∧ (s'.disk dev inum).type ≠ 0 ∧
      s'.allocs dev inum = s.allocs dev inum + 1 ∧ s'.frees dev inum = s.frees dev inum) ∨
    ((∃ e, FreedBy s p dev inum e) ∧ (s.disk dev inum).type ≠ 0 ∧ (s'.disk dev inum).type = 0 ∧
      s'.allocs dev inum = s.allocs dev inum ∧ s'.frees dev inum = s.frees dev inum + 1) := by
  cases effect with
  | hit | recycle | idup | pass | lock | acquire | found | load | loadDone | modify | iunlock
  | iputFree | iputDrop | clear | drop | ialloc | skip | giveUp =>
    exact .inl ⟨Iff.rfl, rfl, rfl⟩
  | @iupdate e idle holds =>
    refine .inl ⟨?_, rfl, rfl⟩
    by_cases same : (s.entry e).dev = dev ∧ (s.entry e).inum = inum
    · obtain ⟨rfl, rfl⟩ := same
      obtain ⟨owns, valid, used⟩ := (inv.entry e).used_of_held holds (stage_of_idle idle e)
      have typed : (s.entry e).inode.type ≠ 0 :=
        (inv.entry e).typed_held holds (by simp [stage_of_idle idle e]) used valid
      have live : (s.onDisk e).type ≠ 0 := (inv.entry e).live p owns
      rw [setEntry_disk, flush_disk_self]
      exact iff_of_false typed live
    · rw [setEntry_disk, flush_disk_other same]
  | @truncate e at' =>
    refine .inl ⟨?_, rfl, rfl⟩
    obtain ⟨⟨_, _, same, _⟩, _⟩ := (inv.entry e).freeing_spec (.inl (stage_of_on at'))
    change (((s.setInode e _).flush e).disk dev inum).type = 0 ↔ _
    rw [setInode_flush_disk]
    split
    next key =>
      obtain ⟨rfl, rfl⟩ := key
      exact Iff.of_eq (congrArg (·.type = 0) same)
    next => rfl
  | @writeFree e at' =>
    obtain ⟨⟨_, _, same, unlinked, typed, last⟩, nobody⟩ :=
      (inv.entry e).freeing_spec (.inr (stage_of_on at'))
    have written := setInode_flush_disk
      { s with frees := bump s.frees (s.entry e).dev (s.entry e).inum } e
      { (s.entry e).inode with type := 0 } dev inum
    by_cases key : (s.entry e).dev = dev ∧ (s.entry e).inum = inum
    · obtain ⟨rfl, rfl⟩ := key
      rw [if_pos ⟨rfl, rfl⟩] at written
      rw [same] at unlinked typed
      refine .inr (.inr ⟨⟨e, at', ⟨?_, rfl, rfl⟩, last, nobody, unlinked⟩, typed,
        congrArg Dinode.type written, rfl, by simp [setPc, flush, setDisk,
          setInode, setEntry, bump]⟩)
      exact Int.lt_iff_add_one_le.mpr (le_of_eq last.symm)
    · rw [if_neg key] at written
      refine .inl ⟨Iff.of_eq (congrArg (·.type = 0) written), rfl, bump_other key⟩
  | @claim dev' inum' type at' free =>
    by_cases key : dev' = dev ∧ inum' = inum
    · obtain ⟨rfl, rfl⟩ := key
      refine .inr (.inl ⟨free, ?_, by simp [setPc, setDisk, bump], rfl⟩)
      have typed := inv.scanning p dev' inum' type at'
      simpa [setPc, setDisk] using typed
    · exact .inl ⟨Iff.of_eq (congrArg (·.type = 0) (setDisk_other key)), bump_other key, rfl⟩

theorem Inv.ilock_returns (inv : Inv s) (locks : s.pc p = .on e .testing ∨ s.pc p = .on e .loaded)
    (returned : s.step ninodes p .next = .next s') (idle : s'.pc p = .idle) : Locked s' p e := by
  have knows := (inv.entry e).knows p
  rcases locks with at' | at'
  · simp only [View.Knows, stage_of_on at'] at knows
    obtain ⟨owns, holds, current⟩ := knows
    simp only [step, at'] at returned
    split at returned
    next valid =>
      cases returned
      have live := (inv.entry e).live p owns
      rw [← current valid] at live
      exact ⟨holds, valid, current valid, live⟩
    next =>
      cases returned
      simp [setPc] at idle
  · simp only [View.Knows, stage_of_on at'] at knows
    obtain ⟨owns, holds, current, _⟩ := knows
    simp only [step, at'] at returned
    split at returned
    next => cases returned
    next typed =>
      cases returned
      refine ⟨holds, ?_, ?_, ?_⟩
      · simp [setPc, setEntry]
      · simpa [setPc, setEntry, onDisk, view] using current
      · simpa [setPc, setEntry] using typed

/-- Processes that keep to the discipline can only run out of entries. -/
theorem Inv.fault_cases (inv : Inv s) {action : Action Pid} {panic : Panic}
    (disciplined : Disciplined s p action) (fault : s.step ninodes p action = .fault panic) :
    panic = .igetNoInodes := by
  have iget : ∀ {dev inum}, s.stepIget p dev inum = .fault panic → panic = .igetNoInodes := by
    intro dev inum fault
    unfold stepIget at fault
    split at fault <;> cases fault
    rfl
  cases action with
  | iget dev inum => exact iget fault
  | ilock e =>
    have used := inv.used disciplined.2
    simp only [step] at fault
    split at fault
    · omega
    · cases fault
  | iunlock e =>
    obtain ⟨idle, holds, _⟩ := disciplined
    obtain ⟨_, _, used⟩ := (inv.entry e).used_of_held holds (stage_of_idle idle e)
    change 0 < (s.entry e).ref at used
    simp only [step, holds, ne_eq, not_true, false_or] at fault
    split at fault
    · omega
    · cases fault
  | iput e =>
    simp only [step] at fault
    split at fault
    · split at fault <;> cases fault
    · cases fault
  | idup | pass | modify | iupdate | ialloc => cases fault
  | next =>
    simp only [step] at fault
    split at fault
    case h_4 e at' =>
      -- what `ilock` has read is live, as it has a reference
      have knows := (inv.entry e).knows p
      simp only [View.Knows, stage_of_on at'] at knows
      have live := (inv.entry e).live p knows.1
      rw [← knows.2.2.1] at live
      split at fault
      next zero => exact absurd zero live
      next => cases fault
    case h_10 => exact iget fault
    all_goals
      first
      | cases fault
      | (split at fault <;> first | cases fault | split at fault <;> cases fault)

theorem Inv.iput_not_blocked (inv : Inv s) (disciplined : Disciplined s p (.iput e)) :
    s.step ninodes p (.iput e) ≠ .blocked := by
  obtain ⟨_, owns, keeps⟩ := disciplined
  intro blocked
  simp only [step] at blocked
  split at blocked
  next last =>
    have free : s.holder e = none := (inv.entry e).unlocked_of_last owns keeps last.1
    rw [if_pos free] at blocked
    cases blocked
  next => cases blocked

end steps

/-- What holds at a state of the table and at every step from it. -/
structure Safe (ninodes : Nat) (s : State Pid) : Prop where
  unique : ∀ e c dev inum, Caches s e dev inum → Caches s c dev inum → e = c
  /-- An entry keeps its inode while somebody is counted in its `ref`. -/
  keeps : ∀ p action s' e q, Disciplined s p action → s.step ninodes p action = .next s' →
    0 < (s.view e).share q →
    (s'.entry e).dev = (s.entry e).dev ∧ (s'.entry e).inum = (s.entry e).inum
  locked : ∀ p e s', s.pc p = .on e .testing ∨ s.pc p = .on e .loaded →
    s.step ninodes p .next = .next s' → s'.pc p = .idle → Locked s' p e
  noPanic : ∀ p action panic, Disciplined s p action →
    s.step ninodes p action = .fault panic → panic = .igetNoInodes
  freed : ∀ p action s' dev inum, Disciplined s p action → s.step ninodes p action = .next s' →
    (s.disk dev inum).type ≠ 0 → (s'.disk dev inum).type = 0 → ∃ e, FreedBy s p dev inum e
  /-- `allocs` and `frees` count the allocations and the frees on disk. -/
  counts : ∀ p action s' dev inum, Disciplined s p action → s.step ninodes p action = .next s' →
    s'.allocs dev inum = s.allocs dev inum +
      (if (s.disk dev inum).type = 0 ∧ (s'.disk dev inum).type ≠ 0 then 1 else 0) ∧
    s'.frees dev inum = s.frees dev inum +
      (if (s.disk dev inum).type ≠ 0 ∧ (s'.disk dev inum).type = 0 then 1 else 0)
  once : ∀ dev inum, s.allocs dev inum =
    s.frees dev inum + if (s.disk dev inum).type = 0 then 0 else 1
  noWait : ∀ p e, Disciplined s p (.iput e) → s.step ninodes p (.iput e) ≠ .blocked

/-- The table is safe in every interleaving. -/
theorem itable_safe [Fintype Pid] {ninodes : Nat} {s : State Pid}
    (reached : (system ninodes Pid).Reachable s) : Safe ninodes s := by
  have inv := reachable_inv reached
  refine ⟨inv.unique, ?_, ?_, ?_, ?_, ?_, inv.counted, ?_⟩
  · intro p action s' e q disciplined moved counted
    refine (step_effect disciplined moved).keeps_key ?_
    have := (inv.entry e).share_le q
    change _ ≤ (s.entry e).ref at this
    omega
  · exact fun p e s' locks returned idle => inv.ilock_returns locks returned idle
  · exact fun p action panic disciplined fault => inv.fault_cases disciplined fault
  · intro p action s' dev inum disciplined moved typed freed
    rcases inv.type_change (step_effect disciplined moved) dev inum with same | claimed | freedBy
    · exact absurd (same.1.mp freed) typed
    · exact absurd claimed.1 typed
    · exact freedBy.1
  · intro p action s' dev inum disciplined moved
    rcases inv.type_change (step_effect disciplined moved) dev inum with
      ⟨same, allocs, frees⟩ | ⟨free, typed, allocs, frees⟩ | ⟨_, typed, free, allocs, frees⟩
    · by_cases zero : (s.disk dev inum).type = 0 <;> simp [same, zero, allocs, frees]
    · simp [free, typed, allocs, frees]
    · simp [free, typed, allocs, frees]
  · exact fun p e disciplined => inv.iput_not_blocked disciplined

instance (s : State Pid) (dev inum : Nat) : Decidable (Named s dev inum) :=
  inferInstanceAs (Decidable (_ ∧ ∀ _, _))

instance (s : State Pid) (p : Pid) : DecidablePred (Disciplined s p) :=
  fun action => by cases action <;> dsimp only [Disciplined] <;> infer_instance

instance (ninodes : Nat) (s : State Pid) (label : Pid × Action Pid) :
    Decidable ((system ninodes Pid).allowed s label) :=
  inferInstanceAs (Decidable (Disciplined s label.1 label.2))

/-- One file, inode 1, with one link; no inode is cached. -/
def oneFile : State (Fin 2) where
  entry _ := ⟨0, 0, 0, false, Dinode.zero, false⟩
  holder _ := none
  disk dev inum :=
    if dev = rootDev ∧ inum = 1 then { Dinode.zero with type := typeFile, nlink := 1 }
    else Dinode.zero
  pc _ := .idle
  refs _ _ := 0
  allocs dev inum := if dev = rootDev ∧ inum = 1 then 1 else 0
  frees _ _ := 0

theorem oneFile_initial : Initial oneFile := by
  refine ⟨fun _ => rfl, fun _ => rfl, fun _ => rfl, fun _ _ => rfl, fun dev inum => ?_,
    fun dev inum => ?_, fun _ _ => rfl⟩
  · simp only [oneFile]
    split <;> simp [Dinode.zero, typeFile]
  · simp only [oneFile]
    split <;> simp [Dinode.zero, typeFile]

/-- Process 0 unlinks the file and drops it, up to the write of type zero. -/
def freeSteps : List (Fin 2 × Action (Fin 2)) :=
  [(0, .iget rootDev 1), (0, .ilock 0), (0, .next), (0, .next), (0, .next),
    (0, .modify 0 { Dinode.zero with type := typeFile }), (0, .iupdate 0), (0, .iunlock 0),
    (0, .iput 0), (0, .next), (0, .next)]

/-- Process 1 allocates the inode again and is about to return from `ilock`,
while process 0 has yet to decrement `ref`. -/
def reuseSteps : List (Fin 2 × Action (Fin 2)) :=
  [(1, .ialloc rootDev typeDir), (1, .next), (1, .next), (1, .ilock 0), (0, .next), (1, .next),
    (1, .next)]

theorem itable_safe_reused :
    ∃ s s' : State (Fin 2), (system 2 (Fin 2)).Reachable s ∧ s.pc 0 = .on 0 .dropping ∧
      s.step 2 1 .next = .next s' ∧ (s'.entry 0).ref = 2 ∧ Locked s' 1 0 := by
  obtain ⟨s, reachable, drops, loads, last⟩ := (system 2 (Fin 2)).exists_reachable oneFile_initial
    (freeSteps ++ reuseSteps) (motive := fun s => s.pc 0 = .on 0 .dropping ∧
      s.pc 1 = .on 0 .loaded ∧ (s.step 2 1 .next).next?.map
        (fun s' => (s'.pc 1, (s'.entry 0).ref)) = some (.idle, 2)) (by decide +kernel)
  simp only [Prod.mk.injEq, Option.map_eq_some_iff, Outcome.next?_eq_some] at last
  obtain ⟨s', returned, idle, ref⟩ := last
  exact ⟨s, s', reachable, drops, returned, ref,
    (itable_safe reachable).locked 1 0 s' (.inr loads) returned idle⟩

end Xv6.Itable
