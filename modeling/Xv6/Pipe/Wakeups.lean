import Xv6.Pipe.Fifo

/-!
# Who sleeps on a pipe

A reader sleeps on an empty pipe and a writer on a full one. The holder of
`pi->lock` may have changed that and still has to tell them. All returns of
`pipewrite` and `piperead` do so, except one: a writer that finds itself killed
returns at once, and the bytes it has stored since it got the lock remain
unannounced. So the readers are safe only if no kill comes at that point.
-/

namespace Xv6.Pipes

open State

variable {n : Int}

namespace Pc

def Unannounced : Pc → Prop
  | .writing _ i start => start < i
  | _ => False

instance : DecidablePred Unannounced :=
  fun pc => by cases pc <;> dsimp only [Unannounced] <;> infer_instance

def Draining : Pc → Prop
  | .reading _ _ => True
  | _ => False

theorem Unannounced.holding {pc : Pc} (pending : pc.Unannounced) : pc.Holding := by
  cases pc <;> trivial

theorem Draining.holding {pc : Pc} (draining : pc.Draining) : pc.Holding := by
  cases pc <;> trivial

theorem Resting.not_holding {pc : Pc} (resting : pc.Resting) : ¬ pc.Holding := by
  cases pc <;> first | exact id | exact resting.elim

@[simp] theorem holding_wakeRead (pc : Pc) : pc.wakeRead.Holding ↔ pc.Holding := by
  cases pc <;> rfl

@[simp] theorem holding_wakeWrite (pc : Pc) : pc.wakeWrite.Holding ↔ pc.Holding := by
  cases pc <;> rfl

theorem wakeRead_awake (pc : Pc) (n : Int) : pc.wakeRead ≠ .readAsleep n := by
  cases pc <;> simp [wakeRead]

theorem wakeWrite_awake (pc : Pc) (n : Int) (i : Nat) : pc.wakeWrite ≠ .writeAsleep n i := by
  cases pc <;> simp [wakeWrite]

theorem wakeRead_eq_writeAsleep {pc : Pc} {i : Nat} :
    pc.wakeRead = .writeAsleep n i ↔ pc = .writeAsleep n i := by
  cases pc <;> simp [wakeRead]

theorem wakeWrite_eq_readAsleep {pc : Pc} :
    pc.wakeWrite = .readAsleep n ↔ pc = .readAsleep n := by
  cases pc <;> simp [wakeWrite]

end Pc

def Pipe.Full (pipe : Pipe) : Prop := pipe.nwrite = (pipe.nread + pipeSize) % 2 ^ 32

variable {Pid : Type} {s s' : State Pid} {p q : Pid} {action : Action} {pc : Pc}

/-- Readers sleep on an open empty pipe and writers on an open full one. -/
structure Settled (s : State Pid) : Prop where
  readers : ∀ q n, s.pc q = .readAsleep n → s.pipe.nread = s.pipe.nwrite ∧ s.pipe.writeopen = true
  writers : ∀ q n i, s.pc q = .writeAsleep n i → s.pipe.Full ∧ s.pipe.readopen = true

/-- `kill` does not hit a writer that has bytes to announce. -/
def Undisturbed (s : State Pid) : Pid × Action → Prop
  | (p, .kill) => ¬ (s.pc p).Unannounced
  | _ => True

instance (s : State Pid) : DecidablePred (Undisturbed s) := fun label => by
  cases label with
  | mk p action => cases action <;> dsimp only [Undisturbed] <;> infer_instance

/-- The pipe, when kills keep clear of the copy loop of `pipewrite`. -/
def quietSystem (Pid : Type) [DecidableEq Pid] :
    TransitionSystem (State Pid) (Pid × Action) Empty :=
  { system Pid with allowed := Undisturbed }

/-- What holds with or without the lock. -/
structure WakeInv (s : State Pid) : Prop where
  lock : ∀ p, (s.pc p).Holding ↔ s.lock = some p
  started : ∀ p n i start, s.pc p = .writing n i start → start ≤ i
  pending : ∀ p, (s.pc p).Unannounced → s.pipe.readopen = true ∧ s.killed p = false
  full : ∀ p n i, s.pc p = .writeFull n i → s.pipe.Full ∧ s.pipe.readopen = true
  readers : ∀ q n, s.pc q = .readAsleep n → s.pipe.writeopen = true ∧
    (s.pipe.nread = s.pipe.nwrite ∨ ∃ p, (s.pc p).Unannounced)
  writers : ∀ q n i, s.pc q = .writeAsleep n i → s.pipe.readopen = true ∧
    (s.pipe.Full ∨ ∃ p, (s.pc p).Draining)

namespace WakeInv

section

variable (inv : WakeInv s)

include inv

theorem holder (here : (s.pc p).Holding) (there : (s.pc q).Holding) : q = p := by
  have first := (inv.lock p).mp here
  have second := (inv.lock q).mp there
  exact Option.some.inj (second.symm.trans first)

theorem others (holding : (s.pc p).Holding) :
    ∀ q, q ≠ p → ¬ (s.pc q).Holding :=
  fun _ other there => other (inv.holder holding there)

theorem settled (announced : ∀ p, ¬ (s.pc p).Unannounced) (filled : ∀ p, ¬ (s.pc p).Draining) :
    Settled s := by
  refine ⟨fun q n asleep => ?_, fun q n i asleep => ?_⟩
  · obtain ⟨writeopen, empty | ⟨p, pending⟩⟩ := inv.readers q n asleep
    · exact ⟨empty, writeopen⟩
    · exact absurd pending (announced p)
  · obtain ⟨readopen, full | ⟨p, draining⟩⟩ := inv.writers q n i asleep
    · exact ⟨full, readopen⟩
    · exact absurd draining (filled p)

theorem settled_of_free (free : s.lock = none) : Settled s := by
  have nobody : ∀ p, ¬ (s.pc p).Holding := fun p holding => by
    have := (inv.lock p).mp holding
    simp [free] at this
  exact inv.settled (fun p pending => nobody p pending.holding)
    fun p draining => nobody p draining.holding

theorem settled_of_holder (holding : (s.pc p).Holding)
    (announced : ¬ (s.pc p).Unannounced) (filled : ¬ (s.pc p).Draining) : Settled s := by
  refine inv.settled (fun q pending => ?_) fun q draining => ?_
  · exact announced (inv.holder holding pending.holding ▸ pending)
  · exact filled (inv.holder holding draining.holding ▸ draining)

end

end WakeInv

theorem WakeInv.of_free (free : s.lock = none) (nobody : ∀ q, ¬ (s.pc q).Holding)
    (settled : Settled s) : WakeInv s := by
  refine ⟨fun q => ?_, fun q n i start at' => ?_, fun q pending => ?_, fun q n i at' => ?_,
    fun q n asleep => ?_, fun q n i asleep => ?_⟩
  · simp [free, nobody q]
  · exact (nobody q (by rw [at']; trivial)).elim
  · exact (nobody q pending.holding).elim
  · exact (nobody q (by rw [at']; trivial)).elim
  · exact (settled.readers q n asleep).symm.imp_right .inl
  · exact (settled.writers q n i asleep).symm.imp_right .inl

theorem WakeInv.of_holder (locked : s.lock = some p) (holding : (s.pc p).Holding)
    (others : ∀ q, q ≠ p → ¬ (s.pc q).Holding)
    (started : ∀ n i start, s.pc p = .writing n i start → start ≤ i)
    (pending : (s.pc p).Unannounced → s.pipe.readopen = true ∧ s.killed p = false)
    (full : ∀ n i, s.pc p = .writeFull n i → s.pipe.Full ∧ s.pipe.readopen = true)
    (readers : ∀ q n, s.pc q = .readAsleep n → s.pipe.writeopen = true ∧
      (s.pipe.nread = s.pipe.nwrite ∨ (s.pc p).Unannounced))
    (writers : ∀ q n i, s.pc q = .writeAsleep n i → s.pipe.readopen = true ∧
      (s.pipe.Full ∨ (s.pc p).Draining)) :
    WakeInv s := by
  have only : ∀ q, (s.pc q).Holding → q = p := fun q there => by
    by_contra other
    exact others q other there
  refine ⟨fun q => ⟨fun there => only q there ▸ locked, fun there => ?_⟩, fun q n i start at' => ?_,
    fun q there => ?_, fun q n i at' => ?_, fun q n asleep => ?_, fun q n i asleep => ?_⟩
  · rw [locked, Option.some.injEq] at there
    exact there ▸ holding
  · obtain rfl := only q (by rw [at']; trivial)
    exact started n i start at'
  · obtain rfl := only q there.holding
    exact pending there
  · obtain rfl := only q (by rw [at']; trivial)
    exact full n i at'
  · obtain ⟨writeopen, empty | mine⟩ := readers q n asleep
    · exact ⟨writeopen, .inl empty⟩
    · exact ⟨writeopen, .inr ⟨p, mine⟩⟩
  · obtain ⟨readopen, full | mine⟩ := writers q n i asleep
    · exact ⟨readopen, .inl full⟩
    · exact ⟨readopen, .inr ⟨p, mine⟩⟩

theorem WakeInv.settled_wakeRead (inv : WakeInv s) (filled : ∀ p, ¬ (s.pc p).Draining) :
    Settled s.wakeRead := by
  refine ⟨fun q n asleep => ?_, fun q n i asleep => ?_⟩
  · exact absurd asleep (Pc.wakeRead_awake _ _)
  · obtain ⟨readopen, full | ⟨p, draining⟩⟩ :=
      inv.writers q n i (Pc.wakeRead_eq_writeAsleep.mp asleep)
    · exact ⟨full, readopen⟩
    · exact absurd draining (filled p)

theorem WakeInv.settled_wakeWrite (inv : WakeInv s) (announced : ∀ p, ¬ (s.pc p).Unannounced) :
    Settled s.wakeWrite := by
  refine ⟨fun q n asleep => ?_, fun q n i asleep => ?_⟩
  · obtain ⟨writeopen, empty | ⟨p, pending⟩⟩ :=
      inv.readers q n (Pc.wakeWrite_eq_readAsleep.mp asleep)
    · exact ⟨empty, writeopen⟩
    · exact absurd pending (announced p)
  · exact absurd asleep (Pc.wakeWrite_awake _ _ _)

section steps

variable [DecidableEq Pid]

theorem Settled.setPc (settled : Settled s)
    (reader : ∀ n, pc = .readAsleep n → s.pipe.nread = s.pipe.nwrite ∧ s.pipe.writeopen = true)
    (writer : ∀ n i, pc = .writeAsleep n i → s.pipe.Full ∧ s.pipe.readopen = true) :
    Settled (s.setPc p pc) := by
  refine ⟨fun q n asleep => ?_, fun q n i asleep => ?_⟩
  all_goals
    by_cases same : q = p
    · subst same
      rw [setPc_self] at asleep
      first | exact reader n asleep | exact writer n i asleep
    · rw [setPc_of_ne _ _ same] at asleep
      first | exact settled.readers q n asleep | exact settled.writers q n i asleep

namespace WakeInv

/-- The holder lets go of the lock and leaves the sleepers settled. -/
theorem release (others : ∀ q, q ≠ p → ¬ (s.pc q).Holding) (settled : Settled s)
    (after : ¬ pc.Holding)
    (reader : ∀ n, pc = .readAsleep n → s.pipe.nread = s.pipe.nwrite ∧ s.pipe.writeopen = true)
    (writer : ∀ n i, pc = .writeAsleep n i → s.pipe.Full ∧ s.pipe.readopen = true) :
    WakeInv (s.release p pc) := by
  have settled' := Settled.setPc (p := p) settled reader writer
  refine of_free rfl (fun q => ?_) ⟨settled'.readers, settled'.writers⟩
  by_cases same : q = p
  · subst same
    rwa [release, setPc_self]
  · rw [State.release, State.setPc_of_ne _ _ same]
    exact others q same

section

variable (inv : WakeInv s)

include inv

theorem acquire (free : s.lock = none) (holding : pc.Holding)
    (started : ∀ n i start, pc = .writing n i start → start = i) (room : ∀ n i, pc ≠ .writeFull n i)
    (awake : (∀ n, pc ≠ .readAsleep n) ∧ ∀ n i, pc ≠ .writeAsleep n i) :
    WakeInv ({ s with lock := some p }.setPc p pc) := by
  have settled : Settled ({ s with lock := some p }.setPc p pc) :=
    Settled.setPc (s := { s with lock := some p })
      ⟨(inv.settled_of_free free).readers, (inv.settled_of_free free).writers⟩
      (fun n asleep => absurd asleep (awake.1 n)) fun n i asleep => absurd asleep (awake.2 n i)
  have self := setPc_self { s with lock := some p } p pc
  refine of_holder rfl (by rwa [self]) (fun q other there => ?_) (fun n i start at' => ?_)
    (fun pending => ?_) (fun n i at' => ?_) (fun q n asleep => ?_) fun q n i asleep => ?_
  · rw [setPc_of_ne _ _ other] at there
    have := (inv.lock q).mp there
    simp [free] at this
  · rw [self] at at'
    exact (started n i start at').le
  · rw [self] at pending
    cases pc with
    | writing n i start => exact absurd (started n i start rfl) (Nat.ne_of_lt pending)
    | _ => exact pending.elim
  · rw [self] at at'
    exact absurd at' (room n i)
  · exact (settled.readers q n asleep).symm.imp_right .inl
  · exact (settled.writers q n i asleep).symm.imp_right .inl

theorem outside (before : ¬ (s.pc p).Holding) (after : ¬ pc.Holding)
    (awake : (∀ n, pc ≠ .readAsleep n) ∧ ∀ n i, pc ≠ .writeAsleep n i) :
    WakeInv (s.setPc p pc) := by
  have elsewhere : ∀ q, (s.setPc p pc).pc q = s.pc q ∨ q = p := fun q => by
    by_cases same : q = p
    · exact .inr same
    · exact .inl (setPc_of_ne _ _ same)
  have holding : ∀ q, ((s.setPc p pc).pc q).Holding → (s.setPc p pc).pc q = s.pc q := by
    intro q there
    rcases elsewhere q with same | rfl
    · exact same
    · rw [setPc_self] at there
      exact absurd there after
  have kept : ∀ q, (s.pc q).Holding → (s.setPc p pc).pc q = s.pc q := by
    intro q there
    rcases elsewhere q with same | rfl
    · exact same
    · exact absurd there before
  refine ⟨fun q => ⟨fun there => ?_, fun locked => ?_⟩, fun q n i start at' => ?_,
    fun q pending => ?_,
    fun q n i at' => ?_, fun q n asleep => ?_, fun q n i asleep => ?_⟩
  · exact (inv.lock q).mp (holding q there ▸ there)
  · have there := (inv.lock q).mpr locked
    rwa [kept q there]
  · exact inv.started q n i start (holding q (by rw [at']; trivial) ▸ at')
  · exact inv.pending q (holding q pending.holding ▸ pending)
  · exact inv.full q n i (holding q (by rw [at']; trivial) ▸ at')
  · rcases elsewhere q with same | rfl
    · refine (inv.readers q n (same ▸ asleep)).imp_right (.imp_right ?_)
      rintro ⟨r, pending⟩
      exact ⟨r, by rwa [kept r pending.holding]⟩
    · rw [setPc_self] at asleep
      exact absurd asleep (awake.1 n)
  · rcases elsewhere q with same | rfl
    · refine (inv.writers q n i (same ▸ asleep)).imp_right (.imp_right ?_)
      rintro ⟨r, draining⟩
      exact ⟨r, by rwa [kept r draining.holding]⟩
    · rw [setPc_self] at asleep
      exact absurd asleep (awake.2 n i)

theorem proceed (holding : (s.pc p).Holding) (settled : Settled s)
    (after : pc.Holding) (started : ∀ n i start, pc ≠ .writing n i start)
    (full : ∀ n i, pc = .writeFull n i → s.pipe.Full ∧ s.pipe.readopen = true) :
    WakeInv (s.setPc p pc) := by
  have self := setPc_self s p pc
  have settled' : Settled (s.setPc p pc) := settled.setPc
    (fun n asleep => by rw [asleep] at after; exact after.elim)
    fun n i asleep => by rw [asleep] at after; exact after.elim
  refine of_holder ((inv.lock p).mp holding) (by rwa [self]) (fun q other => ?_)
    (fun n i start at' => ?_) (fun pending => ?_) (fun n i at' => ?_) (fun q n asleep => ?_)
    fun q n i asleep => ?_
  · rw [setPc_of_ne _ _ other]
    exact inv.others holding q other
  · exact absurd (self.symm.trans at') (started n i start)
  · rw [self] at pending
    cases pc with
    | writing n i start => exact absurd rfl (started n i start)
    | _ => exact pending.elim
  · exact full n i (self.symm.trans at')
  · exact (settled'.readers q n asleep).symm.imp_right .inl
  · exact (settled'.writers q n i asleep).symm.imp_right .inl

variable {i start : Nat}

theorem store {ch : UInt8} (at' : s.pc p = .writing n i start) (readopen : s.pipe.readopen = true)
    (alive : s.killed p = false) (room : ¬ s.pipe.Full) :
    WakeInv ((s.store p ch).setPc p (.writing n (i + 1) start)) := by
  have holding : (s.pc p).Holding := by rw [at']; trivial
  have order := inv.started p n i start at'
  have self := setPc_self (s.store p ch) p (.writing n (i + 1) start)
  have unannounced : (((s.store p ch).setPc p (.writing n (i + 1) start)).pc p).Unannounced := by
    rw [self]
    exact Nat.lt_succ_of_le order
  refine of_holder ((inv.lock p).mp holding) (by rw [self]; trivial) (fun q other => ?_)
    (fun n' i' start' at'' => ?_) (fun _ => ⟨readopen, alive⟩) (fun n' i' at'' => ?_)
    (fun q n' asleep => ?_) fun q n' i' asleep => ?_
  · rw [setPc_of_ne _ _ other]
    exact inv.others holding q other
  · cases self.symm.trans at''
    omega
  · cases self.symm.trans at''
  · -- asleep before and after: the writer will wake it
    have other : q ≠ p := by rintro rfl; cases self.symm.trans asleep
    rw [setPc_of_ne _ _ other] at asleep
    exact ⟨(inv.readers q n' asleep).1, .inr unannounced⟩
  · -- no writer sleeps while there is room
    have other : q ≠ p := by rintro rfl; cases self.symm.trans asleep
    rw [setPc_of_ne _ _ other] at asleep
    obtain ⟨_, full | ⟨r, draining⟩⟩ := inv.writers q n' i' asleep
    · exact absurd full room
    · rw [inv.holder holding draining.holding, at'] at draining
      exact draining.elim

omit [DecidableEq Pid] in
/-- While the pipe is not empty and nobody is writing, no reader sleeps. -/
theorem no_reader {n m : Int} {i : Nat} (at' : s.pc p = .reading n i)
    (more : s.pipe.nread ≠ s.pipe.nwrite) : s.pc q ≠ .readAsleep m := by
  intro asleep
  obtain ⟨_, empty | ⟨r, pending⟩⟩ := inv.readers q m asleep
  · exact more empty
  · have holding : (s.pc p).Holding := by rw [at']; trivial
    rw [inv.holder holding pending.holding, at'] at pending
    exact pending

theorem take {i : Nat} (at' : s.pc p = .reading n i) (more : s.pipe.nread ≠ s.pipe.nwrite) :
    WakeInv (s.take.setPc p (.reading n (i + 1))) := by
  have holding : (s.pc p).Holding := by rw [at']; trivial
  have self := setPc_self s.take p (.reading n (i + 1))
  have draining : ((s.take.setPc p (.reading n (i + 1))).pc p).Draining := by
    rw [self]
    trivial
  refine of_holder ((inv.lock p).mp holding) (by rw [self]; trivial) (fun q other => ?_)
    (fun n' i' start' at'' => ?_) (fun pending => ?_) (fun n' i' at'' => ?_)
    (fun q n' asleep => ?_) fun q n' i' asleep => ?_
  · rw [setPc_of_ne _ _ other]
    exact inv.others holding q other
  · cases self.symm.trans at''
  · rw [self] at pending
    exact pending.elim
  · cases self.symm.trans at''
  · have other : q ≠ p := by rintro rfl; cases self.symm.trans asleep
    rw [setPc_of_ne _ _ other] at asleep
    exact absurd asleep (inv.no_reader at' more)
  · have other : q ≠ p := by rintro rfl; cases self.symm.trans asleep
    rw [setPc_of_ne _ _ other] at asleep
    exact ⟨(inv.writers q n' i' asleep).1, .inr draining⟩

theorem takeLast {i : Nat} (at' : s.pc p = .reading n i) (more : s.pipe.nread ≠ s.pipe.nwrite) :
    WakeInv (s.take.finishRead p i) := by
  have holding : (s.pc p).Holding := by rw [at']; trivial
  have settled : Settled s.take.wakeWrite := by
    refine ⟨fun q m asleep => ?_, fun q m j asleep => absurd asleep (Pc.wakeWrite_awake _ _ _)⟩
    exact absurd (Pc.wakeWrite_eq_readAsleep.mp asleep) (inv.no_reader at' more)
  refine release (fun q other => ?_) settled id (fun _ asleep => by cases asleep)
    fun _ _ asleep => by cases asleep
  rw [wakeWrite, Pc.holding_wakeWrite]
  exact inv.others holding q other

omit [DecidableEq Pid] in
theorem pipeclose (free : s.lock = none) (writable : Bool) :
    WakeInv (s.pipeclose writable) := by
  have settled := inv.settled_of_free free
  have nobody : ∀ q, ¬ (s.pc q).Holding := fun q there => by
    have := (inv.lock q).mp there
    simp [free] at this
  cases writable with
  | true =>
    refine of_free free (fun q there => nobody q ((Pc.holding_wakeRead _).mp there)) ?_
    refine ⟨fun q n asleep => absurd asleep (Pc.wakeRead_awake _ _), fun q n i asleep => ?_⟩
    exact settled.writers q n i (Pc.wakeRead_eq_writeAsleep.mp asleep)
  | false =>
    refine of_free free (fun q there => nobody q ((Pc.holding_wakeWrite _).mp there)) ?_
    refine ⟨fun q n asleep => ?_, fun q n i asleep => absurd asleep (Pc.wakeWrite_awake _ _ _)⟩
    exact settled.readers q n (Pc.wakeWrite_eq_readAsleep.mp asleep)

theorem kill (announced : ¬ (s.pc p).Unannounced) : WakeInv (s.kill p) := by
  have flagged : WakeInv { s with killed := Function.update s.killed p true } := by
    refine ⟨inv.lock, inv.started, fun q pending => ?_, inv.full, inv.readers, inv.writers⟩
    have other : q ≠ p := by
      rintro rfl
      exact announced pending
    exact ⟨(inv.pending q pending).1,
      (Function.update_of_ne other ..).trans (inv.pending q pending).2⟩
  by_cases holding : (s.pc p).Holding
  · have same : (s.pc p).wakeRead.wakeWrite = s.pc p := by
      cases at' : s.pc p <;> first | rfl | (rw [at'] at holding; exact holding.elim)
    rw [State.kill, same, State.setPc]
    simpa using flagged
  · refine flagged.outside holding ?_ ⟨fun n asleep => ?_, fun n i => Pc.wakeWrite_awake _ _ _⟩
    · simpa using holding
    · exact Pc.wakeRead_awake _ _ (Pc.wakeWrite_eq_readAsleep.mp asleep)

theorem finishWrite (at' : s.pc p = .writing n i start) :
    WakeInv (s.finishWrite p i) := by
  have holding : (s.pc p).Holding := by rw [at']; trivial
  refine release (fun q other => ?_) (inv.settled_wakeRead fun q draining => ?_) id
    (fun _ asleep => by cases asleep) fun _ _ asleep => by cases asleep
  · rw [wakeRead, Pc.holding_wakeRead]
    exact inv.others holding q other
  · rw [inv.holder holding draining.holding, at'] at draining
    exact draining

theorem finishRead {i : Nat} (at' : s.pc p = .reading n i) :
    WakeInv (s.finishRead p i) := by
  have holding : (s.pc p).Holding := by rw [at']; trivial
  refine release (fun q other => ?_) (inv.settled_wakeWrite fun q pending => ?_) id
    (fun _ asleep => by cases asleep) fun _ _ asleep => by cases asleep
  · rw [wakeWrite, Pc.holding_wakeWrite]
    exact inv.others holding q other
  · rw [inv.holder holding pending.holding, at'] at pending
    exact pending

theorem full_step (at' : s.pc p = .writing n i start)
    (readopen : s.pipe.readopen = true) (full : s.pipe.Full) :
    WakeInv (s.wakeRead.setPc p (.writeFull n i)) := by
  have holding : (s.pc p).Holding := by rw [at']; trivial
  have self := setPc_self s.wakeRead p (.writeFull n i)
  have settled : Settled (s.wakeRead.setPc p (.writeFull n i)) := by
    refine Settled.setPc (inv.settled_wakeRead fun q draining => ?_)
      (fun _ asleep => by cases asleep) fun _ _ asleep => by cases asleep
    rw [inv.holder holding draining.holding, at'] at draining
    exact draining
  refine of_holder ((inv.lock p).mp holding) (by rw [self]; trivial) (fun q other => ?_)
    (fun n' i' start' at'' => by cases self.symm.trans at'') (fun pending => ?_)
    (fun n' i' _ => ⟨full, readopen⟩) (fun q n' asleep => ?_) fun q n' i' asleep => ?_
  · rw [setPc_of_ne _ _ other, wakeRead, Pc.holding_wakeRead]
    exact inv.others holding q other
  · rw [self] at pending
    exact pending.elim
  · exact (settled.readers q n' asleep).symm.imp_right .inl
  · exact (settled.writers q n' i' asleep).symm.imp_right .inl

omit inv in
omit [DecidableEq Pid] in
theorem initial (start : Initial s) : WakeInv s := by
  refine of_free start.lock (fun q => ?_) ⟨fun q n asleep => ?_, fun q n i asleep => ?_⟩
  · rw [start.pc q]
    exact id
  · cases (start.pc q).symm.trans asleep
  · cases (start.pc q).symm.trans asleep

/-- A step keeps the invariant, unless it kills a writer with bytes to announce. -/
theorem step (effect : Effect s p action s') (quiet : Undisturbed s (p, action)) : WakeInv s' := by
  cases effect with
  | callWrite resting =>
    have counted : WakeInv { s with count := Function.update s.count p 0 } :=
      ⟨inv.lock, inv.started, inv.pending, inv.full, inv.readers, inv.writers⟩
    exact counted.outside resting.not_holding id ⟨by simp, by simp⟩
  | callRead resting => exact inv.outside resting.not_holding id ⟨by simp, by simp⟩
  | lockWrite at' free =>
    refine inv.acquire free trivial (fun n i start same => ?_) (by simp) ⟨by simp, by simp⟩
    cases same
    rfl
  | lockRead at' free => exact inv.acquire free trivial (by simp) (by simp) ⟨by simp, by simp⟩
  | @giveUp n i start _ at' stop =>
    have holding : (s.pc p).Holding := by rw [at']; trivial
    have announced : ¬ (s.pc p).Unannounced := fun pending => by
      have := inv.pending p pending
      simp [this] at stop
    refine release (inv.others holding) (inv.settled_of_holder holding announced ?_) id
      (by simp) (by simp)
    rw [at']
    exact id
  | full at' readopen full => exact inv.full_step at' readopen full
  | store at' readopen alive room => exact inv.store at' readopen alive room
  | finishWrite at' => exact inv.finishWrite at'
  | @sleepWrite n i _ at' =>
    have holding : (s.pc p).Holding := by rw [at']; trivial
    refine release (inv.others holding) (inv.settled_of_holder holding ?_ ?_) id (by simp)
      fun _ _ _ => inv.full p n i at'
    all_goals
      rw [at']
      exact id
  | @sleepRead n _ at' empty writeopen =>
    have holding : (s.pc p).Holding := by rw [at']; trivial
    refine release (inv.others holding) (inv.settled_of_holder holding ?_ ?_) id
      (fun _ _ => ⟨empty, writeopen⟩) (by simp)
    all_goals
      rw [at']
      exact id
  | stopRead at' =>
    have holding : (s.pc p).Holding := by rw [at']; trivial
    refine release (inv.others holding) (inv.settled_of_holder holding ?_ ?_) id (by simp) (by simp)
    all_goals
      rw [at']
      exact id
  | startRead at' =>
    have holding : (s.pc p).Holding := by rw [at']; trivial
    refine inv.proceed holding (inv.settled_of_holder holding ?_ ?_) trivial (by simp) (by simp)
    all_goals
      rw [at']
      exact id
  | take at' more => exact inv.take at' more
  | takeLast at' more => exact inv.takeLast at' more
  | finishRead at' => exact inv.finishRead at'
  | pipeclose resting free => exact inv.pipeclose free _
  | kill => exact inv.kill quiet

end

end WakeInv

/-- As long as no kill hits a writer with bytes to announce, a reader sleeps
only on an empty pipe and a writer only on a full one. -/
theorem sleepers_settled (reachable : (quietSystem Pid).Reachable s) (free : s.lock = none) :
    (∀ q n, s.pc q = .readAsleep n → s.pipe.nread = s.pipe.nwrite ∧ s.pipe.writeopen = true) ∧
      ∀ q n i, s.pc q = .writeAsleep n i →
        s.pipe.nwrite = (s.pipe.nread + pipeSize) % 2 ^ 32 ∧ s.pipe.readopen = true := by
  have inv : WakeInv s := reachable.invariant (motive := WakeInv) (fun _ start => .initial start)
    fun _ _ _ _ inv quiet moved => inv.step (step_effect moved) quiet
  have settled := inv.settled_of_free free
  exact ⟨settled.readers, settled.writers⟩

end steps

instance (s : State Bool) (label : Bool × Action) :
    Decidable ((quietSystem Bool).allowed s label) :=
  inferInstanceAs (Decidable (Undisturbed s label))

/-- The reader sleeps on the empty pipe, and the writer is killed before it has
stored anything. -/
theorem sleepers_settled_killedEarly : ∃ s, (quietSystem Bool).Reachable s ∧ s.lock = none ∧
    s.pc false = .readAsleep 1 ∧ s.pc true = .written (-1) ∧ s.pipe.nread = s.pipe.nwrite := by
  obtain ⟨s, reachable, free, reader, writer⟩ := (quietSystem Bool).exists_reachable
    newPipe_initial [(false, .piperead 1), (false, .run none), (false, .run none),
      (true, .pipewrite 2), (true, .run none), (true, .kill), (true, .run (some 7))]
    (motive := fun s => s.lock = none ∧ s.pc false = .readAsleep 1 ∧ s.pc true = .written (-1))
    (by decide +kernel)
  exact ⟨s, reachable, free, reader, writer, ((sleepers_settled reachable free).1 false 1 reader).1⟩

/-- The writer is killed after it has stored a byte: it returns without telling
the reader, which sleeps on. -/
theorem reader_asleep_on_data : ∃ s, (system Bool).Reachable s ∧ s.lock = none ∧
    s.pc false = .readAsleep 1 ∧ s.pipe.nread ≠ s.pipe.nwrite :=
  (system Bool).exists_reachable newPipe_initial [(false, .piperead 1), (false, .run none),
    (false, .run none), (true, .pipewrite 2), (true, .run none), (true, .run (some 7)),
    (true, .kill), (true, .run (some 8))] (by decide +kernel)

end Xv6.Pipes
