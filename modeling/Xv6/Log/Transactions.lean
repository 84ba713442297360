import Xv6.Log.Protocol

/-!
# Transactions are atomic and their space is reserved

No operation runs while a transaction commits, so all the log writes of one
operation go into one transaction. The header lists each logged block once.
-/

namespace Xv6.GroupCommit

open List
open State
open Function

variable {Pid : Type}

def State.running [Fintype Pid] (s : State Pid) : Nat :=
  ∑ p, if s.phase p = .inOp then 1 else 0

/-- Who runs, who commits and why processes sleep. -/
structure Control [Fintype Pid] (s : State Pid) : Prop where
  count : s.outstanding = s.running
  committer : s.committing ↔ ∃ p, s.phase p = .committing
  single : ∀ p q, s.phase p = .committing → s.phase q = .committing → p = q
  quiet : s.committing → s.outstanding = 0
  asleep : ∀ p, s.phase p = .asleep →
    s.committing ∨ s.block.length + (s.outstanding + 1) * maxOpBlocks > logSize

/-- What the header lists and which transaction each log write went into. -/
structure History (s : State Pid) : Prop where
  nodup : s.block.Nodup
  logged : ∀ blockno, blockno ∈ s.block ↔ blockno ∈ s.logged
  numbered : ∀ p, s.phase p = .inOp → s.op p < s.admitted
  distinct : ∀ p q, s.phase p = .inOp → s.phase q = .inOp → s.op p = s.op q → p = q
  past : ∀ w ∈ s.writes, w.op < s.admitted ∧ w.transaction ≤ s.transaction
  present : ∀ p, s.phase p = .inOp → ∀ w ∈ s.writes, w.op = s.op p → w.transaction = s.transaction
  atomic : ∀ v ∈ s.writes, ∀ w ∈ s.writes, v.op = w.op → v.transaction = w.transaction

structure Inv [Fintype Pid] (s : State Pid) : Prop extends Control s, History s

variable {blockno : Nat}

theorem State.mem_logged {s : State Pid} :
    blockno ∈ s.logged ↔
      ∃ w ∈ s.writes, w.transaction = s.transaction ∧ w.blockno = blockno := by
  simp [logged, and_assoc]

theorem State.mem_opBlocks {s : State Pid} {p : Pid} :
    blockno ∈ s.opBlocks p ↔ ∃ w ∈ s.writes, w.op = s.op p ∧ w.blockno = blockno := by
  simp [opBlocks, and_assoc]

/-! ## History -/

section history

variable {s s' : State Pid} {p : Pid}

theorem History.of_phases (history : History s) (block : s'.block = s.block) (op : s'.op = s.op)
    (admitted : s'.admitted = s.admitted) (transaction : s'.transaction = s.transaction)
    (writes : s'.writes = s.writes) (inOp : ∀ q, s'.phase q = .inOp → s.phase q = .inOp) :
    History s' := by
  have logged : s'.logged = s.logged := by simp [State.logged, writes, transaction]
  constructor
  · rw [block]; exact history.nodup
  · rw [block, logged]; exact history.logged
  · rw [op, admitted]; exact fun q inside => history.numbered q (inOp q inside)
  · rw [op]; exact fun q r inside inside' => history.distinct q r (inOp q inside) (inOp r inside')
  · rw [writes, admitted, transaction]; exact history.past
  · rw [writes, op, transaction]; exact fun q inside => history.present q (inOp q inside)
  · rw [writes]; exact history.atomic

theorem History.logWrite (history : History s) (inside : s.phase p = .inOp) {block : List Nat}
    (nodup : block.Nodup) (members : ∀ other, other ∈ block ↔ other = blockno ∨ other ∈ s.block) :
    History { s with block, writes := ⟨s.op p, blockno, s.transaction⟩ :: s.writes } := by
  constructor
  · exact nodup
  · intro other
    rw [members, history.logged, mem_logged, mem_logged]
    simp [eq_comm]
  · exact history.numbered
  · exact history.distinct
  · intro w member
    rcases mem_cons.mp member with rfl | member
    · exact ⟨history.numbered p inside, le_rfl⟩
    · exact history.past w member
  · intro q inside' w member same
    rcases mem_cons.mp member with rfl | member
    · rfl
    · exact history.present q inside' w member same
  · intro v left w right same
    rcases mem_cons.mp left with rfl | left <;> rcases mem_cons.mp right with rfl | right
    · rfl
    · exact (history.present p inside w right same.symm).symm
    · exact history.present p inside v left same
    · exact history.atomic v left w right same

theorem History.clear (history : History s) (nobody : ∀ q, s.phase q ≠ .inOp) :
    History { s with block := [], transaction := s.transaction + 1 } := by
  constructor
  · exact nodup_nil
  · intro blockno
    simp only [mem_logged, not_mem_nil, false_iff, not_exists, not_and]
    intro w member same
    have := history.past w member
    omega
  · exact history.numbered
  · exact history.distinct
  · intro w member
    have := history.past w member
    exact ⟨this.1, Nat.le_succ_of_le this.2⟩
  · exact fun q inside => absurd inside (nobody q)
  · exact history.atomic

theorem History.initial (start : Initial s) : History s := by
  constructor <;> simp [start.block, start.phase, start.writes, State.logged]

theorem History.length_block (history : History s) : s.block.length = s.logged.card := by
  rw [← toFinset_card_of_nodup history.nodup]
  congr 1
  ext blockno
  rw [mem_toFinset, history.logged]

theorem History.opBlocks_subset (history : History s) (inside : s.phase p = .inOp) :
    s.opBlocks p ⊆ s.block.toFinset := by
  intro blockno member
  obtain ⟨w, written, same, rfl⟩ := mem_opBlocks.mp member
  rw [mem_toFinset, history.logged, mem_logged]
  exact ⟨w, written, history.present p inside w written same, rfl⟩

theorem opBlocks_logWrite (block : List Nat) (blockno : Nat) (q : Pid) :
    opBlocks { s with block, writes := ⟨s.op p, blockno, s.transaction⟩ :: s.writes } q =
      if s.op p = s.op q then insert blockno (s.opBlocks q) else s.opBlocks q := by
  by_cases same : s.op p = s.op q <;> simp [opBlocks, same]

theorem History.enter [DecidableEq Pid] (history : History s) (outstanding : Int) :
    History ({ s with
      outstanding
      op := update s.op p s.admitted
      admitted := s.admitted + 1 }.setPhase p .inOp) := by
  constructor
  · exact history.nodup
  · exact history.logged
  · intro q inside
    by_cases self : q = p
    · simp [setPhase, self]
    · simp only [setPhase, update_of_ne self] at inside ⊢
      have := history.numbered q inside
      omega
  · intro q r inside inside' same
    by_cases left : q = p <;> by_cases right : r = p
    · rw [left, right]
    · simp only [setPhase, left, update_self, update_of_ne right] at inside' same
      have := history.numbered r inside'
      omega
    · simp only [setPhase, right, update_self, update_of_ne left] at inside same
      have := history.numbered q inside
      omega
    · simp only [setPhase, update_of_ne left, update_of_ne right] at inside inside' same
      exact history.distinct q r inside inside' same
  · intro w member
    have := history.past w member
    exact ⟨Nat.lt_succ_of_lt this.1, this.2⟩
  · intro q inside w member same
    by_cases self : q = p
    · -- a fresh operation has logged nothing
      simp only [setPhase, self, update_self] at same
      have := history.past w member
      omega
    · simp only [setPhase, update_of_ne self] at inside same
      exact history.present q inside w member same
  · exact history.atomic

end history

/-! ## Control -/

section phases

theorem State.wakeup_phase (s : State Pid) (q : Pid) (phase : Phase) (awake : phase ≠ .asleep)
    (tested : phase ≠ .beginning) : s.wakeup.phase q = phase ↔ s.phase q = phase := by
  simp only [wakeup]
  split
  next asleep => simp [asleep, awake.symm, tested.symm]
  next => rfl

theorem State.wakeup_awake (s : State Pid) (q : Pid) : s.wakeup.phase q ≠ .asleep := by
  simp only [wakeup]
  split
  next => simp
  next awake => exact awake

variable [DecidableEq Pid]

@[simp]
theorem State.setPhase_phase (s : State Pid) (p q : Pid) (phase : Phase) :
    (s.setPhase p phase).phase q = if q = p then phase else s.phase q := by
  simp only [setPhase, update_apply]

theorem State.nobody_asleep (s : State Pid) (p q : Pid) :
    (s.wakeup.setPhase p .outside).phase q ≠ .asleep := by
  by_cases self : q = p
  · simp [self]
  · simpa [self] using s.wakeup_awake q

theorem State.inOp_of_setPhase {s : State Pid} {p q : Pid} {phase : Phase}
    (out : phase ≠ .inOp) (inside : (s.setPhase p phase).phase q = .inOp) :
    s.phase q = .inOp := by
  by_cases self : q = p
  · simp [self, out] at inside
  · simpa [self] using inside

theorem State.inOp_of_wakeup {s : State Pid} {p q : Pid}
    (inside : (s.wakeup.setPhase p .outside).phase q = .inOp) : s.phase q = .inOp :=
  (s.wakeup_phase q .inOp (by decide) (by decide)).mp (inOp_of_setPhase (by decide) inside)

end phases

section control

variable [Fintype Pid] {s s' : State Pid} {p : Pid}

section

variable (control : Control s)

include control

theorem Control.nobody_inOp (committing : s.committing) (p : Pid) :
    s.phase p ≠ .inOp := by
  intro inside
  have none : s.running = 0 := by
    have := control.count
    rw [control.quiet committing] at this
    omega
  have := (Finset.sum_eq_zero_iff.mp none) p (Finset.mem_univ p)
  simp [inside] at this

theorem Control.outstanding_pos (inside : s.phase p = .inOp) :
    1 ≤ s.outstanding := by
  have bound : (if s.phase p = .inOp then 1 else 0) ≤ s.running :=
    Finset.single_le_sum (f := fun q => if s.phase q = .inOp then 1 else 0)
      (fun _ _ => Nat.zero_le _) (Finset.mem_univ p)
  rw [if_pos inside] at bound
  rw [control.count]
  omega

theorem Control.not_committing (inside : s.phase p = .inOp) :
    s.committing = false := by
  by_contra busy
  exact control.nobody_inOp (by simpa using busy) p inside

theorem Control.nobody_committing (free : s.committing = false) (q : Pid) :
    s.phase q ≠ .committing := by
  intro busy
  have := control.committer.mpr ⟨q, busy⟩
  simp [free] at this

end

@[simp]
theorem State.wakeup_running (s : State Pid) : s.wakeup.running = s.running := by
  refine Finset.sum_congr rfl fun q _ => ?_
  simp only [s.wakeup_phase q .inOp (by decide) (by decide)]

variable [DecidableEq Pid]

theorem State.setPhase_running (s : State Pid) (p : Pid) (phase : Phase) :
    (s.setPhase p phase).running + (if s.phase p = .inOp then 1 else 0) =
      s.running + (if phase = .inOp then 1 else 0) := by
  have change := @sum_change Pid _ _ (fun q => if s.phase q = .inOp then 1 else 0)
    (fun q => if (s.setPhase p phase).phase q = .inOp then 1 else 0) p
    fun q other => by simp [other]
  simpa [running] using change

section

variable (control : Control s)

include control

omit [DecidableEq Pid] in
theorem Control.keep (committing : s'.committing = s.committing)
    (committer : ∀ q, s'.phase q = .committing ↔ s.phase q = .committing)
    (count : s'.outstanding = s'.running) (quiet : s'.committing → s'.outstanding = 0)
    (asleep : ∀ q, s'.phase q = .asleep → s'.committing ∨
      s'.block.length + (s'.outstanding + 1) * maxOpBlocks > logSize) :
    Control s' where
  count := count
  committer := by simp only [committing, committer, control.committer]
  single q r := by simpa only [committer] using control.single q r
  quiet := quiet
  asleep := asleep

theorem Control.setPhase {phase : Phase} (before : s.phase p = .outside ∨ s.phase p = .beginning)
    (after : phase = .beginning ∨ phase = .asleep)
    (reason : phase = .asleep → s.committing ∨ s.block.length + (s.outstanding + 1) * maxOpBlocks >
      logSize) :
    Control (s.setPhase p phase) := by
  have running := s.setPhase_running p phase
  have idle : s.phase p ≠ .inOp ∧ s.phase p ≠ .committing := by
    rcases before with at' | at' <;> simp [at']
  have still : phase ≠ .inOp ∧ phase ≠ .committing := by
    rcases after with rfl | rfl <;> decide
  rw [if_neg idle.1, if_neg still.1] at running
  refine control.keep rfl ?_ ?_ control.quiet ?_
  · intro q
    by_cases self : q = p <;> simp [self, idle.2, still.2]
  · rw [show (s.setPhase p phase).outstanding = s.outstanding from rfl, control.count]
    omega
  · intro q sleeps
    by_cases self : q = p
    · exact reason (by simpa [self] using sleeps)
    · exact control.asleep q (by simpa [self] using sleeps)

theorem Control.enter (at' : s.phase p = .beginning)
    (free : s.committing = false) {op : Pid → Nat} {admitted : Nat} :
    Control ({ s with outstanding := s.outstanding + 1, op, admitted }.setPhase p .inOp) := by
  have running := s.setPhase_running p .inOp
  rw [at', if_neg (by decide), if_pos rfl] at running
  refine control.keep rfl ?_ ?_ ?_ ?_
  · intro q
    by_cases self : q = p <;> simp [self, at']
  · change s.outstanding + 1 = (s.setPhase p .inOp).running
    rw [control.count]
    omega
  · intro busy
    simp [State.setPhase, free] at busy
  · intro q sleeps
    by_cases self : q = p
    · simp [self] at sleeps
    · have reason := control.asleep q (by simpa [self] using sleeps)
      refine reason.imp id fun full => ?_
      change (s.block.length : Int) + (s.outstanding + 1 + 1) * maxOpBlocks > logSize
      simp only [maxOpBlocks] at full ⊢
      omega

omit [DecidableEq Pid] in
/-- A log write lengthens the header, so no sleeper is let in. -/
theorem Control.logWrite {block : List Nat} {writes : List LogWrite}
    (longer : s.block.length ≤ block.length) : Control { s with block, writes } := by
  refine control.keep rfl (fun _ => Iff.rfl) control.count control.quiet ?_
  intro q sleeps
  refine (control.asleep q sleeps).imp id fun full => ?_
  change (block.length : Int) + (s.outstanding + 1) * maxOpBlocks > logSize
  omega

theorem Control.endCommit (inside : s.phase p = .inOp)
    (free : s.committing = false) (last : s.outstanding = 1) :
    Control ({ s with outstanding := 0, committing := true }.setPhase p .committing) := by
  have running := s.setPhase_running p .committing
  rw [inside, if_pos rfl, if_neg (by decide)] at running
  have count := control.count
  have nobody := control.nobody_committing free
  constructor
  · change (0 : Int) = (s.setPhase p .committing).running
    omega
  · simp only [setPhase_phase]
    exact ⟨fun _ => ⟨p, by simp⟩, fun _ => rfl⟩
  · intro q r busy busy'
    have self : ∀ q, ({ s with outstanding := 0, committing := true }.setPhase p .committing).phase
        q = .committing → q = p := by
      intro q busy
      by_contra other
      exact nobody q (by simpa [other] using busy)
    rw [self q busy, self r busy']
  · exact fun _ => rfl
  · exact fun _ _ => .inl rfl

theorem Control.endWake (inside : s.phase p = .inOp) (free : s.committing = false) :
    Control ({ s with outstanding := s.outstanding - 1 }.wakeup.setPhase p .outside) := by
  have running := setPhase_running { s with outstanding := s.outstanding - 1 }.wakeup p .outside
  have inside' := ({ s with outstanding := s.outstanding - 1 }.wakeup_phase p .inOp (by decide)
    (by decide)).mpr inside
  rw [inside', if_pos rfl, if_neg (by decide), wakeup_running] at running
  have count : s.outstanding = s.running := control.count
  refine control.keep rfl ?_ ?_ ?_ ?_
  · intro q
    by_cases self : q = p
    · simp [self, inside]
    · simpa [self] using wakeup_phase _ q .committing (by decide) (by decide)
  · change s.outstanding - 1 = _
    change _ = s.running + 0 at running
    omega
  · intro busy
    simp [State.setPhase, State.wakeup, free] at busy
  · exact fun q sleeps => absurd sleeps (State.nobody_asleep _ p q)

theorem Control.done (at' : s.phase p = .committing) :
    Control ({ s with committing := false }.wakeup.setPhase p .outside) := by
  have running := setPhase_running { s with committing := false }.wakeup p .outside
  have committing' := ({ s with committing := false }.wakeup_phase p .committing (by decide)
    (by decide)).mpr at'
  rw [committing', if_neg (by decide), if_neg (by decide), wakeup_running] at running
  have others : ∀ q, ({ s with committing := false }.wakeup.setPhase p .outside).phase q ≠
      .committing := by
    intro q busy
    by_cases self : q = p
    · simp [self] at busy
    · have := (wakeup_phase _ q .committing (by decide) (by decide)).mp (by simpa [self] using busy)
      exact self (control.single q p this at')
  constructor
  · rw [Nat.add_right_cancel running]
    exact control.count
  · exact ⟨fun busy => by simp [State.setPhase, State.wakeup] at busy,
      fun ⟨q, busy⟩ => absurd busy (others q)⟩
  · exact fun q _ busy => absurd busy (others q)
  · intro busy
    simp [State.setPhase, State.wakeup] at busy
  · exact fun q sleeps => absurd sleeps (State.nobody_asleep _ p q)

theorem Control.step {action : Action} (effect : Effect s p action s') :
    Control s' := by
  cases effect with
  | call outside => exact control.setPhase (.inl outside) (.inl rfl) (by simp)
  | sleep at' reason => exact control.setPhase (.inr at') (.inr rfl) fun _ => reason
  | enter at' free room => exact control.enter at' free
  | absorb inside member => exact control.logWrite le_rfl
  | append inside fresh room => exact control.logWrite (by simp)
  | endCommit inside free last => exact control.endCommit inside free last
  | endWake inside free others => exact control.endWake inside free
  | clear at' =>
    have busy := control.committer.mpr ⟨p, at'⟩
    exact control.keep rfl (fun _ => Iff.rfl) control.count control.quiet fun _ _ => .inl busy
  | done at' empty => exact control.done at'

end

end control

section step

variable [Fintype Pid] [DecidableEq Pid] {s s' : State Pid} {p : Pid} {action : Action}

omit [DecidableEq Pid] in
theorem Inv.initial (start : Initial s) : Inv s where
  toHistory := .initial start
  count := by simp [running, start.outstanding, start.phase]
  committer := by simp [start.committing, start.phase]
  single p _ busy := by simp [start.phase] at busy
  quiet busy := by simp [start.committing] at busy
  asleep p sleeps := by simp [start.phase] at sleeps

theorem Inv.step (inv : Inv s) (effect : Effect s p action s') : Inv s' := by
  refine ⟨inv.toControl.step effect, ?_⟩
  have history := inv.toHistory
  cases effect with
  | call outside | sleep at' reason | endCommit inside free last =>
    exact history.of_phases rfl rfl rfl rfl rfl fun q => inOp_of_setPhase (by decide)
  | enter at' free room => exact history.enter _
  | absorb inside member =>
    exact history.logWrite inside history.nodup fun other => by
      constructor
      · exact .inr
      · rintro (rfl | old)
        · exact member
        · exact old
  | append inside fresh room =>
    refine history.logWrite inside ?_ fun other => ?_
    · rw [nodup_append]
      simp [history.nodup]
      exact fun a member same => fresh (same ▸ member)
    · simp [or_comm]
  | endWake inside free others | done at' empty =>
    exact history.of_phases rfl rfl rfl rfl rfl fun q => inOp_of_wakeup
  | clear at' =>
    exact history.clear (inv.toControl.nobody_inOp (inv.committer.mpr ⟨p, at'⟩))

theorem Inv.no_misuse (inv : Inv s) {size : Nat} (disciplined : Disciplined s p action) :
    s.step size p action ≠ .fault .logCommitting ∧
      s.step size p action ≠ .fault .outsideTrans := by
  cases action with
  | call | clear | commitDone => simp [State.step]
  | beginOp =>
    simp only [State.step]
    split
    next => simp
    next => split <;> simp
  | logWrite blockno =>
    have running := inv.outstanding_pos disciplined
    simp only [State.step]
    split
    next => simp
    next => rw [if_neg (by omega)]; simp
  | endOp =>
    simp only [State.step, inv.not_committing disciplined]
    split
    next contradiction => simp at contradiction
    next => split <;> simp

omit [Fintype Pid] in
/-- During a commit no operation is admitted, and it ends with an empty header. -/
theorem Effect.of_committing (effect : Effect s p action s') (committing : s.committing)
    (nobody : ∀ q, s.phase q ≠ .inOp) :
    (∀ q, s'.phase q ≠ .inOp) ∧ (s'.committing = false → s'.block = []) := by
  cases effect with
  | call outside | sleep at' reason =>
    refine ⟨fun q inside => nobody q (inOp_of_setPhase (by decide) inside), ?_⟩
    intro done
    simp [setPhase, committing] at done
  | enter at' free room => simp [free] at committing
  | absorb inside | append inside | endCommit inside | endWake inside =>
    exact absurd inside (nobody p)
  | clear at' => exact ⟨nobody, fun _ => rfl⟩
  | done at' empty =>
    exact ⟨fun q inside => nobody q (inOp_of_wakeup inside), fun _ => empty⟩

end step

/-! ## Reserved space -/

/-- No operation logs more than `MAXOPBLOCKS` distinct blocks. -/
def WithinOp (s : State Pid) (p : Pid) : Action → Prop
  | .logWrite blockno => (insert blockno (s.opBlocks p)).card ≤ maxOpBlocks
  | _ => True

instance (s : State Pid) (p : Pid) : DecidablePred (WithinOp s p)
  | .logWrite _ => inferInstanceAs (Decidable (_ ≤ maxOpBlocks))
  | .call | .beginOp | .endOp | .clear | .commitDone => isTrue trivial

/-- Any interleaving of operations, each within its share, over a log of
`size` blocks. -/
def system (size : Nat) (Pid : Type) [DecidableEq Pid] :
    TransitionSystem (State Pid) (Pid × Action) Panic where
  initial := Initial
  allowed s label := Disciplined s label.1 label.2 ∧ WithinOp s label.1 label.2
  step s label := s.step size label.1 label.2

instance (size : Nat) [DecidableEq Pid] (s : State Pid) (label : Pid × Action) :
    Decidable ((system size Pid).allowed s label) :=
  inferInstanceAs (Decidable (Disciplined s label.1 label.2 ∧ WithinOp s label.1 label.2))

section reserved

variable [Fintype Pid] [DecidableEq Pid] {size : Nat} {s s' : State Pid} {p : Pid}
  {action : Action}

/-- What an operation in progress may still log. -/
def State.remaining (s : State Pid) (p : Pid) : Nat :=
  if s.phase p = .inOp then maxOpBlocks - (s.opBlocks p).card else 0

/-- The header has room for all that the admitted operations may still log. -/
def Reserved (s : State Pid) : Prop := s.block.length + ∑ p, s.remaining p ≤ logSize

theorem reachable_inv (reachable : (system size Pid).Reachable s) : Inv s :=
  reachable.invariant (fun _ start => .initial start)
    fun _ _ _ _ inv allowed moved => inv.step (step_effect allowed.1 moved)

omit [DecidableEq Pid] in
/-- Steps that only move processes between phases, none of them into an
operation, and may empty the header. -/
theorem Reserved.of_phases (reserved : Reserved s) (block : s'.block.length ≤ s.block.length)
    (op : s'.op = s.op) (writes : s'.writes = s.writes)
    (inOp : ∀ q, s'.phase q = .inOp → s.phase q = .inOp) : Reserved s' := by
  have blocks : s'.opBlocks = s.opBlocks := by
    funext q
    simp [opBlocks, op, writes]
  have sums : ∑ q, s'.remaining q ≤ ∑ q, s.remaining q := by
    refine Finset.sum_le_sum fun q _ => ?_
    unfold remaining
    split
    next inside => rw [if_pos (inOp q inside), blocks]
    next => exact Nat.zero_le _
  unfold Reserved at reserved ⊢
  omega

omit [DecidableEq Pid] in
theorem sum_remaining_le (s : State Pid) : ∑ q, s.remaining q ≤ s.running * maxOpBlocks := by
  rw [running, Finset.sum_mul]
  apply Finset.sum_le_sum
  intro q _
  unfold remaining
  split <;> simp

/-- A log write uses up the share of its own operation, and as much of it as
the header grows. -/
theorem Reserved.logWrite (reserved : Reserved s) (history : History s) (inside : s.phase p = .inOp)
    {block : List Nat} (within : (insert blockno (s.opBlocks p)).card ≤ maxOpBlocks)
    (length : block.length ≤ s.block.length ∨ blockno ∉ s.block ∧
      block.length = s.block.length + 1) :
    Reserved { s with block, writes := ⟨s.op p, blockno, s.transaction⟩ :: s.writes } := by
  set s' : State Pid :=
    { s with block, writes := ⟨s.op p, blockno, s.transaction⟩ :: s.writes } with written
  have others : ∀ q, q ≠ p → s'.remaining q = s.remaining q := by
    intro q other
    unfold remaining
    by_cases inside' : s.phase q = .inOp
    · have different : s.op p ≠ s.op q := fun same =>
        other (history.distinct q p inside' inside same.symm)
      rw [written, opBlocks_logWrite, if_neg different]
    · rw [if_neg inside', if_neg inside']
  have change := sum_change p others
  have own : s'.remaining p = maxOpBlocks - (insert blockno (s.opBlocks p)).card := by
    rw [remaining, if_pos inside, written, opBlocks_logWrite, if_pos rfl]
  have old : s.remaining p = maxOpBlocks - (s.opBlocks p).card := if_pos inside
  unfold Reserved at reserved ⊢
  change block.length + _ ≤ _
  rcases length with shorter | ⟨fresh, longer⟩
  · have : (s.opBlocks p).card ≤ (insert blockno (s.opBlocks p)).card :=
      Finset.card_le_card (Finset.subset_insert _ _)
    omega
  · -- the block is new to the transaction, hence to the operation
    have new : blockno ∉ s.opBlocks p := fun member =>
      fresh (mem_toFinset.mp (history.opBlocks_subset inside member))
    rw [Finset.card_insert_of_notMem new] at own within
    omega

theorem Reserved.step (reserved : Reserved s) (inv : Inv s) (within : WithinOp s p action)
    (effect : Effect s p action s') : Reserved s' := by
  have inv' := inv.step effect
  cases effect with
  | call outside | sleep at' reason | endCommit inside free last =>
    exact reserved.of_phases le_rfl rfl rfl fun q => inOp_of_setPhase (by decide)
  | enter at' free room =>
    have bound := sum_remaining_le ({ s with
      outstanding := s.outstanding + 1
      op := update s.op p s.admitted
      admitted := s.admitted + 1 }.setPhase p .inOp)
    have count := inv'.count
    unfold Reserved
    change s.outstanding + 1 = _ at count
    change s.block.length + _ ≤ _
    simp only [maxOpBlocks, logSize] at bound room ⊢
    omega
  | absorb inside member => exact reserved.logWrite inv.toHistory inside within (.inl le_rfl)
  | append inside fresh room =>
    exact reserved.logWrite inv.toHistory inside within (.inr ⟨fresh, by simp⟩)
  | endWake inside free others | done at' empty =>
    exact reserved.of_phases le_rfl rfl rfl fun q => inOp_of_wakeup
  | clear at' => exact reserved.of_phases (Nat.zero_le _) rfl rfl fun q => id

/-- Whenever operations are admitted, what they may still log fits the header. -/
theorem reachable_reserved (reachable : (system size Pid).Reachable s) : Reserved s := by
  refine reachable.invariant (motive := Reserved) ?_ ?_
  · intro t start
    simp [Reserved, remaining, start.block, start.phase]
  · intro t label t' reachable reserved allowed moved
    exact reserved.step (reachable_inv reachable) allowed.2 (step_effect allowed.1 moved)

/-- A log write panics exactly when the operations of the transaction have
logged `LOGSIZE - 1` distinct blocks before it. -/
theorem logWrite_tooBig_iff (reachable : (system logSize Pid).Reachable s)
    (allowed : (system logSize Pid).allowed s (p, .logWrite blockno)) :
    s.step logSize p (.logWrite blockno) = .fault .tooBig ↔ logSize - 1 ≤ s.logged.card := by
  have inv := reachable_inv reachable
  have running := inv.toControl.outstanding_pos allowed.1
  rw [← inv.toHistory.length_block]
  simp only [step]
  split
  next full => simp only [logSize, maxOpBlocks] at full ⊢; simp; omega
  next room =>
    rw [if_neg (by omega)]
    simp only [logSize, maxOpBlocks] at room ⊢
    simp
    omega

end reserved

def threeProcesses : State (Fin 3) :=
  ⟨0, false, [], fun _ => .outside, fun _ => 0, 0, 0, []⟩

theorem threeProcesses_initial : Initial threeProcesses :=
  ⟨rfl, rfl, rfl, fun _ => rfl, rfl⟩

def threeBegin : List (Fin 3 × Action) :=
  (finRange 3).flatMap fun p => [(p, .call), (p, .beginOp)]

theorem reachable_reserved_three :
    ∃ s, (system logSize (Fin 3)).Reachable s ∧ s.outstanding = 3 ∧ Reserved s := by
  obtain ⟨s, reachable, three⟩ := (system logSize (Fin 3)).exists_reachable threeProcesses_initial
    threeBegin (motive := fun s => s.outstanding = 3) (by decide +kernel)
  exact ⟨s, reachable, three, reachable_reserved reachable⟩

/-- The first log write of three admitted operations does not panic. -/
theorem logWrite_tooBig_iff_first :
    ∃ s, (system logSize (Fin 3)).Reachable s ∧
      (system logSize (Fin 3)).allowed s (0, .logWrite 7) ∧
      s.step logSize 0 (.logWrite 7) ≠ .fault .tooBig := by
  obtain ⟨s, reachable, allowed, nothing⟩ := (system logSize (Fin 3)).exists_reachable
    threeProcesses_initial threeBegin (motive := fun s =>
      (system logSize (Fin 3)).allowed s (0, .logWrite 7) ∧ s.logged.card = 0) (by decide +kernel)
  refine ⟨s, reachable, allowed, fun panics => ?_⟩
  have full := (logWrite_tooBig_iff reachable allowed).mp panics
  rw [nothing] at full
  exact absurd full (by decide)

/-- The `i`-th log write of process `p` is to a block of its own. -/
def logWrites (p : Fin 3) (count : Nat) : List (Fin 3 × Action) :=
  (range count).map fun i => (p, .logWrite (100 * p + i))

/-- Three operations that log ten blocks each: the last log write panics. -/
theorem logWrite_tooBig_of_three_operations :
    ∃ s, (system logSize (Fin 3)).Reachable s ∧
      (system logSize (Fin 3)).allowed s (2, .logWrite 209) ∧
      s.step logSize 2 (.logWrite 209) = .fault .tooBig := by
  obtain ⟨s, reachable, allowed, faulted⟩ := (system logSize (Fin 3)).exists_reachable
    threeProcesses_initial (threeBegin ++ logWrites 0 10 ++ logWrites 1 10 ++ logWrites 2 9)
    (motive := fun s => (system logSize (Fin 3)).allowed s (2, .logWrite 209) ∧
      (match s.step logSize 2 (.logWrite 209) with
      | .fault reason => some reason
      | _ => none) = some .tooBig) (by decide +kernel)
  refine ⟨s, reachable, allowed, ?_⟩
  split at faulted
  next fault => rw [fault, Option.some.inj faulted]
  next => cases faulted

end Xv6.GroupCommit
