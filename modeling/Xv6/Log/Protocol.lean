import Xv6.Param
import Xv6.Library.Transition
import Xv6.Library.Counting

/-!
# The transaction protocol of the log

`begin_op`, `log_write` and `end_op` of `kernel/log.c`. Each critical section
under `log.lock` is one step of a process. What `commit` does to the buffers is
left to the modules over this one: here it only empties the log.

`op`, `admitted`, `transaction` and `writes` are history variables: the code
does not have them, and no step reads them.
-/

namespace Xv6.GroupCommit

open Function

inductive Panic where
  /-- "too big a transaction" -/
  | tooBig
  /-- "log_write outside of trans" -/
  | outsideTrans
  /-- "log.committing" -/
  | logCommitting
  deriving DecidableEq

inductive Phase where
  | outside
  /-- In the loop of `begin_op`, about to take `log.lock`. -/
  | beginning
  /-- In `begin_op`, asleep on `log`. -/
  | asleep
  | inOp
  /-- In `end_op`, between the two critical sections. -/
  | committing
  deriving DecidableEq

/-- One call of `log_write`: the operation that made it, the block and the
transaction it went into. -/
structure LogWrite where
  op : Nat
  blockno : Nat
  transaction : Nat
  deriving DecidableEq

structure State (Pid : Type) where
  outstanding : Int
  committing : Bool
  /-- `log.lh.block[0..n)`. -/
  block : List Nat
  phase : Pid → Phase
  /-- The number of the operation a process is in. -/
  op : Pid → Nat
  /-- How many operations have been admitted. -/
  admitted : Nat
  /-- How many transactions have been erased from the log. -/
  transaction : Nat
  writes : List LogWrite

inductive Action where
  | call
  | beginOp
  | logWrite (blockno : Nat)
  | endOp
  | clear
  | commitDone
  deriving DecidableEq

namespace State

variable {Pid : Type} [DecidableEq Pid]

def setPhase (s : State Pid) (p : Pid) (phase : Phase) : State Pid :=
  { s with phase := update s.phase p phase }

/-- Every process asleep on `log` becomes runnable and tests again. -/
def wakeup (s : State Pid) : State Pid :=
  { s with phase := fun q => if s.phase q = .asleep then .beginning else s.phase q }

def step (size : Nat) (s : State Pid) (p : Pid) : Action → Outcome (State Pid) Panic
  | .call => .next (s.setPhase p .beginning)
  | .beginOp =>
    if s.committing then
      .next (s.setPhase p .asleep)
    else if s.block.length + (s.outstanding + 1) * maxOpBlocks > logSize then
      .next (s.setPhase p .asleep)
    else
      .next ({ s with
        outstanding := s.outstanding + 1
        op := update s.op p s.admitted
        admitted := s.admitted + 1 }.setPhase p .inOp)
  | .logWrite blockno =>
    -- `log.lh.n >= log.size - 1`, written without the subtraction
    if s.block.length ≥ logSize ∨ s.block.length + 1 ≥ size then
      .fault .tooBig
    else if s.outstanding < 1 then
      .fault .outsideTrans
    else
      .next { s with
        block := if blockno ∈ s.block then s.block else s.block ++ [blockno]
        writes := ⟨s.op p, blockno, s.transaction⟩ :: s.writes }
  | .endOp =>
    let s := { s with outstanding := s.outstanding - 1 }
    if s.committing then
      .fault .logCommitting
    else if s.outstanding = 0 then
      .next ({ s with committing := true }.setPhase p .committing)
    else
      .next (s.wakeup.setPhase p .outside)
  | .clear => .next { s with block := [], transaction := s.transaction + 1 }
  | .commitDone => .next ({ s with committing := false }.wakeup.setPhase p .outside)

def logged (s : State Pid) : Finset Nat :=
  ((s.writes.filter fun w => w.transaction = s.transaction).map LogWrite.blockno).toFinset

/-- The blocks logged so far by the operation a process is in. -/
def opBlocks (s : State Pid) (p : Pid) : Finset Nat :=
  ((s.writes.filter fun w => w.op = s.op p).map LogWrite.blockno).toFinset

end State

/-- A process logs only between its `begin_op` and its `end_op`, and `commit`
returns with the log empty. -/
def Disciplined {Pid : Type} (s : State Pid) (p : Pid) : Action → Prop
  | .call => s.phase p = .outside
  | .beginOp => s.phase p = .beginning
  | .logWrite _ => s.phase p = .inOp
  | .endOp => s.phase p = .inOp
  | .clear => s.phase p = .committing
  | .commitDone => s.phase p = .committing ∧ s.block = []

instance {Pid : Type} (s : State Pid) (p : Pid) : DecidablePred (Disciplined s p) :=
  fun action => by cases action <;> dsimp only [Disciplined] <;> infer_instance

structure Initial {Pid : Type} (s : State Pid) : Prop where
  outstanding : s.outstanding = 0
  committing : s.committing = false
  block : s.block = []
  phase : ∀ p, s.phase p = .outside
  writes : s.writes = []

/-- What each step of a disciplined process can do, with the guards it passed. -/
inductive Effect {Pid : Type} [DecidableEq Pid] (s : State Pid) (p : Pid) :
    Action → State Pid → Prop where
  | call : s.phase p = .outside → Effect s p .call (s.setPhase p .beginning)
  | sleep : s.phase p = .beginning →
      s.committing ∨ s.block.length + (s.outstanding + 1) * maxOpBlocks > logSize →
      Effect s p .beginOp (s.setPhase p .asleep)
  | enter : s.phase p = .beginning → s.committing = false →
      s.block.length + (s.outstanding + 1) * maxOpBlocks ≤ logSize →
      Effect s p .beginOp ({ s with
        outstanding := s.outstanding + 1
        op := update s.op p s.admitted
        admitted := s.admitted + 1 }.setPhase p .inOp)
  | absorb {blockno} : s.phase p = .inOp → blockno ∈ s.block →
      Effect s p (.logWrite blockno) { s with
        writes := ⟨s.op p, blockno, s.transaction⟩ :: s.writes }
  | append {blockno} : s.phase p = .inOp → blockno ∉ s.block → s.block.length < logSize →
      Effect s p (.logWrite blockno) { s with
        block := s.block ++ [blockno]
        writes := ⟨s.op p, blockno, s.transaction⟩ :: s.writes }
  | endCommit : s.phase p = .inOp → s.committing = false → s.outstanding = 1 →
      Effect s p .endOp ({ s with outstanding := 0, committing := true }.setPhase p .committing)
  | endWake : s.phase p = .inOp → s.committing = false → s.outstanding ≠ 1 →
      Effect s p .endOp
        ({ s with outstanding := s.outstanding - 1 }.wakeup.setPhase p .outside)
  | clear : s.phase p = .committing →
      Effect s p .clear { s with block := [], transaction := s.transaction + 1 }
  | done : s.phase p = .committing → s.block = [] →
      Effect s p .commitDone ({ s with committing := false }.wakeup.setPhase p .outside)

section steps

variable {Pid : Type} [DecidableEq Pid] {size : Nat} {s s' : State Pid} {p : Pid} {action : Action}

theorem step_effect (disciplined : Disciplined s p action)
    (moved : s.step size p action = .next s') :
    Effect s p action s' := by
  cases action with
  | call => cases moved; exact .call disciplined
  | beginOp =>
    simp only [State.step] at moved
    split at moved
    next busy => cases moved; exact .sleep disciplined (.inl busy)
    next free =>
      split at moved
      next full => cases moved; exact .sleep disciplined (.inr full)
      next room => cases moved; exact .enter disciplined (by simpa using free) (by omega)
  | logWrite blockno =>
    simp only [State.step] at moved
    split at moved
    next => cases moved
    next small =>
      split at moved
      next => cases moved
      next =>
        cases moved
        by_cases member : blockno ∈ s.block
        · simp only [if_pos member]
          exact .absorb disciplined member
        · simp only [if_neg member]
          exact .append disciplined member (by omega)
  | endOp =>
    simp only [State.step] at moved
    split at moved
    next => cases moved
    next free =>
      split at moved
      next last =>
        cases moved
        rw [last]
        exact .endCommit disciplined (by simpa using free) (by omega)
      next others =>
        cases moved
        exact .endWake disciplined (by simpa using free) (by omega)
  | clear => cases moved; exact .clear disciplined
  | commitDone => cases moved; exact .done disciplined.1 disciplined.2

end steps

end Xv6.GroupCommit
