import Xv6.Log.Commit
import Xv6.Log.Transactions
import Xv6.Bio.Coherence

/-!
# The log over the buffer cache

The transaction protocol and the buffer cache together: `log_write` pins the
buffer of a newly logged block, and `commit` runs call by call between the
steps of the other processes. Every call of `bread` or `brelse` inside `commit`
takes the same steps as one by any other process.
-/

namespace Xv6.LogCache

inductive Panic where
  | bio (reason : Bio.Panic)
  | log (reason : GroupCommit.Panic)
  deriving DecidableEq

/-- `log.start`, `log.size` and `log.dev`. Device 0 is what an unused buffer has. -/
structure Config where
  start : Nat
  size : Nat
  dev : Nat
  dev_ne_zero : dev ≠ 0

def Config.Region (cfg : Config) (blockno : Nat) : Prop :=
  cfg.start ≤ blockno ∧ blockno < cfg.start + cfg.size
  deriving Decidable

/-- The call that `commit` is about to make or is in, with the buffers it has
obtained. `erased` tells the second `write_head` from the first. -/
inductive CommitPc where
  -- `write_log`
  | logTo (tail : Nat)
  | logFrom (tail : Nat) (dst : Fin nbuf)
  | logMove (tail : Nat) (dst src : Fin nbuf)
  | logWrite (tail : Nat) (dst src : Fin nbuf)
  | logDropFrom (tail : Nat) (dst src : Fin nbuf)
  | logDropTo (tail : Nat) (dst : Fin nbuf)
  -- `write_head`
  | headRead (erased : Bool)
  | headStore (erased : Bool) (buf : Fin nbuf)
  | headWrite (erased : Bool) (buf : Fin nbuf)
  | headDrop (erased : Bool) (buf : Fin nbuf)
  -- `install_trans`
  | homeLog (tail : Nat)
  | homeRead (tail : Nat) (lbuf : Fin nbuf)
  | homeMove (tail : Nat) (lbuf dbuf : Fin nbuf)
  | homeWrite (tail : Nat) (lbuf dbuf : Fin nbuf)
  | homeUnpin (tail : Nat) (lbuf dbuf : Fin nbuf)
  | homeDropLog (tail : Nat) (lbuf dbuf : Fin nbuf)
  | homeDrop (tail : Nat) (dbuf : Fin nbuf)
  -- `log.lh.n = 0`
  | clear
  -- `commit` has returned to `end_op`
  | finish
  deriving DecidableEq

inductive Call where
  | bread (blockno : Nat)
  | memmove (dst src : Fin nbuf)
  /-- Fill in the header from `log.lh`. -/
  | head (buf : Fin nbuf)
  | bwrite (b : Fin nbuf)
  | bunpin (b : Fin nbuf)
  | brelse (b : Fin nbuf)
  | clear
  | finish

namespace CommitPc

def call (cfg : Config) (block : List Nat) : CommitPc → Call
  | logTo tail => .bread (cfg.start + tail + 1)
  | logFrom tail _ => .bread (block.getD tail 0)
  | logMove _ dst src => .memmove dst src
  | logWrite _ dst _ => .bwrite dst
  | logDropFrom _ _ src => .brelse src
  | logDropTo _ dst => .brelse dst
  | headRead _ => .bread cfg.start
  | headStore _ buf => .head buf
  | headWrite _ buf => .bwrite buf
  | headDrop _ buf => .brelse buf
  | homeLog tail => .bread (cfg.start + tail + 1)
  | homeRead tail _ => .bread (block.getD tail 0)
  | homeMove _ lbuf dbuf => .memmove dbuf lbuf
  | homeWrite _ _ dbuf => .bwrite dbuf
  | homeUnpin _ _ dbuf => .bunpin dbuf
  | homeDropLog _ lbuf _ => .brelse lbuf
  | homeDrop _ dbuf => .brelse dbuf
  | clear => .clear
  | finish => .finish

def logLoop (block : List Nat) (tail : Nat) : CommitPc :=
  if tail < block.length then logTo tail else headRead false

def homeLoop (block : List Nat) (tail : Nat) : CommitPc :=
  if tail < block.length then homeLog tail else clear

def enter (block : List Nat) : CommitPc :=
  if block.length > 0 then logLoop block 0 else finish

/-- Where a call returns to. `returned` is the buffer that a `bread` obtained. -/
def next (block : List Nat) (returned : Fin nbuf) : CommitPc → CommitPc
  | logTo tail => logFrom tail returned
  | logFrom tail dst => logMove tail dst returned
  | logMove tail dst src => logWrite tail dst src
  | logWrite tail dst src => logDropFrom tail dst src
  | logDropFrom tail dst _ => logDropTo tail dst
  | logDropTo tail _ => logLoop block (tail + 1)
  | headRead erased => headStore erased returned
  | headStore erased buf => headWrite erased buf
  | headWrite erased buf => headDrop erased buf
  | headDrop false _ => homeLoop block 0
  | headDrop true _ => finish
  | homeLog tail => homeRead tail returned
  | homeRead tail lbuf => homeMove tail lbuf returned
  | homeMove tail lbuf dbuf => homeWrite tail lbuf dbuf
  | homeWrite tail lbuf dbuf => homeUnpin tail lbuf dbuf
  | homeUnpin tail lbuf dbuf => homeDropLog tail lbuf dbuf
  | homeDropLog tail _ dbuf => homeDrop tail dbuf
  | homeDrop tail _ => homeLoop block (tail + 1)
  | clear => headRead true
  | finish => finish

end CommitPc

structure State (Pid : Type) where
  bio : Bio.State Pid Block
  log : GroupCommit.State Pid
  pc : Pid → CommitPc

inductive Action where
  | io (action : Bio.Action Block)
  | beginCall
  | beginOp
  | logWrite (b : Fin nbuf)
  | endOp
  /-- The next step of `commit`. -/
  | commit

namespace State

variable {Pid : Type} [DecidableEq Pid]

/-- A step of the buffer cache, after which `commit` is at `pc`. -/
def stepIo (s : State Pid) (p : Pid) (action : Bio.Action Block) (pc : CommitPc) :
    Outcome (State Pid) Panic :=
  match s.bio.step p action with
  | .next bio => .next { s with bio, pc := Function.update s.pc p pc }
  | .blocked => .blocked
  | .fault reason => .fault (.bio reason)

/-- A step of the log, after which `commit` is at `pc`. -/
def stepLog (size : Nat) (s : State Pid) (p : Pid) (action : GroupCommit.Action)
    (pc : GroupCommit.State Pid → CommitPc) : Outcome (State Pid) Panic :=
  match s.log.step size p action with
  | .next log => .next { s with log, pc := Function.update s.pc p (pc log) }
  | .blocked => .blocked
  | .fault reason => .fault (.log reason)

def stepCommit (cfg : Config) (s : State Pid) (p : Pid) : Outcome (State Pid) Panic :=
  let pc := s.pc p
  match pc.call cfg s.log.block with
  | .bread blockno =>
    match s.bio.pc p with
    | .idle => s.stepIo p (.bget cfg.dev blockno) pc
    | .waiting _ _ _ => s.stepIo p .acquiresleep pc
    | .reading b _ _ =>
      if (s.bio.buf b).valid then
        s.stepIo p .breadReturn (pc.next s.log.block b)
      else
        s.stepIo p .virtioRead pc
    | .filled b _ _ => s.stepIo p .breadReturn (pc.next s.log.block b)
    | .releasing _ => .blocked
  | .memmove dst src =>
    s.stepIo p (.store dst (s.bio.buf src).data) (pc.next s.log.block dst)
  | .head buf =>
    s.stepIo p (.store buf (Log.encodeHeader (s.bio.buf buf).data s.log.block))
      (pc.next s.log.block buf)
  | .bwrite b => s.stepIo p (.bwrite b) (pc.next s.log.block b)
  | .bunpin b => s.stepIo p (.bunpin b) (pc.next s.log.block b)
  | .brelse b =>
    match s.bio.pc p with
    | .releasing _ => s.stepIo p .brelseDrop (pc.next s.log.block b)
    | _ => s.stepIo p (.brelse b) pc
  | .clear => s.stepLog cfg.size p .clear fun log => pc.next log.block 0
  | .finish => s.stepLog cfg.size p .commitDone fun _ => .finish

def step (cfg : Config) (s : State Pid) (p : Pid) : Action → Outcome (State Pid) Panic
  | .io action => s.stepIo p action (s.pc p)
  | .beginCall => s.stepLog cfg.size p .call fun _ => s.pc p
  | .beginOp => s.stepLog cfg.size p .beginOp fun _ => s.pc p
  | .logWrite b =>
    let blockno := (s.bio.buf b).blockno
    match s.stepLog cfg.size p (.logWrite blockno) fun _ => s.pc p with
    | .next logged =>
      -- a new block is pinned
      if blockno ∈ s.log.block then .next logged else logged.stepIo p (.bpin b) (s.pc p)
    | other => other
  | .endOp => s.stepLog cfg.size p .endOp fun log => .enter log.block
  | .commit => s.stepCommit cfg p

end State

/-- Ordinary processes change buffers of home blocks only, inside an operation,
and leave writing and pinning to the log. -/
def FileAccess {Pid : Type} (cfg : Config) (s : State Pid) (p : Pid) : Bio.Action Block → Prop
  | .store b _ => s.log.phase p = .inOp ∧ ¬ cfg.Region (s.bio.buf b).blockno
  | .bwrite _ | .bpin _ | .bunpin _ => False
  | _ => True

instance {Pid : Type} (cfg : Config) (s : State Pid) (p : Pid) :
    DecidablePred (FileAccess cfg s p) :=
  fun action => by cases action <;> dsimp only [FileAccess] <;> infer_instance

/-- How processes use the log. A process calls the log between its accesses to
buffers, and logs a buffer it holds. -/
def Disciplined {Pid : Type} (cfg : Config) (s : State Pid) (p : Pid) : Action → Prop
  | .io action =>
    (s.log.phase p = .outside ∨ s.log.phase p = .inOp) ∧ FileAccess cfg s p action ∧
      Bio.Disciplined s.bio p action ∧ Bio.OnDevice cfg.dev action
  | .beginCall => s.log.phase p = .outside ∧ s.bio.pc p = .idle
  | .beginOp => s.log.phase p = .beginning
  | .logWrite b =>
    s.log.phase p = .inOp ∧ s.bio.pc p = .idle ∧ s.bio.holder b = some p ∧
      ¬ cfg.Region (s.bio.buf b).blockno
  | .endOp => s.log.phase p = .inOp ∧ s.bio.pc p = .idle
  | .commit => s.log.phase p = .committing

instance {Pid : Type} [DecidableEq Pid] (cfg : Config) (s : State Pid) (p : Pid) :
    DecidablePred (Disciplined cfg s p) :=
  fun action => by cases action <;> dsimp only [Disciplined] <;> infer_instance

structure Initial {Pid : Type} [DecidableEq Pid] (cfg : Config) (s : State Pid) : Prop where
  cache : (Bio.systemOn cfg.dev Pid Block).Reachable s.bio
  idle : ∀ p, s.bio.pc p = .idle
  pins : ∀ b, s.bio.pins b = 0
  log : GroupCommit.Initial s.log

/-- Any interleaving of the operations of the processes, of their use of the
cache and of the steps of commits. -/
def system (cfg : Config) (Pid : Type) [DecidableEq Pid] :
    TransitionSystem (State Pid) (Pid × Action) Panic where
  initial := Initial cfg
  allowed s label := Disciplined cfg s label.1 label.2
  step s label := s.step cfg label.1 label.2

instance (cfg : Config) {Pid : Type} [DecidableEq Pid] (s : State Pid) (label : Pid × Action) :
    Decidable ((system cfg Pid).allowed s label) :=
  inferInstanceAs (Decidable (Disciplined cfg s label.1 label.2))

end Xv6.LogCache
