import Xv6.Param
import Xv6.Library.Ring
import Xv6.Library.Transition

/-!
# The buffer cache

`kernel/bio.c`: a fixed array of buffers on one doubly linked list, most
recently released first. Each critical section under `bcache.lock`, each
sleep-lock operation and each disk transfer is one step of a process.

`pins`, `changed` and `stored` are history variables: the code does not have
them, and no step reads them.
-/

namespace Xv6.Bio

open Function

inductive Panic where
  | bgetNoBuffers
  | bwrite
  | brelse
  deriving DecidableEq

structure Buf (Data : Type) where
  valid : Bool
  dev : Nat
  blockno : Nat
  refcnt : Int
  data : Data

/-- `bcache`: the buffers and the list through `bcache.head`, which is the
node `none`. -/
structure Bcache (Data : Type) where
  buf : Fin nbuf → Buf Data
  links : Links (Fin nbuf)

namespace Bcache

variable {Data : Type}

def modify (cache : Bcache Data) (b : Fin nbuf) (f : Buf Data → Buf Data) : Bcache Data :=
  { cache with buf := update cache.buf b (f (cache.buf b)) }

/-- `binit`, on zeroed memory: every buffer in turn goes right behind the head. -/
def binit (zeroes : Data) : Bcache Data where
  buf _ := ⟨false, 0, 0, 0, zeroes⟩
  links := (List.finRange nbuf).foldl Links.pushFront ⟨fun _ => none, fun _ => none⟩

/-- The critical section of `bget`: look the block up from the head on, else
recycle the least recently used buffer nobody refers to. -/
def bget (cache : Bcache Data) (dev blockno : Nat) :
    Outcome (Bcache Data × Fin nbuf) Panic :=
  match Links.scan cache.links.next
      (fun b => decide ((cache.buf b).dev = dev ∧ (cache.buf b).blockno = blockno))
      nbuf (cache.links.next none) with
  | .found b => .next (cache.modify b fun buf => { buf with refcnt := buf.refcnt + 1 }, b)
  | .unfinished => .blocked
  | .absent =>
    match Links.scan cache.links.prev (fun b => decide ((cache.buf b).refcnt = 0))
        nbuf (cache.links.prev none) with
    | .found b =>
      .next (cache.modify b fun buf =>
        { buf with dev := dev, blockno := blockno, valid := false, refcnt := 1 }, b)
    | .unfinished => .blocked
    | .absent => .fault .bgetNoBuffers

def brelse (cache : Bcache Data) (b : Fin nbuf) : Bcache Data :=
  let cache := cache.modify b fun buf => { buf with refcnt := buf.refcnt - 1 }
  if (cache.buf b).refcnt = 0 then
    { cache with links := (cache.links.unlink b).pushFront b }
  else
    cache

def bpin (cache : Bcache Data) (b : Fin nbuf) : Bcache Data :=
  cache.modify b fun buf => { buf with refcnt := buf.refcnt + 1 }

def bunpin (cache : Bcache Data) (b : Fin nbuf) : Bcache Data :=
  cache.modify b fun buf => { buf with refcnt := buf.refcnt - 1 }

end Bcache

/-- Where a process is inside `bread` or `brelse`. A process that is `idle`
holds exactly the buffers whose sleep lock it has. -/
inductive Pc where
  | idle
  /-- `bget` chose the buffer and is about to acquire its sleep lock. -/
  | waiting (b : Fin nbuf) (dev blockno : Nat)
  /-- The sleep lock is held and `valid` is about to be tested. -/
  | reading (b : Fin nbuf) (dev blockno : Nat)
  /-- The disk transfer is done and `valid` is about to be set. -/
  | filled (b : Fin nbuf) (dev blockno : Nat)
  /-- `brelse` gave up the sleep lock and has not yet dropped its reference. -/
  | releasing (b : Fin nbuf)
  deriving DecidableEq

structure State (Pid Data : Type) where
  cache : Bcache Data
  /-- The holder of each buffer's sleep lock. -/
  holder : Fin nbuf → Option Pid
  disk : Nat → Data
  pc : Pid → Pc
  /-- How many times each buffer is pinned. -/
  pins : Fin nbuf → Nat
  /-- Changed by a process and not written since. -/
  changed : Fin nbuf → Bool
  /-- The contents most recently stored by a holder of each block. -/
  stored : Nat → Nat → Option Data

inductive Action (Data : Type) where
  | bget (dev blockno : Nat)
  | acquiresleep
  | virtioRead
  | breadReturn
  | store (b : Fin nbuf) (data : Data)
  | bwrite (b : Fin nbuf)
  | brelse (b : Fin nbuf)
  | brelseDrop
  | bpin (b : Fin nbuf)
  | bunpin (b : Fin nbuf)

namespace State

variable {Pid Data : Type} [DecidableEq Pid]

abbrev buf (s : State Pid Data) (b : Fin nbuf) : Buf Data := s.cache.buf b

def setPc (s : State Pid Data) (p : Pid) (pc : Pc) : State Pid Data :=
  { s with pc := update s.pc p pc }

/-- What a holder last stored in a block, or else what the disk has. -/
def current (s : State Pid Data) (dev blockno : Nat) : Data :=
  (s.stored dev blockno).getD (s.disk blockno)

/-- One step of process `p`. The disk is addressed by block number alone, as
in `virtio_disk_rw`. -/
def step (s : State Pid Data) (p : Pid) : Action Data → Outcome (State Pid Data) Panic
  | .bget dev blockno =>
    match s.pc p with
    | .idle =>
      match s.cache.bget dev blockno with
      | .next (cache, b) => .next ({ s with cache }.setPc p (.waiting b dev blockno))
      | .blocked => .blocked
      | .fault reason => .fault reason
    | _ => .blocked
  | .acquiresleep =>
    match s.pc p with
    | .waiting b dev blockno =>
      if s.holder b = none then
        .next ({ s with holder := update s.holder b (some p) }.setPc p
          (.reading b dev blockno))
      else
        .blocked
    | _ => .blocked
  | .virtioRead =>
    match s.pc p with
    | .reading b dev blockno =>
      if (s.buf b).valid then
        .blocked
      else
        .next ({ s with cache := s.cache.modify b fun buf =>
          { buf with data := s.disk buf.blockno } }.setPc p (.filled b dev blockno))
    | _ => .blocked
  | .breadReturn =>
    match s.pc p with
    | .reading b _ _ => if (s.buf b).valid then .next (s.setPc p .idle) else .blocked
    | .filled b _ _ =>
      .next ({ s with cache := s.cache.modify b fun buf =>
        { buf with valid := true } }.setPc p .idle)
    | _ => .blocked
  | .store b data =>
    if s.pc p = .idle ∧ s.holder b = some p then
      .next { s with
        cache := s.cache.modify b fun buf => { buf with data }
        changed := update s.changed b true
        stored := update s.stored (s.buf b).dev
          (update (s.stored (s.buf b).dev) (s.buf b).blockno (some data)) }
    else
      .blocked
  | .bwrite b =>
    if s.pc p = .idle then
      if s.holder b = some p then
        .next { s with
          disk := update s.disk (s.buf b).blockno (s.buf b).data
          changed := update s.changed b false }
      else
        .fault .bwrite
    else
      .blocked
  | .brelse b =>
    if s.pc p = .idle then
      if s.holder b = some p then
        .next ({ s with holder := update s.holder b none }.setPc p (.releasing b))
      else
        .fault .brelse
    else
      .blocked
  | .brelseDrop =>
    match s.pc p with
    | .releasing b => .next ({ s with cache := s.cache.brelse b }.setPc p .idle)
    | _ => .blocked
  | .bpin b =>
    if s.pc p = .idle then
      .next { s with
        cache := s.cache.bpin b
        pins := update s.pins b (s.pins b + 1) }
    else
      .blocked
  | .bunpin b =>
    if s.pc p = .idle then
      .next { s with
        cache := s.cache.bunpin b
        pins := update s.pins b (s.pins b - 1) }
    else
      .blocked

end State

/-- How callers use the cache: blocks have a nonzero device, only the holder
of a buffer pins, writes or releases it, a changed buffer is released only
after it was written or while it is pinned, and the last pin of a changed
buffer is removed only by or under a holder. -/
def Disciplined {Pid Data : Type} (s : State Pid Data) (p : Pid) : Action Data → Prop
  | .bget dev _ => dev ≠ 0
  | .bwrite b => s.holder b = some p
  | .brelse b => s.holder b = some p ∧ (s.changed b = false ∨ 0 < s.pins b)
  | .bpin b => s.holder b = some p
  | .bunpin b => 0 < s.pins b ∧ (1 < s.pins b ∨ s.changed b = false ∨ s.holder b ≠ none)
  | _ => True

instance {Pid Data : Type} [DecidableEq Pid] (s : State Pid Data) (p : Pid) :
    DecidablePred (Disciplined s p) :=
  fun action => by cases action <;> dsimp only [Disciplined] <;> infer_instance

/-- Start: `binit` has run, no process uses the cache. -/
def Initial {Pid Data : Type} (s : State Pid Data) : Prop :=
  (∃ zeroes, s.cache = .binit zeroes) ∧ (∀ b, s.holder b = none) ∧ (∀ p, s.pc p = .idle) ∧
    (∀ b, s.pins b = 0) ∧ (∀ b, s.changed b = false) ∧ ∀ dev blockno, s.stored dev blockno = none

def system (Pid Data : Type) [DecidableEq Pid] :
    TransitionSystem (State Pid Data) (Pid × Action Data) Panic where
  initial := Initial
  allowed s label := Disciplined s label.1 label.2
  step s label := s.step label.1 label.2

instance {Pid Data : Type} [DecidableEq Pid] (s : State Pid Data) (label : Pid × Action Data) :
    Decidable ((system Pid Data).allowed s label) :=
  inferInstanceAs (Decidable (Disciplined s label.1 label.2))

end Xv6.Bio
