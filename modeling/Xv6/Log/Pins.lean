import Xv6.Log.GroupCommit

/-!
# Logged blocks stay in the cache until they are installed

The buffers pinned are exactly those of the logged blocks that `install_trans`
has not yet written home. So `commit` finds each of them in the cache, and
every step it takes keeps to the rules of the cache.
-/

namespace Xv6.LogCache

/-! ## Positions of `commit` -/

namespace CommitPc

/-- The logged blocks whose pins `commit` has not removed. -/
def pinned (block : List Nat) : CommitPc → List Nat
  | logTo _ | logFrom _ _ | logMove _ _ _ | logWrite _ _ _ | logDropFrom _ _ _ | logDropTo _ _ =>
    block
  | headRead erased | headStore erased _ | headWrite erased _ | headDrop erased _ =>
    if erased then [] else block
  | homeLog tail | homeRead tail _ | homeMove tail _ _ | homeWrite tail _ _ | homeUnpin tail _ _ =>
    block.drop tail
  | homeDropLog tail _ _ | homeDrop tail _ => block.drop (tail + 1)
  | clear | finish => []

/-- The loop index is in range, and the log is empty once it was erased. -/
def Bound (block : List Nat) : CommitPc → Prop
  | logTo tail | logFrom tail _ | logMove tail _ _ | logWrite tail _ _ | logDropFrom tail _ _
  | logDropTo tail _ | homeLog tail | homeRead tail _ | homeMove tail _ _ | homeWrite tail _ _
  | homeUnpin tail _ _ | homeDropLog tail _ _ | homeDrop tail _ => tail < block.length
  | headRead erased | headStore erased _ | headWrite erased _ | headDrop erased _ =>
    erased → block = []
  | clear => True
  | finish => block = []

/-- The buffers `commit` has obtained, with their blocks. -/
def held (cfg : Config) (block : List Nat) : CommitPc → List (Fin nbuf × Nat)
  | logFrom tail dst | logDropTo tail dst => [(dst, cfg.start + tail + 1)]
  | logMove tail dst src | logWrite tail dst src | logDropFrom tail dst src =>
    [(src, block.getD tail 0), (dst, cfg.start + tail + 1)]
  | headStore _ buf | headWrite _ buf | headDrop _ buf => [(buf, cfg.start)]
  | homeRead tail lbuf => [(lbuf, cfg.start + tail + 1)]
  | homeMove tail lbuf dbuf | homeWrite tail lbuf dbuf | homeUnpin tail lbuf dbuf
  | homeDropLog tail lbuf dbuf => [(lbuf, cfg.start + tail + 1), (dbuf, block.getD tail 0)]
  | homeDrop tail dbuf => [(dbuf, block.getD tail 0)]
  | logTo _ | headRead _ | homeLog _ | clear | finish => []

/-- The buffer `commit` has changed and not yet written. -/
def dirty : CommitPc → Option (Fin nbuf)
  | logWrite _ dst _ => some dst
  | headWrite _ buf => some buf
  | homeWrite _ _ dbuf => some dbuf
  | _ => none

/-- The buffer `commit` has written and is about to unpin. -/
def flushed : CommitPc → Option (Fin nbuf)
  | homeUnpin _ _ dbuf => some dbuf
  | _ => none

/-- No logged block lies among the slots in use. -/
def Apart (cfg : Config) (block : List Nat) : Prop :=
  ∀ i j, i < block.length → j < block.length → block.getD i 0 ≠ cfg.start + j + 1

variable {cfg : Config} {block : List Nat} {pc : CommitPc}

theorem enter_spec (block : List Nat) :
    (enter block).pinned block = block ∧ (enter block).Bound block ∧
      (enter block).held cfg block = [] ∧ (enter block).flushed = none := by
  unfold enter logLoop
  by_cases positive : block.length > 0
  · simp [positive, pinned, Bound, held, flushed]
  · have empty : block = [] := by simpa using positive
    simp [empty, pinned, Bound, held, flushed]

theorem logLoop_spec (block : List Nat) (tail : Nat) :
    (logLoop block tail).pinned block = block ∧ (logLoop block tail).Bound block ∧
      (logLoop block tail).held cfg block = [] ∧ (logLoop block tail).dirty = none ∧
      (logLoop block tail).flushed = none := by
  unfold logLoop
  split <;> simp_all [pinned, Bound, held, dirty, flushed]

theorem homeLoop_spec (block : List Nat) (tail : Nat) :
    (homeLoop block tail).pinned block = block.drop tail ∧ (homeLoop block tail).Bound block ∧
      (homeLoop block tail).held cfg block = [] ∧ (homeLoop block tail).dirty = none ∧
      (homeLoop block tail).flushed = none := by
  unfold homeLoop
  split <;> simp_all [pinned, Bound, held, dirty, flushed]

theorem bread_spec {blockno : Nat} (called : pc.call cfg block = .bread blockno)
    (bound : pc.Bound block) (b : Fin nbuf) :
    (pc.next block b).pinned block = pc.pinned block ∧ (pc.next block b).Bound block ∧
      (pc.next block b).dirty = none ∧ (pc.next block b).flushed = none ∧ pc.dirty = none ∧
      ∀ entry ∈ (pc.next block b).held cfg block,
        entry = (b, blockno) ∨ entry ∈ pc.held cfg block := by
  cases pc <;> simp only [call, reduceCtorEq, Call.bread.injEq] at called <;> subst called <;>
    simp_all [next, pinned, Bound, held, dirty, flushed]

theorem store_spec {b : Fin nbuf}
    (called : (∃ src, pc.call cfg block = .memmove b src) ∨ pc.call cfg block = .head b)
    (bound : pc.Bound block) :
    (pc.next block b).pinned block = pc.pinned block ∧ (pc.next block b).Bound block ∧
      (pc.next block b).dirty = some b ∧ (pc.next block b).flushed = none ∧ pc.dirty = none ∧
      (pc.next block b).held cfg block = pc.held cfg block ∧
      ∃ blockno, (b, blockno) ∈ pc.held cfg block := by
  rcases called with ⟨src, called⟩ | called <;> cases pc <;>
    simp only [call, reduceCtorEq, Call.memmove.injEq, Call.head.injEq] at called
  all_goals simp_all [next, pinned, Bound, held, dirty, flushed]

theorem bwrite_spec {b : Fin nbuf} (called : pc.call cfg block = .bwrite b)
    (bound : pc.Bound block) :
    (pc.next block b).pinned block = pc.pinned block ∧ (pc.next block b).Bound block ∧
      (pc.next block b).dirty = none ∧
      (∀ c, (pc.next block b).flushed = some c → c = b) ∧ pc.dirty = some b ∧
      (pc.next block b).held cfg block = pc.held cfg block ∧
      ∃ blockno, (b, blockno) ∈ pc.held cfg block := by
  cases pc <;> simp only [call, reduceCtorEq, Call.bwrite.injEq] at called <;> subst called <;>
    simp_all [next, pinned, Bound, held, dirty, flushed]

theorem bunpin_spec {b : Fin nbuf} (called : pc.call cfg block = .bunpin b)
    (bound : pc.Bound block) :
    ∃ blockno, (b, blockno) ∈ pc.held cfg block ∧
      pc.pinned block = blockno :: (pc.next block b).pinned block ∧
      (pc.next block b).Bound block ∧ (pc.next block b).dirty = none ∧
      (pc.next block b).flushed = none ∧ pc.dirty = none ∧ pc.flushed = some b ∧
      (pc.next block b).held cfg block = pc.held cfg block := by
  cases pc <;> simp only [call, reduceCtorEq, Call.bunpin.injEq] at called
  subst called
  case homeUnpin tail lbuf dbuf =>
    have inRange : tail < block.length := bound
    refine ⟨block.getD tail 0, by simp [held], ?_, bound, rfl, rfl, rfl, rfl, rfl⟩
    simp [pinned, next, inRange]

/-- A release drops one of the buffers held; the others hold other blocks. -/
theorem brelse_spec {b : Fin nbuf} (called : pc.call cfg block = .brelse b)
    (bound : pc.Bound block) (apart : Apart cfg block) :
    (pc.next block b).pinned block = pc.pinned block ∧ (pc.next block b).Bound block ∧
      (pc.next block b).dirty = none ∧ (pc.next block b).flushed = none ∧ pc.dirty = none ∧
      ∃ blockno, (b, blockno) ∈ pc.held cfg block ∧
        ∀ entry ∈ (pc.next block b).held cfg block,
          entry ∈ pc.held cfg block ∧ entry.2 ≠ blockno := by
  cases pc <;> simp only [call, reduceCtorEq, Call.brelse.injEq] at called <;> subst called
  case logDropFrom tail dst src =>
    refine ⟨rfl, bound, rfl, rfl, rfl, block.getD tail 0, by simp [held], ?_⟩
    simpa [next, held] using (apart tail tail bound bound).symm
  case logDropTo tail dst =>
    obtain ⟨pins, inRange, none, clean, unflushed⟩ := @logLoop_spec cfg block (tail + 1)
    exact ⟨pins, inRange, clean, unflushed, rfl,
      cfg.start + tail + 1, by simp [held], by simp [next, none]⟩
  case headDrop erased buf =>
    cases erased with
    | true => exact ⟨rfl, bound rfl, rfl, rfl, rfl, cfg.start, by simp [held], by simp [next, held]⟩
    | false =>
      obtain ⟨pins, inRange, none, clean, unflushed⟩ := @homeLoop_spec cfg block 0
      exact ⟨pins, inRange, clean, unflushed, rfl, cfg.start, by simp [held], by simp [next, none]⟩
  case homeDropLog tail lbuf dbuf =>
    refine ⟨rfl, bound, rfl, rfl, rfl, cfg.start + tail + 1, by simp [held], ?_⟩
    simpa [next, held] using apart tail tail bound bound
  case homeDrop tail dbuf =>
    obtain ⟨pins, inRange, none, clean, unflushed⟩ := @homeLoop_spec cfg block (tail + 1)
    exact ⟨pins, inRange, clean, unflushed, rfl,
      block.getD tail 0, by simp [held], by simp [next, none]⟩

end CommitPc

/-! ## Pins and clean buffers -/

section cache

variable {Pid : Type} [DecidableEq Pid] {bio bio' : Bio.State Pid Block} {p q : Pid}
  {action : Bio.Action Block} {dev : Nat} {b : Fin nbuf}

/-- The buffer may be released. -/
def Clean (bio : Bio.State Pid Block) (b : Fin nbuf) : Prop :=
  bio.changed b = false ∨ 0 < bio.pins b

/-- Exactly the given blocks are pinned, each once and in a buffer of its own. -/
structure Pinned (dev : Nat) (bio : Bio.State Pid Block) (blocks : List Nat) : Prop where
  pins : ∀ b, bio.pins b =
    if (bio.buf b).dev = dev ∧ (bio.buf b).blockno ∈ blocks then 1 else 0
  cached : ∀ blockno ∈ blocks, ∃ b, (bio.buf b).dev = dev ∧ (bio.buf b).blockno = blockno

def LoadsClean (bio : Bio.State Pid Block) : Prop :=
  ∀ q b, (bio.pc q).loads b → Clean bio b

structure Holds (dev : Nat) (bio : Bio.State Pid Block) (p : Pid) (entry : Fin nbuf × Nat) :
    Prop where
  holder : bio.holder entry.1 = some p
  dev : (bio.buf entry.1).dev = dev
  blockno : (bio.buf entry.1).blockno = entry.2

/-- The action only names buffers the process holds. -/
def Owned (bio : Bio.State Pid Block) (p : Pid) (action : Bio.Action Block) : Prop :=
  ∀ b, action.target = some b → bio.holder b = some p

variable {blocks : List Nat}

section

omit [DecidableEq Pid]

theorem Clean.of_untouched (clean : Clean bio b) (same : Bio.Untouched bio bio' b) :
    Clean bio' b := by
  simpa only [Clean, same.changed, same.pins] using clean

theorem Holds.of_untouched {entry : Fin nbuf × Nat} (holds : Holds dev bio p entry)
    (same : Bio.Untouched bio bio' entry.1) : Holds dev bio' p entry where
  holder := by rw [same.holder, holds.holder]
  dev := by rw [same.dev, holds.dev]
  blockno := by rw [same.blockno, holds.blockno]

theorem Pinned.one (pinned : Pinned dev bio blocks)
    (sameDev : (bio.buf b).dev = dev) (member : (bio.buf b).blockno ∈ blocks) :
    bio.pins b = 1 := by
  rw [pinned.pins b, if_pos ⟨sameDev, member⟩]

end

variable [Fintype Pid]

/-- Steps that neither pin nor unpin keep the pinned blocks in the cache. -/
theorem Pinned.io (pinned : Pinned dev bio blocks) (inv : Bio.Inv bio)
    (effect : Bio.Effect bio q action bio') (unpinning : action.Unpinning) :
    Pinned dev bio' blocks := by
  constructor
  · intro b
    rw [effect.pins_eq unpinning]
    rcases effect.key_cases b with ⟨sameDev, sameBlock⟩ | ⟨zero, _, absent⟩
    · rw [sameDev, sameBlock]
      exact pinned.pins b
    · -- a recycled buffer had no pins, and its new block is not a pinned one
      rw [(inv.unused zero).1, if_neg]
      rintro ⟨sameDev, member⟩
      obtain ⟨c, dev, blockno⟩ := pinned.cached _ member
      exact absent c ⟨dev.trans sameDev.symm, blockno⟩
  · intro blockno member
    obtain ⟨b, sameDev, rfl⟩ := pinned.cached blockno member
    have one := pinned.one sameDev member
    have counted := inv.count b
    obtain ⟨dev', block'⟩ := effect.keeps_key (b := b) (by omega)
    exact ⟨b, dev'.trans sameDev, block'⟩

theorem same_buffer (inv : Bio.Inv bio) {c : Fin nbuf} (nonzero : dev ≠ 0)
    (left : (bio.buf b).dev = dev) (right : (bio.buf c).dev = dev)
    (same : (bio.buf c).blockno = (bio.buf b).blockno) : c = b :=
  inv.unique c b (right.trans_ne nonzero) (right.trans left.symm) same

theorem Pinned.bpin (pinned : Pinned dev bio blocks) (inv : Bio.Inv bio)
    (nonzero : dev ≠ 0) (sameDev : (bio.buf b).dev = dev)
    (fresh : (bio.buf b).blockno ∉ blocks) (effect : Bio.Effect bio q (.bpin b) bio') :
    Pinned dev bio' (blocks ++ [(bio.buf b).blockno]) := by
  have same : ∀ c, (bio'.buf c).dev = (bio.buf c).dev ∧
      (bio'.buf c).blockno = (bio.buf c).blockno := fun c =>
    (effect.key_cases c).resolve_right (by simp)
  constructor
  · intro c
    rw [(same c).1, (same c).2]
    cases effect with
    | bpin idle =>
      have old := pinned.pins c
      by_cases here : c = b
      · subst here
        simp [sameDev, fresh] at old ⊢
        exact old
      · have different : ¬ ((bio.buf c).dev = dev ∧ (bio.buf c).blockno = (bio.buf b).blockno) :=
          fun key => here (same_buffer inv nonzero sameDev key.1 key.2)
        simp only [Function.update_of_ne here, old, List.mem_append, List.mem_singleton]
        simp only [and_or_left, different, or_false]
  · intro blockno member
    rcases List.mem_append.mp member with member | member
    · obtain ⟨c, dev', block'⟩ := pinned.cached blockno member
      exact ⟨c, (same c).1.trans dev', (same c).2.trans block'⟩
    · rw [List.mem_singleton.mp member]
      exact ⟨b, (same b).1.trans sameDev, (same b).2⟩

theorem Pinned.bunpin {blockno : Nat}
    (pinned : Pinned dev bio (blockno :: blocks)) (inv : Bio.Inv bio) (nonzero : dev ≠ 0)
    (sameDev : (bio.buf b).dev = dev) (sameBlock : (bio.buf b).blockno = blockno)
    (fresh : blockno ∉ blocks) (effect : Bio.Effect bio q (.bunpin b) bio') :
    Pinned dev bio' blocks := by
  have same : ∀ c, (bio'.buf c).dev = (bio.buf c).dev ∧
      (bio'.buf c).blockno = (bio.buf c).blockno := fun c =>
    (effect.key_cases c).resolve_right (by simp)
  constructor
  · intro c
    rw [(same c).1, (same c).2]
    cases effect with
    | bunpin idle =>
      have old := pinned.pins c
      by_cases here : c = b
      · subst here
        simp [sameDev, sameBlock, fresh] at old ⊢
        omega
      · have different : ¬ ((bio.buf c).dev = dev ∧ (bio.buf c).blockno = blockno) :=
          fun key => here (same_buffer inv nonzero sameDev key.1 (key.2.trans sameBlock.symm))
        simp only [Function.update_of_ne here, old, List.mem_cons]
        simp only [and_or_left, different, false_or]
  · intro other member
    obtain ⟨c, dev', block'⟩ := pinned.cached other (List.mem_cons_of_mem _ member)
    exact ⟨c, (same c).1.trans dev', (same c).2.trans block'⟩

/-- A buffer whose lock a process has keeps what the process knows of it while
others act. -/
theorem untouched_of_owned (inv : Bio.Inv bio) (effect : Bio.Effect bio q action bio')
    (owned : Owned bio q action) (held : bio.holder b = some p) (other : p ≠ q) :
    Bio.Untouched bio bio' b := by
  refine effect.untouched inv held fun named => ?_
  rw [owned b named] at held
  exact other (Option.some.inj held).symm

/-- A buffer that is being read is clean: it was free when its lock was taken. -/
theorem LoadsClean.step (clean : LoadsClean bio) (inv : Bio.Inv bio)
    (effect : Bio.Effect bio q action bio') (owned : Owned bio q action) : LoadsClean bio' := by
  intro r b loads
  by_cases self : r = q
  · subst self
    cases effect with
    | @acquiresleep c dev blockno waits free =>
      obtain rfl : c = b := by simpa [Bio.State.setPc, Bio.Pc.loads] using loads
      cases dirty : bio.changed c
      · exact .inl dirty
      · have := (inv.changed c dirty).2
        simp only [free, ne_eq, not_true_eq_false, false_or] at this
        exact .inr this
    | @virtioRead c dev blockno reads invalid =>
      obtain rfl : c = b := by simpa [Bio.State.setPc, Bio.Pc.loads] using loads
      exact clean r c (by simp [reads, Bio.Pc.loads])
    | store idle | bwrite idle | bpin idle | bunpin idle => simp [idle, Bio.Pc.loads] at loads
    | _ => simp [Bio.State.setPc, Bio.Pc.loads] at loads
  · rw [effect.pc_other self] at loads
    have held := inv.locked r b loads
    exact (clean r b loads).of_untouched (untouched_of_owned inv effect owned held self)

end cache

/-! ## What `commit` knows at each call -/

section position

variable {Pid : Type} {cfg : Config} {bio bio' : Bio.State Pid Block} {block : List Nat}
  {p q : Pid} {pc : CommitPc} {action : Bio.Action Block}

structure At (cfg : Config) (bio : Bio.State Pid Block) (block : List Nat) (p : Pid)
    (pc : CommitPc) :
    Prop where
  pinned : Pinned cfg.dev bio (pc.pinned block)
  bound : pc.Bound block
  held : ∀ entry ∈ pc.held cfg block, bio.pc p ≠ .releasing entry.1 →
    Holds cfg.dev bio p entry ∧ (pc.dirty = some entry.1 ∨ Clean bio entry.1)
  distinct : ∀ entry ∈ pc.held cfg block, ∀ other ∈ pc.held cfg block,
    entry.2 ≠ other.2 → entry.1 ≠ other.1
  flushed : ∀ b, pc.flushed = some b → bio.changed b = false
  inside : bio.pc p = .idle ∨
    (∃ blockno b, pc.call cfg block = .bread blockno ∧
      (bio.pc p).request = some (b, cfg.dev, blockno)) ∨
    ∃ b, pc.call cfg block = .brelse b ∧ bio.pc p = .releasing b

theorem flushed_mem_held (cfg : Config) (block : List Nat) {b : Fin nbuf}
    (flushed : pc.flushed = some b) :
    ∃ blockno, (b, blockno) ∈ pc.held cfg block ∧ pc.call cfg block = .bunpin b := by
  cases pc <;> simp [CommitPc.flushed] at flushed
  subst flushed
  exact ⟨_, by simp [CommitPc.held]; exact .inr rfl, rfl⟩

theorem At.idle (at' : At cfg bio block p pc)
    (bread : ∀ blockno, pc.call cfg block ≠ .bread blockno)
    (brelse : ∀ b, pc.call cfg block ≠ .brelse b) : bio.pc p = .idle := by
  rcases at'.inside with idle | ⟨blockno, _, called, _⟩ | ⟨b, called, _⟩
  · exact idle
  · exact absurd called (bread blockno)
  · exact absurd called (brelse b)

theorem At.not_releasing (at' : At cfg bio block p pc)
    (brelse : ∀ b, pc.call cfg block ≠ .brelse b) (b : Fin nbuf) :
    bio.pc p ≠ .releasing b := by
  intro releasing
  rcases at'.inside with idle | ⟨_, _, _, request⟩ | ⟨c, called, _⟩
  · simp [idle] at releasing
  · simp [releasing, Bio.Pc.request] at request
  · exact brelse c called

variable [Fintype Pid] [DecidableEq Pid]

section

variable (at' : At cfg bio block p pc) (inv : Bio.Inv bio)

include at' inv

theorem At.other (effect : Bio.Effect bio q action bio') (other : p ≠ q)
    (unpinning : action.Unpinning) (owned : Owned bio q action) : At cfg bio' block p pc := by
  have same := effect.pc_other other
  have kept : ∀ entry ∈ pc.held cfg block, bio.pc p ≠ .releasing entry.1 →
      Bio.Untouched bio bio' entry.1 := fun entry member still =>
    untouched_of_owned inv effect owned (at'.held entry member still).1.holder other
  refine ⟨at'.pinned.io inv effect unpinning, at'.bound, ?_, at'.distinct, ?_, ?_⟩
  · intro entry member still
    rw [same] at still
    obtain ⟨holds, clean⟩ := at'.held entry member still
    have untouched := kept entry member still
    exact ⟨holds.of_untouched untouched, clean.imp id fun clean => clean.of_untouched untouched⟩
  · intro b flushed
    obtain ⟨blockno, member, called⟩ := flushed_mem_held cfg block flushed
    have still := at'.not_releasing (by simp [called]) b
    rw [(kept (b, blockno) member still).changed]
    exact at'.flushed b flushed
  · rw [same]
    exact at'.inside

theorem At.breadStep (effect : Bio.Effect bio p action bio') {blockno : Nat} {b : Fin nbuf}
    (called : pc.call cfg block = .bread blockno) (untargeted : action.target = none)
    (unpinning : action.Unpinning) (request : (bio'.pc p).request = some (b, cfg.dev, blockno)) :
    At cfg bio' block p pc := by
  have still := at'.not_releasing (by simp [called])
  refine ⟨at'.pinned.io inv effect unpinning, at'.bound, ?_, at'.distinct, ?_,
    .inr (.inl ⟨blockno, b, called, request⟩)⟩
  · intro entry member _
    obtain ⟨holds, clean⟩ := at'.held entry member (still _)
    have untouched := effect.untouched inv holds.holder (by simp [untargeted])
    exact ⟨holds.of_untouched untouched, clean.imp id fun clean => clean.of_untouched untouched⟩
  · intro c flushed
    obtain ⟨_, _, called'⟩ := flushed_mem_held cfg block flushed
    simp [called] at called'

theorem At.breadReturn (loadsClean : LoadsClean bio) (effect : Bio.Effect bio p .breadReturn bio')
    {blockno : Nat} {b : Fin nbuf} (called : pc.call cfg block = .bread blockno)
    (loads : (bio.pc p).loads b) (request : (bio.pc p).request = some (b, cfg.dev, blockno)) :
    At cfg bio' block p (pc.next block b) := by
  have still := at'.not_releasing (by simp [called])
  obtain ⟨pins, bound, _, unflushed, notDirty, grown⟩ := CommitPc.bread_spec called at'.bound b
  obtain ⟨_, sameDev, sameBlock⟩ := inv.keyed p b cfg.dev blockno request
  have fresh : Holds cfg.dev bio p (b, blockno) := ⟨inv.locked p b loads, sameDev, sameBlock⟩
  have before : ∀ entry ∈ (pc.next block b).held cfg block,
      Holds cfg.dev bio p entry ∧ Clean bio entry.1 := by
    intro entry member
    rcases grown entry member with rfl | old
    · exact ⟨fresh, loadsClean p b loads⟩
    · obtain ⟨holds, clean⟩ := at'.held entry old (still _)
      exact ⟨holds, clean.resolve_left (by simp [notDirty])⟩
  constructor
  · rw [pins]
    exact at'.pinned.io inv effect trivial
  · exact bound
  · intro entry member _
    obtain ⟨holds, clean⟩ := before entry member
    have untouched := effect.untouched inv holds.holder (by simp [Bio.Action.target])
    exact ⟨holds.of_untouched untouched, .inr (clean.of_untouched untouched)⟩
  · -- different blocks are in different buffers
    intro entry member other member' different same
    have left := (before entry member).1.blockno
    rw [same, (before other member').1.blockno] at left
    exact different left.symm
  · simp [unflushed]
  · left
    cases effect <;> simp [Bio.State.setPc]

theorem At.store {b : Fin nbuf} {data : Block} (effect : Bio.Effect bio p (.store b data) bio')
    (called : (∃ src, pc.call cfg block = .memmove b src) ∨ pc.call cfg block = .head b) :
    At cfg bio' block p (pc.next block b) := by
  have still := at'.not_releasing (by rcases called with ⟨_, called⟩ | called <;> simp [called])
  obtain ⟨pins, bound, dirty, unflushed, notDirty, same, _⟩ := CommitPc.store_spec called at'.bound
  have pinned := at'.pinned.io inv effect trivial
  cases effect with
  | store idle _ =>
    refine ⟨pins ▸ pinned, bound, ?_, same ▸ at'.distinct, by simp [unflushed], .inl idle⟩
    intro entry member _
    rw [same] at member
    obtain ⟨holds, clean⟩ := at'.held entry member (still _)
    by_cases here : entry.1 = b
    · refine ⟨⟨holds.holder, ?_, ?_⟩, .inl (by rw [dirty, here])⟩
      · simpa [Bio.State.buf, here] using holds.dev
      · simpa [Bio.State.buf, here] using holds.blockno
    · refine ⟨⟨holds.holder, ?_, ?_⟩, .inr ?_⟩
      · simpa [Bio.State.buf, here] using holds.dev
      · simpa [Bio.State.buf, here] using holds.blockno
      · simpa [Clean, here, notDirty] using clean

theorem At.bwrite {b : Fin nbuf}
    (effect : Bio.Effect bio p (.bwrite b) bio') (called : pc.call cfg block = .bwrite b) :
    At cfg bio' block p (pc.next block b) := by
  have still := at'.not_releasing (by simp [called])
  obtain ⟨pins, bound, _, flushed, dirty, same, _⟩ := CommitPc.bwrite_spec called at'.bound
  have pinned := at'.pinned.io inv effect trivial
  cases effect with
  | bwrite idle _ =>
    refine ⟨pins ▸ pinned, bound, ?_, same ▸ at'.distinct, ?_, .inl idle⟩
    · intro entry member _
      rw [same] at member
      obtain ⟨holds, clean⟩ := at'.held entry member (still _)
      refine ⟨⟨holds.holder, holds.dev, holds.blockno⟩, .inr ?_⟩
      by_cases here : entry.1 = b
      · exact .inl (by simp [here])
      · have clean := clean.resolve_left (by rw [dirty]; simpa using Ne.symm here)
        simpa [Clean, here] using clean
    · intro c is
      simp [flushed c is]

theorem At.bunpin (nonzero : cfg.dev ≠ 0) (nodup : block.Nodup) {b : Fin nbuf}
    (effect : Bio.Effect bio p (.bunpin b) bio') (called : pc.call cfg block = .bunpin b) :
    At cfg bio' block p (pc.next block b) := by
  have still := at'.not_releasing (by simp [called])
  obtain ⟨blockno, member, first, bound, _, unflushed, notDirty, flushed, same⟩ :=
    CommitPc.bunpin_spec called at'.bound
  have written := at'.flushed b flushed
  obtain ⟨holds, _⟩ := at'.held _ member (still b)
  have fresh : blockno ∉ (pc.next block b).pinned block := by
    have distinct : (pc.pinned block).Nodup := by
      cases pc <;> simp only [CommitPc.call, reduceCtorEq] at called
      exact nodup.sublist (List.drop_sublist _ _)
    rw [first] at distinct
    exact (List.nodup_cons.mp distinct).1
  have pinned := (first ▸ at'.pinned).bunpin inv nonzero holds.dev holds.blockno fresh effect
  have others : ∀ c, c ≠ b → bio.holder c = some p → Bio.Untouched bio bio' c :=
    fun c other held => effect.untouched inv held (by simpa [Bio.Action.target] using other.symm)
  have key := (effect.key_cases b).resolve_right (by simp)
  cases effect with
  | bunpin idle =>
    refine ⟨pinned, bound, ?_, same ▸ at'.distinct, by simp [unflushed], .inl idle⟩
    intro entry member' _
    rw [same] at member'
    obtain ⟨holds, clean⟩ := at'.held entry member' (still _)
    by_cases here : entry.1 = b
    · refine ⟨⟨holds.holder, ?_, ?_⟩, .inr (.inl (by rw [here]; exact written))⟩
      · rw [here, key.1, ← here]; exact holds.dev
      · rw [here, key.2, ← here]; exact holds.blockno
    · have untouched := others entry.1 here holds.holder
      refine ⟨holds.of_untouched untouched, .inr ?_⟩
      exact (clean.resolve_left (by simp [notDirty])).of_untouched untouched

theorem At.brelse {b : Fin nbuf}
    (effect : Bio.Effect bio p (.brelse b) bio') (called : pc.call cfg block = .brelse b) :
    At cfg bio' block p pc := by
  have pinned := at'.pinned.io inv effect trivial
  have others : ∀ c, c ≠ b → bio.holder c = some p → Bio.Untouched bio bio' c :=
    fun c other held => effect.untouched inv held (by simpa [Bio.Action.target] using other.symm)
  cases effect with
  | brelse idle _ =>
    refine ⟨pinned, at'.bound, ?_, at'.distinct, at'.flushed,
      .inr (.inr ⟨b, called, by simp [Bio.State.setPc]⟩)⟩
    intro entry member still
    have other : entry.1 ≠ b := by simpa [Bio.State.setPc, eq_comm] using still
    obtain ⟨holds, clean⟩ := at'.held entry member (by simp [idle])
    have untouched := others entry.1 other holds.holder
    exact ⟨holds.of_untouched untouched, clean.imp id fun clean => clean.of_untouched untouched⟩

theorem At.brelseDrop (apart : CommitPc.Apart cfg block) {b : Fin nbuf}
    (effect : Bio.Effect bio p .brelseDrop bio') (called : pc.call cfg block = .brelse b)
    (releasing : bio.pc p = .releasing b) : At cfg bio' block p (pc.next block b) := by
  obtain ⟨pins, bound, _, unflushed, notDirty, blockno, member, shrunk⟩ :=
    CommitPc.brelse_spec called at'.bound apart
  have pinned := at'.pinned.io inv effect trivial
  refine ⟨pins ▸ pinned, bound, ?_, ?_, by simp [unflushed], .inl ?_⟩
  · intro entry member' _
    obtain ⟨old, differs⟩ := shrunk entry member'
    have other : entry.1 ≠ b := at'.distinct entry old (b, blockno) member differs
    obtain ⟨holds, clean⟩ := at'.held entry old (by simpa [releasing] using other.symm)
    have untouched := effect.untouched inv holds.holder (by simp [Bio.Action.target])
    refine ⟨holds.of_untouched untouched, .inr ?_⟩
    exact (clean.resolve_left (by simp [notDirty])).of_untouched untouched
  · intro entry left other right
    exact at'.distinct entry (shrunk entry left).1 other (shrunk other right).1
  · cases effect
    simp [Bio.State.setPc]

end

end position

end Xv6.LogCache
