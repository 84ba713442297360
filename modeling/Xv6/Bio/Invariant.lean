import Xv6.Bio.Cache
import Xv6.Library.Counting

/-!
# The joint invariant of the buffer cache

A buffer's reference count is the number of processes that obtained it or wait
for it, plus its pins. So a recycled buffer is nobody's, and the block it held
is either on the disk already or was never changed.
-/

namespace Xv6.Bio

open List
open State
open Function

variable {Pid Data : Type} [Fintype Pid] [DecidableEq Pid]

/-- The process refers to `b` without holding its sleep lock: it waits for the
lock, or it has just given the lock up. -/
def Pc.refers : Pc → Fin nbuf → Bool
  | .waiting b _ _, c => b = c
  | .releasing b, c => b = c
  | _, _ => false

def Pc.loads : Pc → Fin nbuf → Bool
  | .reading b _ _, c => b = c
  | .filled b _ _, c => b = c
  | _, _ => false

def Pc.request : Pc → Option (Fin nbuf × Nat × Nat)
  | .waiting b dev blockno => some (b, dev, blockno)
  | .reading b dev blockno => some (b, dev, blockno)
  | .filled b dev blockno => some (b, dev, blockno)
  | _ => none

namespace State

omit [Fintype Pid] in
/-- The share of process `p` in the reference count of `b`. -/
def uses (s : State Pid Data) (p : Pid) (b : Fin nbuf) : Nat :=
  (if s.holder b = some p then 1 else 0) + (if (s.pc p).refers b then 1 else 0)

/-- The number of processes that obtained `b` or wait for its sleep lock. -/
def users (s : State Pid Data) (b : Fin nbuf) : Nat := ∑ p, s.uses p b

end State

structure Inv (s : State Pid Data) : Prop where
  ring : ∃ order : List (Fin nbuf), order.Nodup ∧ (∀ b, b ∈ order) ∧ s.cache.links.Ring order
  unique : ∀ b c, (s.buf b).dev ≠ 0 → (s.buf b).dev = (s.buf c).dev →
    (s.buf b).blockno = (s.buf c).blockno → b = c
  count : ∀ b, (s.buf b).refcnt = s.users b + s.pins b
  keyed : ∀ p b dev blockno, (s.pc p).request = some (b, dev, blockno) →
    dev ≠ 0 ∧ (s.buf b).dev = dev ∧ (s.buf b).blockno = blockno
  locked : ∀ p b, (s.pc p).loads b → s.holder b = some p
  loaded : ∀ p b, s.holder b = some p → (s.buf b).valid ∨ (s.pc p).loads b
  unfilled : ∀ p b dev blockno, s.pc p = .filled b dev blockno → (s.buf b).valid = false
  named : ∀ b, (s.buf b).valid → (s.buf b).dev ≠ 0
  pinned : ∀ b, 0 < s.pins b → (s.buf b).valid
  changed : ∀ b, s.changed b → (s.buf b).valid ∧ (s.holder b ≠ none ∨ 0 < s.pins b)

/-! ## The list operations -/

variable {order : List (Fin nbuf)}

omit [Fintype Pid] [DecidableEq Pid] in
/-- The two loops of `bget`, over the order of the list. -/
theorem Bcache.bget_eq {cache : Bcache Data} {dev blockno : Nat} (nodup : order.Nodup)
    (ring : cache.links.Ring order) : cache.bget dev blockno =
      match order.find? fun b =>
        decide ((cache.buf b).dev = dev ∧ (cache.buf b).blockno = blockno) with
      | some b => .next (cache.modify b fun buf => { buf with refcnt := buf.refcnt + 1 }, b)
      | none =>
        match order.reverse.find? fun b => decide ((cache.buf b).refcnt = 0) with
        | some b => .next (cache.modify b fun buf =>
            { buf with dev := dev, blockno := blockno, valid := false, refcnt := 1 }, b)
        | none => .fault .bgetNoBuffers := by
  have length : order.length ≤ nbuf := by
    simpa using nodup.length_le_card
  rw [Bcache.bget, Links.Segment.scan_next ring _ length, Links.Segment.scan_prev ring _ length]
  simp only [Links.scanList]
  cases order.find? fun b => decide ((cache.buf b).dev = dev ∧ (cache.buf b).blockno = blockno) with
  | some b => rfl
  | none => cases order.reverse.find? fun b => decide ((cache.buf b).refcnt = 0) <;> rfl

omit [Fintype Pid] [DecidableEq Pid] in
theorem Bcache.bget_cases {cache cache' : Bcache Data} {dev blockno : Nat} {b : Fin nbuf}
    (nodup : order.Nodup) (complete : ∀ b, b ∈ order)
    (ring : cache.links.Ring order) (got : cache.bget dev blockno = .next (cache', b)) :
    ((cache.buf b).dev = dev ∧ (cache.buf b).blockno = blockno ∧
        cache' = cache.modify b fun buf => { buf with refcnt := buf.refcnt + 1 }) ∨
      ((∀ c, ¬ ((cache.buf c).dev = dev ∧ (cache.buf c).blockno = blockno)) ∧
        (cache.buf b).refcnt = 0 ∧
        cache' = cache.modify b fun buf =>
          { buf with dev := dev, blockno := blockno, valid := false, refcnt := 1 }) := by
  rw [Bcache.bget_eq nodup ring] at got
  split at got
  next c hit =>
    cases got
    have key := find?_some hit
    rw [decide_eq_true_eq] at key
    exact .inl ⟨key.1, key.2, rfl⟩
  next missed =>
    split at got
    next c free =>
      cases got
      refine .inr ⟨fun c => ?_, ?_, rfl⟩
      · simpa using find?_eq_none.mp missed c (complete c)
      · simpa using find?_some free
    next => cases got

theorem binit_ring (zeroes : Data) :
    ∃ order : List (Fin nbuf), order.Nodup ∧ (∀ b, b ∈ order) ∧
      (Bcache.binit zeroes).links.Ring order := by
  have push : ∀ (l done : List (Fin nbuf)) (links : Links (Fin nbuf)), links.Ring done →
      (l.reverse ++ done).Nodup → (l.foldl Links.pushFront links).Ring (l.reverse ++ done) := by
    intro l
    induction l with
    | nil => intro done links ring _; exact ring
    | cons b l ih =>
      intro done links ring nodup
      rw [reverse_cons, append_assoc, singleton_append] at nodup ⊢
      exact ih (b :: done) (links.pushFront b) (ring.pushFront (nodup_append.mp nodup).2.1) nodup
  refine ⟨(finRange nbuf).reverse, ?_, ?_, ?_⟩
  · exact nodup_reverse.mpr (nodup_finRange nbuf)
  · simp
  · simpa [Bcache.binit] using push (finRange nbuf) [] _ Links.ring_nil
      (by simpa using nodup_finRange nbuf)

/-! ## Reference counts -/

omit [Fintype Pid] [DecidableEq Pid] in
@[simp]
theorem Bcache.modify_buf (cache : Bcache Data) (b c : Fin nbuf) (f : Buf Data → Buf Data) :
    (cache.modify b f).buf c = if c = b then f (cache.buf b) else cache.buf c := by
  simp only [Bcache.modify, update_apply]

theorem users_change {s s' : State Pid Data} (p : Pid) (b : Fin nbuf)
    (same : ∀ q, q ≠ p → s'.uses q b = s.uses q b) :
    s'.users b + s.uses p b = s.users b + s'.uses p b :=
  sum_change p same

theorem uses_eq_zero {s : State Pid Data} {b : Fin nbuf} (none : s.users b = 0) (p : Pid) :
    s.uses p b = 0 :=
  Finset.sum_eq_zero_iff.mp none p (Finset.mem_univ p)

theorem Inv.unused {s : State Pid Data} (inv : Inv s) {b : Fin nbuf} (zero : (s.buf b).refcnt = 0) :
    s.pins b = 0 ∧ s.holder b = none ∧ (∀ p, (s.pc p).refers b = false) ∧
      (∀ p, (s.pc p).loads b = false) ∧ s.changed b = false := by
  have count := inv.count b
  have idle : ∀ p, s.uses p b = 0 := uses_eq_zero (by omega)
  have free : s.holder b = none := by
    cases held : s.holder b with
    | none => rfl
    | some p => have := idle p; simp [uses, held] at this
  refine ⟨by omega, free, ?_, ?_, ?_⟩
  · intro p
    have := idle p
    simp only [uses] at this
    cases refers : (s.pc p).refers b
    · rfl
    · simp [refers] at this
  · intro p
    cases loads : (s.pc p).loads b
    · rfl
    · have := inv.locked p b loads
      simp [free] at this
  · cases changed : s.changed b
    · rfl
    · have := (inv.changed b changed).2
      simp only [free, ne_eq, not_true_eq_false, false_or] at this
      omega

/-! ## Steps change one buffer and one process -/

def Pc.Only (pc : Pc) (b : Fin nbuf) : Prop :=
  pc = .idle ∨ (∃ dev blockno, pc = .waiting b dev blockno ∨ pc = .reading b dev blockno ∨
    pc = .filled b dev blockno) ∨ pc = .releasing b

theorem Pc.Only.elsewhere {pc : Pc} {b c : Fin nbuf} (only : pc.Only b) (different : c ≠ b) :
    pc.refers c = false ∧ pc.loads c = false ∧ ∀ dev blockno,
      pc.request ≠ some (c, dev, blockno) := by
  rcases only with rfl | ⟨_, _, rfl | rfl | rfl⟩ | rfl <;>
    simp [Pc.refers, Pc.loads, Pc.request, different.symm]

/-- From `s` to `s'` only buffer `b` and process `p` change, and `p` is busy
with `b` only. -/
structure Local (s s' : State Pid Data) (p : Pid) (b : Fin nbuf) : Prop where
  buf : ∀ c, c ≠ b → s'.buf c = s.buf c
  holder : ∀ c, c ≠ b → s'.holder c = s.holder c
  pins : ∀ c, c ≠ b → s'.pins c = s.pins c
  changed : ∀ c, c ≠ b → s'.changed c = s.changed c
  pc : ∀ q, q ≠ p → s'.pc q = s.pc q
  before : (s.pc p).Only b
  after : (s'.pc p).Only b
  /-- The sleep lock passes between `p` and nobody. -/
  handover : ∀ q, q ≠ p → (s'.holder b = some q ↔ s.holder b = some q)

section steps

variable {s s' : State Pid Data} {p : Pid} {b : Fin nbuf} {dev blockno : Nat}

omit [Fintype Pid] in
theorem Local.pc_agrees (step : Local s s' p b) {c : Fin nbuf} (different : c ≠ b) (q : Pid) :
    (s'.pc q).refers c = (s.pc q).refers c ∧ (s'.pc q).loads c = (s.pc q).loads c ∧
      ∀ dev blockno, (s'.pc q).request = some (c, dev, blockno) ↔
        (s.pc q).request = some (c, dev, blockno) := by
  by_cases here : q = p
  · subst here
    obtain ⟨refers, loads, request⟩ := step.before.elsewhere different
    obtain ⟨refers', loads', request'⟩ := step.after.elsewhere different
    simp [refers, refers', loads, loads', request, request']
  · rw [step.pc q here]
    simp

theorem Local.users_elsewhere (step : Local s s' p b) {c : Fin nbuf} (different : c ≠ b) :
    s'.users c = s.users c := by
  apply Finset.sum_congr rfl
  intro q _
  simp only [uses, step.holder c different, (step.pc_agrees different q).1]

theorem Local.users_here (step : Local s s' p b) :
    s'.users b + s.uses p b = s.users b + s'.uses p b := by
  apply users_change
  intro q other
  simp only [uses, step.pc q other, step.handover q other]

/-- The invariant after a local step, from what is true of the one buffer and
the one process that changed. -/
theorem Inv.of_local (inv : Inv s) (step : Local s s' p b)
    (ring : ∃ order : List (Fin nbuf), order.Nodup ∧ (∀ b, b ∈ order) ∧ s'.cache.links.Ring order)
    (key : ((s'.buf b).dev = (s.buf b).dev ∧ (s'.buf b).blockno = (s.buf b).blockno) ∨
      ((∀ c, ¬ ((s.buf c).dev = (s'.buf b).dev ∧ (s.buf c).blockno = (s'.buf b).blockno)) ∧
        (s.buf b).refcnt = 0))
    (count : s'.users b + s.uses p b = s.users b + s'.uses p b →
      (s.buf b).refcnt = s.users b + s.pins b → (s'.buf b).refcnt = s'.users b + s'.pins b)
    (keyed : ∀ dev blockno, (s'.pc p).request = some (b, dev, blockno) → dev ≠ 0 ∧
      (s'.buf b).dev = dev ∧ (s'.buf b).blockno = blockno)
    (locked : (s'.pc p).loads b → s'.holder b = some p)
    (loaded : ∀ q, s'.holder b = some q → (s'.buf b).valid ∨ (s'.pc q).loads b)
    (unfilled : ∀ q dev blockno, s'.pc q = .filled b dev blockno → (s'.buf b).valid = false)
    (named : (s'.buf b).valid → (s'.buf b).dev ≠ 0) (pinned : 0 < s'.pins b → (s'.buf b).valid)
    (changed : s'.changed b → (s'.buf b).valid ∧ (s'.holder b ≠ none ∨ 0 < s'.pins b)) :
    Inv s' := by
  constructor
  · exact ring
  · -- a new key was carried by no other buffer
    intro c d nonzero sameDev sameBlock
    by_cases hc : c = b <;> by_cases hd : d = b
    · rw [hc, hd]
    · subst hc
      rw [step.buf d hd] at sameDev sameBlock
      rcases key with ⟨dev, blockno⟩ | ⟨fresh, _⟩
      · exact inv.unique c d (by rwa [← dev]) (by rw [← dev, sameDev])
          (by rw [← blockno, sameBlock])
      · exact absurd ⟨sameDev.symm, sameBlock.symm⟩ (fresh d)
    · subst hd
      rw [step.buf c hc] at nonzero sameDev sameBlock
      rcases key with ⟨dev, blockno⟩ | ⟨fresh, _⟩
      · exact inv.unique c d nonzero (by rw [sameDev, dev]) (by rw [sameBlock, blockno])
      · exact absurd ⟨sameDev, sameBlock⟩ (fresh c)
    · rw [step.buf c hc] at nonzero sameDev sameBlock
      rw [step.buf d hd] at sameDev sameBlock
      exact inv.unique c d nonzero sameDev sameBlock
  · intro c
    by_cases here : c = b
    · rw [here]
      exact count step.users_here (inv.count b)
    · rw [step.buf c here, step.users_elsewhere here, step.pins c here]
      exact inv.count c
  · intro q c dev blockno request
    by_cases here : c = b
    · subst here
      by_cases self : q = p
      · subst self
        exact keyed dev blockno request
      · rw [step.pc q self] at request
        have old := inv.keyed q c dev blockno request
        rcases key with ⟨sameDev, sameBlock⟩ | ⟨_, zero⟩
        · rw [sameDev, sameBlock]
          exact old
        · obtain ⟨_, _, refers, loads, _⟩ := inv.unused zero
          have := refers q
          have := loads q
          cases at' : s.pc q <;> simp_all [Pc.refers, Pc.loads, Pc.request]
    · rw [step.buf c here]
      exact inv.keyed q c dev blockno (((step.pc_agrees here q).2.2 dev blockno).mp request)
  · intro q c loads
    by_cases here : c = b
    · subst here
      by_cases self : q = p
      · subst self
        exact locked loads
      · rw [step.pc q self] at loads
        exact (step.handover q self).mpr (inv.locked q c loads)
    · rw [step.holder c here]
      exact inv.locked q c (by rwa [(step.pc_agrees here q).2.1] at loads)
  · intro q c held
    by_cases here : c = b
    · subst here
      exact loaded q held
    · rw [step.holder c here] at held
      rw [step.buf c here, (step.pc_agrees here q).2.1]
      exact inv.loaded q c held
  · intro q c dev blockno at'
    by_cases here : c = b
    · subst here
      exact unfilled q dev blockno at'
    · by_cases self : q = p
      · subst self
        have := (step.after.elsewhere here).2.1
        rw [at'] at this
        simp [Pc.loads] at this
      · rw [step.pc q self] at at'
        rw [step.buf c here]
        exact inv.unfilled q c dev blockno at'
  · intro c valid
    by_cases here : c = b
    · subst here
      exact named valid
    · rw [step.buf c here] at valid ⊢
      exact inv.named c valid
  · intro c positive
    by_cases here : c = b
    · subst here
      exact pinned positive
    · rw [step.pins c here] at positive
      rw [step.buf c here]
      exact inv.pinned c positive
  · intro c dirty
    by_cases here : c = b
    · subst here
      exact changed dirty
    · rw [step.changed c here] at dirty
      rw [step.buf c here, step.holder c here, step.pins c here]
      exact inv.changed c dirty

attribute [local simp] setPc buf uses Pc.refers Pc.loads Pc.request Pc.Only

omit [Fintype Pid] in
/-- A process outside `bread` and `brelse` holds valid buffers. -/
theorem Inv.valid_of_held [Fintype Pid] (inv : Inv s) (idle : s.pc p = .idle)
    (held : s.holder b = some p) : (s.buf b).valid := by
  have := inv.loaded p b held
  simpa [idle] using this

section

variable (inv : Inv s)

include inv

theorem Inv.bgetHit (idle : s.pc p = .idle) (nonzero : dev ≠ 0)
    (key : (s.buf b).dev = dev ∧ (s.buf b).blockno = blockno) :
    Inv ({ s with cache := s.cache.modify b fun buf =>
      { buf with refcnt := buf.refcnt + 1 } }.setPc p (.waiting b dev blockno)) := by
  refine inv.of_local (p := p) (b := b) (by constructor <;> simp +contextual [idle]) inv.ring
    (by simp) (fun users count => ?_) ?_ (by simp) ?_ ?_ ?_ ?_ ?_
  · by_cases held : s.holder b = some p <;> simp [idle, held] at users count ⊢ <;> omega
  · simp_all
  · intro q held
    have := inv.loaded q b held
    by_cases self : q = p <;> simp_all
  · intro q dev blockno at'
    have := inv.unfilled q b dev blockno
    by_cases self : q = p <;> simp_all
  · simpa using inv.named b
  · simpa using inv.pinned b
  · simpa using inv.changed b

theorem Inv.bgetRecycle (idle : s.pc p = .idle) (nonzero : dev ≠ 0)
    (absent : ∀ c, ¬ ((s.buf c).dev = dev ∧ (s.buf c).blockno = blockno))
    (zero : (s.buf b).refcnt = 0) :
    Inv ({ s with cache := s.cache.modify b fun buf =>
      { buf with dev := dev, blockno := blockno, valid := false, refcnt := 1 } }.setPc p
        (.waiting b dev blockno)) := by
  obtain ⟨unpinned, free, refers, loads, unchanged⟩ := inv.unused zero
  refine inv.of_local (p := p) (b := b) (by constructor <;> simp +contextual [idle]) inv.ring
    (.inr ⟨by simpa using absent, zero⟩) (fun users count => ?_) ?_ (by simp) ?_ ?_ ?_ ?_ ?_
  · simp [idle, free, unpinned, zero] at users count ⊢
    omega
  · simp_all
  · simp [free]
  · intro q dev blockno at'
    have := loads q
    by_cases self : q = p <;> simp_all
  · simp
  · simp [unpinned]
  · simp [unchanged]

theorem Inv.acquiresleep (waits : s.pc p = .waiting b dev blockno) (free : s.holder b = none) :
    Inv ({ s with holder := update s.holder b (some p) }.setPc p
      (.reading b dev blockno)) := by
  have key := inv.keyed p b dev blockno (by simp [waits])
  refine inv.of_local (p := p) (b := b) (by constructor <;> simp +contextual [waits, free, eq_comm])
    inv.ring (by simp) (fun users count => ?_) ?_ (by simp) ?_ ?_ ?_ ?_ ?_
  · simp [waits, free] at users count ⊢
    omega
  · simp_all
  · intro q taken
    simp only [setPc, update_self, Option.some.injEq] at taken
    simp [← taken]
  · intro q dev blockno at'
    have := inv.unfilled q b dev blockno
    by_cases self : q = p <;> simp_all
  · simpa using inv.named b
  · simpa using inv.pinned b
  · simpa using fun changed => (inv.changed b changed).1

theorem Inv.virtioRead (reads : s.pc p = .reading b dev blockno)
    (invalid : (s.buf b).valid = false) :
    Inv ({ s with cache := s.cache.modify b fun buf =>
      { buf with data := s.disk buf.blockno } }.setPc p (.filled b dev blockno)) := by
  have key := inv.keyed p b dev blockno (by simp [reads])
  have held := inv.locked p b (by simp [reads])
  refine inv.of_local (p := p) (b := b) (by constructor <;> simp +contextual [reads]) inv.ring
    (by simp) (fun users count => ?_) ?_ ?_ ?_ ?_ ?_ ?_ ?_
  · simp [reads, held] at users count ⊢
    omega
  · simp_all
  · simp [held]
  · intro q taken
    simp only [setPc, held, Option.some.injEq] at taken
    simp [← taken]
  · simp_all
  · simp_all
  · simpa using inv.pinned b
  · simpa using inv.changed b

theorem Inv.breadCached (reads : s.pc p = .reading b dev blockno) (valid : (s.buf b).valid) :
    Inv (s.setPc p .idle) := by
  have held := inv.locked p b (by simp [reads])
  refine inv.of_local (p := p) (b := b) (by constructor <;> simp +contextual [reads]) inv.ring
    (by simp) (fun users count => ?_) (by simp) (by simp) ?_ ?_ ?_ ?_ ?_
  · simp [reads, held] at users count ⊢
    omega
  · simp_all
  · intro q dev blockno at'
    have := inv.unfilled q b dev blockno
    by_cases self : q = p <;> simp_all
  · simpa using inv.named b
  · simpa using inv.pinned b
  · simpa using inv.changed b

theorem Inv.breadFilled (filled : s.pc p = .filled b dev blockno) :
    Inv ({ s with cache := s.cache.modify b fun buf => { buf with valid := true } }.setPc p
      .idle) := by
  have key := inv.keyed p b dev blockno (by simp [filled])
  have held := inv.locked p b (by simp [filled])
  refine inv.of_local (p := p) (b := b) (by constructor <;> simp +contextual [filled]) inv.ring
    (by simp) (fun users count => ?_) (by simp) (by simp) ?_ ?_ ?_ ?_ ?_
  · simp [filled, held] at users count ⊢
    omega
  · simp
  · intro q dev blockno at'
    have := inv.locked q b
    by_cases self : q = p <;> simp_all
  · simp_all
  · simp
  · simpa using fun changed => (inv.changed b changed).2

theorem Inv.store (idle : s.pc p = .idle) (held : s.holder b = some p) (data : Data)
    (stored : Nat → Nat → Option Data) :
    Inv { s with
      cache := s.cache.modify b fun buf => { buf with data }
      changed := update s.changed b true
      stored } := by
  have valid := inv.valid_of_held idle held
  refine inv.of_local (p := p) (b := b) (by constructor <;> simp +contextual [idle]) inv.ring
    (by simp) (fun users count => ?_) (by simp [idle]) (by simp [idle]) ?_ ?_ ?_ ?_ ?_
  · simp [idle, held] at users count ⊢
    omega
  · simp_all
  · simpa using fun q => inv.unfilled q b
  · simpa using inv.named b
  · simp_all
  · simp_all

theorem Inv.bwrite (idle : s.pc p = .idle) (disk : Nat → Data) :
    Inv { s with disk, changed := update s.changed b false } := by
  refine inv.of_local (p := p) (b := b) (by constructor <;> simp +contextual [idle]) inv.ring
    (by simp) (fun users count => ?_) (by simp [idle]) (by simp [idle]) ?_ ?_ ?_ ?_ (by simp)
  · by_cases held : s.holder b = some p <;> simp [idle, held] at users count ⊢ <;> omega
  · simpa using fun q => inv.loaded q b
  · simpa using fun q => inv.unfilled q b
  · simpa using inv.named b
  · simpa using inv.pinned b

theorem Inv.brelse (idle : s.pc p = .idle) (held : s.holder b = some p)
    (safe : s.changed b = false ∨ 0 < s.pins b) :
    Inv ({ s with holder := update s.holder b none }.setPc p (.releasing b)) := by
  have valid := inv.valid_of_held idle held
  refine inv.of_local (p := p) (b := b) (by constructor <;> simp +contextual [idle, held, eq_comm])
    inv.ring (by simp) (fun users count => ?_) (by simp) (by simp) (by simp) ?_ ?_ ?_ ?_
  · simp [idle, held] at users count ⊢
    omega
  · intro q dev blockno at'
    have := inv.unfilled q b dev blockno
    by_cases self : q = p <;> simp_all
  · simpa using inv.named b
  · simpa using inv.pinned b
  · rcases safe with clean | positive
    · simp [clean]
    · simp_all

/-- Dropping a reference keeps all buffers on the list, wherever `b` ends up. -/
theorem Inv.brelse_ring : ∃ order : List (Fin nbuf), order.Nodup ∧
    (∀ b, b ∈ order) ∧ (s.cache.brelse b).links.Ring order := by
  obtain ⟨order, nodup, complete, ring⟩ := inv.ring
  simp only [Bcache.brelse]
  split
  · have moved := perm_cons_erase (complete b)
    exact ⟨b :: order.erase b, moved.nodup_iff.mp nodup, fun c => moved.mem_iff.mp (complete c),
      ring.moveToFront nodup (complete b)⟩
  · exact ⟨order, nodup, complete, ring⟩

omit inv in
omit [Fintype Pid] [DecidableEq Pid] in
@[simp]
theorem Bcache.brelse_buf (cache : Bcache Data) (b : Fin nbuf) : (cache.brelse b).buf =
    (cache.modify b fun buf => { buf with refcnt := buf.refcnt - 1 }).buf := by
  simp only [Bcache.brelse]
  split <;> rfl

theorem Inv.brelseDrop (releases : s.pc p = .releasing b) :
    Inv ({ s with cache := s.cache.brelse b }.setPc p .idle) := by
  refine inv.of_local (p := p) (b := b) (by constructor <;> simp +contextual [releases])
    inv.brelse_ring (by simp) (fun users count => ?_) (by simp) (by simp) ?_ ?_ ?_ ?_ ?_
  · by_cases held : s.holder b = some p <;> simp [releases, held] at users count ⊢ <;> omega
  · intro q held
    have := inv.loaded q b held
    by_cases self : q = p <;> simp_all
  · intro q dev blockno at'
    have := inv.unfilled q b dev blockno
    by_cases self : q = p <;> simp_all
  · simpa using inv.named b
  · simpa using inv.pinned b
  · simpa using inv.changed b

theorem Inv.bpin (idle : s.pc p = .idle) (held : s.holder b = some p) :
    Inv { s with
      cache := s.cache.bpin b
      pins := update s.pins b (s.pins b + 1) } := by
  have valid := inv.valid_of_held idle held
  refine inv.of_local (p := p) (b := b) (by constructor <;> simp +contextual [idle, Bcache.bpin])
    inv.ring (by simp [Bcache.bpin]) (fun users count => ?_) (by simp [idle]) (by simp [idle]) ?_ ?_
    ?_ ?_ ?_
  · simp [idle, held, Bcache.bpin] at users count ⊢
    omega
  · simp_all [Bcache.bpin]
  · simpa [Bcache.bpin] using fun q => inv.unfilled q b
  · simpa [Bcache.bpin] using inv.named b
  · simp_all [Bcache.bpin]
  · simp_all [Bcache.bpin]

theorem Inv.bunpin (idle : s.pc p = .idle) (positive : 0 < s.pins b)
    (safe : 1 < s.pins b ∨ s.changed b = false ∨ s.holder b ≠ none) :
    Inv { s with
      cache := s.cache.bunpin b
      pins := update s.pins b (s.pins b - 1) } := by
  have valid := inv.pinned b positive
  refine inv.of_local (p := p) (b := b) (by constructor <;> simp +contextual [idle, Bcache.bunpin])
    inv.ring (by simp [Bcache.bunpin]) (fun users count => ?_) (by simp [idle]) (by simp [idle]) ?_
    ?_ ?_ ?_ ?_
  · by_cases held : s.holder b = some p <;> simp [idle, held, Bcache.bunpin] at users count ⊢ <;>
      omega
  · simpa [Bcache.bunpin] using fun q => inv.loaded q b
  · simpa [Bcache.bunpin] using fun q => inv.unfilled q b
  · simpa [Bcache.bunpin] using inv.named b
  · simp_all [Bcache.bunpin]
  · rcases safe with more | clean | held
    · simp_all [Bcache.bunpin]
    · simp [clean]
    · simp_all [Bcache.bunpin]

end

theorem Inv.initial (start : Initial s) : Inv s := by
  obtain ⟨⟨zeroes, cache⟩, free, idle, unpinned, unchanged, _⟩ := start
  constructor
  · rw [cache]
    exact binit_ring zeroes
  · simp [cache, Bcache.binit]
  · simp [cache, Bcache.binit, users, free, idle, unpinned]
  · simp [idle]
  · simp [idle]
  · simp [free]
  · simp [idle]
  · simp [cache, Bcache.binit]
  · simp [unpinned]
  · simp [unchanged]

end steps

/-- What each step can do, with the guards it passed. -/
inductive Effect (s : State Pid Data) (p : Pid) : Action Data → State Pid Data → Prop where
  | bgetHit {b dev blockno} : s.pc p = .idle →
      (s.buf b).dev = dev ∧ (s.buf b).blockno = blockno →
      Effect s p (.bget dev blockno) ({ s with cache := s.cache.modify b fun buf =>
        { buf with refcnt := buf.refcnt + 1 } }.setPc p (.waiting b dev blockno))
  | bgetRecycle {b dev blockno} : s.pc p = .idle →
      (∀ c, ¬ ((s.buf c).dev = dev ∧ (s.buf c).blockno = blockno)) → (s.buf b).refcnt = 0 →
      Effect s p (.bget dev blockno) ({ s with cache := s.cache.modify b fun buf =>
        { buf with dev := dev, blockno := blockno, valid := false, refcnt := 1 } }.setPc p
          (.waiting b dev blockno))
  | acquiresleep {b dev blockno} : s.pc p = .waiting b dev blockno → s.holder b = none →
      Effect s p .acquiresleep ({ s with holder := update s.holder b (some p) }.setPc p
        (.reading b dev blockno))
  | virtioRead {b dev blockno} : s.pc p = .reading b dev blockno → (s.buf b).valid = false →
      Effect s p .virtioRead ({ s with cache := s.cache.modify b fun buf =>
        { buf with data := s.disk buf.blockno } }.setPc p (.filled b dev blockno))
  | breadCached {b dev blockno} : s.pc p = .reading b dev blockno → (s.buf b).valid →
      Effect s p .breadReturn (s.setPc p .idle)
  | breadFilled {b dev blockno} : s.pc p = .filled b dev blockno →
      Effect s p .breadReturn ({ s with cache := s.cache.modify b fun buf =>
        { buf with valid := true } }.setPc p .idle)
  | store {b data} : s.pc p = .idle → s.holder b = some p →
      Effect s p (.store b data) { s with
        cache := s.cache.modify b fun buf => { buf with data }
        changed := update s.changed b true
        stored := update s.stored (s.buf b).dev
          (update (s.stored (s.buf b).dev) (s.buf b).blockno (some data)) }
  | bwrite {b} : s.pc p = .idle → s.holder b = some p →
      Effect s p (.bwrite b) { s with
        disk := update s.disk (s.buf b).blockno (s.buf b).data
        changed := update s.changed b false }
  | brelse {b} : s.pc p = .idle → s.holder b = some p →
      Effect s p (.brelse b)
        ({ s with holder := update s.holder b none }.setPc p (.releasing b))
  | brelseDrop {b} : s.pc p = .releasing b →
      Effect s p .brelseDrop ({ s with cache := s.cache.brelse b }.setPc p .idle)
  | bpin {b} : s.pc p = .idle →
      Effect s p (.bpin b) { s with
        cache := s.cache.bpin b
        pins := update s.pins b (s.pins b + 1) }
  | bunpin {b} : s.pc p = .idle →
      Effect s p (.bunpin b) { s with
        cache := s.cache.bunpin b
        pins := update s.pins b (s.pins b - 1) }

theorem Inv.effect {s s' : State Pid Data} {p : Pid} {action : Action Data} (inv : Inv s)
    (moved : s.step p action = .next s') : Effect s p action s' := by
  cases action with
  | bget dev blockno =>
    simp only [step] at moved
    split at moved
    next idle =>
      split at moved
      next cache b got =>
        cases moved
        obtain ⟨order, nodup, complete, ring⟩ := inv.ring
        rcases Bcache.bget_cases nodup complete ring got with
          ⟨sameDev, sameBlock, rfl⟩ | ⟨absent, zero, rfl⟩
        · exact .bgetHit idle ⟨sameDev, sameBlock⟩
        · exact .bgetRecycle idle absent zero
      all_goals cases moved
    next => cases moved
  | acquiresleep =>
    simp only [step] at moved
    split at moved
    next b dev blockno waits =>
      split at moved
      next free => cases moved; exact .acquiresleep waits free
      next => cases moved
    next => cases moved
  | virtioRead =>
    simp only [step] at moved
    split at moved
    next b dev blockno reads =>
      split at moved
      next => cases moved
      next invalid => cases moved; exact .virtioRead reads (by simpa using invalid)
    next => cases moved
  | breadReturn =>
    simp only [step] at moved
    split at moved
    next b dev blockno reads =>
      split at moved
      next valid => cases moved; exact .breadCached reads valid
      next => cases moved
    next b dev blockno filled => cases moved; exact .breadFilled filled
    next => cases moved
  | store b data =>
    simp only [step] at moved
    split at moved
    next guard => cases moved; exact .store guard.1 guard.2
    next => cases moved
  | bwrite b =>
    simp only [step] at moved
    split at moved
    next idle =>
      split at moved
      next held => cases moved; exact .bwrite idle held
      next => cases moved
    next => cases moved
  | brelse b =>
    simp only [step] at moved
    split at moved
    next idle =>
      split at moved
      next held => cases moved; exact .brelse idle held
      next => cases moved
    next => cases moved
  | brelseDrop =>
    simp only [step] at moved
    split at moved
    next b releases => cases moved; exact .brelseDrop releases
    next => cases moved
  | bpin b =>
    simp only [step] at moved
    split at moved
    next idle => cases moved; exact .bpin idle
    next => cases moved
  | bunpin b =>
    simp only [step] at moved
    split at moved
    next idle => cases moved; exact .bunpin idle
    next => cases moved

theorem Inv.step {s s' : State Pid Data} {p : Pid} {action : Action Data} (inv : Inv s)
    (disciplined : Disciplined s p action) (moved : s.step p action = .next s') : Inv s' := by
  cases inv.effect moved with
  | bgetHit idle key => exact inv.bgetHit idle disciplined key
  | bgetRecycle idle absent zero => exact inv.bgetRecycle idle disciplined absent zero
  | acquiresleep waits free => exact inv.acquiresleep waits free
  | virtioRead reads invalid => exact inv.virtioRead reads invalid
  | breadCached reads valid => exact inv.breadCached reads valid
  | breadFilled filled => exact inv.breadFilled filled
  | store idle held => exact inv.store idle held _ _
  | bwrite idle held => exact inv.bwrite idle _
  | brelse idle held => exact inv.brelse idle held disciplined.2
  | brelseDrop releases => exact inv.brelseDrop releases
  | bpin idle => exact inv.bpin idle disciplined
  | bunpin idle => exact inv.bunpin idle disciplined.1 disciplined.2

end Xv6.Bio
