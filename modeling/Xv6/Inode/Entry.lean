import Xv6.Inode.Table
import Xv6.Library.Counting

/-!
# One entry of the inode table

All that the invariant says about an entry is about its own fields, the
references and stages of the processes at it, and the one dinode it caches.
A process that does not have the sleep lock knows only of its own references,
so what the holder does to the inode does not concern it.
-/

namespace Xv6.Itable

open Stage

structure View (Pid : Type) where
  ref : Int
  valid : Bool
  inode : Dinode
  dirty : Bool
  holder : Option Pid
  refs : Pid → Nat
  stage : Pid → Option Stage
  disk : Dinode

/-- The stages in which a process still counts but has no usable reference. -/
def Stage.pending : Stage → Bool
  | .truncating | .typing | .clearing | .dropping => true
  | _ => false

/-- The stages of `iput` up to the write of type zero. -/
def Stage.freeing : Stage → Bool
  | .truncating | .typing => true
  | _ => false

namespace View

variable {Pid : Type}

def share (v : View Pid) (p : Pid) : Nat :=
  v.refs p + if (v.stage p).any pending then 1 else 0

/-- What process `p` knows of the entry at its stage. -/
def Knows (v : View Pid) (p : Pid) : Prop :=
  match v.stage p with
  | none | some .dropping =>
    v.holder = some p → 0 < v.refs p ∧ v.valid ∧ (v.dirty = false → v.inode = v.disk)
  | some .locking => 0 < v.refs p ∧ (v.holder = some p → v.valid)
  | some .testing => 0 < v.refs p ∧ v.holder = some p ∧ (v.valid → v.inode = v.disk)
  | some .loaded => 0 < v.refs p ∧ v.holder = some p ∧ v.inode = v.disk ∧ v.valid = false
  | some .truncating | some .typing =>
    v.holder = some p ∧ v.valid ∧ v.inode = v.disk ∧ v.inode.nlink = 0 ∧ v.inode.type ≠ 0 ∧
      v.ref = 1
  | some .clearing => v.holder = some p ∧ v.valid

end View

structure EntryInv {Pid : Type} [Fintype Pid] (v : View Pid) : Prop where
  count : v.ref = ∑ p, v.share p
  knows : ∀ p, v.Knows p
  live : ∀ p, 0 < v.refs p → v.disk.type ≠ 0
  typed : 0 < v.ref → v.valid → v.inode.type = 0 → ∃ p, v.stage p = some .clearing
  free : 0 < v.ref → v.valid → v.holder = none → v.inode = v.disk

namespace EntryInv

variable {Pid : Type} [Fintype Pid] {v v' : View Pid} {p q : Pid}

section

variable (inv : EntryInv v)

include inv

theorem ref_nonneg : 0 ≤ v.ref := by
  rw [inv.count]
  exact Int.natCast_nonneg _

theorem share_le (p : Pid) : v.share p ≤ v.ref := by
  have bound : v.share p ≤ ∑ q, v.share q :=
    Finset.single_le_sum (fun _ _ => Nat.zero_le _) (Finset.mem_univ p)
  rw [inv.count]
  exact_mod_cast bound

theorem refs_le (p : Pid) : v.refs p ≤ v.ref := by
  have := inv.share_le p
  unfold View.share at this
  omega

theorem away (nothing : v.share p = 0) :
    v.refs p = 0 ∧ v.stage p = none ∧ v.holder ≠ some p := by
  have knows := inv.knows p
  unfold View.share at nothing
  unfold View.Knows at knows
  have refs : v.refs p = 0 := by omega
  cases at' : v.stage p with
  | none =>
    rw [at'] at knows
    exact ⟨refs, rfl, fun held => by have := (knows held).1; omega⟩
  | some stage => cases stage <;> simp_all [pending]

theorem unused (zero : v.ref = 0) :
    (∀ p, v.refs p = 0) ∧ (∀ p, v.stage p = none) ∧ v.holder = none := by
  have away := fun p => inv.away (p := p) (by have := inv.share_le p; omega)
  refine ⟨fun p => (away p).1, fun p => (away p).2.1, ?_⟩
  cases held : v.holder with
  | none => rfl
  | some p => exact absurd held (away p).2.2

theorem alone (all : v.ref ≤ v.share p) (other : q ≠ p) :
    v.refs q = 0 ∧ v.stage q = none ∧ v.holder ≠ some q := by
  classical
  apply inv.away
  have whole := Finset.add_sum_erase Finset.univ v.share (Finset.mem_univ p)
  have part : v.share q ≤ ∑ r ∈ Finset.univ.erase p, v.share r :=
    Finset.single_le_sum (fun _ _ => Nat.zero_le _) (by simp [other])
  have count := inv.count
  omega

theorem not_freeing (owns : 0 < v.refs p) (q : Pid) :
    (v.stage q).any freeing = false := by
  by_contra freeing
  have single : v.ref = 1 ∧ v.share q = v.refs q + 1 := by
    have knows := inv.knows q
    unfold View.Knows at knows
    cases at' : v.stage q with
    | none => simp [at'] at freeing
    | some stage =>
      cases stage <;> simp_all [Stage.freeing, Stage.pending, View.share]
  by_cases self : p = q
  · have := inv.share_le q
    subst self
    omega
  · have := (inv.alone (p := q) (by omega) self).1
    omega

/-- While the lock belongs to somebody else or is free, a process knows only
of its references. -/
theorem knows_outside (refs : v'.refs q = v.refs q)
    (stage : v'.stage q = v.stage q) (before : v.holder ≠ some q) (after : v'.holder ≠ some q) :
    v'.Knows q := by
  have knows := inv.knows q
  unfold View.Knows at knows ⊢
  rw [stage, refs]
  cases at' : v.stage q with
  | none => exact fun held => absurd held after
  | some stage => cases stage <;> simp_all

theorem knows_ref (ref : Int) {refs : Pid → Nat} (more : v.refs q ≤ refs q)
    (kept : (v.stage q).any freeing = false) : View.Knows { v with ref, refs } q := by
  have knows := inv.knows q
  unfold View.Knows at knows ⊢
  simp only
  cases at' : v.stage q with
  | none =>
    simp only [at'] at knows
    exact fun held => ⟨(knows held).1.trans_le more, (knows held).2⟩
  | some stage =>
    cases stage <;> simp only [at'] at knows
    case locking | testing | loaded => exact ⟨knows.1.trans_le more, knows.2⟩
    case truncating | typing => simp [at', freeing] at kept
    case clearing => exact knows
    case dropping => exact fun held => ⟨(knows held).1.trans_le more, (knows held).2⟩

/-- A step of the process that has the lock. It concerns nobody else. -/
theorem of_holder (holds : v.holder = some p) (ref : v'.ref = v.ref) (refs : v'.refs = v.refs)
    (others : ∀ q, q ≠ p → v'.stage q = v.stage q)
    (share : (v'.stage p).any pending = (v.stage p).any pending)
    (after : v'.holder = v.holder ∨ v'.holder = none) (own : v'.Knows p)
    (live : ∀ q, 0 < v'.refs q → v'.disk.type ≠ 0)
    (typed : 0 < v'.ref → v'.valid → v'.inode.type = 0 → ∃ q, v'.stage q = some .clearing)
    (free : 0 < v'.ref → v'.valid → v'.holder = none → v'.inode = v'.disk) : EntryInv v' where
  count := by
    have same : v'.share = v.share := by
      funext q
      by_cases self : q = p
      · rw [View.share, View.share, refs, self, share]
      · rw [View.share, View.share, refs, others q self]
    rw [ref, same, inv.count]
  knows q := by
    by_cases self : q = p
    · exact self ▸ own
    · have outside : v.holder ≠ some q := by simpa [holds] using Ne.symm self
      refine inv.knows_outside (congrFun refs q) (others q self) outside ?_
      rcases after with same | none
      · rwa [same]
      · simp [none]
  live := live
  typed := typed
  free := free

end

variable [DecidableEq Pid]

theorem count_change (inv : EntryInv v) (p : Pid)
    (others : ∀ q, q ≠ p → v'.refs q = v.refs q ∧ v'.stage q = v.stage q)
    (ref : v'.ref + v.share p = v.ref + v'.share p) : v'.ref = ∑ q, v'.share q := by
  have change : ∑ q, v'.share q + v.share p = ∑ q, v.share q + v'.share p :=
    sum_change p fun q other => by simp [View.share, others q other]
  have count := inv.count
  omega

/-! ## References -/

section

variable (inv : EntryInv v)

include inv

theorem gain (used : 0 < v.ref) (live : v.disk.type ≠ 0)
    (kept : ∀ p, (v.stage p).any freeing = false) (q : Pid) {refs : Pid → Nat}
    (gained : ∀ r, refs r = if r = q then v.refs q + 1 else v.refs r) :
    EntryInv { v with ref := v.ref + 1, refs } where
  count := by
    refine inv.count_change q (fun r other => by simp [gained, other]) ?_
    simp [View.share, gained]
    omega
  knows r := by
    refine inv.knows_ref _ ?_ (kept r)
    rw [gained]
    by_cases self : r = q <;> simp [self]
  live _ _ := live
  typed _ := inv.typed used
  free _ := inv.free used

theorem pass (owns : 0 < v.refs p) (other : p ≠ q) (keeps : v.holder = some p → 1 < v.refs p)
    (idle : v.stage p = none) {refs : Pid → Nat}
    (given : ∀ r, refs r = if r = q then v.refs q + 1 else if r = p then v.refs p - 1 else v.refs
      r) :
    EntryInv { v with refs } where
  count := by
    -- first `p` loses its reference, then `q` gains it
    let lost : View Pid := { v with refs := fun r => if r = p then v.refs p - 1 else v.refs r }
    have less : ∑ r, lost.share r + v.share p = ∑ r, v.share r + lost.share p :=
      sum_change p fun r different => by simp [View.share, lost, different]
    have more : ∑ r, View.share { v with refs } r + lost.share q =
        ∑ r, lost.share r + View.share { v with refs } q :=
      sum_change q fun r different => by simp [View.share, lost, given, different]
    have lostShare : lost.share p + 1 = v.share p := by simp [View.share, lost]; omega
    have gained : View.share { v with refs } q = lost.share q + 1 := by
      simp [View.share, lost, given, other.symm]; omega
    have old := inv.count
    simp only
    omega
  knows r := by
    by_cases self : r = p
    · subst self
      have knows := inv.knows r
      simp only [View.Knows, idle] at knows ⊢
      refine fun held => ⟨?_, (knows held).2⟩
      have := keeps held
      rw [given, if_neg other, if_pos rfl]
      omega
    · refine inv.knows_ref v.ref ?_ (inv.not_freeing owns r)
      rw [given]
      by_cases here : r = q <;> simp [here, self]
  live _ _ := inv.live p owns
  typed := inv.typed
  free := inv.free

theorem recycle (zero : v.ref = 0) {disk : Dinode} (live : disk.type ≠ 0) (q : Pid)
    {refs : Pid → Nat} (gained : ∀ r, refs r = if r = q then v.refs q + 1 else v.refs r) :
    EntryInv { v with ref := 1, valid := false, refs, disk } := by
  obtain ⟨_, stages, free⟩ := inv.unused zero
  refine ⟨?_, fun r => ?_, fun _ _ => live, by simp, by simp⟩
  · refine inv.count_change q (fun r other => by simp [gained, other]) ?_
    simp [View.share, gained]
    omega
  · simp [View.Knows, stages r, free]

omit [DecidableEq Pid] in
theorem unused_disk (zero : v.ref = 0) (disk : Dinode) :
    EntryInv { v with disk } := by
  obtain ⟨refs, stages, free⟩ := inv.unused zero
  refine ⟨inv.count, fun r => ?_, fun r owns => ?_, fun used => ?_, fun used => ?_⟩
  · simp [View.Knows, stages r, free]
  · simp [refs r] at owns
  · simp [zero] at used
  · simp [zero] at used

omit [DecidableEq Pid] in
/-- `ialloc` takes a free inode, perhaps while the `iput` that freed it is not
yet through. No process has a reference to it that it could use. -/
theorem claim (freed : v.disk.type = 0) {disk : Dinode} (live : disk.type ≠ 0) :
    EntryInv { v with disk } := by
  have nobody : ∀ r, v.refs r = 0 := fun r => by
    have := inv.live r
    omega
  refine ⟨inv.count, fun r => ?_, fun _ _ => live, inv.typed, fun used valid unlocked => ?_⟩
  · have knows := inv.knows r
    have := nobody r
    unfold View.Knows at knows ⊢
    cases at' : v.stage r with
    | none =>
      simp only [at'] at knows ⊢
      exact fun held => absurd (knows held).1 (by omega)
    | some stage =>
      cases stage <;> simp only [at'] at knows ⊢
      case locking | testing | loaded => omega
      case truncating | typing => exact absurd freed (knows.2.2.1 ▸ knows.2.2.2.2.1)
      case clearing => exact knows
      case dropping => exact fun held => absurd (knows held).1 (by omega)
  · -- the inode of a valid unlocked entry is live
    have same := inv.free used valid unlocked
    obtain ⟨r, clears⟩ := inv.typed used valid (by rw [same, freed])
    have knows := inv.knows r
    simp only [View.Knows, clears] at knows
    rw [unlocked] at knows
    simp at knows

end

/-! ## `ilock` and `iunlock` -/

section stages

variable {stage : Pid → Option Stage} {target : Option Stage}

omit [Fintype Pid] in
theorem others_moved (moved : ∀ r, stage r = if r = p then target else v.stage r) (r : Pid)
    (other : r ≠ p) : stage r = v.stage r :=
  (moved r).trans (if_neg other)

omit [Fintype Pid] in
theorem clears_moved (before : v.stage p ≠ some .clearing)
    (moved : ∀ r, stage r = if r = p then target else v.stage r)
    (clears : ∃ r, v.stage r = some .clearing) : ∃ r, stage r = some .clearing := by
  obtain ⟨r, clears⟩ := clears
  exact ⟨r, (others_moved moved r (by rintro rfl; exact before clears)).trans clears⟩

section

variable (inv : EntryInv v)

include inv

omit [DecidableEq Pid] in
theorem typed_held (held : v.holder = some p)
    (notClearing : v.stage p ≠ some .clearing) (used : 0 < v.ref) (valid : v.valid) :
    v.inode.type ≠ 0 := by
  intro zero
  obtain ⟨r, clears⟩ := inv.typed used valid zero
  have knows := inv.knows r
  simp only [View.Knows, clears] at knows
  rw [held, Option.some.injEq] at knows
  exact notClearing (knows.1 ▸ clears)

theorem lock (idle : v.stage p = none) (owns : 0 < v.refs p)
    (moved : ∀ r, stage r = if r = p then some .locking else v.stage r) :
    EntryInv { v with stage } where
  count := by
    refine inv.count_change p (fun r other => by simp [moved, other]) ?_
    simp [View.share, moved, idle, pending]
  knows r := by
    have knows := inv.knows r
    by_cases self : r = p
    · subst self
      simp only [View.Knows, idle, moved, if_true] at knows ⊢
      exact ⟨owns, fun held => (knows held).2.1⟩
    · simpa only [View.Knows, moved, if_neg self] using knows
  live := inv.live
  typed used valid zero := clears_moved (by simp [idle]) moved (inv.typed used valid zero)
  free := inv.free

/-- The lock was free, so a valid inode is the one on disk. -/
theorem acquire (waiting : v.stage p = some .locking) (free : v.holder = none)
    (moved : ∀ r, stage r = if r = p then some .testing else v.stage r) :
    EntryInv { v with holder := some p, stage } := by
  have owns : 0 < v.refs p := by
    have knows := inv.knows p
    simp only [View.Knows, waiting] at knows
    exact knows.1
  have used : 0 < v.ref := by have := inv.refs_le p; omega
  refine ⟨?_, fun r => ?_, inv.live, fun used valid zero => ?_, by simp⟩
  · refine inv.count_change p (fun r other => by simp [moved, other]) ?_
    simp [View.share, moved, waiting, pending]
  · by_cases self : r = p
    · subst self
      simp only [View.Knows, moved, if_true]
      exact ⟨owns, trivial, fun valid => inv.free used valid free⟩
    · exact inv.knows_outside rfl (by simp [moved, self]) (by simp [free])
        (by simpa using Ne.symm self)
  · exact clears_moved (by simp [waiting]) moved (inv.typed used valid zero)

theorem found (tests : v.stage p = some .testing) (valid : v.valid)
    (moved : ∀ r, stage r = if r = p then none else v.stage r) :
    EntryInv { v with stage } := by
  have own := inv.knows p
  simp only [View.Knows, tests] at own
  refine inv.of_holder own.2.1 rfl rfl (others_moved moved) (by simp [moved, tests, pending])
    (.inl rfl) ?_
    inv.live (fun used valid zero => ?_) inv.free
  · simp only [View.Knows, moved, if_true]
    exact fun _ => ⟨own.1, valid, fun _ => own.2.2 valid⟩
  · exact clears_moved (by simp [tests]) moved (inv.typed used valid zero)

theorem load (tests : v.stage p = some .testing) (invalid : v.valid = false)
    (moved : ∀ r, stage r = if r = p then some .loaded else v.stage r) :
    EntryInv { v with inode := v.disk, stage } := by
  have own := inv.knows p
  simp only [View.Knows, tests] at own
  refine inv.of_holder own.2.1 rfl rfl (others_moved moved) (by simp [moved, tests, pending])
    (.inl rfl) ?_
    inv.live (fun _ valid => ?_) fun _ _ _ => rfl
  · simp only [View.Knows, moved, if_true]
    exact ⟨own.1, own.2.1, trivial, invalid⟩
  · simp [invalid] at valid

theorem loadDone (loads : v.stage p = some .loaded)
    (moved : ∀ r, stage r = if r = p then none else v.stage r) :
    EntryInv { v with valid := true, stage } := by
  have own := inv.knows p
  simp only [View.Knows, loads] at own
  refine inv.of_holder own.2.1 rfl rfl (others_moved moved) (by simp [moved, loads, pending])
    (.inl rfl) ?_
    inv.live (fun _ _ zero => ?_) fun _ _ free => ?_
  · simp only [View.Knows, moved, if_true]
    exact fun _ => ⟨own.1, trivial, fun _ => own.2.2.1⟩
  · exact absurd (own.2.2.1 ▸ zero) (inv.live p own.1)
  · simp [own.2.1] at free

end

end stages

section holding

omit [DecidableEq Pid]

variable (inv : EntryInv v) (holds : v.holder = some p) (idle : v.stage p = none)

include inv holds idle

theorem used_of_held : 0 < v.refs p ∧ v.valid ∧ 0 < v.ref := by
  have own := inv.knows p
  simp only [View.Knows, idle] at own
  have := inv.refs_le p
  have := own holds
  exact ⟨this.1, this.2.1, by omega⟩

theorem modify {inode : Dinode} (typed : inode.type ≠ 0) {dirty : Bool}
    (clean : dirty = false → inode = v.disk) : EntryInv { v with inode, dirty } := by
  obtain ⟨owns, valid, _⟩ := inv.used_of_held holds idle
  refine inv.of_holder holds rfl rfl (fun _ _ => rfl) rfl (.inl rfl) ?_ inv.live
    (fun _ _ zero => absurd zero typed) ?_
  · simp only [View.Knows, idle]
    exact fun _ => ⟨owns, valid, clean⟩
  · simp [holds]

theorem iupdate : EntryInv { v with disk := v.inode, dirty := false } := by
  obtain ⟨owns, valid, used⟩ := inv.used_of_held holds idle
  refine inv.of_holder holds rfl rfl (fun _ _ => rfl) rfl (.inl rfl) ?_ (fun _ _ => ?_) inv.typed
    fun _ _ _ => rfl
  · simp only [View.Knows, idle]
    exact fun _ => ⟨owns, valid, fun _ => trivial⟩
  · exact inv.typed_held holds (by simp [idle]) used valid

theorem iunlock (clean : v.dirty = false) : EntryInv { v with holder := none } := by
  have updated : v.inode = v.disk := by
    have own := inv.knows p
    simp only [View.Knows, idle] at own
    exact (own holds).2.2 clean
  refine inv.of_holder holds rfl rfl (fun _ _ => rfl) rfl (.inr rfl) ?_ inv.live inv.typed
    fun _ _ _ => updated
  simp [View.Knows, idle]

end holding

/-! ## `iput` -/

section iput

variable {stage : Pid → Option Stage} {refs : Pid → Nat}

section

variable (inv : EntryInv v)

include inv

omit [DecidableEq Pid] in
/-- The `acquiresleep` inside `iput` does not wait: a holder would be counted. -/
theorem unlocked_of_last (owns : 0 < v.refs p)
    (keeps : v.holder = some p → 1 < v.refs p) (last : v.ref = 1) : v.holder = none := by
  cases held : v.holder with
  | none => rfl
  | some q =>
    by_cases self : q = p
    · have := keeps (self ▸ held)
      have := inv.refs_le p
      omega
    · have all : v.ref ≤ v.share p := by simp [View.share]; omega
      exact absurd held (inv.alone all self).2.2

theorem iputFree (idle : v.stage p = none) (owns : 0 < v.refs p) (unlocked : v.holder = none)
    (last : v.ref = 1) (valid : v.valid) (unlinked : v.inode.nlink = 0)
    (dropped : ∀ r, refs r = if r = p then v.refs p - 1 else v.refs r)
    (moved : ∀ r, stage r = if r = p then some .truncating else v.stage r) :
    EntryInv { v with holder := some p, refs, stage } := by
  have same := inv.free (by omega) valid unlocked
  refine ⟨?_, fun r => ?_, fun r positive => ?_, fun used valid zero => ?_, by simp⟩
  · refine inv.count_change p (fun r other => by simp [moved, dropped, other]) ?_
    simp [View.share, moved, dropped, idle, pending]
    omega
  · by_cases self : r = p
    · subst self
      simp only [View.Knows, moved, if_true]
      exact ⟨trivial, valid, same, unlinked, same ▸ inv.live r owns, last⟩
    · exact inv.knows_outside (by simp [dropped, self]) (by simp [moved, self])
        (by simp [unlocked]) (by simpa using Ne.symm self)
  · refine inv.live r ?_
    simp only [dropped] at positive
    split at positive <;> simp_all
  · exact clears_moved (by simp [idle]) moved (inv.typed used valid zero)

theorem iputDrop (idle : v.stage p = none) (owns : 0 < v.refs p)
    (keeps : v.holder = some p → 1 < v.refs p)
    (dropped : ∀ r, refs r = if r = p then v.refs p - 1 else v.refs r) :
    EntryInv { v with ref := v.ref - 1, refs } := by
  have used : 0 < v.ref := by have := inv.refs_le p; omega
  refine ⟨?_, fun r => ?_, fun r positive => ?_, fun _ => inv.typed used, fun _ => inv.free used⟩
  · refine inv.count_change p (fun r other => by simp [dropped, other]) ?_
    simp [View.share, dropped]
    omega
  · by_cases self : r = p
    · subst self
      have knows := inv.knows r
      simp only [View.Knows, idle, dropped, if_true] at knows ⊢
      refine fun held => ⟨?_, (knows held).2⟩
      have := keeps held
      omega
    · exact inv.knows_ref _ (by simp [dropped, self]) (inv.not_freeing owns r)
  · refine inv.live r ?_
    simp only [dropped] at positive
    split at positive <;> simp_all

omit inv in
omit [Fintype Pid] [DecidableEq Pid] in
theorem freeing_stage (freeing : (v.stage p).any freeing) :
    v.stage p = some .truncating ∨ v.stage p = some .typing := by
  cases at' : v.stage p with
  | none => simp [at'] at freeing
  | some stage => cases stage <;> simp_all [Stage.freeing]

omit [DecidableEq Pid] in
/-- What `iput` knows while it frees the inode. -/
theorem freeing_spec (frees : v.stage p = some .truncating ∨ v.stage p = some .typing) :
    (v.holder = some p ∧ v.valid ∧ v.inode = v.disk ∧ v.inode.nlink = 0 ∧ v.inode.type ≠ 0 ∧
      v.ref = 1) ∧ ∀ r, v.refs r = 0 := by
  have own := inv.knows p
  have share : v.share p = v.refs p + 1 := by
    rcases frees with at' | at' <;> simp [View.share, at', pending]
  have knows : v.holder = some p ∧ v.valid ∧ v.inode = v.disk ∧ v.inode.nlink = 0 ∧
      v.inode.type ≠ 0 ∧ v.ref = 1 := by
    rcases frees with at' | at' <;> simpa only [View.Knows, at'] using own
  refine ⟨knows, fun r => ?_⟩
  by_cases self : r = p
  · have := inv.share_le p
    rw [self]
    omega
  · exact (inv.alone (p := p) (by omega) self).1

theorem truncate (truncates : v.stage p = some .truncating)
    (moved : ∀ r, stage r = if r = p then some .typing else v.stage r) :
    EntryInv { v with inode := v.inode.truncated, disk := v.inode.truncated, stage } := by
  obtain ⟨⟨holds, valid, _, unlinked, typed, last⟩, nobody⟩ := inv.freeing_spec (.inl truncates)
  refine inv.of_holder holds rfl rfl (others_moved moved) (by simp [moved, truncates, pending])
    (.inl rfl) ?_
    (fun r positive => ?_) (fun _ _ zero => absurd zero typed) (by simp)
  · simp only [View.Knows, moved, if_true]
    exact ⟨holds, valid, trivial, unlinked, typed, last⟩
  · simp [nobody r] at positive

/-- `iput` writes type zero: the inode is free from here on. -/
theorem writeFree (types : v.stage p = some .typing)
    (moved : ∀ r, stage r = if r = p then some .clearing else v.stage r) :
    EntryInv { v with
      inode := { v.inode with type := 0 }, disk := { v.inode with type := 0 }, stage } := by
  obtain ⟨⟨holds, valid, _⟩, nobody⟩ := inv.freeing_spec (.inr types)
  refine inv.of_holder holds rfl rfl (others_moved moved) (by simp [moved, types, pending])
    (.inl rfl) ?_
    (fun r positive => ?_) (fun _ _ _ => ⟨p, by simp [moved]⟩) (by simp)
  · simp only [View.Knows, moved, if_true]
    exact ⟨holds, valid⟩
  · simp [nobody r] at positive

/-- `iput` clears `valid` and lets others lock the entry again. -/
theorem clear (clears : v.stage p = some .clearing)
    (moved : ∀ r, stage r = if r = p then some .dropping else v.stage r) :
    EntryInv { v with valid := false, holder := none, stage } := by
  have own := inv.knows p
  simp only [View.Knows, clears] at own
  refine inv.of_holder own.1 rfl rfl (others_moved moved) (by simp [moved, clears, pending])
    (.inr rfl) ?_
    inv.live (by simp) (by simp)
  simp [View.Knows, moved]

theorem drop (drops : v.stage p = some .dropping)
    (moved : ∀ r, stage r = if r = p then none else v.stage r) :
    EntryInv { v with ref := v.ref - 1, stage } := by
  have own := inv.knows p
  simp only [View.Knows, drops] at own
  have share : v.share p = v.refs p + 1 := by simp [View.share, drops, pending]
  have used : 0 < v.ref := by have := inv.share_le p; omega
  refine ⟨?_, fun r => ?_, inv.live, fun _ valid zero => ?_, fun _ => inv.free used⟩
  · refine inv.count_change p (fun r other => by simp [moved, other]) ?_
    simp [View.share, moved, drops, pending]
  · by_cases self : r = p
    · subst self
      simpa only [View.Knows, moved, if_true] using own
    · -- somebody who frees would be alone at the entry
      have notFreeing : (v.stage r).any freeing = false := by
        by_contra freeing
        have at' := freeing_stage (by simpa using freeing)
        have single := (inv.freeing_spec at').1.2.2.2.2.2
        have all : v.ref ≤ v.share r := by
          rcases at' with at' | at' <;> simp [View.share, at', pending, single]
        have := (inv.alone all (Ne.symm self)).2.1
        simp [drops] at this
      have kept := inv.knows_ref (v.ref - 1) (q := r) le_rfl notFreeing
      simpa only [View.Knows, moved, if_neg self] using kept
  · exact clears_moved (by simp [drops]) moved (inv.typed used valid zero)

end

end iput

end EntryInv

end Xv6.Itable
