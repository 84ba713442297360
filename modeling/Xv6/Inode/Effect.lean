import Xv6.Inode.Entry

/-!
# What the steps of the inode table do

Each step with the guards it passed, and the entries it leaves alone.
-/

namespace Xv6.Itable

open State

variable {Pid : Type} [DecidableEq Pid]

def Pc.stage : Pc → Fin ninode → Option Stage
  | .on e stage, c => if e = c then some stage else none
  | _, _ => none

@[simp] theorem Pc.stage_on (e : Fin ninode) (stage : Stage) :
    (Pc.on e stage).stage e = some stage :=
  if_pos rfl

@[simp] theorem Pc.stage_idle (e : Fin ninode) : Pc.idle.stage e = none := rfl

section

omit [DecidableEq Pid]

def State.view (s : State Pid) (e : Fin ninode) : View Pid where
  ref := (s.entry e).ref
  valid := (s.entry e).valid
  inode := (s.entry e).inode
  dirty := (s.entry e).dirty
  holder := s.holder e
  refs p := s.refs p e
  stage p := (s.pc p).stage e
  disk := s.onDisk e

theorem stage_of_on {s : State Pid} {p : Pid} {e : Fin ninode} {stage : Stage}
    (at' : s.pc p = .on e stage) : (s.view e).stage p = some stage := by
  simp [view, at']

theorem stage_of_idle {s : State Pid} {p : Pid} (idle : s.pc p = .idle) (e : Fin ninode) :
    (s.view e).stage p = none := by
  simp [view, idle]

end

section view

variable (s : State Pid) (p : Pid) (e : Fin ninode)

theorem view_setPc (pc : Pc) : (s.setPc p pc).view e =
    { s.view e with stage := fun r => if r = p then pc.stage e else (s.pc r).stage e } := by
  simp only [view, setPc, onDisk, Function.update_apply, apply_ite Pc.stage, ite_apply]

theorem view_setPc_away {pc : Pc} (before : (s.pc p).stage e = none) (after : pc.stage e = none) :
    (s.setPc p pc).view e = s.view e := by
  rw [view_setPc]
  simp only [view, View.mk.injEq, true_and, and_true]
  funext r
  by_cases self : r = p <;> simp [self, before, after]

omit [DecidableEq Pid] in
theorem view_setHolder (holder : Option Pid) :
    (s.setHolder e holder).view e = { s.view e with holder } := by
  simp [view, setHolder, onDisk]

theorem view_setRefs (count : Nat) : (s.setRefs p e count).view e =
    { s.view e with refs := fun r => if r = p then count else s.refs r e } := by
  simp only [view, setRefs, onDisk, View.mk.injEq, true_and, and_true]
  funext r
  by_cases self : r = p <;> simp [self]

section

omit [DecidableEq Pid]

@[simp] theorem flush_entry : (s.flush e).entry = s.entry := rfl

@[simp] theorem setEntry_disk (f : Entry → Entry) : (s.setEntry e f).disk = s.disk := rfl

theorem view_setEntry (f : Entry → Entry) : (s.setEntry e f).view e =
    { s.view e with
      ref := (f (s.entry e)).ref
      valid := (f (s.entry e)).valid
      inode := (f (s.entry e)).inode
      dirty := (f (s.entry e)).dirty
      disk := s.disk (f (s.entry e)).dev (f (s.entry e)).inum } := by
  simp [view, setEntry, onDisk]

theorem view_setInode (inode : Dinode) : (s.setInode e inode).view e = { s.view e with inode } := by
  rw [setInode, view_setEntry]
  rfl

theorem view_flush : (s.flush e).view e = { s.view e with disk := (s.entry e).inode } := by
  simp [view, flush, setDisk, onDisk]

end

end view

/-- `iget` is called for a named inode, or by `ialloc` for its new one. -/
def Ready (s : State Pid) (p : Pid) (dev inum : Nat) : Prop :=
  (s.pc p = .idle ∧ Named s dev inum) ∨ s.pc p = .allocated dev inum

def Caches (s : State Pid) (e : Fin ninode) (dev inum : Nat) : Prop :=
  0 < (s.entry e).ref ∧ (s.entry e).dev = dev ∧ (s.entry e).inum = inum

variable (s : State Pid) (p : Pid) in
inductive Effect : State Pid → Prop where
  | hit {e dev inum} : Ready s p dev inum → Caches s e dev inum →
      Effect (((s.setEntry e fun entry => { entry with ref := entry.ref + 1 }).setRefs p e
        (s.refs p e + 1)).setPc p .idle)
  | recycle {e dev inum} : Ready s p dev inum → (s.entry e).ref = 0 → (∀ c, ¬ Caches s c dev inum) →
      Effect (((s.setEntry e fun entry =>
        { entry with dev, inum, ref := 1, valid := false }).setRefs p e (s.refs p e + 1)).setPc p
          .idle)
  | idup {e q} : 0 < s.refs p e →
      Effect ((s.setEntry e fun entry => { entry with ref := entry.ref + 1 }).setRefs q e
        (s.refs q e + 1))
  | pass {e q} : s.pc p = .idle → 0 < s.refs p e → p ≠ q → (s.holder e = some p → 1 < s.refs p e) →
      Effect ((s.setRefs p e (s.refs p e - 1)).setRefs q e (s.refs q e + 1))
  | lock {e} : s.pc p = .idle → 0 < s.refs p e → Effect (s.setPc p (.on e .locking))
  | acquire {e} : s.pc p = .on e .locking → s.holder e = none →
      Effect ((s.setHolder e (some p)).setPc p (.on e .testing))
  | found {e} : s.pc p = .on e .testing → (s.entry e).valid → Effect (s.setPc p .idle)
  | load {e} : s.pc p = .on e .testing → (s.entry e).valid = false →
      Effect ((s.setInode e (s.onDisk e)).setPc p (.on e .loaded))
  | loadDone {e} : s.pc p = .on e .loaded →
      Effect ((s.setEntry e fun entry => { entry with valid := true }).setPc p .idle)
  | modify {e inode} : s.pc p = .idle → s.holder e = some p → inode.type ≠ 0 →
      Effect (s.setEntry e fun entry => { entry with inode, dirty := inode ≠ s.onDisk e })
  | iupdate {e} : s.pc p = .idle → s.holder e = some p →
      Effect ((s.flush e).setEntry e fun entry => { entry with dirty := false })
  | iunlock {e} : s.pc p = .idle → s.holder e = some p → (s.entry e).dirty = false →
      Effect (s.setHolder e none)
  | iputFree {e} : s.pc p = .idle → 0 < s.refs p e → s.holder e = none →
      (s.entry e).ref = 1 → (s.entry e).valid → (s.entry e).inode.nlink = 0 →
      Effect (((s.setHolder e (some p)).setRefs p e (s.refs p e - 1)).setPc p (.on e .truncating))
  | iputDrop {e} : s.pc p = .idle → 0 < s.refs p e → (s.holder e = some p → 1 < s.refs p e) →
      Effect ((s.setEntry e fun entry => { entry with ref := entry.ref - 1 }).setRefs p e
        (s.refs p e - 1))
  | truncate {e} : s.pc p = .on e .truncating →
      Effect (((s.setInode e (s.entry e).inode.truncated).flush e).setPc p (.on e .typing))
  | writeFree {e} : s.pc p = .on e .typing →
      Effect ((({ s with frees := bump s.frees (s.entry e).dev (s.entry e).inum }.setInode
        e { (s.entry e).inode with type := 0 }).flush e).setPc p (.on e .clearing))
  | clear {e} : s.pc p = .on e .clearing →
      Effect (((s.setEntry e fun entry => { entry with valid := false }).setHolder e none).setPc
        p (.on e .dropping))
  | drop {e} : s.pc p = .on e .dropping →
      Effect ((s.setEntry e fun entry => { entry with ref := entry.ref - 1 }).setPc p .idle)
  | ialloc {dev type} : s.pc p = .idle → type ≠ 0 → Effect (s.setPc p (.scanning dev 1 type))
  | claim {dev inum type} : s.pc p = .scanning dev inum type → (s.disk dev inum).type = 0 →
      Effect (({ s with allocs := bump s.allocs dev inum }.setDisk dev inum
        { Dinode.zero with type }).setPc p (.allocated dev inum))
  | skip {dev inum type} : s.pc p = .scanning dev inum type →
      Effect (s.setPc p (.scanning dev (inum + 1) type))
  | giveUp {dev inum type} : s.pc p = .scanning dev inum type → Effect (s.setPc p .idle)

variable {dev inum : Nat} {entry : Fin ninode → Entry} {empty : Option (Fin ninode)}

theorem igetScan_hit {l : List (Fin ninode)}
    {e : Fin ninode} (found : igetScan entry dev inum l empty = .hit e) :
    0 < (entry e).ref ∧ (entry e).dev = dev ∧ (entry e).inum = inum := by
  induction l generalizing empty with
  | nil => cases empty <;> simp [igetScan] at found
  | cons c rest ih =>
    simp only [igetScan] at found
    split at found
    next key => cases found; exact key
    next =>
      split at found
      all_goals exact ih found

theorem igetScan_recycle {l : List (Fin ninode)} {e : Fin ninode}
    (unused : ∀ c ∈ empty, (entry c).ref = 0)
    (found : igetScan entry dev inum l empty = .recycle e) :
    (entry e).ref = 0 ∧
      ∀ c ∈ l, ¬ (0 < (entry c).ref ∧ (entry c).dev = dev ∧ (entry c).inum = inum) := by
  induction l generalizing empty with
  | nil =>
    cases empty with
    | none => simp [igetScan] at found
    | some c => simp only [igetScan] at found; cases found; simpa using unused
  | cons c rest ih =>
    simp only [igetScan] at found
    split at found
    next => cases found
    next key =>
      split at found
      next isFree =>
        obtain ⟨zero, absent⟩ := ih (by simpa using isFree.2) found
        exact ⟨zero, List.forall_mem_cons.mpr ⟨key, absent⟩⟩
      next =>
        obtain ⟨zero, absent⟩ := ih unused found
        exact ⟨zero, List.forall_mem_cons.mpr ⟨key, absent⟩⟩

theorem stepIget_effect {s s' : State Pid} {p : Pid} (ready : Ready s p dev inum)
    (moved : s.stepIget p dev inum = .next s') : Effect s p s' := by
  unfold stepIget at moved
  split at moved
  next e found => cases moved; exact .hit ready (igetScan_hit found)
  next e found =>
    cases moved
    obtain ⟨zero, absent⟩ := igetScan_recycle (by simp) found
    exact .recycle ready zero fun c => absent c (List.mem_finRange c)
  next => cases moved

theorem step_effect {ninodes : Nat} {s s' : State Pid} {p : Pid} {action : Action Pid}
    (disciplined : Disciplined s p action) (moved : s.step ninodes p action = .next s') :
    Effect s p s' := by
  cases action with
  | iget dev inum => exact stepIget_effect (.inl disciplined) moved
  | idup e q => cases moved; exact .idup disciplined.2
  | pass e q =>
    obtain ⟨idle, owns, other, keeps⟩ := disciplined
    simp only [step] at moved
    cases moved
    have same : (s.setRefs p e (s.refs p e - 1)).refs q e = s.refs q e := by
      simp [setRefs, Function.update_of_ne other.symm]
    rw [same]
    exact .pass idle owns other keeps
  | ilock e =>
    simp only [step] at moved
    split at moved
    next => cases moved
    next => cases moved; exact .lock disciplined.1 disciplined.2
  | modify e inode => cases moved; exact .modify disciplined.1 disciplined.2.1 disciplined.2.2
  | iupdate e => cases moved; exact .iupdate disciplined.1 disciplined.2
  | iunlock e =>
    simp only [step] at moved
    split at moved
    next => cases moved
    next => cases moved; exact .iunlock disciplined.1 disciplined.2.1 disciplined.2.2
  | iput e =>
    obtain ⟨idle, owns, keeps⟩ := disciplined
    simp only [step] at moved
    split at moved
    next last =>
      split at moved
      next free => cases moved; exact .iputFree idle owns free last.1 last.2.1 last.2.2
      next => cases moved
    next => cases moved; exact .iputDrop idle owns keeps
  | ialloc dev type => cases moved; exact .ialloc disciplined.1 disciplined.2
  | next =>
    simp only [step] at moved
    split at moved
    next => cases moved
    next e at' =>
      split at moved
      next free => cases moved; exact .acquire at' free
      next => cases moved
    next e at' =>
      split at moved
      next valid => cases moved; exact .found at' valid
      next invalid => cases moved; exact .load at' (by simpa using invalid)
    next e at' =>
      split at moved
      next => cases moved
      next => cases moved; exact .loadDone at'
    next e at' => cases moved; exact .truncate at'
    next e at' => cases moved; exact .writeFree at'
    next e at' => cases moved; exact .clear at'
    next e at' => cases moved; exact .drop at'
    next dev inum type at' =>
      split at moved
      next =>
        split at moved
        next isFree => cases moved; exact .claim at' isFree
        next => cases moved; exact .skip at'
      next => cases moved; exact .giveUp at'
    next dev inum at' => exact stepIget_effect (.inr at') moved

end Xv6.Itable
