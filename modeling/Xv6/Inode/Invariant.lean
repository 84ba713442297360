import Xv6.Inode.Effect

/-!
# The invariant of the inode table

Every entry keeps its own invariant, no inode is cached twice, and an inode
that `ialloc` has taken has no usable reference until `iget` makes one. The
last point covers the window in which the `iput` that freed the inode has yet
to decrement `ref`.
-/

namespace Xv6.Itable

open State
open Function (update update_of_ne update_self)

variable {Pid : Type}

/-- From `s` to `s'` nothing but entry `e` changes, as far as entries go. -/
structure Elsewhere (s s' : State Pid) (e : Fin ninode) : Prop where
  entry : ∀ c, c ≠ e → s'.entry c = s.entry c
  holder : ∀ c, c ≠ e → s'.holder c = s.holder c
  refs : ∀ c, c ≠ e → ∀ q, s'.refs q c = s.refs q c
  stage : ∀ c, c ≠ e → ∀ q, (s'.pc q).stage c = (s.pc q).stage c

def Pc.Only (pc : Pc) (e : Fin ninode) : Prop := ∀ c, c ≠ e → pc.stage c = none

theorem Pc.only_idle (e : Fin ninode) : Pc.idle.Only e := fun _ _ => rfl

theorem Pc.only_on (e : Fin ninode) (stage : Stage) : (Pc.on e stage).Only e :=
  fun _ other => if_neg other.symm

theorem Pc.only_allocated (e : Fin ninode) (dev inum : Nat) : (Pc.allocated dev inum).Only e :=
  fun _ _ => rfl

variable {pc : Pc}

section elsewhere

variable {s t : State Pid} {p : Pid} {e : Fin ninode}

theorem Elsewhere.refl (s : State Pid) (e : Fin ninode) : Elsewhere s s e :=
  ⟨fun _ _ => rfl, fun _ _ => rfl, fun _ _ _ => rfl, fun _ _ _ => rfl⟩

variable (elsewhere : Elsewhere s t e)

include elsewhere

theorem Elsewhere.setPc [DecidableEq Pid] (before : (t.pc p).Only e) (after : pc.Only e) :
    Elsewhere s (t.setPc p pc) e where
  entry := elsewhere.entry
  holder := elsewhere.holder
  refs := elsewhere.refs
  stage c other q := by
    rw [← elsewhere.stage c other q]
    by_cases self : q = p
    · subst self
      simp [setPc, before c other, after c other]
    · simp [State.setPc, self]

theorem Elsewhere.setEntry (f : Entry → Entry) :
    Elsewhere s (t.setEntry e f) e where
  entry c other := by simp [State.setEntry, other, elsewhere.entry c other]
  holder := elsewhere.holder
  refs := elsewhere.refs
  stage := elsewhere.stage

theorem Elsewhere.setInode (inode : Dinode) :
    Elsewhere s (t.setInode e inode) e :=
  elsewhere.setEntry _

theorem Elsewhere.setHolder (holder : Option Pid) :
    Elsewhere s (t.setHolder e holder) e where
  entry := elsewhere.entry
  holder c other := by simp [State.setHolder, other, elsewhere.holder c other]
  refs := elsewhere.refs
  stage := elsewhere.stage

theorem Elsewhere.setRefs [DecidableEq Pid] (q : Pid) (count : Nat) :
    Elsewhere s (t.setRefs q e count) e where
  entry := elsewhere.entry
  holder := elsewhere.holder
  refs c other r := by
    rw [← elsewhere.refs c other r]
    by_cases self : r = q <;> simp [State.setRefs, self, other]
  stage := elsewhere.stage

theorem Elsewhere.flush : Elsewhere s (t.flush e) e :=
  ⟨elsewhere.entry, elsewhere.holder, elsewhere.refs, elsewhere.stage⟩

theorem Elsewhere.view {c : Fin ninode} (other : c ≠ e) :
    t.view c = { s.view c with disk := t.onDisk c } := by
  simp only [State.view, elsewhere.entry c other, elsewhere.holder c other,
    elsewhere.refs c other, elsewhere.stage c other]

theorem Elsewhere.caches {c : Fin ninode} (other : c ≠ e) {dev inum : Nat} :
    Caches t c dev inum ↔ Caches s c dev inum := by
  simp only [Caches, elsewhere.entry c other]

end elsewhere

/-- An update of one inode's place in a table of the devices' inodes. -/
theorem update_other {α : Type} {table : Nat → Nat → α} {a : α} {dev inum dev' inum' : Nat}
    (other : ¬ (dev = dev' ∧ inum = inum')) :
    update table dev (update (table dev) inum a) dev' inum' =
      table dev' inum' := by
  by_cases same : dev' = dev
  · subst same
    have : inum' ≠ inum := fun same => other ⟨rfl, same.symm⟩
    simp [this]
  · simp [same]

theorem bump_other {counts : Nat → Nat → Nat} {dev inum dev' inum' : Nat}
    (other : ¬ (dev = dev' ∧ inum = inum')) :
    bump counts dev inum dev' inum' = counts dev' inum' :=
  update_other other

theorem setDisk_self (s : State Pid) (dev inum : Nat) (inode : Dinode) :
    (s.setDisk dev inum inode).disk dev inum = inode := by
  simp [setDisk]

variable {inode : Dinode}

theorem setDisk_other {s : State Pid} {dev inum dev' inum' : Nat}
    (other : ¬ (dev = dev' ∧ inum = inum')) :
    (s.setDisk dev inum inode).disk dev' inum' = s.disk dev' inum' :=
  update_other other

@[simp] theorem flush_disk_self (s : State Pid) (e : Fin ninode) :
    (s.flush e).disk (s.entry e).dev (s.entry e).inum = (s.entry e).inode :=
  setDisk_self _ _ _ _

theorem flush_disk_other {s : State Pid} {e : Fin ninode} {dev inum : Nat}
    (other : ¬ ((s.entry e).dev = dev ∧ (s.entry e).inum = inum)) :
    (s.flush e).disk dev inum = s.disk dev inum :=
  setDisk_other other

theorem setInode_flush_disk (s : State Pid) (e : Fin ninode) (inode : Dinode) (dev inum : Nat) :
    ((s.setInode e inode).flush e).disk dev inum =
      if (s.entry e).dev = dev ∧ (s.entry e).inum = inum then inode else s.disk dev inum := by
  have entry : (s.setInode e inode).entry e = { s.entry e with inode } := by
    simp [setInode, setEntry]
  split
  next same =>
    obtain ⟨rfl, rfl⟩ := same
    have written := flush_disk_self (s.setInode e inode) e
    rwa [entry] at written
  next other => exact flush_disk_other (by rwa [entry])

variable [Fintype Pid]

structure Inv (s : State Pid) : Prop where
  entry : ∀ e, EntryInv (s.view e)
  unique : ∀ e c dev inum, Caches s e dev inum → Caches s c dev inum → e = c
  free : ∀ dev inum, (s.disk dev inum).type = 0 → (s.disk dev inum).nlink = 0
  scanning : ∀ p dev inum type, s.pc p = .scanning dev inum type → type ≠ 0
  fresh : ∀ p dev inum, s.pc p = .allocated dev inum →
    (s.disk dev inum).type ≠ 0 ∧ (s.disk dev inum).nlink = 0 ∧
      (∀ e, Caches s e dev inum → ∀ q, s.refs q e = 0 ∧
        ((s.pc q).stage e).any Stage.freeing = false) ∧
      ∀ q, s.pc q = .allocated dev inum → q = p
  counted : ∀ dev inum, s.allocs dev inum =
    s.frees dev inum + if (s.disk dev inum).type = 0 then 0 else 1

section frame

variable {s s' : State Pid} {p : Pid} {e : Fin ninode}

variable (inv : Inv s)

include inv

theorem Inv.entries (elsewhere : Elsewhere s s' e) (disk : s'.disk = s.disk)
    (here : EntryInv (s'.view e)) (c : Fin ninode) : EntryInv (s'.view c) := by
  by_cases self : c = e
  · exact self ▸ here
  · have same : s'.onDisk c = s.onDisk c := by
      simp [onDisk, disk, elsewhere.entry c self]
    rw [elsewhere.view self, same]
    exact inv.entry c

theorem Inv.entries_flush (elsewhere : Elsewhere s s' e) (used : 0 < (s.entry e).ref)
    (disk : ∀ dev inum, ¬ ((s.entry e).dev = dev ∧ (s.entry e).inum = inum) →
      s'.disk dev inum = s.disk dev inum)
    (here : EntryInv (s'.view e)) (c : Fin ninode) : EntryInv (s'.view c) := by
  by_cases self : c = e
  · exact self ▸ here
  · rw [elsewhere.view self]
    by_cases same : (s.entry e).dev = (s.entry c).dev ∧ (s.entry e).inum = (s.entry c).inum
    · -- no other entry in use has this key
      have zero : (s.view c).ref = 0 := by
        by_contra positive
        have used' : 0 < (s.entry c).ref :=
          lt_of_le_of_ne (inv.entry c).ref_nonneg (Ne.symm positive)
        exact self (inv.unique c e _ _ ⟨used', rfl, rfl⟩ ⟨used, same.1, same.2⟩)
      exact (inv.entry c).unused_disk zero _
    · have same' : s'.onDisk c = s.onDisk c := by
        simp only [onDisk, elsewhere.entry c self]
        exact disk _ _ same
      rw [same']
      exact inv.entry c

/-- While somebody may use an entry or is freeing it, `ialloc` has not just
taken its inode. -/
theorem Inv.not_fresh {dev inum : Nat} (caches : Caches s e dev inum)
    (busy : 0 < s.refs p e ∨ ((s.pc p).stage e).any Stage.freeing) (q : Pid) :
    s.pc q ≠ .allocated dev inum := by
  intro allocated
  obtain ⟨none, notFreeing⟩ := (inv.fresh q dev inum allocated).2.2.1 e caches p
  rcases busy with owns | freeing
  · omega
  · simp [notFreeing] at freeing

/-- A step on one entry that leaves the disk alone. -/
theorem Inv.of_local (elsewhere : Elsewhere s s' e) (disk : s'.disk = s.disk)
    (allocs : s'.allocs = s.allocs) (frees : s'.frees = s.frees) (here : EntryInv (s'.view e))
    (scanning : ∀ q dev inum type, s'.pc q = .scanning dev inum type → type ≠ 0)
    (pcs : ∀ q dev inum, s'.pc q = .allocated dev inum → s.pc q = .allocated dev inum)
    (unique : ∀ c dev inum, c ≠ e → Caches s' e dev inum → ¬ Caches s c dev inum)
    (fresh : ∀ q dev inum, s'.pc q = .allocated dev inum → Caches s' e dev inum →
      ∀ r, s'.refs r e = 0 ∧ ((s'.pc r).stage e).any Stage.freeing = false) :
    Inv s' where
  entry := inv.entries elsewhere disk here
  unique c d dev inum left right := by
    by_cases hc : c = e <;> by_cases hd : d = e
    · rw [hc, hd]
    · subst hc
      exact absurd ((elsewhere.caches hd).mp right) (unique d dev inum hd left)
    · subst hd
      exact absurd ((elsewhere.caches hc).mp left) (unique c dev inum hc right)
    · exact inv.unique c d dev inum ((elsewhere.caches hc).mp left) ((elsewhere.caches hd).mp right)
  free := by simpa only [disk] using inv.free
  scanning := scanning
  fresh q dev inum allocated := by
    obtain ⟨typed, unlinked, unreferenced, single⟩ :=
      inv.fresh q dev inum (pcs q dev inum allocated)
    rw [disk]
    refine ⟨typed, unlinked, fun c caches r => ?_, fun r other => single r (pcs r dev inum other)⟩
    by_cases self : c = e
    · subst self
      exact fresh q dev inum allocated caches r
    · rw [elsewhere.refs c self, elsewhere.stage c self]
      exact unreferenced c ((elsewhere.caches self).mp caches) r
  counted := by simpa only [disk, allocs, frees] using inv.counted

theorem Inv.of_used (elsewhere : Elsewhere s s' e) (disk : s'.disk = s.disk)
    (allocs : s'.allocs = s.allocs) (frees : s'.frees = s.frees) (owns : 0 < s.refs p e)
    (key : (s'.entry e).dev = (s.entry e).dev ∧ (s'.entry e).inum = (s.entry e).inum)
    (scanning : ∀ q dev inum type, s'.pc q = .scanning dev inum type → type ≠ 0)
    (pcs : ∀ q dev inum, s'.pc q = .allocated dev inum → s.pc q = .allocated dev inum)
    (here : EntryInv (s'.view e)) : Inv s' := by
  have used : 0 < (s.entry e).ref := by
    have := (inv.entry e).refs_le p
    change (s.refs p e : Int) ≤ _ at this
    change 0 < (s.view e).ref
    omega
  have before : ∀ {dev inum}, Caches s' e dev inum → Caches s e dev inum := by
    rintro dev inum ⟨_, sameDev, sameInum⟩
    exact ⟨used, key.1 ▸ sameDev, key.2 ▸ sameInum⟩
  refine inv.of_local elsewhere disk allocs frees here scanning pcs ?_ ?_
  · intro c dev inum other left right
    exact other (inv.unique c e dev inum right (before left))
  · intro q dev inum allocated caches
    exact absurd (pcs q dev inum allocated) (inv.not_fresh (before caches) (.inl owns) q)

/-- A step that writes the dinode of an entry which somebody may use or is
freeing. -/
theorem Inv.of_flush (elsewhere : Elsewhere s s' e)
    (busy : 0 < s.refs p e ∨ ((s.pc p).stage e).any Stage.freeing) (used : 0 < (s.entry e).ref)
    (key : (s'.entry e).dev = (s.entry e).dev ∧ (s'.entry e).inum = (s.entry e).inum)
    (outside : ∀ dev inum, ¬ ((s.entry e).dev = dev ∧ (s.entry e).inum = inum) →
      s'.disk dev inum = s.disk dev inum ∧ s'.allocs dev inum = s.allocs dev inum ∧
      s'.frees dev inum = s.frees dev inum)
    (free : (s'.onDisk e).type = 0 → (s'.onDisk e).nlink = 0)
    (counted : s'.allocs (s.entry e).dev (s.entry e).inum =
      s'.frees (s.entry e).dev (s.entry e).inum + if (s'.onDisk e).type = 0 then 0 else 1)
    (scanning : ∀ q dev inum type, s'.pc q = .scanning dev inum type → type ≠ 0)
    (pcs : ∀ q dev inum, s'.pc q = .allocated dev inum → s.pc q = .allocated dev inum)
    (here : EntryInv (s'.view e)) : Inv s' := by
  have onDisk : s'.onDisk e = s'.disk (s.entry e).dev (s.entry e).inum := by
    rw [onDisk, key.1, key.2]
  have before : ∀ {dev inum}, Caches s' e dev inum → Caches s e dev inum := by
    rintro dev inum ⟨_, rfl, rfl⟩
    exact ⟨used, key.1.symm, key.2.symm⟩
  have backwards : ∀ {c dev inum}, Caches s' c dev inum → Caches s c dev inum := by
    intro c dev inum caches
    by_cases self : c = e
    · subst self
      exact before caches
    · exact (elsewhere.caches self).mp caches
  refine ⟨?_, ?_, ?_, scanning, ?_, ?_⟩
  · exact inv.entries_flush elsewhere used (fun dev inum other => (outside dev inum other).1) here
  · exact fun c d dev inum left right => inv.unique c d dev inum (backwards left) (backwards right)
  · intro dev inum
    by_cases same : (s.entry e).dev = dev ∧ (s.entry e).inum = inum
    · obtain ⟨rfl, rfl⟩ := same
      rwa [← onDisk]
    · rw [(outside dev inum same).1]
      exact inv.free dev inum
  · intro q dev inum allocated
    have allocated' := pcs q dev inum allocated
    have other : ¬ ((s.entry e).dev = dev ∧ (s.entry e).inum = inum) := fun same =>
      inv.not_fresh ⟨used, same.1, same.2⟩ busy q allocated'
    obtain ⟨typed, unlinked, unreferenced, single⟩ := inv.fresh q dev inum allocated'
    rw [(outside dev inum other).1]
    refine ⟨typed, unlinked, fun c caches r => ?_, fun r also => single r (pcs r dev inum also)⟩
    have different : c ≠ e := by
      rintro rfl
      exact other (before caches).2
    rw [elsewhere.refs c different, elsewhere.stage c different]
    exact unreferenced c (backwards caches) r
  · intro dev inum
    by_cases same : (s.entry e).dev = dev ∧ (s.entry e).inum = inum
    · obtain ⟨rfl, rfl⟩ := same
      rwa [← onDisk]
    · obtain ⟨disk, allocs, frees⟩ := outside dev inum same
      rw [disk, allocs, frees]
      exact inv.counted dev inum

end frame

variable [DecidableEq Pid]

section steps

variable {s s' : State Pid} {p q : Pid} {e : Fin ninode} {dev inum : Nat}

section

variable (inv : Inv s)

include inv

omit [DecidableEq Pid] in
theorem Inv.used (owns : 0 < s.refs p e) : 0 < (s.entry e).ref := by
  have := (inv.entry e).refs_le p
  change (s.refs p e : Int) ≤ _ at this
  change 0 < (s.view e).ref
  omega

theorem Inv.scanning_setPc {t : State Pid} (same : t.pc = s.pc)
    (quiet : ∀ dev inum type, pc ≠ .scanning dev inum type) :
    ∀ q dev inum type, (t.setPc p pc).pc q = .scanning dev inum type → type ≠ 0 := by
  intro q dev inum type at'
  by_cases self : q = p
  · simp [setPc, self, quiet] at at'
  · simp only [setPc, update_of_ne self, same] at at'
    exact inv.scanning q dev inum type at'

omit inv in
omit [Fintype Pid] in
theorem allocated_setPc {t : State Pid} (same : t.pc = s.pc)
    (quiet : ∀ dev inum, pc ≠ .allocated dev inum) :
    ∀ q dev inum, (t.setPc p pc).pc q = .allocated dev inum → s.pc q = .allocated dev inum := by
  intro q dev inum at'
  by_cases self : q = p
  · simp [setPc, self, quiet] at at'
  · simpa only [setPc, update_of_ne self, same] using at'

theorem Inv.at_entry (owns : 0 < s.refs p e) (before : (s.pc p).Only e) {t : State Pid}
    (elsewhere : Elsewhere s t e) (same : t.pc = s.pc) (disk : t.disk = s.disk)
    (allocs : t.allocs = s.allocs) (frees : t.frees = s.frees)
    (key : (t.entry e).dev = (s.entry e).dev ∧ (t.entry e).inum = (s.entry e).inum)
    (after : pc = .idle ∨ ∃ stage, pc = .on e stage) (here : EntryInv ((t.setPc p pc).view e)) :
    Inv (t.setPc p pc) := by
  have only : pc.Only e := by
    rcases after with rfl | ⟨stage, rfl⟩
    · exact Pc.only_idle e
    · exact Pc.only_on e stage
  refine inv.of_used (elsewhere.setPc (by rwa [same]) only) disk allocs frees owns key ?_ ?_ here
  · refine inv.scanning_setPc same ?_
    rcases after with rfl | ⟨stage, rfl⟩ <;> simp
  · refine allocated_setPc same ?_
    rcases after with rfl | ⟨stage, rfl⟩ <;> simp

theorem Inv.lock (idle : s.pc p = .idle) (owns : 0 < s.refs p e) :
    Inv (s.setPc p (.on e .locking)) := by
  refine inv.at_entry owns (idle ▸ Pc.only_idle e) (.refl s e) rfl rfl rfl rfl ⟨rfl, rfl⟩
    (.inr ⟨_, rfl⟩) ?_
  rw [view_setPc]
  exact (inv.entry e).lock (stage_of_idle idle e) owns fun r => by simp [view]

omit [DecidableEq Pid] in
theorem Inv.owns_of_ilock {stage : Stage} (at' : s.pc p = .on e stage)
    (locks : stage = .locking ∨ stage = .testing ∨ stage = .loaded) : 0 < s.refs p e := by
  have knows := (inv.entry e).knows p
  rcases locks with rfl | rfl | rfl <;>
    simp only [View.Knows, view, at', Pc.stage_on] at knows <;> exact knows.1

theorem Inv.acquire (at' : s.pc p = .on e .locking) (free : s.holder e = none) :
    Inv ((s.setHolder e (some p)).setPc p (.on e .testing)) := by
  refine inv.at_entry (inv.owns_of_ilock at' (by simp)) (at' ▸ Pc.only_on e _)
    ((Elsewhere.refl s e).setHolder _) rfl rfl rfl rfl ⟨rfl, rfl⟩ (.inr ⟨_, rfl⟩) ?_
  rw [view_setPc, view_setHolder]
  exact (inv.entry e).acquire (stage_of_on at') free fun r => by simp [view, setHolder]

theorem Inv.found (at' : s.pc p = .on e .testing) (valid : (s.entry e).valid) :
    Inv (s.setPc p .idle) := by
  refine inv.at_entry (inv.owns_of_ilock at' (by simp)) (at' ▸ Pc.only_on e _) (.refl s e) rfl rfl
    rfl rfl ⟨rfl, rfl⟩ (.inl rfl) ?_
  rw [view_setPc]
  exact (inv.entry e).found (stage_of_on at') valid fun r => by simp [view]

theorem Inv.load (at' : s.pc p = .on e .testing) (invalid : (s.entry e).valid = false) :
    Inv ((s.setInode e (s.onDisk e)).setPc p (.on e .loaded)) := by
  refine inv.at_entry (inv.owns_of_ilock at' (by simp)) (at' ▸ Pc.only_on e _)
    ((Elsewhere.refl s e).setInode _) rfl rfl rfl rfl
    (by simp [setInode, setEntry]) (.inr ⟨_, rfl⟩) ?_
  rw [view_setPc, view_setInode]
  exact (inv.entry e).load (stage_of_on at') invalid fun r => by
    simp [view, setInode, setEntry]

theorem Inv.loadDone (at' : s.pc p = .on e .loaded) :
    Inv ((s.setEntry e fun entry => { entry with valid := true }).setPc p .idle) := by
  refine inv.at_entry (inv.owns_of_ilock at' (by simp)) (at' ▸ Pc.only_on e _)
    ((Elsewhere.refl s e).setEntry _) rfl rfl rfl rfl
    (by simp [setEntry]) (.inl rfl) ?_
  rw [view_setPc, view_setEntry]
  exact (inv.entry e).loadDone (stage_of_on at') fun r => by
    simp [view, setEntry]

omit [DecidableEq Pid] in
theorem Inv.modify (idle : s.pc p = .idle) (holds : s.holder e = some p) (typed : inode.type ≠ 0) :
    Inv (s.setEntry e fun entry => { entry with inode, dirty := inode ≠ s.onDisk e }) := by
  obtain ⟨owns, _, _⟩ := (inv.entry e).used_of_held holds (stage_of_idle idle e)
  refine inv.of_used ((Elsewhere.refl s e).setEntry _) rfl rfl rfl owns
    (by simp [setEntry]) inv.scanning (fun _ _ _ at' => at') ?_
  rw [view_setEntry]
  exact (inv.entry e).modify holds (stage_of_idle idle e) typed
    fun clean => not_not.mp (of_decide_eq_false clean)

omit [DecidableEq Pid] in
theorem Inv.iunlock (idle : s.pc p = .idle) (holds : s.holder e = some p)
    (clean : (s.entry e).dirty = false) : Inv (s.setHolder e none) := by
  obtain ⟨owns, _, _⟩ := (inv.entry e).used_of_held holds (stage_of_idle idle e)
  refine inv.of_used ((Elsewhere.refl s e).setHolder _) rfl rfl rfl owns ⟨rfl, rfl⟩ inv.scanning
    (fun _ _ _ at' => at') ?_
  rw [view_setHolder]
  exact (inv.entry e).iunlock holds (stage_of_idle idle e) clean

theorem Inv.iputFree (idle : s.pc p = .idle) (owns : 0 < s.refs p e)
    (free : s.holder e = none) (last : (s.entry e).ref = 1) (valid : (s.entry e).valid)
    (unlinked : (s.entry e).inode.nlink = 0) :
    Inv (((s.setHolder e (some p)).setRefs p e (s.refs p e - 1)).setPc p (.on e .truncating)) := by
  refine inv.at_entry owns (idle ▸ Pc.only_idle e)
    (((Elsewhere.refl s e).setHolder _).setRefs p _) rfl rfl rfl rfl ⟨rfl, rfl⟩ (.inr ⟨_, rfl⟩) ?_
  rw [view_setPc, view_setRefs, view_setHolder]
  exact (inv.entry e).iputFree (stage_of_idle idle e) owns free last valid unlinked
    (fun r => by simp [view, setHolder])
    fun r => by simp [view, setRefs, setHolder]

theorem Inv.iputDrop (idle : s.pc p = .idle) (owns : 0 < s.refs p e)
    (keeps : s.holder e = some p → 1 < s.refs p e) :
    Inv ((s.setEntry e fun entry => { entry with ref := entry.ref - 1 }).setRefs p e
      (s.refs p e - 1)) := by
  refine inv.of_used (((Elsewhere.refl s e).setEntry _).setRefs p _) rfl rfl rfl owns
    (by simp [setRefs, setEntry]) inv.scanning (fun _ _ _ at' => at') ?_
  rw [view_setRefs, view_setEntry]
  exact (inv.entry e).iputDrop (stage_of_idle idle e) owns keeps fun r => by simp [view, setEntry]

theorem Inv.idup (owns : 0 < s.refs p e) :
    Inv ((s.setEntry e fun entry => { entry with ref := entry.ref + 1 }).setRefs q e
      (s.refs q e + 1)) := by
  refine inv.of_used (((Elsewhere.refl s e).setEntry _).setRefs q _) rfl rfl rfl owns
    (by simp [setRefs, setEntry]) inv.scanning (fun _ _ _ at' => at') ?_
  rw [view_setRefs, view_setEntry]
  exact (inv.entry e).gain (inv.used owns) ((inv.entry e).live p owns)
    ((inv.entry e).not_freeing owns) q fun r => by simp [view, setEntry]

theorem Inv.pass (idle : s.pc p = .idle) (owns : 0 < s.refs p e) (other : p ≠ q)
    (keeps : s.holder e = some p → 1 < s.refs p e) :
    Inv ((s.setRefs p e (s.refs p e - 1)).setRefs q e (s.refs q e + 1)) := by
  refine inv.of_used (((Elsewhere.refl s e).setRefs p _).setRefs q _) rfl rfl rfl owns
    ⟨rfl, rfl⟩ inv.scanning (fun _ _ _ at' => at') ?_
  rw [view_setRefs, view_setRefs]
  refine (inv.entry e).pass owns other keeps (stage_of_idle idle e) fun r => ?_
  by_cases self : r = p <;> simp [view, setRefs, self]

end

omit [Fintype Pid] [DecidableEq Pid] in
theorem Ready.only (ready : Ready s p dev inum) (e : Fin ninode) :
    (s.pc p).stage e = none ∧ (s.pc p).Only e := by
  rcases ready with ⟨idle, _⟩ | allocated
  · rw [idle]
    exact ⟨rfl, Pc.only_idle e⟩
  · rw [allocated]
    exact ⟨rfl, Pc.only_allocated e dev inum⟩

section

omit [DecidableEq Pid]

theorem Inv.ready_live (inv : Inv s) (ready : Ready s p dev inum) : (s.disk dev inum).type ≠ 0 := by
  rcases ready with ⟨_, linked, _⟩ | allocated
  · exact fun zero => linked (inv.free dev inum zero)
  · exact (inv.fresh p dev inum allocated).1

theorem Inv.ready_single (inv : Inv s) (ready : Ready s p dev inum)
    (other : s.pc q = .allocated dev inum) : q = p := by
  rcases ready with ⟨_, linked, _⟩ | allocated
  · exact absurd (inv.fresh q dev inum other).2.1 linked
  · exact (inv.fresh p dev inum allocated).2.2.2 q other

/-- Nobody is freeing an inode that `iget` is called for: it has a name, or it
has just been allocated. -/
theorem Inv.ready_kept (inv : Inv s) (ready : Ready s p dev inum) (caches : Caches s e dev inum)
    (q : Pid) : ((s.view e).stage q).any Stage.freeing = false := by
  rcases ready with ⟨_, _, linked⟩ | allocated
  · by_contra freeing
    obtain ⟨⟨_, valid, _, unlinked, _⟩, _⟩ :=
      (inv.entry e).freeing_spec (EntryInv.freeing_stage (by simpa using freeing))
    exact linked e caches.1 caches.2.1 caches.2.2 valid unlinked
  · exact ((inv.fresh p dev inum allocated).2.2.1 e caches q).2

end

section

variable (inv : Inv s)

include inv

/-- `iget` returns an entry for the inode, which it caches from now on. -/
theorem Inv.iget (ready : Ready s p dev inum) {t : State Pid} (elsewhere : Elsewhere s t e)
    (same : t.pc = s.pc) (disk : t.disk = s.disk) (allocs : t.allocs = s.allocs)
    (frees : t.frees = s.frees) (key : (t.entry e).dev = dev ∧ (t.entry e).inum = inum)
    (single : ∀ c, c ≠ e → ¬ Caches s c dev inum) (here : EntryInv (t.view e)) :
    Inv (t.setPc p .idle) := by
  obtain ⟨away, only⟩ := ready.only e
  have named : ∀ {dev' inum'}, Caches (t.setPc p .idle) e dev' inum' → dev' = dev ∧
      inum' = inum := by
    rintro dev' inum' ⟨_, rfl, rfl⟩
    exact key
  refine inv.of_local (elsewhere.setPc (same ▸ only) (Pc.only_idle e)) disk allocs frees ?_
    (inv.scanning_setPc same (by simp)) (allocated_setPc same (by simp)) ?_ ?_
  · rwa [view_setPc_away _ _ _ (same ▸ away) (by rfl)]
  · intro c dev' inum' other caches
    obtain ⟨rfl, rfl⟩ := named caches
    exact single c other
  · intro q dev' inum' allocated caches
    obtain ⟨rfl, rfl⟩ := named caches
    obtain rfl := inv.ready_single ready (allocated_setPc same (by simp) q _ _ allocated)
    simp [setPc] at allocated

theorem Inv.hit (ready : Ready s p dev inum) (caches : Caches s e dev inum) :
    Inv (((s.setEntry e fun entry => { entry with ref := entry.ref + 1 }).setRefs p e
      (s.refs p e + 1)).setPc p .idle) := by
  have live : (s.onDisk e).type ≠ 0 := by
    rw [onDisk, caches.2.1, caches.2.2]
    exact inv.ready_live ready
  refine inv.iget ready (((Elsewhere.refl s e).setEntry _).setRefs p _) rfl rfl rfl rfl ?_ ?_ ?_
  · simp [setRefs, setEntry, caches.2.1, caches.2.2]
  · exact fun c other there => other (inv.unique c e _ _ there caches)
  · rw [view_setRefs, view_setEntry]
    exact (inv.entry e).gain caches.1 live (inv.ready_kept ready caches) p fun r => by
      simp [view, setEntry]

theorem Inv.recycle (ready : Ready s p dev inum) (unused : (s.entry e).ref = 0)
    (absent : ∀ c, ¬ Caches s c dev inum) :
    Inv (((s.setEntry e fun entry => { entry with dev, inum, ref := 1, valid := false }).setRefs p e
      (s.refs p e + 1)).setPc p .idle) := by
  refine inv.iget ready (((Elsewhere.refl s e).setEntry _).setRefs p _) rfl rfl rfl rfl ?_ ?_ ?_
  · simp [setRefs, setEntry]
  · exact fun c _ => absent c
  · rw [view_setRefs, view_setEntry]
    exact (inv.entry e).recycle unused (inv.ready_live ready) p fun r => by
      simp [view, setEntry]

/-- A step of `iput` that writes nothing. Its share in `ref` keeps the entry
for this inode. -/
theorem Inv.iputStep {before : Stage} (at' : s.pc p = .on e before) (pending : before.pending)
    {t : State Pid} (elsewhere : Elsewhere s t e) (same : t.pc = s.pc) (refs : t.refs = s.refs)
    (disk : t.disk = s.disk) (allocs : t.allocs = s.allocs) (frees : t.frees = s.frees)
    (key : (t.entry e).dev = (s.entry e).dev ∧ (t.entry e).inum = (s.entry e).inum)
    (after : pc = .idle ∨ pc = .on e .dropping) (here : EntryInv ((t.setPc p pc).view e)) :
    Inv (t.setPc p pc) := by
  have used : 0 < (s.entry e).ref := by
    have share : (s.view e).share p = s.refs p e + 1 := by
      simp [View.share, view, at', pending]
    have := (inv.entry e).share_le p
    change _ ≤ (s.entry e).ref at this
    omega
  have only : pc.Only e := by
    rcases after with rfl | rfl
    · exact Pc.only_idle e
    · exact Pc.only_on e _
  have caches : ∀ {dev inum}, Caches (t.setPc p pc) e dev inum → Caches s e dev inum := by
    rintro dev inum ⟨_, rfl, rfl⟩
    exact ⟨used, key.1.symm, key.2.symm⟩
  have pcs : ∀ q dev inum, (t.setPc p pc).pc q = .allocated dev inum →
    s.pc q = .allocated dev inum :=
    allocated_setPc same (by rcases after with rfl | rfl <;> simp)
  refine inv.of_local (elsewhere.setPc (by rw [same, at']; exact Pc.only_on e _) only) disk allocs
    frees here (inv.scanning_setPc same (by rcases after with rfl | rfl <;> simp)) pcs ?_ ?_
  · intro c dev inum other here there
    exact other (inv.unique c e dev inum there (caches here))
  · intro q dev inum allocated here r
    have old := (inv.fresh q dev inum (pcs q dev inum allocated)).2.2.1 e (caches here) r
    refine ⟨by rw [← old.1]; exact congrFun (congrFun refs r) e, ?_⟩
    by_cases self : r = p
    · rcases after with rfl | rfl <;> simp [setPc, self, Stage.freeing]
    · simpa [setPc, self, same] using old.2

theorem Inv.clear (at' : s.pc p = .on e .clearing) :
    Inv (((s.setEntry e fun entry => { entry with valid := false }).setHolder e none).setPc p
      (.on e .dropping)) := by
  refine inv.iputStep at' rfl (((Elsewhere.refl s e).setEntry _).setHolder _) rfl rfl rfl rfl rfl
    (by simp [setHolder, setEntry]) (.inr rfl) ?_
  rw [view_setPc, view_setHolder, view_setEntry]
  exact (inv.entry e).clear (stage_of_on at') fun r => by
    simp [view, setHolder, setEntry]

theorem Inv.drop (at' : s.pc p = .on e .dropping) :
    Inv ((s.setEntry e fun entry => { entry with ref := entry.ref - 1 }).setPc p .idle) := by
  refine inv.iputStep at' rfl ((Elsewhere.refl s e).setEntry _) rfl rfl rfl rfl rfl
    (by simp [setEntry]) (.inl rfl) ?_
  rw [view_setPc, view_setEntry]
  exact (inv.entry e).drop (stage_of_on at') fun r => by simp [view, setEntry]

end

section

variable (inv : Inv s)

include inv

omit [DecidableEq Pid] in
theorem Inv.counted_live (live : (s.onDisk e).type ≠ 0) :
    s.allocs (s.entry e).dev (s.entry e).inum = s.frees (s.entry e).dev (s.entry e).inum + 1 := by
  have counted := inv.counted (s.entry e).dev (s.entry e).inum
  rwa [if_neg (by exact live)] at counted

omit [DecidableEq Pid] in
theorem Inv.iupdate (idle : s.pc p = .idle) (holds : s.holder e = some p) :
    Inv ((s.flush e).setEntry e fun entry => { entry with dirty := false }) := by
  obtain ⟨owns, valid, used⟩ := (inv.entry e).used_of_held holds (stage_of_idle idle e)
  have typed : (s.entry e).inode.type ≠ 0 :=
    (inv.entry e).typed_held holds (by simp [stage_of_idle idle e]) used valid
  have written : ((s.flush e).setEntry e fun entry => { entry with dirty := false }).onDisk e =
      (s.entry e).inode := by
    simp [onDisk, setEntry, flush_disk_self]
  refine inv.of_flush ((Elsewhere.refl s e).flush.setEntry _) (.inl owns) used (by simp [setEntry])
    (fun dev inum other => ⟨flush_disk_other other, rfl, rfl⟩) ?_ ?_ inv.scanning
    (fun _ _ _ at' => at') ?_
  · rw [written]
    exact fun zero => absurd zero typed
  · rw [written, if_neg typed]
    exact inv.counted_live ((inv.entry e).live p owns)
  · simp only [view_setEntry, view_flush, flush_entry, flush_disk_self]
    exact (inv.entry e).iupdate holds (stage_of_idle idle e)

theorem Inv.iputWrite {before after : Stage} (at' : s.pc p = .on e before)
    (freeing : before = .truncating ∨ before = .typing) {frees : Nat → Nat → Nat}
    (outside : ∀ dev inum, ¬ ((s.entry e).dev = dev ∧ (s.entry e).inum = inum) →
      frees dev inum = s.frees dev inum)
    (unlinked : inode.nlink = 0)
    (counted : s.frees (s.entry e).dev (s.entry e).inum + 1 =
      frees (s.entry e).dev (s.entry e).inum + if inode.type = 0 then 0 else 1)
    (here : EntryInv
      { s.view e with
        inode, disk := inode, stage := fun r => if r = p then some after else (s.pc r).stage e }) :
    Inv ((({ s with frees }.setInode e inode).flush e).setPc p (.on e after)) := by
  have at'' : (s.view e).stage p = some .truncating ∨ (s.view e).stage p = some .typing := by
    rw [stage_of_on at', Option.some.injEq, Option.some.injEq]
    exact freeing
  obtain ⟨⟨_, _, same, _, typed, last⟩, _⟩ := (inv.entry e).freeing_spec at''
  have busy : ((s.pc p).stage e).any Stage.freeing := by
    rcases freeing with rfl | rfl <;> simp [at', Stage.freeing]
  have used : 0 < (s.entry e).ref := by
    change (s.entry e).ref = 1 at last
    omega
  have live : (s.onDisk e).type ≠ 0 := by
    change (s.entry e).inode = s.onDisk e at same
    rw [← same]
    exact typed
  let t := { s with frees }.setInode e inode
  have entry : t.entry e = { s.entry e with inode } := by simp [t, setInode, setEntry]
  have disk := setInode_flush_disk { s with frees } e inode
  have written : ((t.flush e).setPc p (.on e after)).onDisk e = inode := by
    change (t.flush e).disk (t.entry e).dev (t.entry e).inum = inode
    rw [disk, entry]
    exact if_pos ⟨rfl, rfl⟩
  have unchanged : Elsewhere s { s with frees } e :=
    ⟨fun _ _ => rfl, fun _ _ => rfl, fun _ _ _ => rfl, fun _ _ _ => rfl⟩
  have elsewhere : Elsewhere s ((t.flush e).setPc p (.on e after)) e :=
    .setPc (.flush (unchanged.setInode inode)) (at' ▸ Pc.only_on e _) (Pc.only_on e _)
  refine inv.of_flush elsewhere (.inr busy) used
    (show (t.entry e).dev = _ ∧ (t.entry e).inum = _ by simp [entry])
    (fun dev inum other => ⟨(disk dev inum).trans (if_neg other), rfl, outside dev inum other⟩)
    (fun _ => by rw [written, unlinked]) ?_
    (inv.scanning_setPc rfl (by simp)) (allocated_setPc rfl (by simp)) ?_
  · rw [written]
    exact (inv.counted_live live).trans counted
  · rw [view_setPc, view_flush, view_setInode, entry, Pc.stage_on]
    exact here

theorem Inv.truncate (at' : s.pc p = .on e .truncating) :
    Inv (((s.setInode e (s.entry e).inode.truncated).flush e).setPc p (.on e .typing)) := by
  obtain ⟨⟨_, _, _, unlinked, typed, _⟩, _⟩ := (inv.entry e).freeing_spec (.inl (stage_of_on at'))
  refine inv.iputWrite at' (.inl rfl) (fun _ _ _ => rfl) unlinked ?_ ?_
  · rw [if_neg (by exact typed)]
  · exact (inv.entry e).truncate (stage_of_on at') fun r => by simp [view]

theorem Inv.writeFree (at' : s.pc p = .on e .typing) :
    Inv ((({ s with frees := bump s.frees (s.entry e).dev (s.entry e).inum }.setInode e
      { (s.entry e).inode with type := 0 }).flush e).setPc p (.on e .clearing)) := by
  obtain ⟨⟨_, _, _, unlinked, _⟩, _⟩ := (inv.entry e).freeing_spec (.inr (stage_of_on at'))
  refine inv.iputWrite at' (.inr rfl) (fun dev inum other => bump_other other) unlinked ?_ ?_
  · simp [bump]
  · exact (inv.entry e).writeFree (stage_of_on at') fun r => by simp [view]

theorem Inv.look (before : ∀ e, (s.pc p).stage e = none) (after : ∀ e, pc.stage e = none)
    (scanning : ∀ dev inum type, pc = .scanning dev inum type → type ≠ 0)
    (quiet : ∀ dev inum, pc ≠ .allocated dev inum) : Inv (s.setPc p pc) := by
  have pcs := allocated_setPc (s := s) (t := s) (p := p) rfl quiet
  refine ⟨fun e => ?_, inv.unique, inv.free, fun q dev inum type at' => ?_,
    fun q dev inum allocated => ?_, inv.counted⟩
  · rw [view_setPc_away s p e (before e) (after e)]
    exact inv.entry e
  · by_cases self : q = p
    · simp only [setPc, self, update_self] at at'
      exact scanning dev inum type at'
    · simp only [setPc, update_of_ne self] at at'
      exact inv.scanning q dev inum type at'
  · obtain ⟨typed, unlinked, unreferenced, single⟩ :=
      inv.fresh q dev inum (pcs q dev inum allocated)
    refine ⟨typed, unlinked, fun e caches r => ?_, fun r also => single r (pcs r dev inum also)⟩
    obtain ⟨none, kept⟩ := unreferenced e caches r
    refine ⟨none, ?_⟩
    by_cases self : r = p
    · simp [setPc, self, after e]
    · simpa [setPc, self] using kept

omit [DecidableEq Pid] in
/-- A free inode has no usable reference, and nobody is about to free it. -/
theorem Inv.freed (free : (s.disk dev inum).type = 0) (caches : Caches s e dev inum) (q : Pid) :
    s.refs q e = 0 ∧ ((s.pc q).stage e).any Stage.freeing = false := by
  have zero : (s.onDisk e).type = 0 := by rw [onDisk, caches.2.1, caches.2.2, free]
  constructor
  · by_contra owns
    exact (inv.entry e).live q (Nat.pos_of_ne_zero owns) zero
  · by_contra freeing
    rw [Bool.not_eq_false] at freeing
    obtain ⟨⟨_, _, same, _, typed, _⟩, _⟩ :=
      (inv.entry e).freeing_spec (EntryInv.freeing_stage freeing)
    rw [same] at typed
    exact typed zero

theorem Inv.claim {type : Nat} (at' : s.pc p = .scanning dev inum type)
    (free : (s.disk dev inum).type = 0) :
    Inv (({ s with allocs := bump s.allocs dev inum }.setDisk dev inum
      { Dinode.zero with type }).setPc p (.allocated dev inum)) := by
  have typed := inv.scanning p dev inum type at'
  let t := { s with allocs := bump s.allocs dev inum }.setDisk dev inum { Dinode.zero with type }
  have here : t.disk dev inum = { Dinode.zero with type } := setDisk_self _ _ _ _
  have there : ∀ {dev' inum'}, ¬ (dev = dev' ∧ inum = inum') →
    t.disk dev' inum' = s.disk dev' inum' :=
    fun other => setDisk_other other
  have allocatedBefore : ∀ {q dev' inum'}, q ≠ p →
      (t.setPc p (.allocated dev inum)).pc q = .allocated dev' inum' →
      s.pc q = .allocated dev' inum' ∧ ¬ (dev = dev' ∧ inum = inum') := by
    intro q dev' inum' self allocated
    simp only [setPc, update_of_ne self] at allocated
    refine ⟨allocated, ?_⟩
    rintro ⟨rfl, rfl⟩
    exact (inv.fresh q _ _ allocated).1 free
  change Inv (t.setPc p (.allocated dev inum))
  refine ⟨fun e => ?_, inv.unique, fun dev' inum' => ?_, ?_, fun q dev' inum' allocated => ?_,
    fun dev' inum' => ?_⟩
  · rw [view_setPc_away t p e (by simp [t, setDisk, at', Pc.stage]) rfl]
    change EntryInv { s.view e with disk := t.disk (s.entry e).dev (s.entry e).inum }
    by_cases same : dev = (s.entry e).dev ∧ inum = (s.entry e).inum
    · obtain ⟨rfl, rfl⟩ := same
      rw [here]
      exact (inv.entry e).claim free typed
    · rw [there same]
      exact inv.entry e
  · change (t.disk dev' inum').type = 0 → (t.disk dev' inum').nlink = 0
    by_cases same : dev = dev' ∧ inum = inum'
    · obtain ⟨rfl, rfl⟩ := same
      rw [here]
      exact fun zero => absurd zero typed
    · rw [there same]
      exact inv.free dev' inum'
  · exact inv.scanning_setPc rfl (by simp)
  · have kept : ∀ {e r}, s.refs r e = 0 ∧ ((s.pc r).stage e).any Stage.freeing = false →
        s.refs r e = 0 ∧
          (((t.setPc p (.allocated dev inum)).pc r).stage e).any Stage.freeing = false := by
      rintro e r ⟨none, notFreeing⟩
      refine ⟨none, ?_⟩
      by_cases self : r = p
      · simp [setPc, self, Pc.stage]
      · simpa [setPc, self, t, setDisk] using notFreeing
    change (t.disk dev' inum').type ≠ 0 ∧ (t.disk dev' inum').nlink = 0 ∧ _
    by_cases self : q = p
    · simp only [setPc, self, update_self, Pc.allocated.injEq] at allocated
      obtain ⟨rfl, rfl⟩ := allocated
      rw [here]
      refine ⟨typed, rfl, fun e caches r => kept (inv.freed free caches r), fun r also => ?_⟩
      by_contra other
      exact (allocatedBefore (by rwa [self] at other) also).2 ⟨rfl, rfl⟩
    · obtain ⟨before, other⟩ := allocatedBefore self allocated
      obtain ⟨typed', unlinked, unreferenced, single⟩ := inv.fresh q dev' inum' before
      rw [there other]
      refine ⟨typed', unlinked, fun e caches r => kept (unreferenced e caches r), fun r also => ?_⟩
      by_cases isP : r = p
      · simp only [setPc, isP, update_self, Pc.allocated.injEq] at also
        exact absurd also other
      · exact single r (allocatedBefore isP also).1
  · change bump s.allocs dev inum dev' inum' =
      s.frees dev' inum' + if (t.disk dev' inum').type = 0 then 0 else 1
    have old := inv.counted dev' inum'
    by_cases same : dev = dev' ∧ inum = inum'
    · obtain ⟨rfl, rfl⟩ := same
      rw [if_pos free] at old
      rw [here, if_neg typed]
      simp [bump, old]
    · rwa [there same, bump_other same]

theorem Inv.effect (effect : Effect s p s') : Inv s' := by
  cases effect with
  | hit ready caches => exact inv.hit ready caches
  | recycle ready unused absent => exact inv.recycle ready unused absent
  | idup owns => exact inv.idup owns
  | pass idle owns other keeps => exact inv.pass idle owns other keeps
  | lock idle owns => exact inv.lock idle owns
  | acquire at' free => exact inv.acquire at' free
  | found at' valid => exact inv.found at' valid
  | load at' invalid => exact inv.load at' invalid
  | loadDone at' => exact inv.loadDone at'
  | modify idle holds typed => exact inv.modify idle holds typed
  | iupdate idle holds => exact inv.iupdate idle holds
  | iunlock idle holds clean => exact inv.iunlock idle holds clean
  | iputFree idle owns free last valid unlinked =>
    exact inv.iputFree idle owns free last valid unlinked
  | iputDrop idle owns keeps => exact inv.iputDrop idle owns keeps
  | truncate at' => exact inv.truncate at'
  | writeFree at' => exact inv.writeFree at'
  | clear at' => exact inv.clear at'
  | drop at' => exact inv.drop at'
  | ialloc idle typed =>
    refine inv.look (by simp [idle]) (fun _ => rfl) ?_ (by simp)
    rintro _ _ _ ⟨⟩
    exact typed
  | claim at' free => exact inv.claim at' free
  | skip at' =>
    refine inv.look (by simp [at', Pc.stage]) (fun _ => rfl) ?_ (by simp)
    rintro _ _ _ ⟨⟩
    exact inv.scanning _ _ _ _ at'
  | giveUp at' => exact inv.look (by simp [at', Pc.stage]) (fun _ => rfl) (by simp) (by simp)

end

omit [DecidableEq Pid] in
theorem Inv.initial (start : Initial s) : Inv s where
  entry e := by
    refine ⟨?_, fun q => ?_, fun q owns => ?_, fun used => ?_, fun used => ?_⟩
    · simp [View.share, view, start.entry, start.refs, start.pc]
    · simp [View.Knows, view, start.pc, start.holder]
    · simp [view, start.refs] at owns
    · simp [view, start.entry] at used
    · simp [view, start.entry] at used
  unique e _ _ _ caches := by
    have := caches.1
    simp [start.entry] at this
  free := start.free
  scanning q _ _ _ at' := by simp [start.pc] at at'
  fresh q _ _ at' := by simp [start.pc] at at'
  counted dev inum := by rw [start.allocs, start.frees, Nat.zero_add]

theorem reachable_inv {ninodes : Nat} (reached : (system ninodes Pid).Reachable s) : Inv s := by
  refine reached.invariant (motive := Inv) (fun _ start => Inv.initial start)
    fun s label s' _ inv allowed moved => ?_
  exact inv.effect (step_effect allowed moved)

end steps

end Xv6.Itable
