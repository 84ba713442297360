import Xv6.Disk.Filewrite
import Xv6.Library.SlotMap

/-!
# Directories as maps

A directory is a table of slots, one for each entry. `dirlookup` and `dirlink` of
`kernel/fs.c`, and the `writei` of `sys_unlink` that clears an entry, are the
operations of the map from names to inode numbers that is in the table. A name counts
up to its first zero, and only with its first `dirsiz` bytes.
-/

namespace Xv6.Disk

open List
open Dirent
open OneFile
open Function
open Volume Overlay SlotMap
open Prog (Ensures Returns)

variable {sb : Superblock} {s s' : Store} {inum j : Nat} {name : List UInt8}

/-! ## Entries -/

/-- What `namecmp` sees of a name. -/
def nameKey (name : List UInt8) : List UInt8 := (name.take dirsiz).takeWhile (· ≠ 0)

theorem strncmp_iff_takeWhile {n : Nat} {l l' : List UInt8} :
    strncmp n l l' = true ↔ (l.take n).takeWhile (· ≠ 0) = (l'.take n).takeWhile (· ≠ 0) := by
  induction n generalizing l l' with
  | zero => simp [strncmp]
  | succ n ih =>
    unfold strncmp
    cases l with
    | nil =>
      cases l' with
      | nil => simp
      | cons b l' =>
        by_cases zero : 0 = b
        · simp [← zero]
        · simp [zero, Ne.symm zero]
    | cons a l =>
      cases l' with
      | nil => by_cases zero : a = 0 <;> simp [zero]
      | cons b l' =>
        by_cases same : a = b
        · subst same
          by_cases zero : a = 0 <;> simp [zero, ih]
        · by_cases zero : a = 0 <;> by_cases zero' : b = 0 <;> simp_all

theorem namecmp_iff {other : List UInt8} :
    namecmp name other = true ↔ nameKey name = nameKey other :=
  strncmp_iff_takeWhile

theorem nameKey_padded (name : List UInt8) : nameKey (padded name) = nameKey name :=
  namecmp_iff.mp (strncmp_iff.mpr fun _ inside _ => getD_padded inside)

/-- An entry whose inode number is zero is free. -/
def Dirent.slot (de : Dirent) : Option (List UInt8 × Nat) :=
  if de.inum = 0 then none else some (nameKey de.name, de.inum)

variable {i : Nat}

theorem Dirent.slot_eq_some {de : Dirent} {key : List UInt8} :
    de.slot = some (key, i) ↔ de.inum ≠ 0 ∧ nameKey de.name = key ∧ de.inum = i := by
  unfold slot
  split_ifs with free
  · simp [free]
  · simp [free]

theorem Dirent.named_iff {de : Dirent} :
    named name de = true ↔ de.slot = some (nameKey name, de.inum) := by
  rw [slot_eq_some, named, decide_eq_true_iff, namecmp_iff, eq_comm (a := nameKey name)]
  simp

def slotsOf (contents : List UInt8) (j : Nat) : Option (List UInt8 × Nat) :=
  if direntSize * (j + 1) ≤ contents.length then
    (load ((contents.drop (direntSize * j)).take direntSize)).slot
  else none

theorem slotsOf_inside {contents : List UInt8} (inside : direntSize * (j + 1) ≤ contents.length) :
    slotsOf contents j = (load ((contents.drop (direntSize * j)).take direntSize)).slot :=
  if_pos inside

theorem slotsOf_outside {contents : List UInt8} (outside : contents.length < direntSize * (j + 1)) :
    slotsOf contents j = none := if_neg (by omega)

/-- To write an entry changes one slot, which may be the one after the last. -/
theorem slotsOf_overlay {contents data : List UInt8} (whole : direntSize ∣ contents.length)
    (within : direntSize * j ≤ contents.length) (size : data.length = direntSize) :
    slotsOf (overlay contents (direntSize * j) data) =
      update (slotsOf contents) j (load data).slot := by
  have width : direntSize = 16 := rfl
  have length : (overlay contents (direntSize * j) data).length = _ := length_overlay within
  have back : ((overlay contents (direntSize * j) data).drop _).take data.length = _ :=
    take_drop_overlay within
  rw [size] at length back
  obtain ⟨m, isWhole⟩ := whole
  funext j'
  rw [update_apply]
  split_ifs with here
  · subst here
    rw [slotsOf_inside (by rw [length, Nat.mul_succ]; exact le_max_right ..), back]
  · rcases Nat.lt_or_ge contents.length (direntSize * (j' + 1)) with outside | inside
    · rw [slotsOf_outside outside, slotsOf_outside]
      rw [length]
      rw [width] at within outside isWhole ⊢
      omega
    · rw [slotsOf_inside inside, slotsOf_inside (by rw [length]; exact le_max_of_le_left inside)]
      congr 2
      refine ext_getElem? fun p => ?_
      rw [getElem?_take, getElem?_take, getElem?_drop, getElem?_drop, getElem?_overlay within, size]
      split_ifs with low between
      · rw [width] at low between
        omega
      · rfl
      · rfl

/-! ## Directories -/

def entriesOf (sb : Superblock) (inum : Nat) (s : Store) : Nat → Option (List UInt8 × Nat) :=
  slotsOf (fileContents sb inum s)

/-- A directory without holes, with whole entries, and without two entries of the same
name. -/
structure Directory (sb : Superblock) (inum : Nat) (s : Store) : Prop where
  inside : inum < sb.ninodes
  isDir : (dinodeAt sb s.disk inum).type = typeDir
  owned : (volumeOf sb s.disk).Owned sb.first sb.size (Used sb s.disk)
  holeFree : (volumeOf sb s.disk).HoleFree inum
  whole : direntSize ∣ (dinodeAt sb s.disk inum).size
  distinct : Distinct (entriesOf sb inum s)

theorem entriesOf_congr (disk : s'.disk = s.disk) : entriesOf sb inum s' = entriesOf sb inum s := by
  rw [entriesOf, entriesOf, fileContents, fileContents, disk]

section Directory

variable (directory : Directory sb inum s)

include directory

theorem Directory.congr (disk : s'.disk = s.disk) : Directory sb inum s' := by
  obtain ⟨inside, isDir, owned, holeFree, whole, distinct⟩ := directory
  rw [← entriesOf_congr disk] at distinct
  rw [← disk] at isDir owned holeFree whole
  exact ⟨inside, isDir, owned, holeFree, whole, distinct⟩

theorem Directory.length : (fileContents sb inum s).length = (dinodeAt sb s.disk inum).size := by
  rw [fileContents, length_contents, volumeOf_inode directory.inside]

theorem Directory.slot (inside : direntSize * (j + 1) ≤ (dinodeAt sb s.disk inum).size) :
    entriesOf sb inum s j = ((volumeOf sb s.disk).dirent inum j).slot := by
  rw [entriesOf, slotsOf_inside (by rwa [directory.length]), Volume.dirent, bytes_eq_contents]
  · rfl
  · rw [volumeOf_inode directory.inside]
    omega

theorem Directory.slot_outside (outside : (dinodeAt sb s.disk inum).size < direntSize * (j + 1)) :
    entriesOf sb inum s j = none := slotsOf_outside (by rwa [directory.length])

/-- To whoever writes to it, the directory is a file. -/
theorem Directory.writable :
    Writable sb inum { s with table := fun _ => ⟨1, false, false, Dinode.zero⟩ } where
  inside := directory.inside
  ref := Nat.one_pos
  unlocked := rfl
  copy valid := by simp at valid
  inUse := by
    rw [directory.isDir]
    decide
  owned := directory.owned
  holeFree := directory.holeFree

theorem Directory.scan (panic : Panic) (test : Dirent → Bool) :
    ∃ found, scanDirents sb panic test ((dinodeAt sb s.disk inum).size + 1)
      (dinodeAt sb s.disk inum) 0 s =
        .ok ((found, dinodeAt sb s.disk inum), s) ∧
        Scanned (volumeOf sb s.disk) inum test 0 found := by
  have view := viewOf_dinodeAt s.disk directory.inside
  have small := directory.holeFree.1
  have mapped := directory.holeFree.2
  rw [volumeOf_inode directory.inside] at small mapped
  have owned := directory.owned
  rw [← view] at owned
  have scan :=
    @scanDirents_spec sb s inum _ _ _ owned panic test ((dinodeAt sb s.disk inum).size + 1) 0 small
    (Nat.lt_succ_self _) fun j _ _ inside => by
      rw [view]
      exact ⟨by omega, fun bn below => mapped bn (by omega)⟩
  obtain ⟨⟨found, inode⟩, s', run, rfl, same, scanned⟩ := Returns.exists (scan.imp fun _ short =>
    short.2 (Nat.mod_eq_zero_of_dvd directory.whole))
  obtain rfl : inode = dinodeAt sb s'.disk inum := same
  rw [view] at scanned
  exact ⟨found, run, scanned⟩

theorem Directory.findDirent (name : List UInt8) :
    ∃ found, findDirent sb (dinodeAt sb s.disk inum) name s =
      .ok ((found, dinodeAt sb s.disk inum), s) ∧
      ∀ i off, found = some (i, off) ↔ ∃ j, off = direntSize * j ∧
      entriesOf sb inum s j = some (nameKey name, i) := by
  obtain ⟨found, run, scanned⟩ := directory.scan .dirlookupRead (named name)
  refine ⟨found.map fun hit => (hit.1.inum, hit.2), ?_, fun i off => ?_⟩
  · rw [Disk.findDirent, if_neg (not_not_intro directory.isDir)]
    exact Prog.bind_ok run
  · cases found with
    | none =>
      refine iff_of_false (by simp) ?_
      rintro ⟨j, -, here⟩
      rcases Nat.lt_or_ge (dinodeAt sb s.disk inum).size
        (direntSize * (j + 1)) with outside | inside
      · rw [directory.slot_outside outside] at here
        simp at here
      · rw [directory.slot inside] at here
        have passes : named name ((volumeOf sb s.disk).dirent inum j) = true := by
          rw [named_iff, here, (slot_eq_some.mp here).2.2]
        have failed := scanned.2 j (Nat.zero_le j) (by rwa [volumeOf_inode directory.inside])
        rw [passes] at failed
        exact absurd failed (by decide)
    | some result =>
      obtain ⟨de, off'⟩ := result
      obtain ⟨j₀, -, rfl, inside, rfl, passes, -⟩ := scanned
      rw [volumeOf_inode directory.inside] at inside
      rw [named_iff, ← directory.slot inside] at passes
      simp only [Option.map_some, Option.some_inj, Prod.mk.injEq]
      constructor
      · rintro ⟨rfl, rfl⟩
        exact ⟨j₀, rfl, passes⟩
      · rintro ⟨j, rfl, here⟩
        obtain rfl := directory.distinct j j₀ _ _ _ here passes
        exact ⟨(Prod.mk.inj (Option.some.inj (passes.symm.trans here))).2, rfl⟩

theorem Directory.found_eq {found : Option (Nat × Nat)} (finds : ∀ i off, found = some (i, off) ↔
    ∃ j, off = direntSize * j ∧ entriesOf sb inum s j = some (nameKey name, i)) :
    found.map Prod.fst = toMap (entriesOf sb inum s) (nameKey name) := by
  refine Option.ext fun i => ?_
  rw [toMap_eq_some_iff directory.distinct]
  simp only [Option.map_eq_some_iff, Prod.exists, finds]
  exact ⟨fun ⟨_, _, ⟨j, _, here⟩, same⟩ => ⟨j, same ▸ here⟩,
    fun ⟨j, here⟩ => ⟨i, _, ⟨j, rfl, here⟩, rfl⟩⟩

end Directory

/-! ## Writing an entry -/

/-- An entry is in one block, so it is written as a whole or not at all. -/
theorem Ran.entry {source : Nat → Option UInt8} {r : Int × Nat}
    (ran : Ran sb inum source (direntSize * j) direntSize s s' r) (all : ∀ i, (source i).isSome) :
    r.1 = direntSize ∨ r.1.toNat = 0 := by
  cases ran with
  | refused => exact .inr rfl
  | @wrote e s₁ s₂ inode accepted before after written advanced =>
    have width : direntSize = 16 := rfl
    have block : bsize = 1024 := rfl
    have reached := written.reached
    by_contra part
    rw [not_or, Int.toNat_natCast, Nat.cast_inj] at part
    by_cases absent : (volumeOf sb s₂.disk).fileBlock inum (e / bsize) = 0
    · refine written.mapped.2 (e / bsize) ?_ absent
      rw [width] at reached part
      rw [block]
      omega
    · have failed := (advanced.failed (by omega) absent).1
      rw [torn, readable_of_all _ _ all] at failed
      exact lt_irrefl _ failed

theorem Directory.writei {allowed : Stop → Prop} (sound : sb.Sound)
    (directory : Directory sb inum s) (bytes : Nat → UInt8)
    (within : direntSize * j ≤ (dinodeAt sb s.disk inum).size)
    (distinct : Distinct
      (update (entriesOf sb inum s) j (load ((range direntSize).map bytes)).slot))
    (stops : Ensures allowed
      (writei sb inum (dinodeAt sb s.disk inum) (fun i => some (bytes i)) (direntSize * j)
        direntSize) s fun _ _ => True) :
    Ensures allowed
      (writei sb inum (dinodeAt sb s.disk inum) (fun i => some (bytes i)) (direntSize * j)
        direntSize) s fun r s' =>
      SameTable s s' ∧ r.2 = dinodeAt sb s'.disk inum ∧ Directory sb inum s' ∧
        (Enough sb inum (direntSize * j) direntSize s.disk → r.1 = direntSize ∧
          entriesOf sb inum s' = update (entriesOf sb inum s) j
            (load ((range direntSize).map bytes)).slot) ∧
        (¬ Enough sb inum (direntSize * j) direntSize s.disk → r.1 ≠ direntSize ∧
          entriesOf sb inum s' = entriesOf sb inum s) := by
  refine (writei_ran (s := s) sound directory.writable rfl stops).mono ?_
  rintro r s' ⟨same, synced, type, owned, holeFree, ran⟩
  have all : ∀ i, (some (bytes i)).isSome := fun _ => rfl
  have contents := ran.contents directory.writable (.inr all)
  change fileContents sb inum s' = overlay (fileContents sb inum s) _ _ at contents
  have within' : direntSize * j ≤ (fileContents sb inum s).length := by rwa [directory.length]
  have whole : direntSize ∣ (fileContents sb inum s).length := by
    rw [directory.length]
    exact directory.whole
  have length : (fileContents sb inum s').length =
      max (fileContents sb inum s).length (direntSize * j + r.1.toNat) := by
    rw [contents, length_overlay within', length_sourceBytes]
  have size : (fileContents sb inum s').length = (dinodeAt sb s'.disk inum).size := by
    rw [fileContents, length_contents, volumeOf_inode directory.inside]
  -- the slot is written or it is not
  have entered : r.1 = direntSize ∧ entriesOf sb inum s' = update (entriesOf sb inum s) j
      (load ((range direntSize).map bytes)).slot ∨
      r.1 ≠ direntSize ∧ entriesOf sb inum s' = entriesOf sb inum s := by
    rcases ran.entry all with written | nothing
    · refine .inl ⟨written, ?_⟩
      rw [entriesOf, contents, written, Int.toNat_natCast,
        slotsOf_overlay whole within' (length_sourceBytes ..)]
      rfl
    · refine .inr ⟨fun written => ?_, ?_⟩
      · rw [written] at nothing
        exact absurd nothing (by decide)
      · rw [entriesOf, contents, nothing]
        exact congrArg slotsOf (overlay_nil ..)
  have after : Directory sb inum s' := {
    inside := directory.inside
    isDir := by rw [← synced, type, directory.isDir]
    owned := owned
    holeFree := holeFree
    whole := by
      rw [← size, length]
      refine max_rec' (direntSize ∣ ·) whole (Dvd.dvd.add (dvd_mul_right ..) ?_)
      rcases ran.entry all with written | nothing
      · rw [written, Int.toNat_natCast]
      · rw [nothing]
        exact dvd_zero _
    distinct := by
      rcases entered with ⟨-, entries⟩ | ⟨-, entries⟩
      · rwa [entries]
      · rw [entries]
        exact directory.distinct }
  refine ⟨same, synced, after, fun enough => ?_, fun not => ?_⟩
  · refine entered.resolve_right fun short => ?_
    exact ran.not_enough sound directory.writable within' all short.1 enough
  · refine entered.resolve_left fun written => not ?_
    refine (ran.enough_iff (m := 0) sound directory.writable written.1).mp
      (after.writable.enough_inside ?_)
    change _ ≤ (fileContents sb inum s').length
    rw [length, written.1]
    exact le_max_right ..

theorem Dirent.slot_bytes {child : Nat} (nonzero : child ≠ 0) (small : child < 2 ^ 16) :
    (load ((range direntSize).map (bytes ⟨child, name⟩))).slot = some (nameKey name, child) := by
  rw [load_bytes, slot_eq_some, nameKey_padded, Nat.mod_eq_of_lt small]
  exact ⟨nonzero, rfl, rfl⟩

/-! ## The operations -/

def Full (sb : Superblock) (inum : Nat) (s : Store) : Prop :=
  ∀ j, direntSize * (j + 1) ≤ (dinodeAt sb s.disk inum).size → entriesOf sb inum s j ≠ none

/-- `dirlink` fails because of the name, or because the directory has to grow and
cannot. -/
def Refuses (sb : Superblock) (inum : Nat) (s : Store) (name : List UInt8) : Prop :=
  toMap (entriesOf sb inum s) (nameKey name) ≠ none ∨
    Full sb inum s ∧ ¬ Enough sb inum (dinodeAt sb s.disk inum).size direntSize s.disk

/-- What `dirlink` does: it changes nothing, or it adds a binding in the first free slot. -/
def Bound (sb : Superblock) (inum : Nat) (name : List UInt8) (child : Nat) (s : Store)
    (r : Bool × Dinode) (s' : Store) : Prop :=
  r.2 = dinodeAt sb s'.disk inum ∧ Directory sb inum s' ∧
    (Refuses sb inum s name → r.1 = false ∧ entriesOf sb inum s' = entriesOf sb inum s) ∧
    (¬ Refuses sb inum s name → r.1 = true ∧
      toMap (entriesOf sb inum s') =
        update (toMap (entriesOf sb inum s)) (nameKey name) (some child) ∧
      ∃ j, entriesOf sb inum s j = none ∧ (∀ j' < j, entriesOf sb inum s j' ≠ none) ∧
        entriesOf sb inum s' = update (entriesOf sb inum s) j (some (nameKey name, child)))

/-- What `dirlookup` does: it finds the entry, and takes a reference to its inode. -/
def Looked (sb : Superblock) (inum : Nat) (name : List UInt8) (s : Store)
    (r : Option (Nat × Nat) × Dinode) (s' : Store) : Prop :=
  r.2 = dinodeAt sb s.disk inum ∧ s'.disk = s.disk ∧
    r.1.map Prod.fst = toMap (entriesOf sb inum s) (nameKey name) ∧
    (∀ i off, r.1 = some (i, off) ↔
      ∃ j, off = direntSize * j ∧ entriesOf sb inum s j = some (nameKey name, i)) ∧
    ∀ i, (s'.table i).ref = (s.table i).ref + if r.1.map Prod.fst = some i then 1 else 0

/-- If a reference that was just taken is the only one, the copy is not read from the
disk yet. -/
theorem iget_fresh {allowed : Stop → Prop}
    (full : ninode ≤ s.cached → allowed ⟨.igetNoInodes, s.lh⟩) :
    Ensures allowed (iget i) s fun _ s' =>
      s'.disk = s.disk ∧ ¬ ((s'.table i).ref = 1 ∧ (s'.table i).valid = true) ∧
      ∀ k, (s'.table k).ref = (s.table k).ref + if i = k then 1 else 0 := by
  unfold iget setEntry
  refine .bind
    (.get (.ite (fun present => .of_modify ⟨rfl, fun last => ?_, fun k => ?_⟩) fun absent =>
    .ite (fun tooMany => .bind (.get (.throw (full tooMany)))) fun _ =>
      .bind (.of_modify (.of_modify ⟨rfl, fun last => ?_, fun k => ?_⟩))))
  · have one := last.1
    simp at one
    omega
  · by_cases same : i = k
    · simp [← same]
    · simp [same, Ne.symm same]
  · have valid := last.2
    simp at valid
  · by_cases same : i = k
    · subst same
      simp
      omega
    · simp [same, Ne.symm same]

/-- So `iput` does not free the inode. -/
theorem iput_fresh {allowed : Stop → Prop}
    (fresh : ¬ ((s.table i).ref = 1 ∧ (s.table i).valid = true)) :
    Ensures allowed (iput sb i) s fun _ s' => s'.disk = s.disk := by
  unfold iput dropRef setEntry
  refine .bind
    (.get
      (.ite (fun last => absurd ⟨last.1, last.2.1⟩ fresh) fun _ =>
        .bind (.of_modify (.of_modify ?_))))
  split <;> rfl

section Operations

variable (directory : Directory sb inum s)

include directory

theorem Directory.dirlookup {allowed : Stop → Prop} (full : ninode ≤ s.cached →
    toMap (entriesOf sb inum s) (nameKey name) ≠ none → allowed ⟨.igetNoInodes, s.lh⟩) :
    Ensures allowed (dirlookup sb (dinodeAt sb s.disk inum) name) s fun r s' =>
      Looked sb inum name s r s' ∧ (r.1 = none → s' = s) ∧
        ∀ i off, r.1 = some (i, off) → ¬ ((s'.table i).ref = 1 ∧ (s'.table i).valid = true) := by
  obtain ⟨found, run, finds⟩ := directory.findDirent name
  have value := directory.found_eq finds
  unfold Disk.dirlookup
  refine .bind (.of_eq run ?_)
  cases found with
  | none => exact .pure ⟨⟨rfl, rfl, value, finds, fun _ => by simp⟩, fun _ => rfl, nofun⟩
  | some entry =>
    refine .seq (iget_fresh fun tooMany => full tooMany (by rw [← value]; simp)) ?_
    rintro _ s₁ ⟨disk, fresh, refs⟩
    refine .pure ⟨⟨rfl, disk, value, finds, fun i => ?_⟩, nofun, ?_⟩
    · simpa using refs i
    · rintro i off ⟨⟩
      exact fresh

/-- The place for a new entry is the first free slot, and after the last one if the
directory is full. -/
theorem Directory.firstFree (panic : Panic) :
    ∃ found, scanDirents sb panic (fun de => de.inum = 0) ((dinodeAt sb s.disk inum).size + 1)
        (dinodeAt sb s.disk inum) 0 s = .ok ((found, dinodeAt sb s.disk inum), s) ∧
      ∃ j, found.elim (dinodeAt sb s.disk inum).size Prod.snd = direntSize * j ∧
        direntSize * j ≤ (dinodeAt sb s.disk inum).size ∧ entriesOf sb inum s j = none ∧
        (∀ j' < j, entriesOf sb inum s j' ≠ none) ∧
        (Full sb inum s ↔ direntSize * j = (dinodeAt sb s.disk inum).size) := by
  have width : direntSize = 16 := rfl
  obtain ⟨found, run, scanned⟩ := directory.scan panic fun de => de.inum = 0
  refine ⟨found, run, ?_⟩
  have live : ∀ j, direntSize * (j + 1) ≤ (dinodeAt sb s.disk inum).size →
      decide (((volumeOf sb s.disk).dirent inum j).inum = 0) = false →
        entriesOf sb inum s j ≠ none := by
    intro j inside used
    rw [directory.slot inside, Dirent.slot, if_neg (of_decide_eq_false used)]
    simp
  cases found with
  | none =>
    obtain ⟨m, isWhole⟩ := directory.whole
    have all : Full sb inum s := fun j inside =>
      live j inside (scanned.2 j (Nat.zero_le j) (by rwa [volumeOf_inode directory.inside]))
    refine ⟨m, isWhole, isWhole.ge, directory.slot_outside ?_, fun j earlier => all j ?_,
      fun _ => isWhole.symm, fun _ => all⟩
    · rw [width] at *
      omega
    · rw [width] at *
      omega
  | some result =>
    obtain ⟨de, off⟩ := result
    obtain ⟨j, -, rfl, inside, rfl, free, earlier⟩ := scanned
    rw [volumeOf_inode directory.inside] at inside
    have empty : entriesOf sb inum s j = none := by
      rw [directory.slot inside, Dirent.slot, if_pos (of_decide_eq_true free)]
    refine ⟨j, rfl, ?_, empty, fun j' before => live j' ?_ (earlier j' (Nat.zero_le _) before),
      fun all => absurd empty (all j inside), fun atEnd => ?_⟩
    · rw [width] at *
      omega
    · rw [width] at *
      omega
    · rw [width] at *
      omega

variable {allowed : Stop → Prop} {child : Nat} (sound : sb.Sound) (nonzero : child ≠ 0)
  (small : child < 2 ^ 16)
  (stops : ∀ (bytes : Nat → UInt8) (off : Nat), Ensures allowed (Disk.writei sb inum
    (dinodeAt sb s.disk inum) (fun i => some (bytes i)) off direntSize) s fun _ _ => True)

include sound nonzero small stops

theorem Directory.dirlinkNew (absent : toMap (entriesOf sb inum s) (nameKey name) = none) :
    Ensures allowed (dirlinkNew sb inum (dinodeAt sb s.disk inum) name child) s
      (Bound sb inum name child s) := by
  obtain ⟨found, run, j, place, within, free, first, full⟩ := directory.firstFree .dirlinkRead
  have refuses : Refuses sb inum s name ↔ ¬ Enough sb inum (direntSize * j) direntSize s.disk := by
    unfold Refuses
    rw [full, or_iff_right (not_not_intro absent)]
    constructor
    · rintro ⟨atEnd, not⟩
      rwa [atEnd]
    · intro not
      have atEnd : direntSize * j = (dinodeAt sb s.disk inum).size := by
        by_contra inside
        obtain ⟨m, isWhole⟩ := directory.whole
        refine not (directory.writable.enough_inside ?_)
        change _ ≤ (fileContents sb inum s).length
        rw [directory.length]
        simp only [direntSize] at *
        omega
      exact ⟨atEnd, by rwa [← atEnd]⟩
  have slot := @slot_bytes name child nonzero small
  have written : ∀ off, off = direntSize * j → Ensures allowed (do
      let done ← Disk.writei sb inum (dinodeAt sb s.disk inum)
        (fun i => some (bytes ⟨child, name⟩ i)) off
        direntSize
      return (decide (done.1 = direntSize), done.2)) s (Bound sb inum name child s) := by
    rintro off rfl
    refine .seq (directory.writei sound (bytes ⟨child, name⟩) within ?_ (stops _ _)) ?_
    · rw [slot]
      exact directory.distinct.add absent
    · rintro ⟨r, inode⟩ s' ⟨-, synced, after, whole, nothing⟩
      rw [slot] at whole
      refine .pure ⟨synced, after, fun fails => ?_, fun links => ?_⟩
      · obtain ⟨short, entries⟩ := nothing (refuses.mp fails)
        exact ⟨decide_eq_false short, entries⟩
      · obtain ⟨all, entries⟩ := whole (not_not.mp fun not => links (refuses.mpr not))
        refine ⟨decide_eq_true all, ?_, j, free, first, entries⟩
        rw [entries, toMap_add directory.distinct free absent]
  unfold Disk.dirlinkNew
  refine .bind (.of_eq run ?_)
  cases found with
  | none | some result => exact written _ place

theorem Directory.dirlink (full : ninode ≤ s.cached → allowed ⟨.igetNoInodes, s.lh⟩) :
    Ensures allowed (dirlink sb inum (dinodeAt sb s.disk inum) name child) s
      (Bound sb inum name child s) := by
  unfold Disk.dirlink
  refine .seq (directory.dirlookup fun tooMany _ => full tooMany) ?_
  rintro ⟨found, _⟩ s₁ ⟨⟨rfl, disk₁, value, -, -⟩, same, fresh⟩
  cases found with
  | none =>
    obtain rfl := same rfl
    exact directory.dirlinkNew sound nonzero small stops value.symm
  | some entry =>
    refine .seq (iput_fresh (fresh _ _ rfl)) ?_
    rintro _ s₂ disk₂
    have disk : s₂.disk = s.disk := disk₂.trans disk₁
    refine .pure
      ⟨by rw [disk], directory.congr disk, fun _ => ⟨rfl, entriesOf_congr disk⟩, fun not => ?_⟩
    exact absurd (.inl (by rw [← value]; simp)) not

end Operations

end Xv6.Disk
