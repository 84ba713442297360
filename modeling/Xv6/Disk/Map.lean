import Xv6.Disk.Alloc

/-!
# Mapping blocks

`bmap` gives a file a new block where it has none. Its other blocks and all other
files stay as they are, and no block gets two owners.
-/

namespace Xv6.Disk

open Function
open Volume

variable {sb : Superblock} {s s' s'' : Store} {inum : Nat} {inode inode' inode'' : Dinode}
  {allowed : Stop → Prop} {paid : Set Nat} {k : Nat}

/-- From `s` with the inode in memory to `s'` the file has got new blocks. -/
structure Grown (sb : Superblock) (inum : Nat) (s : Store) (inode : Dinode) (s' : Store)
    (inode' : Dinode) : Prop where
  owned : (viewOf sb s'.disk inum inode').Owned sb.first sb.size (Used sb s'.disk)
  extends' : Extends (viewOf sb s.disk inum inode) (viewOf sb s'.disk inum inode') inum
  inodes : ∀ i < sb.ninodes, dinodeAt sb s'.disk i = dinodeAt sb s.disk i
  same : SameTable s s'
  fits : inode'.Fits

theorem Grown.refl (owned : (viewOf sb s.disk inum inode).Owned sb.first sb.size (Used sb s.disk))
    (fits : inode.Fits) : Grown sb inum s inode s inode :=
  ⟨owned, .refl _ _, fun _ _ => rfl, .refl s, fits⟩

theorem Grown.trans (first : Grown sb inum s inode s' inode')
    (second : Grown sb inum s' inode' s'' inode'') : Grown sb inum s inode s'' inode'' :=
  ⟨second.owned, first.extends'.trans second.extends',
    fun i inside => (second.inodes i inside).trans (first.inodes i inside),
    first.same.trans second.same, second.fits⟩

theorem Grown.fields (grown : Grown sb inum s inode s' inode') :
    { inode' with addrs := inode.addrs } = inode := by
  have fields := grown.extends'.fields
  rwa [viewOf_inode, viewOf_inode] at fields

theorem Grown.type (grown : Grown sb inum s inode s' inode') : inode'.type = inode.type := by
  have same := congrArg Dinode.type grown.fields
  exact same

section

variable (sound : sb.Sound)
  (owned : (viewOf sb s.disk inum inode).Owned sb.first sb.size (Used sb s.disk))
  (inUse : inode.type ≠ 0) (fits : inode.Fits)

include owned in
theorem first_le_of_unused {x : Nat} (below : x < sb.size) (unused : ¬ Used sb s.disk x) :
    sb.first ≤ x := by
  by_contra before
  exact unused ((owned.used x below).mpr (.inl (by omega)))

include owned inUse

variable {slot x : Nat}

theorem growable_allocated (inside : slot < slots)
    (empty : (viewOf sb s.disk inum inode).addr inum slot = 0)
    (indirect : ndirect < slot → (viewOf sb s.disk inum inode).addr inum ndirect ≠ 0)
    (below : x < sb.size) (unused : ¬ Used sb s.disk x) :
    Growable (viewOf sb s.disk inum inode) sb.first sb.size (Used sb s.disk) inum slot x where
  inUse := by rwa [viewOf_inode]
  inside := inside
  empty := empty
  indirect := indirect
  unused := unused
  low := first_le_of_unused owned below unused
  below := below

include sound fits

omit inUse fits in
/-- A block that was allocated and put into a slot. `s'` has its bit set. -/
theorem grown_of_grow
    (growable : Growable (viewOf sb s.disk inum inode) sb.first sb.size (Used sb s.disk) inum slot
      x)
    (view : viewOf sb s'.disk inum inode' = (viewOf sb s.disk inum inode).grow inum slot x)
    (used : ∀ b < sb.size, (Used sb s'.disk b ↔ Used sb s.disk b ∨ b = x))
    (inodes : ∀ i < sb.ninodes, dinodeAt sb s'.disk i = dinodeAt sb s.disk i)
    (same : SameTable s s') (fits' : inode'.Fits) : Grown sb inum s inode s' inode' where
  owned := by
    have grown := Owned.grow owned growable sound.positive (lt_trans sound.small (by decide))
    rw [view]
    exact grown.of_used used
  extends' := by
    rw [view]
    exact extends_grow owned growable sound.positive (lt_trans sound.small (by decide))
  inodes := inodes
  same := same
  fits := fits'

theorem grown_direct (direct : slot ≤ ndirect)
    (empty : (viewOf sb s.disk inum inode).addr inum slot = 0) (below : x < sb.size)
    (unused : ¬ Used sb s.disk x) :
    Grown sb inum s inode (s.allocated sb x) (inode.setAddr slot x) ∧
      viewOf sb (s.allocated sb x).disk inum (inode.setAddr slot x) =
        (viewOf sb s.disk inum inode).grow inum slot x := by
  have inside : slot < slots := lt_of_le_of_lt direct ndirect_lt_slots
  have growable := growable_allocated owned inUse inside empty (fun beyond => by omega) below unused
  have data := growable.low
  have view : viewOf sb (s.allocated sb x).disk inum (inode.setAddr slot x) =
      (viewOf sb s.disk inum inode).grow inum slot x := by
    rw [Volume.grow, assign, if_pos direct, setBlock_inode, viewOf_inode,
      ← viewOf_allocated sound data below]
    unfold viewOf
    rw [setInode_setInode]
  refine ⟨grown_of_grow sound owned growable view (fun b inside => used_allocated sound data inside)
    (fun i inside => dinodeAt_allocated sound data inside) (.allocated s x) ?_, view⟩
  exact fits.setAddr (lt_trans below (lt_trans sound.small (by decide)))

theorem grown_entry {j x : Nat} (bound : j < nindirect)
    (present : (viewOf sb s.disk inum inode).addr inum ndirect ≠ 0)
    (empty : (viewOf sb s.disk inum inode).addr inum (ndirect + 1 + j) = 0) (below : x < sb.size)
    (unused : ¬ Used sb s.disk x) :
    let s₁ := (s.allocated sb x).wrote (inode.addr ndirect)
      ((s.disk (inode.addr ndirect)).store (4 * j) 4 x)
    Grown sb inum s inode s₁ inode ∧ viewOf sb s₁.disk inum inode =
      (viewOf sb s.disk inum inode).grow inum (ndirect + 1 + j) x := by
  intro s₁
  have inside : ndirect + 1 + j < slots := by
    unfold slots maxFile
    omega
  have type : ((viewOf sb s.disk inum inode).inode inum).type ≠ 0 := by rwa [viewOf_inode]
  have indirect : (viewOf sb s.disk inum inode).addr inum ndirect = inode.addr ndirect := by
    rw [addr_direct type le_rfl, viewOf_inode]
  have growable := growable_allocated owned inUse inside empty (fun _ => present) below unused
  have data := growable.low
  have place := owned.place inum ndirect ndirect_lt_slots present
  have apart := growable.fresh owned inum ndirect ndirect_lt_slots
  rw [indirect] at place apart
  have slot : ndirect + 1 + j - (ndirect + 1) = j := by omega
  have view : viewOf sb s₁.disk inum inode =
      (viewOf sb s.disk inum inode).grow inum (ndirect + 1 + j) x := by
    rw [Volume.grow, assign, if_neg (by omega), setBlock_inode, viewOf_inode,
      ← viewOf_allocated sound data below, slot, viewOf_block place.1]
    have bytes : (s.allocated sb x).disk (inode.addr ndirect) = s.disk (inode.addr ndirect) := by
      have := sound.bitmap x below
      change update (markUsed sb s.disk x) x zeroes _ = _
      rw [update_of_ne apart, markUsed, update_of_ne (by omega)]
    rw [bytes]
    exact viewOf_update sound place.1 _
  refine ⟨grown_of_grow sound owned growable view (fun b inside => ?_) (fun i inside => ?_)
    ((SameTable.allocated s x).trans (.wrote ..)) fits, view⟩
  · change Used sb (update (s.allocated sb x).disk _ _) b ↔ _
    rw [← used_allocated sound data inside, Used, usedAt_update sound place.1 inside]
    rfl
  · change dinodeAt sb (update (s.allocated sb x).disk _ _) i = _
    rw [dinodeAt_data sound place.1 inside, dinodeAt_allocated sound data inside]

end

/-! ## bmap -/

/-- What holds after `bmap` has returned `r` for block `bn`. -/
structure Mapped (sb : Superblock) (allowed : Stop → Prop) (inum bn : Nat) (s : Store)
    (inode : Dinode) (paid : Set Nat) (k r : Nat) (s' : Store) (inode' : Dinode) : Prop where
  grown : Grown sb inum s inode s' inode'
  block : r ≠ 0 → (viewOf sb s'.disk inum inode').fileBlock inum bn = r
  pays : ∃ paid', paid ⊆ paid' ∧ (r ≠ 0 → r ∈ paid') ∧ Pays allowed s' paid' k

def Needs (bn k : Nat) : Prop := k = slotOf bn ∨ (k = ndirect ∧ ndirect ≤ bn)

/-- What `bmap` has done to the bitmap and to the log when it has returned `r` for
block `bn`. -/
structure Placed (sb : Superblock) (inum bn : Nat) (s : Store) (inode : Dinode) (r : Nat)
    (s' : Store) (inode' : Dinode) : Prop where
  only : ∀ k, (viewOf sb s'.disk inum inode').addr inum k ≠ 0 →
    (viewOf sb s.disk inum inode).addr inum k ≠ 0 ∨ Needs bn k
  full : r = 0 → (∀ b < sb.size, Used sb s'.disk b) ∧
    ∃ k, Needs bn k ∧ (viewOf sb s'.disk inum inode').addr inum k = 0
  logged : Logged s s'
  new : r ≠ 0 → (viewOf sb s.disk inum inode).fileBlock inum bn = 0 → r ∈ s'.lh
  /-- Of the blocks in use only the indirect block is written. -/
  unlogged : ∀ x ∈ s'.lh, sb.first ≤ x → x < sb.size → Used sb s.disk x →
    x ≠ (viewOf sb s.disk inum inode).addr inum ndirect → x ∈ s.lh

theorem placed_present {bn r : Nat} (present : (viewOf sb s.disk inum inode).fileBlock inum bn ≠ 0)
    (isBlock : r = (viewOf sb s.disk inum inode).fileBlock inum bn) :
    Placed sb inum bn s inode r s inode where
  only _ present := .inl present
  full none := absurd (isBlock ▸ none) present
  logged := .refl s
  new _ absent := absurd absent present
  unlogged _ logged _ _ _ _ := logged

theorem placed_nothing {bn k : Nat} (full : ∀ b < sb.size, Used sb s.disk b) (needs : Needs bn k)
    (absent : (viewOf sb s.disk inum inode).addr inum k = 0) :
    Placed sb inum bn s inode 0 s inode where
  only _ present := .inl present
  full _ := ⟨full, k, needs, absent⟩
  logged := .refl s
  new none := absurd rfl none
  unlogged _ logged _ _ _ _ := logged

section

variable (sound : sb.Sound)
  (owned : (viewOf sb s.disk inum inode).Owned sb.first sb.size (Used sb s.disk))
  (inUse : inode.type ≠ 0) (fits : inode.Fits) (bitmap : ∀ b < sb.size, sb.bblock b ∈ paid)

include sound owned in
theorem addr_of_grow {slot x k : Nat}
    (growable : Growable (viewOf sb s.disk inum inode) sb.first sb.size (Used sb s.disk) inum slot
      x)
    (view : viewOf sb s'.disk inum inode' = (viewOf sb s.disk inum inode).grow inum slot x) :
    (viewOf sb s'.disk inum inode').addr inum k =
      if k = slot then x else (viewOf sb s.disk inum inode).addr inum k := by
  rw [view, addr_grow owned growable sound.positive (lt_trans sound.small (by decide))]
  simp

include sound in
/-- A new block is in the log, with its bit. -/
theorem unlogged_allocated {x y : Nat} (unused : ¬ Used sb s.disk x) (below : x < sb.size)
    (member : y ∈ (s.allocated sb x).lh) (data : sb.first ≤ y) (used : Used sb s.disk y) :
    y ∈ s.lh := by
  rcases mem_lh_allocated.mp member with old | bit | rfl
  · exact old
  · have := sound.bitmap x below
    omega
  · exact absurd used unused

include owned fits

variable {bn : Nat}

theorem mapped_present (pays : Pays allowed s paid (k + 1)) :
    Mapped sb allowed inum bn s inode paid k ((viewOf sb s.disk inum inode).fileBlock inum bn) s
      inode where
  grown := .refl owned fits
  block _ := rfl
  pays := ⟨_, Set.subset_insert _ _, fun _ => .inl rfl, pays.pay _⟩

theorem mapped_nothing (pays : Pays allowed s paid k) :
    Mapped sb allowed inum bn s inode paid k 0 s inode where
  grown := .refl owned fits
  block none := absurd rfl none
  pays := ⟨paid, subset_rfl, fun none => absurd rfl none, pays⟩

include sound inUse bitmap

theorem bmapEntry_spec (beyond : ndirect ≤ bn) (inside : bn < maxFile)
    (present : (viewOf sb s.disk inum inode).addr inum ndirect ≠ 0)
    (isPaid : inode.addr ndirect ∈ paid) (pays : Pays allowed s paid (k + 1)) :
    Prog.Ensures allowed (bmapEntry sb (inode.addr ndirect) (bn - ndirect)) s fun r s' =>
      Mapped sb allowed inum bn s inode paid k r s' inode ∧
      Placed sb inum bn s inode r s' inode := by
  have type : ((viewOf sb s.disk inum inode).inode inum).type ≠ 0 := by rwa [viewOf_inode]
  have indirect : (viewOf sb s.disk inum inode).addr inum ndirect = inode.addr ndirect := by
    rw [addr_direct type le_rfl, viewOf_inode]
  have place := owned.place inum ndirect ndirect_lt_slots present
  rw [indirect] at place
  have slot : slotOf bn = ndirect + 1 + (bn - ndirect) := by
    rw [slotOf, if_neg (by omega)]
    omega
  have bound : bn - ndirect < nindirect := by
    unfold maxFile at inside
    omega
  have entry : (s.disk (inode.addr ndirect)).load (4 * (bn - ndirect)) 4 =
      (viewOf sb s.disk inum inode).fileBlock inum bn := by
    have index : ndirect + 1 + (bn - ndirect) - (ndirect + 1) = bn - ndirect := by omega
    rw [Volume.fileBlock, slot, addr_entry (by omega) present, indirect, viewOf_block place.1,
      index]
  unfold bmapEntry
  refine .bind (.of_eq rfl ?_)
  rw [entry]
  refine .ite (fun absent => ?_) fun mapped =>
    .pure ⟨mapped_present owned fits pays, placed_present mapped rfl⟩
  refine .seq (balloc_spec pays bitmap) ?_
  rintro x s' (⟨rfl, rfl, full⟩ | ⟨below, unused, rfl, pays'⟩)
  · refine .ite (fun _ => .pure ⟨mapped_nothing owned fits (pays.less (by omega)), ?_⟩) fun some =>
      absurd rfl some
    exact placed_nothing full (.inl rfl) absent
  · have empty : (viewOf sb s.disk inum inode).addr inum (ndirect + 1 + (bn - ndirect)) = 0 := by
      rw [← slot]
      exact absent
    obtain ⟨grown, view⟩ := grown_entry sound owned inUse fits bound present empty below unused
    have growable :=
      growable_allocated owned inUse (slotOf_lt inside) absent (fun _ => present) below unused
    rw [← slot] at view
    refine .ite (fun none => ?_) fun nonzero =>
      .bind (logWrite_spec pays' (.pure ⟨⟨grown, fun _ => ?_, ?_⟩, ?_⟩))
    · have := first_le_of_unused owned below unused
      have := sound.positive
      omega
    · rw [view, fileBlock_grow owned sound.positive (lt_trans sound.small (by decide)) growable,
        if_pos ⟨rfl, rfl⟩]
    · exact ⟨_, Set.subset_insert _ _, fun _ => .inl rfl, pays'.wrote (.inr isPaid) _⟩
    · refine ⟨fun k mapped => ?_, fun none => absurd none nonzero,
        (Logged.allocated s x).trans (.wrote ..),
        fun _ _ => mem_lh_wrote.mpr (.inl (mem_lh_allocated.mpr (.inr (.inr rfl)))),
          fun y member data _ used other => ?_⟩
      · rw [addr_of_grow sound owned growable view] at mapped
        split at mapped
        next same => exact .inr (.inl same)
        next => exact .inl mapped
      · rcases mem_lh_wrote.mp member with early | late
        · exact unlogged_allocated sound unused below early data used
        · exact absurd (late.trans indirect.symm) other

theorem bmap_direct (direct : bn < ndirect) (absent : inode.addr bn = 0)
    (pays : Pays allowed s paid (k + 2)) :
    Prog.Ensures allowed (do
        let addr ← balloc sb
        if addr = 0 then return (0, inode) else return (addr, inode.setAddr bn addr)) s fun r s' =>
      Mapped sb allowed inum bn s inode paid k r.1 s' r.2 ∧
      Placed sb inum bn s inode r.1 s' r.2 := by
  have type : ((viewOf sb s.disk inum inode).inode inum).type ≠ 0 := by rwa [viewOf_inode]
  have slot : slotOf bn = bn := if_pos direct
  have empty : (viewOf sb s.disk inum inode).addr inum bn = 0 := by
    rwa [addr_direct type (le_of_lt direct), viewOf_inode]
  refine .seq (balloc_spec pays bitmap) ?_
  rintro x s' (⟨rfl, rfl, full⟩ | ⟨below, unused, rfl, pays'⟩)
  · refine .ite (fun _ => .pure ⟨mapped_nothing owned fits (pays.less (by omega)), ?_⟩) fun some =>
      absurd rfl some
    exact placed_nothing full (.inl slot.symm) empty
  · obtain ⟨grown, view⟩ := grown_direct sound owned inUse fits (le_of_lt direct) empty below unused
    have low := first_le_of_unused owned below unused
    have positive := sound.positive
    have growable : Growable _ _ _ _ inum (slotOf bn) x :=
      growable_allocated owned inUse (by rw [slot]; exact lt_trans direct ndirect_lt_slots)
        (by rwa [slot])
        (fun beyond => by rw [slot] at beyond; omega) below unused
    refine .ite (fun none => by omega) fun nonzero => .pure ⟨⟨grown, fun _ => ?_, ?_⟩, ?_⟩
    · have new := fileBlock_grow owned positive (lt_trans sound.small (by decide)) growable inum bn
      rw [slot, if_pos ⟨rfl, rfl⟩] at new
      rw [view, new]
    · exact ⟨_, Set.subset_insert _ _, fun _ => .inl rfl, pays'.less (by omega)⟩
    · refine ⟨fun k mapped => ?_, fun none => absurd none nonzero, .allocated s x,
        fun _ _ => mem_lh_allocated.mpr (.inr (.inr rfl)),
        fun y member data _ used _ => unlogged_allocated sound unused below member data used⟩
      rw [addr_of_grow sound owned growable (by rwa [slot])] at mapped
      split at mapped
      next same => exact .inr (.inl same)
      next => exact .inl mapped

theorem bmap_newIndirect (beyond : ndirect ≤ bn) (inside : bn < maxFile)
    (absent : inode.addr ndirect = 0) (pays : Pays allowed s paid (k + 2)) :
    Prog.Ensures allowed (do
        let indirect ← balloc sb
        if indirect = 0 then
          return (0, inode)
        else
          return (← bmapEntry sb indirect (bn - ndirect), inode.setAddr ndirect indirect)) s
            fun r s' =>
      Mapped sb allowed inum bn s inode paid k r.1 s' r.2 ∧
      Placed sb inum bn s inode r.1 s' r.2 := by
  have type : ((viewOf sb s.disk inum inode).inode inum).type ≠ 0 := by rwa [viewOf_inode]
  have empty : (viewOf sb s.disk inum inode).addr inum ndirect = 0 := by
    rwa [addr_direct type le_rfl, viewOf_inode]
  refine .seq (balloc_spec pays bitmap) ?_
  rintro x s' (⟨rfl, rfl, full⟩ | ⟨below, unused, rfl, pays'⟩)
  · refine .ite (fun _ => .pure ⟨mapped_nothing owned fits (pays.less (by omega)), ?_⟩) fun some =>
      absurd rfl some
    exact placed_nothing full (.inr ⟨rfl, beyond⟩) empty
  · obtain ⟨grown, view⟩ := grown_direct sound owned inUse fits le_rfl empty below unused
    have low := first_le_of_unused owned below unused
    have positive := sound.positive
    have address : (inode.setAddr ndirect x).addr ndirect = x := by
      rw [Dinode.addr_setAddr _ _ _ (by decide), if_pos rfl]
    have present : (viewOf sb (s.allocated sb x).disk inum (inode.setAddr ndirect x)).addr inum
        ndirect ≠ 0 := by
      rw [addr_direct (by rwa [viewOf_inode]) le_rfl, viewOf_inode, address]
      omega
    refine .ite (fun none => by omega) fun _ => .bind ?_
    have entry :=
      bmapEntry_spec sound grown.owned inUse grown.fits (fun b below => .inr (bitmap b below))
      beyond inside present (.inl address) pays'
    rw [address] at entry
    have growable : Growable _ _ _ _ inum ndirect x :=
      growable_allocated owned inUse ndirect_lt_slots empty
        (fun beyond => absurd beyond (lt_irrefl _)) below unused
    refine entry.mono ?_
    rintro r s'' ⟨⟨grown', block, paid', more, isPaid, pays''⟩, placed⟩
    refine .pure
      ⟨⟨grown.trans grown', block, paid', (Set.subset_insert _ _).trans more, isPaid, pays''⟩, ?_⟩
    refine ⟨fun k mapped => ?_, placed.full, (Logged.allocated s x).trans placed.logged,
      fun some absent => ?_,
      fun y member data inside used _ => ?_⟩
    · rcases placed.only k mapped with early | needs
      · rw [addr_of_grow sound owned growable view] at early
        split at early
        next same => exact .inr (.inr ⟨same, beyond⟩)
        next => exact .inl early
      · exact .inr needs
    · refine placed.new some ?_
      rw [Volume.fileBlock, addr_of_grow sound owned growable view, if_neg (slotOf_ne_ndirect bn)]
      exact absent
    · refine unlogged_allocated sound unused below (placed.unlogged y member data inside ?_ ?_) data
        used
      · exact (used_allocated sound low inside).mpr (.inl used)
      · rw [addr_of_grow sound owned growable view, if_pos rfl]
        rintro rfl
        exact unused used

/-- `bmap` takes a block that is free, if there is one. -/
theorem bmap_placed (inside : bn < maxFile) (pays : Pays allowed s paid (k + 2)) :
    Prog.Ensures allowed (bmap sb inode bn) s fun r s' =>
      Mapped sb allowed inum bn s inode paid k r.1 s' r.2 ∧
      Placed sb inum bn s inode r.1 s' r.2 := by
  have type : ((viewOf sb s.disk inum inode).inode inum).type ≠ 0 := by rwa [viewOf_inode]
  unfold bmap
  refine .ite (fun direct => ?_) fun beyond => ?_
  · refine .ite (fun absent => bmap_direct sound owned inUse fits bitmap direct absent pays)
      fun present => .pure ?_
    have address : inode.addr bn = (viewOf sb s.disk inum inode).fileBlock inum bn := by
      rw [Volume.fileBlock, slotOf, if_pos direct, addr_direct type (le_of_lt direct), viewOf_inode]
    rw [address] at present ⊢
    exact ⟨mapped_present owned fits (pays.less (by omega)), placed_present present rfl⟩
  · have bound : bn - ndirect < nindirect := by
      unfold maxFile at inside
      omega
    refine .ite (fun _ => ?_) fun outside => absurd bound outside
    refine .ite (fun absent => ?_) fun present => .bind ?_
    · exact bmap_newIndirect sound owned inUse fits bitmap (by omega) inside absent pays
    · have address : (viewOf sb s.disk inum inode).addr inum ndirect ≠ 0 := by
        rwa [addr_direct type le_rfl, viewOf_inode]
      have entry := bmapEntry_spec sound owned inUse fits (fun b below => .inr (bitmap b below))
        (by omega) inside address (.inl rfl) (pays.pay (inode.addr ndirect))
      refine entry.mono ?_
      rintro r s' ⟨⟨grown, block, paid', more, isPaid, pays'⟩, placed⟩
      exact .pure ⟨⟨grown, block, paid', (Set.subset_insert _ _).trans more, isPaid, pays'⟩, placed⟩

end

end Xv6.Disk
