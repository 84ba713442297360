import Xv6.Disk.Extend
import Xv6.Disk.View
import Xv6.Mkfs.Image

/-!
# Appending to a file

`iappend` takes new blocks from `freeblock` on. It keeps the blocks of all files
apart and adds the bytes at the end of one file, unless the file would be too long
or the image is full.
-/

namespace Xv6.Mkfs

open List
open Function
open Xv6.Disk Xv6.Disk.Volume
open Prog (Ensures)

/-- While files are made the bitmap is not written yet, and there is room for inodes in
its block too. -/
def wide : Superblock := { superblock with ninodes := ninodeblocks * ipb + ipb }

theorem wide_before : wide.InodesBefore := by
  intro i inside
  change i < 224 at inside
  change i / 16 + 32 < 46
  omega

variable {sec : Nat}

theorem sector_eq (below : sec < 2 ^ 22) : sector sec = sec := by
  unfold sector bsize
  omega

theorem sector_of_lt_fssize (below : sec < fssize) : sector sec = sec :=
  sector_eq (lt_trans below (by decide))

/-- What the image holds when the inode in memory is `din`. -/
def view (s : State) (inum : Nat) (din : Dinode) : Volume :=
  (volumeOf wide s.image).setInode inum din

/-- The blocks before `freeblock` are in use and the others are empty. -/
structure Good (s : State) (v : Volume) : Prop where
  sectors : s.sectors = fssize
  low : nmeta ≤ s.freeblock
  high : s.freeblock ≤ fssize
  owned : v.Owned nmeta fssize (· < s.freeblock)
  blank : ∀ b, s.freeblock ≤ b → v.block b = zeroes

/-- The number of blocks that the next byte of a file takes. -/
def newBlocks (length : Nat) : Nat :=
  if length % bsize = 0 then if length / bsize = ndirect then 2 else 1 else 0

/-- What does not change when blocks are taken and written. -/
structure Same (s s' : State) : Prop where
  freeinode : s'.freeinode = s.freeinode
  front : ∀ b < nmeta, s'.image b = s.image b

theorem Same.refl (s : State) : Same s s := ⟨rfl, fun _ _ => rfl⟩

theorem Same.trans {s s' s'' : State} (first : Same s s') (second : Same s' s'') : Same s s'' :=
  ⟨second.freeinode.trans first.freeinode,
  fun b low => (second.front b low).trans (first.front b low)⟩

theorem Same.update {s : State} {b : Nat} (data : nmeta ≤ b) (buf : ByteSpace) (freeblock : Nat) :
    Same s { s with image := update s.image b buf, freeblock } :=
  ⟨rfl, fun _ low => update_of_ne (by omega) ..⟩

variable {s s' : State} {inum : Nat} {din : Dinode} {allowed : Failure → Prop}

theorem positive_nmeta : 0 < nmeta := by decide

theorem small_fssize : fssize < 2 ^ 32 := by decide

variable {post : ByteSpace → State → Prop}

theorem rsect_ensures (sectors : s.sectors = fssize) (small : sec < 2 ^ 22)
    (holds : sec < fssize → post (s.image sec) s) (fails : fssize ≤ sec → allowed .die) :
    Ensures allowed (rsect sec) s post := by
  unfold rsect
  refine .bind (.get ?_)
  rw [sector_eq small, sectors]
  refine .ite (fun below => ?_) (fun above => ?_)
  · exact .pure (holds below)
  · exact .throw (fails (by omega))

theorem rsect_of_ok (holds : sector sec < s.sectors → post (s.image (sector sec)) s) :
    Ensures (fun _ => True) (rsect sec) s post := by
  unfold rsect
  exact .bind (.get (.ite (fun below => .pure (holds below)) fun _ => .throw trivial))

theorem nextBlock_ensures {post : Nat → State → Prop}
    (holds : post s.freeblock { s with freeblock := s.freeblock + 1 }) :
    Ensures allowed nextBlock s post := by
  unfold nextBlock
  exact .bind (.get (.bind (.of_modify (.pure holds))))

theorem wsect_ensures {buf : ByteSpace} {post : PUnit → State → Prop} (sectors : s.sectors = fssize)
    (below : sec < fssize) (holds : post ⟨⟩ { s with image := update s.image sec buf }) :
    Ensures allowed (wsect sec buf) s post := by
  unfold wsect
  apply Ensures.of_modify
  rw [sector_of_lt_fssize below]
  have same : max s.sectors (sec + 1) = s.sectors := by omega
  rw [same]
  exact holds

/-! ## New blocks -/

variable {v : Volume}

theorem setBlock_blank {x : Nat} (blank : v.block x = zeroes) : v.setBlock x zeroes = v := by
  unfold Volume.setBlock
  rw [← blank, update_eq_self]

theorem view_setAddr {k x : Nat} (direct : k ≤ ndirect)
    (blank : (view s inum din).block x = zeroes) :
    view s inum (din.setAddr k x) = (view s inum din).grow inum k x := by
  rw [grow, setBlock_blank blank, assign, if_pos direct]
  unfold view Volume.setInode
  simp

theorem view_wsect {b : Nat} (data : nmeta ≤ b) (buf : ByteSpace) :
    view { s with image := update s.image b buf } inum din =
      (view s inum din).setBlock b buf := by
  unfold view
  rw [volumeOf_update wide_before data]
  rfl

theorem Good.grow {k : Nat} (good : Good s v) (inUse : (v.inode inum).type ≠ 0) (inside : k < slots)
    (empty : v.addr inum k = 0) (indirect : ndirect < k → v.addr inum ndirect ≠ 0)
    (room : s.freeblock < fssize) (image : Blocks) :
    Good { s with image, freeblock := s.freeblock + 1 } (v.grow inum k s.freeblock) := by
  have growable : Growable v nmeta fssize (· < s.freeblock) inum k s.freeblock :=
    ⟨inUse, inside, empty, indirect, lt_irrefl _, good.low, room⟩
  have owned := good.owned.grow growable positive_nmeta small_fssize
  refine ⟨good.sectors, le_trans good.low (Nat.le_succ _), room, ?_, ?_⟩
  · have same : (fun b => b < s.freeblock ∨ b = s.freeblock) = (· < s.freeblock + 1) := by
      funext b
      exact propext (by omega)
    rw [← same]
    exact owned
  · intro b above
    change s.freeblock + 1 ≤ b at above
    rw [grow_block (by omega)]
    · exact good.blank b (by omega)
    · intro beyond equal
      have present := indirect beyond
      have place := good.owned.place inum ndirect ndirect_lt_slots present
      have used := (good.owned.used _ place.2).mpr (.inr ⟨inum, ndirect, ndirect_lt_slots, rfl⟩)
      rw [addr_direct inUse le_rfl, ← equal] at used
      omega

theorem view_entry {b j x : Nat} (address : din.addr ndirect = b) (data : nmeta ≤ b)
    (blank : (view s inum din).block x = zeroes) :
    view { s with
        image := update s.image b ((s.image b).store (4 * j) 4 x), freeblock := x + 1 } inum din =
      (view s inum din).grow inum (ndirect + 1 + j) x := by
  have inode : (view s inum din).inode inum = din := setInode_inode_same inum din
  have bytes : (view s inum din).block b = s.image b := volumeOf_block data
  have slot : ndirect + 1 + j - (ndirect + 1) = j := by omega
  rw [grow, setBlock_blank blank, assign, if_neg (by omega), inode, address, bytes, slot]
  exact view_wsect data _

/-! ## The block of the next byte -/

variable {text : List UInt8}

/-- A file whose last block is not full has the block of its next byte. -/
theorem ready_of_filled (filled : Filled v inum text) (inside : text.length / bsize < maxFile)
    (open' : text.length % bsize ≠ 0) : Ready v inum text := by
  have positive : 0 < bsize := by decide
  have below : ∀ bn, bn * bsize < text.length ↔ bn ≤ text.length / bsize := by
    intro bn
    rw [Nat.le_div_iff_mul_le positive]
    constructor
    · exact le_of_lt
    · intro low
      refine lt_of_le_of_ne low fun equal => open' ?_
      rw [← equal, Nat.mul_mod_left]
  refine ⟨inside, fun bn bound => ?_, ?_, filled.bytes⟩
  · rw [filled.mapped bn bound, below]
  · rw [filled.indirect, below]

/-- The block of the next byte is the only new one with data. -/
theorem ready_of_extends {v v' : Volume} (filled : Filled v inum text)
    (extends' : Extends v v' inum) (inside : text.length / bsize < maxFile)
    (full : text.length % bsize = 0)
    (mapped : ∀ bn < maxFile, v'.fileBlock inum bn ≠ 0 ↔ v.fileBlock inum bn ≠ 0 ∨
      bn = text.length / bsize)
    (indirect : v'.addr inum ndirect ≠ 0 ↔ v.addr inum ndirect ≠ 0 ∨
      ndirect = text.length / bsize) :
    Ready v' inum text := by
  have positive : 0 < bsize := by decide
  have length : text.length / bsize * bsize = text.length :=
    Nat.div_mul_cancel (Nat.dvd_of_mod_eq_zero full)
  have below : ∀ bn, bn * bsize < text.length ↔ bn < text.length / bsize := by
    intro bn
    conv => lhs; rhs; rw [← length]
    exact Nat.mul_lt_mul_right positive
  refine ⟨inside, fun bn bound => ?_, ?_, fun off b char => ?_⟩
  · rw [mapped bn bound, filled.mapped bn bound, below]
    omega
  · rw [indirect, filled.indirect, below]
    omega
  · have short := (List.getElem?_eq_some_iff.mp char).1
    rw [extends'.byte (filled.inside short) (filled.present short)]
    exact filled.bytes off b char

/-- What holds when the block of the next byte is `x`. -/
structure Took (s : State) (inum : Nat) (din : Dinode) (text : List UInt8) (x : Nat) (din' : Dinode)
    (s' : State) : Prop where
  good : Good s' (view s' inum din')
  extends' : Extends (view s inum din) (view s' inum din') inum
  ready : Ready (view s' inum din') inum text
  block : (view s' inum din').fileBlock inum (text.length / bsize) = x
  fits : din'.Fits
  count : s'.freeblock = s.freeblock + newBlocks text.length
  same : Same s s'

theorem block_absent (filled : Filled v inum text) (inside : text.length / bsize < maxFile)
    (full : text.length % bsize = 0) : v.fileBlock inum (text.length / bsize) = 0 := by
  by_contra present
  have := (filled.mapped _ inside).mp present
  have := Nat.div_add_mod text.length bsize
  rw [Nat.mul_comm] at this
  omega

section

variable (good : Good s (view s inum din)) (filled : Filled (view s inum din) inum text)
  (inUse : din.type ≠ 0) (inside : text.length / bsize < maxFile)

include good filled inUse inside

theorem growable_data (full : text.length % bsize = 0) (room : s.freeblock < fssize)
    (indirect : ndirect ≤ text.length / bsize → (view s inum din).addr inum ndirect ≠ 0) :
    Growable (view s inum din) nmeta fssize (· < s.freeblock) inum (slotOf (text.length / bsize))
      s.freeblock where
  inUse := by rwa [view, setInode_inode_same]
  inside := slotOf_lt inside
  empty := block_absent filled inside full
  indirect beyond := by
    apply indirect
    by_contra direct
    rw [slotOf, if_pos (by omega)] at beyond
    omega
  unused := lt_irrefl _
  low := good.low
  below := room

theorem took_data {din' : Dinode} {image : Blocks} (full : text.length % bsize = 0)
    (room : s.freeblock < fssize)
    (indirect : ndirect ≤ text.length / bsize → (view s inum din).addr inum ndirect ≠ 0)
    (same : view { s with image, freeblock := s.freeblock + 1 } inum din' =
      (view s inum din).grow inum (slotOf (text.length / bsize)) s.freeblock)
    (fits' : din'.Fits) (count : newBlocks text.length = 1)
    (kept : Same s { s with image, freeblock := s.freeblock + 1 }) :
    Took s inum din text s.freeblock din' { s with image, freeblock := s.freeblock + 1 } := by
  have growable := growable_data good filled inUse inside full room indirect
  have fileBlock := fileBlock_grow good.owned positive_nmeta small_fssize growable
  have extends' := extends_grow good.owned growable positive_nmeta small_fssize
  have nonzero : s.freeblock ≠ 0 := by
    have := good.low
    have := positive_nmeta
    omega
  constructor
  · rw [same]
    exact good.grow growable.inUse growable.inside growable.empty growable.indirect room image
  · rwa [same]
  · rw [same]
    refine ready_of_extends filled extends' inside full (fun bn below => ?_) ?_
    · rw [fileBlock]
      by_cases here : bn = text.length / bsize
      · simp [here, nonzero]
      · simp [here]
    · rw [indirect_grow good.owned positive_nmeta small_fssize growable]
      exact ⟨.inl, fun either => either.elim id fun equal => indirect (le_of_eq equal)⟩
  · rw [same, fileBlock, if_pos ⟨rfl, rfl⟩]
  · exact fits'
  · rw [count]
  · exact kept

theorem took_indirect (fits : din.Fits) (length : text.length = ndirect * bsize)
    (room : s.freeblock + 1 < fssize) {image : Blocks}
    (same : view { s with image, freeblock := s.freeblock + 1 + 1 } inum
      (din.setAddr ndirect s.freeblock) =
        ((view s inum din).grow inum ndirect s.freeblock).grow inum (slotOf (text.length / bsize))
          (s.freeblock + 1))
    (kept : Same s { s with image, freeblock := s.freeblock + 1 + 1 }) :
    Took s inum din text (s.freeblock + 1) (din.setAddr ndirect s.freeblock)
      { s with image, freeblock := s.freeblock + 1 + 1 } := by
  have block : text.length / bsize = ndirect := by rw [length]; rfl
  have full : text.length % bsize = 0 := by rw [length]; rfl
  have inode : ((view s inum din).inode inum).type ≠ 0 := by rwa [view, setInode_inode_same]
  have absent : (view s inum din).addr inum ndirect = 0 := by
    by_contra present
    have := filled.indirect.mp present
    omega
  have low := good.low
  have positive := positive_nmeta
  have growable : Growable (view s inum din) nmeta fssize (· < s.freeblock) inum ndirect
    s.freeblock :=
    ⟨inode, ndirect_lt_slots, absent, fun beyond => absurd beyond (lt_irrefl _), lt_irrefl _,
    low, by omega⟩
  have good₁ := good.grow inode ndirect_lt_slots absent growable.indirect growable.below s.image
  have extends₁ := extends_grow good.owned growable positive_nmeta small_fssize
  have addr₁ := addr_grow good.owned growable positive_nmeta small_fssize
  have fileBlock₁ := fileBlock_grow_indirect good.owned positive_nmeta small_fssize growable
  have present : ((view s inum din).grow inum ndirect s.freeblock).addr inum ndirect ≠ 0 := by
    rw [addr₁, if_pos ⟨rfl, rfl⟩]
    omega
  have growable₂ : Growable ((view s inum din).grow inum ndirect s.freeblock) nmeta fssize
      (· < s.freeblock + 1) inum (slotOf (text.length / bsize)) (s.freeblock + 1) := by
    refine ⟨?_, slotOf_lt inside, ?_, fun _ => present, lt_irrefl _, by omega, room⟩
    · rwa [grow_inode, if_pos le_rfl, Dinode.setAddr_type]
    · exact (fileBlock₁ inum _).trans (block_absent filled inside full)
  have good₂ :=
    good₁.grow growable₂.inUse growable₂.inside growable₂.empty growable₂.indirect room image
  have extends₂ := extends_grow good₁.owned growable₂ positive_nmeta small_fssize
  have fileBlock₂ := fileBlock_grow good₁.owned positive_nmeta small_fssize growable₂
  have indirect₂ := indirect_grow good₁.owned positive_nmeta small_fssize growable₂
  constructor
  · rw [same]
    exact good₂
  · rw [same]
    exact extends₁.trans extends₂
  · rw [same]
    refine ready_of_extends filled (extends₁.trans extends₂) inside full (fun bn below => ?_) ?_
    · rw [fileBlock₂, fileBlock₁]
      by_cases here : bn = text.length / bsize
      · simp [here]
      · simp [here]
    · rw [indirect₂]
      exact ⟨fun _ => .inr block.symm, fun _ => present⟩
  · rw [same, fileBlock₂, if_pos ⟨rfl, rfl⟩]
  · exact fits.setAddr (lt_trans growable.below small_fssize)
  · rw [newBlocks, if_pos full, if_pos block]
  · exact kept

omit inUse in
theorem took_nothing (fits : din.Fits)
    (present : (view s inum din).fileBlock inum (text.length / bsize) ≠ 0) :
    Took s inum din text ((view s inum din).fileBlock inum (text.length / bsize)) din s := by
  have open' : text.length % bsize ≠ 0 := fun full => present (block_absent filled inside full)
  refine ⟨good, .refl _ _, ready_of_filled filled inside open', rfl, fits, ?_, .refl s⟩
  rw [newBlocks, if_neg open', Nat.add_zero]

omit good inUse in
theorem full_of_absent (absent : (view s inum din).fileBlock inum (text.length / bsize) = 0) :
    text.length % bsize = 0 := by
  have unmapped : ¬ text.length / bsize * bsize < text.length :=
    fun below => (filled.mapped _ inside).mpr below absent
  have := Nat.div_add_mod text.length bsize
  rw [Nat.mul_comm] at this
  omega

theorem entryBlock_spec (fits : din.Fits) (present : (view s inum din).addr inum ndirect ≠ 0)
    (beyond : ndirect ≤ text.length / bsize) :
    Ensures (fun _ => fssize < s.freeblock + newBlocks text.length)
      (entryBlock (din.addr ndirect) (text.length / bsize - ndirect)) s fun x s' =>
        x < 2 ^ 22 ∧ s'.sectors = fssize ∧
          (fssize ≤ x → fssize < s.freeblock + newBlocks text.length) ∧
          (x < fssize → Took s inum din text x din s') := by
  have inode : (view s inum din).inode inum = din := setInode_inode_same inum din
  have address : din.addr ndirect = (view s inum din).addr inum ndirect := by
    rw [addr_direct (by rwa [inode]) le_rfl, inode]
  have place := good.owned.place inum ndirect ndirect_lt_slots present
  rw [← address] at place present
  have slot : slotOf (text.length / bsize) = ndirect + 1 + (text.length / bsize - ndirect) := by
    rw [slotOf, if_neg (by omega)]
    omega
  have entry : (s.image (din.addr ndirect)).load (4 * (text.length / bsize - ndirect)) 4 =
      (view s inum din).fileBlock inum (text.length / bsize) := by
    have bytes : (view s inum din).block (din.addr ndirect) = s.image (din.addr ndirect) :=
      volumeOf_block place.1
    have index : ndirect + 1 + (text.length / bsize - ndirect) - (ndirect + 1) =
        text.length / bsize - ndirect := by omega
    rw [Volume.fileBlock, slot, addr_entry (by omega) (by rwa [← address]), ← address, bytes, index]
  have small : (din.addr ndirect) < 2 ^ 22 := lt_trans place.2 (by decide)
  unfold entryBlock
  refine .bind (rsect_ensures good.sectors small (fun _ => ?_) (fun above => by omega))
  rw [entry]
  have high := good.high
  refine .ite (fun absent => ?_) (fun mapped => ?_)
  · have full := full_of_absent filled inside absent
    refine .bind (nextBlock_ensures (.bind (wsect_ensures good.sectors place.2 (.pure ?_))))
    have newBlocks_pos : 0 < newBlocks text.length := by
      rw [newBlocks, if_pos full]
      split <;> omega
    have bound : s.freeblock < 2 ^ 22 := lt_of_le_of_lt high (by decide)
    refine ⟨bound, good.sectors, fun above => by omega, fun room => ?_⟩
    have notFirst : text.length / bsize ≠ ndirect := by
      intro first
      have := filled.indirect.mp (by rwa [← address])
      have := Nat.div_add_mod text.length bsize
      rw [first, full, Nat.mul_comm] at this
      omega
    refine took_data good filled inUse inside full room (fun _ => by rwa [← address]) ?_ fits ?_
      (.update place.1 _ _)
    · rw [slot]
      exact view_entry rfl place.1 (good.blank _ le_rfl)
    · rw [newBlocks, if_pos full, if_neg notFirst]
  · refine .pure ?_
    have place' := good.owned.fileBlock_place inside mapped
    refine ⟨lt_trans place'.2 (by decide), good.sectors, fun above => by omega, fun _ => ?_⟩
    exact took_nothing good filled inside fits mapped

/-- The block of the next byte is found or made, unless there is no room for it. -/
theorem fileBlock_spec (fits : din.Fits) :
    Ensures (fun _ => fssize < s.freeblock + newBlocks text.length)
      (fileBlock din (text.length / bsize)) s fun r s' =>
        r.1 < 2 ^ 22 ∧ s'.sectors = fssize ∧
          (fssize ≤ r.1 → fssize < s.freeblock + newBlocks text.length) ∧
          (r.1 < fssize → Took s inum din text r.1 r.2 s') := by
  have inode : (view s inum din).inode inum = din := setInode_inode_same inum din
  have type : ((view s inum din).inode inum).type ≠ 0 := by rwa [inode]
  have low := good.low
  have high := good.high
  have bound : s.freeblock < 2 ^ 22 := lt_of_le_of_lt high (by decide)
  unfold fileBlock
  refine .ite (fun direct => ?_) (fun beyond => ?_)
  · have slot : slotOf (text.length / bsize) = text.length / bsize := if_pos direct
    have address : din.addr (text.length / bsize) =
        (view s inum din).fileBlock inum (text.length / bsize) := by
      rw [Volume.fileBlock, slot, addr_direct type (le_of_lt direct), inode]
    rw [address]
    refine .ite (fun absent => ?_) (fun mapped => ?_)
    · have full := full_of_absent filled inside absent
      have count : newBlocks text.length = 1 := by
        rw [newBlocks, if_pos full, if_neg (by omega)]
      refine .bind (nextBlock_ensures (.pure ?_))
      refine ⟨bound, good.sectors, fun above => by omega, fun room => ?_⟩
      refine took_data good filled inUse inside full room (fun _ => by omega) ?_
        (fits.setAddr (lt_trans room small_fssize)) count ⟨rfl, fun _ _ => rfl⟩
      rw [slot]
      exact view_setAddr (le_of_lt direct) (good.blank _ le_rfl)
    · refine .pure ?_
      have place := good.owned.fileBlock_place inside mapped
      refine ⟨lt_trans place.2 (by decide), good.sectors, fun above => by omega, fun _ => ?_⟩
      exact took_nothing good filled inside fits mapped
  · have address : din.addr ndirect = (view s inum din).addr inum ndirect := by
      rw [addr_direct type le_rfl, inode]
    refine .ite (fun absent => ?_) (fun present => ?_)
    · have length : text.length = ndirect * bsize := by
        have short : ¬ ndirect * bsize < text.length :=
          fun long => filled.indirect.mpr long (by rw [← address, absent])
        have := Nat.div_mul_le_self text.length bsize
        have : ndirect * bsize ≤ text.length / bsize * bsize :=
          Nat.mul_le_mul_right bsize (by omega)
        omega
      have block : text.length / bsize = ndirect := by rw [length]; rfl
      have count : newBlocks text.length = 2 := by rw [length]; rfl
      rw [count, block, Nat.sub_self]
      refine .bind (nextBlock_ensures ?_)
      unfold entryBlock
      refine .bind
        (.bind (rsect_ensures good.sectors bound (fun room => ?_) (fun above => by omega)))
      have bytes : (view s inum din).block s.freeblock = s.image s.freeblock := volumeOf_block low
      have blank : s.image s.freeblock = zeroes := by rw [← bytes, good.blank _ le_rfl]
      have empty : (view s inum din).addr inum ndirect = 0 := by rw [← address, absent]
      have good₁ :=
        good.grow type ndirect_lt_slots empty (fun beyond => absurd beyond (lt_irrefl _)) room
        s.image
      have view₁ : view { s with freeblock := s.freeblock + 1 } inum
        (din.setAddr ndirect s.freeblock) =
          (view s inum din).grow inum ndirect s.freeblock :=
        view_setAddr le_rfl (good.blank _ le_rfl)
      have address₁ : (din.setAddr ndirect s.freeblock).addr ndirect = s.freeblock := by
        rw [Dinode.addr_setAddr _ _ _ (by decide), if_pos rfl]
      refine .ite (fun _ => ?_) (fun mapped => absurd (by rw [blank, load_zeroes]) mapped)
      refine .bind (nextBlock_ensures (.bind (wsect_ensures good.sectors room (.pure (.pure ?_)))))
      have bound₁ : s.freeblock + 1 < 2 ^ 22 := lt_of_le_of_lt room (by decide)
      refine ⟨bound₁, good.sectors, fun above => ?_, fun room₁ => ?_⟩
      · change fssize ≤ s.freeblock + 1 at above
        omega
      · refine took_indirect good filled inUse inside fits length room₁ ?_ (.update low _ _)
        rw [← view₁, block]
        apply view_entry address₁ low
        rw [← view₁] at good₁
        exact good₁.blank _ le_rfl
    · rw [address] at present
      refine .seq (entryBlock_spec good filled inUse inside fits present (by omega)) ?_
      exact fun x s' holds => .pure holds

end

/-! ## Many bytes -/

/-- The number of blocks of a file, with its indirect block. -/
def blocksFor (length : Nat) : Nat :=
  (length + (bsize - 1)) / bsize + if ndirect * bsize < length then 1 else 0

theorem blocksFor_add {length n : Nat} (positive : 0 < n) (fits : length % bsize + n ≤ bsize) :
    blocksFor (length + n) = blocksFor length + newBlocks length := by
  unfold blocksFor newBlocks
  by_cases before : ndirect * bsize < length <;> by_cases after : ndirect * bsize < length + n <;>
    by_cases full : length % bsize = 0 <;> by_cases last : length / bsize = ndirect <;>
    simp only [before, after, full, last, if_true, if_false] <;>
    simp only [bsize, ndirect] at * <;> omega

theorem blocksFor_mono {m n : Nat} (le : m ≤ n) : blocksFor m ≤ blocksFor n := by
  unfold blocksFor
  have : (m + (bsize - 1)) / bsize ≤ (n + (bsize - 1)) / bsize := Nat.div_le_div_right (by omega)
  split <;> split <;> omega

theorem Good.write {bn : Nat} (good : Good s v) (inside : bn < maxFile)
    (present : v.fileBlock inum bn ≠ 0) (data : ByteSpace) (image : Blocks) :
    Good { s with image } (v.setBlock (v.fileBlock inum bn) data) := by
  refine ⟨good.sectors, good.low, good.high,
    good.owned.write (slotOf_lt inside) (slotOf_ne_ndirect bn) data, fun b above => ?_⟩
  have place := good.owned.fileBlock_place inside present
  have used := (good.owned.used _ place.2).mpr (.inr ⟨inum, _, slotOf_lt inside, rfl⟩)
  change s.freeblock ≤ b at above
  rw [setBlock_block_ne _ (by omega)]
  exact good.blank b above

/-- What holds after `p` was appended to `text`. -/
structure Appended (s : State) (inum : Nat) (din : Dinode) (text p : List UInt8) (off : Nat)
    (din' : Dinode) (s' : State) : Prop where
  off : off = text.length + p.length
  good : Good s' (view s' inum din')
  filled : Filled (view s' inum din') inum (text ++ p)
  others : ∀ i ≠ inum, ∀ text', Filled (view s inum din) i text' →
    Filled (view s' inum din') i text'
  fits : din'.Fits
  fields : { din' with addrs := din.addrs } = din
  count : s'.freeblock + blocksFor text.length = s.freeblock + blocksFor (text.length + p.length)
  same : Same s s'

/-- The file can be that long, and there are enough blocks for it. -/
def Room (s : State) (text p : List UInt8) : Prop :=
  text.length + p.length ≤ maxFile * bsize ∧
    s.freeblock + blocksFor (text.length + p.length) ≤ fssize + blocksFor text.length

variable {p : List UInt8}

theorem Room.rest {n1 : Nat} (positive : 0 < n1) (short : n1 ≤ p.length)
    (fits : text.length % bsize + n1 ≤ bsize)
    (count : s'.freeblock = s.freeblock + newBlocks text.length) (room : Room s text p) :
    Room s' (text ++ p.take n1) (p.drop n1) := by
  have blocks := blocksFor_add positive fits
  obtain ⟨length, enough⟩ := room
  have total : (text ++ p.take n1).length + (p.drop n1).length = text.length + p.length := by
    simp only [length_append, length_take, length_drop]
    omega
  have start : (text ++ p.take n1).length = text.length + n1 := by
    simp only [length_append, length_take]
    omega
  unfold Room
  rw [total, start, blocks, count]
  omega

theorem not_room {n1 : Nat} (positive : 0 < n1) (short : n1 ≤ p.length)
    (fits : text.length % bsize + n1 ≤ bsize)
    (full : fssize < s.freeblock + newBlocks text.length) : ¬ Room s text p := by
  rintro ⟨-, enough⟩
  have blocks := blocksFor_add positive fits
  have mono : blocksFor (text.length + n1) ≤ blocksFor (text.length + p.length) :=
    blocksFor_mono (by omega)
  omega

/-- What holds after one block was written. -/
structure Wrote (s : State) (inum : Nat) (din : Dinode) (text p : List UInt8) (din₁ : Dinode)
    (s₁ : State) : Prop where
  good : Good s₁ (view s₁ inum din₁)
  filled : Filled (view s₁ inum din₁) inum (text ++ p)
  others : ∀ i ≠ inum, ∀ text', Filled (view s inum din) i text' →
    Filled (view s₁ inum din₁) i text'
  fits : din₁.Fits
  fields : { din₁ with addrs := din.addrs } = din
  count : s₁.freeblock = s.freeblock + newBlocks text.length
  same : Same s s₁

theorem Took.write {x : Nat} {din₁ : Dinode} {s₁ : State} (took : Took s inum din text x din₁ s₁)
    (nonempty : 0 < p.length) (fits : text.length % bsize + p.length ≤ bsize) {buf : ByteSpace}
    (isBuf : buf = (s₁.image x).blit (text.length % bsize) p.length fun i => p.getD i 0) :
    Wrote s inum din text p din₁ { s₁ with image := update s₁.image x buf } := by
  have inside := took.ready.inside
  have present := (took.ready.mapped _ inside).mpr le_rfl
  have place := took.good.owned.fileBlock_place inside present
  have bytes : (view s₁ inum din₁).block x = s₁.image x := by
    rw [took.block] at place
    exact volumeOf_block place.1
  have same : view { s₁ with image := update s₁.image x buf } inum din₁ =
      (view s₁ inum din₁).setBlock ((view s₁ inum din₁).fileBlock inum (text.length / bsize))
        buf := by
    rw [took.block] at place ⊢
    exact view_wsect place.1 buf
  have inode : (view s inum din).inode inum = din := setInode_inode_same inum din
  have inode₁ : (view s₁ inum din₁).inode inum = din₁ := setInode_inode_same inum din₁
  constructor
  · rw [same]
    exact took.good.write inside present buf _
  · have written := took.ready.write took.good.owned nonempty fits
    rw [took.block, bytes, ← isBuf, ← took.block, ← same] at written
    exact written
  · intro i other text' filled
    rw [same]
    exact (filled.extends_other took.extends' other).write_other took.good.owned inside buf other
  · exact took.fits
  · have fields := took.extends'.fields
    rw [inode, inode₁] at fields
    exact fields
  · exact took.count
  · rw [took.block] at place
    exact took.same.trans (.update place.1 _ _)

theorem Wrote.append {p q : List UInt8} {off : Nat} {din₁ din' : Dinode} {s₁ s' : State}
    (wrote : Wrote s inum din text p din₁ s₁) (nonempty : 0 < p.length)
    (fits : text.length % bsize + p.length ≤ bsize)
    (rest : Appended s₁ inum din₁ (text ++ p) q off din' s') :
    Appended s inum din text (p ++ q) off din' s' := by
  have blocks := blocksFor_add nonempty fits
  have count := rest.count
  have count₁ := wrote.count
  constructor
  · rw [rest.off, length_append, length_append, Nat.add_assoc]
  · exact rest.good
  · rw [← append_assoc]
    exact rest.filled
  · intro i other text' filled
    exact rest.others i other text' (wrote.others i other text' filled)
  · exact rest.fits
  · have inner := wrote.fields
    rw [← rest.fields] at inner
    exact inner
  · rw [length_append, Nat.add_assoc] at count
    rw [length_append]
    omega
  · exact wrote.same.trans rest.same

theorem appendBlocks_spec {fuel : Nat} (good : Good s (view s inum din))
    (filled : Filled (view s inum din) inum text) (inUse : din.type ≠ 0) (fits : din.Fits)
    (enough : p.length ≤ fuel) :
    Ensures (fun _ => ¬ Room s text p) (appendBlocks fuel din text.length p) s fun r s' =>
      Appended s inum din text p r.1 r.2 s' := by
  induction fuel generalizing s din text p with
  | zero =>
    obtain rfl : p = [] := length_eq_zero_iff.mp (by omega)
    refine .pure ⟨rfl, good, ?_, fun _ _ _ same => same, fits, rfl, rfl, .refl s⟩
    rwa [append_nil]
  | succ fuel ih =>
    unfold appendBlocks
    refine .ite ?_ fun nonempty => .ite (fun tooLong => .throw ?_) fun inside => .bind ?_
    · rintro rfl
      refine .pure ⟨rfl, good, ?_, fun _ _ _ same => same, fits, rfl, rfl, .refl s⟩
      rwa [append_nil]
    · rintro ⟨short, -⟩
      have : 0 < p.length := length_pos_iff.mpr nonempty
      have := Nat.mul_le_mul_right bsize tooLong
      have := Nat.div_mul_le_self text.length bsize
      omega
    · have below : text.length / bsize < maxFile := by omega
      have positive : 0 < p.length := length_pos_iff.mpr nonempty
      have split := Nat.div_add_mod text.length bsize
      have modulo : text.length % bsize < bsize := Nat.mod_lt _ (by decide)
      have start : text.length - text.length / bsize * bsize = text.length % bsize := by
        rw [Nat.mul_comm]
        omega
      -- the bytes that go into this block
      obtain ⟨n1, isMin⟩ : ∃ n1, min p.length ((text.length / bsize + 1) * bsize - text.length) =
        n1 :=
        ⟨_, rfl⟩
      have block : (text.length / bsize + 1) * bsize = bsize * (text.length / bsize) + bsize := by
        ring
      have n1_pos : 0 < n1 := by omega
      have n1_le : n1 ≤ p.length := by omega
      have n1_fits : text.length % bsize + n1 ≤ bsize := by omega
      rw [isMin, start]
      refine ((fileBlock_spec good filled inUse below fits).imp ?_).mono ?_
      · exact fun _ full => not_room n1_pos n1_le n1_fits full
      · rintro ⟨x, din₁⟩ s₁ ⟨small, sectors, full, took⟩
        refine .bind (rsect_ensures sectors small (fun room => ?_) (fun above => ?_))
        · refine .bind (wsect_ensures sectors room ?_)
          have taken : (p.take n1).length = n1 := length_take_of_le n1_le
          have isBuf : (s₁.image x).blit (text.length % bsize) n1 (fun i => p.getD i 0) =
              (s₁.image x).blit (text.length % bsize) (p.take n1).length
                fun i => (p.take n1).getD i 0 := by
            rw [taken]
            refine ByteSpace.blit_congr _ fun a small => ?_
            simp only [getD_eq_getElem?_getD, getElem?_take_of_lt small]
          have wrote := (took room).write (by omega) (by omega) isBuf
          have type : din₁.type ≠ 0 := by
            have := congrArg Dinode.type wrote.fields
            exact fun free => inUse (this.symm.trans free)
          have length : text.length + n1 = (text ++ p.take n1).length := by
            rw [length_append, taken]
          have less : (p.drop n1).length ≤ fuel := by
            rw [length_drop]
            omega
          rw [length]
          refine ((ih wrote.good wrote.filled type wrote.fits less).imp ?_).mono ?_
          · exact fun _ noRoom room => noRoom (room.rest n1_pos n1_le n1_fits wrote.count)
          · intro r s' rest
            have whole := wrote.append (by omega) (by omega) rest
            rwa [take_append_drop] at whole
        · exact not_room n1_pos n1_le n1_fits (full above)

end Xv6.Mkfs
