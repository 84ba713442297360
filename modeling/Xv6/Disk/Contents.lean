import Xv6.Disk.OneFile
import Xv6.Disk.Write
import Xv6.Library.Overlay

/-!
# Files as byte arrays

The contents of a file are a list of bytes. `readi` returns a part of it and
`writei` overwrites a part of it, whatever the offset and whichever blocks the bytes
are in. `writei` comes to its end if the disk has a free block for each slot that it
has to fill, and it panics only if the log is full.
-/

namespace Xv6.Disk

open Finset
open OneFile
open Volume Overlay
open Prog (Ensures Returns)

variable {sb : Superblock} {s s' : Store} {inum : Nat} {inode inode' : Dinode} {v v' : Volume}
  {source : Nat → Option UInt8} {off n off' tot' i j p : Nat}

/-! ## Contents -/

namespace Volume

def contents (v : Volume) (i : Nat) : List UInt8 := v.bytes i 0 (v.inode i).size

@[simp] theorem length_contents : (v.contents i).length = (v.inode i).size := length_bytes ..

theorem getElem?_bytes :
    (v.bytes i off n)[j]? = if j < n then some (v.byte i (off + j)) else none := by
  unfold Volume.bytes
  split
  next early => simp [early]
  next late => simp [late]

theorem getElem?_contents :
    (v.contents i)[p]? = if p < (v.inode i).size then some (v.byte i p) else none := by
  rw [contents, getElem?_bytes, Nat.zero_add]

theorem bytes_eq_contents (within : off + n ≤ (v.inode i).size) :
    v.bytes i off n = ((v.contents i).drop off).take n := by
  refine List.ext_getElem? fun j => ?_
  rw [getElem?_bytes]
  split
  next early =>
    rw [List.getElem?_take_of_lt early, List.getElem?_drop, getElem?_contents, if_pos (by omega)]
  next late => rw [List.getElem?_take_eq_none (by omega)]

theorem HoleFree.mappedBelow (holeFree : v.HoleFree i) : MappedBelow v i (v.inode i).size :=
  holeFree

end Volume

/-- The first `t` bytes of a source. -/
def sourceBytes (source : Nat → Option UInt8) (t : Nat) : List UInt8 :=
  (List.range t).map fun j => (source j).getD 0

@[simp] theorem length_sourceBytes (source : Nat → Option UInt8) (t : Nat) :
    (sourceBytes source t).length = t := by
  simp [sourceBytes]

section Written

variable (inside : inum < sb.ninodes) (holeFree : (volumeOf sb s.disk).HoleFree inum)
  (written : Written sb inum source off n off' s (dinodeAt sb s.disk inum) s' inode')

include inside written

theorem Written.inode_size : ((volumeOf sb s'.disk).inode inum).size =
    max ((volumeOf sb s.disk).inode inum).size off' := by
  rw [volumeOf_inode inside, volumeOf_inode inside, ← written.synced, written.size]

include holeFree

theorem Written.hole_free : (volumeOf sb s'.disk).HoleFree inum := by
  rw [Volume.HoleFree, written.inode_size inside]
  refine ⟨max_le holeFree.1 written.mapped.1, fun bn below => ?_⟩
  rcases lt_max_iff.mp below with old | new
  · have present := holeFree.2 bn old
    rw [Volume.fileBlock, written.addr inum _ present]
    exact present
  · exact written.mapped.2 bn new

/-- The new contents, if only the bytes that count have changed. -/
theorem Written.contents (within : off ≤ ((volumeOf sb s.disk).inode inum).size)
    (kept : ∀ p, p / bsize < maxFile → (volumeOf sb s.disk).fileBlock inum (p / bsize) ≠ 0 →
      p < off ∨ off' ≤ p → (volumeOf sb s'.disk).byte inum p = (volumeOf sb s.disk).byte inum p) :
    (volumeOf sb s'.disk).contents inum =
      overlay ((volumeOf sb s.disk).contents inum) off (sourceBytes source (off' - off)) := by
  have reached := written.reached
  refine List.ext_getElem? fun p => ?_
  rw [getElem?_overlay (by rwa [length_contents]), getElem?_contents, getElem?_contents,
    length_sourceBytes,
    written.inode_size inside]
  by_cases new : off ≤ p ∧ p < off + (off' - off)
  · have byte := written.bytes (p - off) (by omega)
    have position : off + (p - off) = p := by omega
    rw [position] at byte
    rw [if_pos (lt_max_of_lt_right (by omega)), if_pos new, sourceBytes, List.getElem?_map,
      List.getElem?_range (by omega), Option.map_some, byte, Option.getD_some]
  · rw [if_neg new]
    by_cases old : p < ((volumeOf sb s.disk).inode inum).size
    · obtain ⟨low, present⟩ := holeFree.mappedBelow.block old
      rw [if_pos (lt_max_of_lt_left old), if_pos old, kept p low present (by omega)]
    · rw [if_neg old, if_neg (by rw [lt_max_iff]; omega)]

end Written

/-! ## readi -/

/-- A hole-free inode in memory is read as a slice of its contents. -/
theorem readi_contents (inside : inum < sb.ninodes)
    (owned : (volumeOf sb s.disk).Owned sb.first sb.size (Used sb s.disk))
    (holeFree : (volumeOf sb s.disk).HoleFree inum) (small : off < 2 ^ 32) (short : n < 2 ^ 32) :
    readi sb (dinodeAt sb s.disk inum) (fun _ => true) off n s =
      .ok ((if off ≤ (dinodeAt sb s.disk inum).size ∧ off + n < 2 ^ 32 then
          let bytes := (((volumeOf sb s.disk).contents inum).drop off).take n
          ((bytes.length : Int), bytes)
        else (0, []), dinodeAt sb s.disk inum), s) := by
  have view : viewOf sb s.disk inum (dinodeAt sb s.disk inum) = volumeOf sb s.disk :=
    viewOf_dinodeAt _ inside
  have size : ((volumeOf sb s.disk).inode inum).size = (dinodeAt sb s.disk inum).size := by
    rw [volumeOf_inode inside]
  have mapped : MappedBelow (viewOf sb s.disk inum (dinodeAt sb s.disk inum)) inum
      (min (off + n) (dinodeAt sb s.disk inum).size) := by
    rw [view]
    have limit := holeFree.1
    refine ⟨by omega, fun bn below => holeFree.2 bn ?_⟩
    omega
  have spec : Returns (readi sb (dinodeAt sb s.disk inum) (fun _ => true) off n) s _ :=
    readi_spec (by rwa [view]) mapped
  obtain ⟨⟨r, inode₁⟩, s₁, run, rfl, rfl, result⟩ := Returns.exists spec
  have isResult := result fun _ => rfl
  change r = _ at isResult
  rw [run, isResult, view]
  by_cases allowed : off ≤ (dinodeAt sb s₁.disk inum).size ∧ off + n < 2 ^ 32
  · have span : readSpan (dinodeAt sb s₁.disk inum).size off n =
        min n ((dinodeAt sb s₁.disk inum).size - off) := by
      rw [readSpan, if_neg]
      omega
    have slice :
        (volumeOf sb s₁.disk).bytes inum off (min n ((dinodeAt sb s₁.disk inum).size - off)) =
          (((volumeOf sb s₁.disk).contents inum).drop off).take n := by
      rw [bytes_eq_contents (by rw [size]; omega), List.take_eq_take_iff, List.length_drop,
        length_contents, size]
      omega
    rw [if_pos allowed, span, slice]
    simp only [List.length_take, List.length_drop, length_contents, size]
  · have span : readSpan (dinodeAt sb s₁.disk inum).size off n = 0 := by
      rw [readSpan, if_pos]
      omega
    rw [if_neg allowed, span, bytes_zero]
    rfl

/-! ## Enough free blocks -/

/-- The slots that a write of `n` bytes from `off` on needs. -/
def spannedSlots (off n : Nat) : Finset Nat :=
  ((range maxFile).filter fun bn => off / bsize ≤ bn ∧ bn * bsize < off + n).biUnion fun bn =>
    if bn < ndirect then {slotOf bn} else {slotOf bn, ndirect}

theorem mem_spannedSlots {k : Nat} (short : off + n ≤ maxFile * bsize) :
    k ∈ spannedSlots off n ↔ Spans off n k := by
  rw [spannedSlots, mem_biUnion]
  constructor
  · rintro ⟨bn, member, slot⟩
    obtain ⟨-, low, high⟩ := mem_filter.mp member
    refine ⟨bn, low, high, ?_⟩
    split at slot
    next => exact .inl (mem_singleton.mp slot)
    next beyond => exact (mem_insert.mp slot).imp id fun last => ⟨mem_singleton.mp last, by omega⟩
  · rintro ⟨bn, low, high, needs⟩
    have inside : bn < maxFile := Nat.lt_of_mul_lt_mul_right (lt_of_lt_of_le high short)
    refine ⟨bn, mem_filter.mpr ⟨mem_range.mpr inside, low, high⟩, ?_⟩
    rcases needs with rfl | ⟨rfl, beyond⟩
    · split
      next => exact mem_singleton_self _
      next => exact mem_insert_self ..
    · rw [if_neg (by omega)]
      exact mem_insert_of_mem (mem_singleton_self _)

def missing (v : Volume) (inum off n : Nat) : Finset Nat :=
  (spannedSlots off n).filter fun k => v.addr inum k = 0

def freeBlocks (sb : Superblock) (disk : Blocks) : Finset Nat :=
  (range sb.size).filter fun b => usedAt sb disk b = false

theorem mem_freeBlocks {disk : Blocks} {b : Nat} :
    b ∈ freeBlocks sb disk ↔ b < sb.size ∧ ¬ Used sb disk b := by
  rw [freeBlocks, mem_filter, mem_range, Used, Bool.not_eq_true]

section Free

variable (sound : sb.Sound)
  (advanced :
    Advanced sb inum source off n (volumeOf sb s.disk) s tot' off' (volumeOf sb s'.disk) s')
  (owned : (volumeOf sb s.disk).Owned sb.first sb.size (Used sb s.disk))
  (written : Written sb inum source off n off' s inode s' inode')
  (short : off + n ≤ maxFile * bsize)

include sound advanced owned written short

/-- A block that a write has taken is in a slot that was empty. -/
theorem Advanced.taken {b : Nat} (free : b ∈ freeBlocks sb s.disk) (used : Used sb s'.disk b) :
    b ≠ 0 ∧ ∃ k ∈ missing (volumeOf sb s.disk) inum off n, (volumeOf sb s'.disk).addr inum k =
      b := by
  obtain ⟨below, unused⟩ := mem_freeBlocks.mp free
  have unowned : ¬ (b < sb.first ∨ ∃ i k, k < slots ∧ (volumeOf sb s.disk).addr i k = b) :=
    fun is => unused ((owned.used b below).mpr is)
  obtain low | ⟨i, k, slot, isBlock⟩ := (written.owned.used b below).mp used
  · exact absurd (.inl low) unowned
  obtain rfl : i = inum := by
    by_contra other
    exact unowned (.inr ⟨i, k, slot, written.othersAddr i other k ▸ isBlock⟩)
  have new : (volumeOf sb s.disk).addr i k = 0 := by
    by_contra present
    exact unowned (.inr ⟨i, k, slot, written.addr i k present ▸ isBlock⟩)
  have nonzero : b ≠ 0 := by
    rintro rfl
    exact unowned (.inl sound.positive)
  refine ⟨nonzero, k, mem_filter.mpr ⟨?_, new⟩, isBlock⟩
  refine (mem_spannedSlots short).mpr ((advanced.only k ?_).resolve_left fun present => present new)
  rwa [isBlock]

/-- If a write stops for want of a block, the blocks that were free are in slots
that were empty, and one more slot is empty still. -/
theorem Advanced.free_lt_missing (stopped : off' < off + n)
    (absent : (volumeOf sb s'.disk).fileBlock inum (off' / bsize) = 0) :
    (freeBlocks sb s.disk).card < (missing (volumeOf sb s.disk) inum off n).card := by
  obtain ⟨full, last, spans, empty⟩ := advanced.full stopped absent
  have wasEmpty : (volumeOf sb s.disk).addr inum last = 0 := by
    by_contra present
    exact present (written.addr inum last present ▸ empty)
  have isMissing : last ∈ missing (volumeOf sb s.disk) inum off n :=
    mem_filter.mpr ⟨(mem_spannedSlots short).mpr spans, wasEmpty⟩
  have covered : freeBlocks sb s.disk ⊆
      ((missing (volumeOf sb s.disk) inum off n).erase last).image
        ((volumeOf sb s'.disk).addr inum) := by
    intro b free
    obtain ⟨nonzero, k, isMissing, isBlock⟩ :=
      advanced.taken sound owned written short free (full b (mem_freeBlocks.mp free).1)
    refine mem_image.mpr ⟨k, mem_erase.mpr ⟨?_, isMissing⟩, isBlock⟩
    rintro rfl
    exact nonzero (isBlock.symm.trans empty)
  calc (freeBlocks sb s.disk).card
      ≤
        (((missing (volumeOf sb s.disk) inum off n).erase last).image
          ((volumeOf sb s'.disk).addr inum)).card :=
        card_le_card covered
    _ ≤ ((missing (volumeOf sb s.disk) inum off n).erase last).card := card_image_le
    _ < (missing (volumeOf sb s.disk) inum off n).card := card_erase_lt_of_mem isMissing

end Free

/-! ## The log -/

def LogFull (sb : Superblock) (lh : List Nat) : Prop :=
  logSize ≤ lh.length ∨ sb.nlog ≤ lh.length + 1

def TooBig (sb : Superblock) (stop : Stop) : Prop := stop.panic = .logTooBig ∧ LogFull sb stop.lh

section Stops

variable (inOp : s.outstanding ≠ 0)

include inOp

theorem logWrite_stops (b : Nat) (data : ByteSpace) :
    Ensures (TooBig sb) (logWrite sb b data) s fun _ s' => s'.outstanding ≠ 0 := by
  unfold logWrite
  refine .bind (.get (.ite (fun full => .bind (.get (.throw ⟨rfl, full⟩))) fun _ => ?_))
  exact .ite (fun outside => absurd outside (by omega)) fun _ => .of_modify inOp

theorem balloc_stops : Ensures (TooBig sb) (balloc sb) s fun _ s' => s'.outstanding ≠ 0 := by
  unfold balloc
  refine .bind (.get ?_)
  split
  next => exact .pure inOp
  next b _ =>
    refine .seq (logWrite_stops inOp _ _) fun _ s₁ inOp₁ => ?_
    exact .seq (logWrite_stops inOp₁ _ _) fun _ s₂ inOp₂ => .pure inOp₂

theorem bmapEntry_stops (b j : Nat) :
    Ensures (TooBig sb) (bmapEntry sb b j) s fun _ s' => s'.outstanding ≠ 0 := by
  unfold bmapEntry
  refine .bind (.of_eq rfl (.ite (fun _ => ?_) fun _ => .pure inOp))
  refine .seq (balloc_stops inOp) fun addr s₁ inOp₁ => .ite (fun _ => .pure inOp₁) fun _ => ?_
  exact .seq (logWrite_stops inOp₁ _ _) fun _ s₂ inOp₂ => .pure inOp₂

theorem bmap_stops {bn : Nat} (inside : bn < maxFile) :
    Ensures (TooBig sb) (bmap sb inode bn) s fun _ s' => s'.outstanding ≠ 0 := by
  unfold bmap
  refine .ite (fun _ => .ite (fun _ => ?_) fun _ => .pure inOp) fun beyond =>
    .ite (fun _ => ?_) fun outside => ?_
  · exact .seq (balloc_stops inOp) fun addr s₁ inOp₁ => .ite (fun _ => .pure inOp₁) fun _ =>
      .pure inOp₁
  · refine .ite (fun _ => ?_) fun _ => .seq (bmapEntry_stops inOp _ _) fun _ s₁ inOp₁ => .pure inOp₁
    refine .seq (balloc_stops inOp) fun addr s₁ inOp₁ => .ite (fun _ => .pure inOp₁) fun _ => ?_
    exact .seq (bmapEntry_stops inOp₁ _ _) fun _ s₂ inOp₂ => .pure inOp₂
  · unfold maxFile at inside
    omega

theorem writeBlocks_stops {fuel tot : Nat} (short : off + n ≤ maxFile * bsize) :
    Ensures (TooBig sb) (writeBlocks sb source fuel inode off tot n) s fun _ s' =>
      s'.outstanding ≠ 0 := by
  induction fuel generalizing s inode off tot n with
  | zero => exact .pure inOp
  | succ fuel ih =>
    unfold writeBlocks
    refine .ite (fun _ => .pure inOp) fun more => ?_
    have inside : off / bsize < maxFile := Nat.div_lt_of_lt_mul (by rw [Nat.mul_comm]; omega)
    have m_le := chunk_le off n
    refine .seq (bmap_stops inOp inside) ?_
    rintro ⟨addr, inode₁⟩ s₁ inOp₁
    refine .ite (fun _ => .pure inOp₁) fun _ => .bind (.of_eq rfl ?_)
    refine .ite (fun _ => .bind (.of_modify (.pure inOp₁))) fun _ => ?_
    exact .seq (logWrite_stops inOp₁ _ _) fun _ s₂ inOp₂ => ih inOp₂ (by omega)

/-- Inside a transaction `writei` panics only if the log is full. -/
theorem writei_stops :
    Ensures (TooBig sb) (writei sb inum inode source off n) s fun _ _ => True := by
  unfold writei
  refine .ite (fun _ => .pure trivial) fun _ => .ite (fun _ => .pure trivial) fun short => ?_
  refine .seq (writeBlocks_stops inOp (by omega)) ?_
  rintro ⟨⟨tot', off'⟩, inode'⟩ s₁ inOp₁
  refine .bind (.bind (.of_eq rfl ?_))
  exact (logWrite_stops inOp₁ _ _).mono fun _ _ _ => .pure trivial

end Stops

/-! ## writei -/

/-- What `writei` of a buffer of the kernel has done when it has returned `t`. -/
structure Overwritten (sb : Superblock) (inum : Nat) (buffer : Nat → UInt8) (off : Nat) (s : Store)
    (t : Nat) (s' : Store) (inode' : Dinode) : Prop where
  contents : (volumeOf sb s'.disk).contents inum =
    overlay ((volumeOf sb s.disk).contents inum) off ((List.range t).map buffer)
  size : inode'.size = max (dinodeAt sb s.disk inum).size (off + t)
  others : ∀ i ≠ inum, ((volumeOf sb s.disk).inode i).size ≤ maxFile * bsize →
    (volumeOf sb s'.disk).inode i = (volumeOf sb s.disk).inode i ∧
      (volumeOf sb s'.disk).contents i = (volumeOf sb s.disk).contents i
  readBack : readi sb inode' (fun _ => true) off t s' =
    .ok ((((t : Int), (List.range t).map buffer), inode'), s')
  /-- The next call finds the file system as this one did. -/
  synced : inode' = dinodeAt sb s'.disk inum
  owned : (volumeOf sb s'.disk).Owned sb.first sb.size (Used sb s'.disk)
  holeFree : (volumeOf sb s'.disk).HoleFree inum

theorem sourceBytes_buffer (buffer : Nat → UInt8) (t : Nat) :
    sourceBytes (fun j => some (buffer j)) t = (List.range t).map buffer := rfl

theorem byte_hole (positive : 0 < sb.first) {disk : Blocks}
    (absent : (volumeOf sb disk).fileBlock i (p / bsize) = 0) :
    (volumeOf sb disk).byte i p = 0 := by
  rw [Volume.byte, absent]
  change (if sb.first ≤ 0 then disk 0 else zeroes) _ = 0
  rw [if_neg (by omega)]
  rfl

theorem Written.others_contents (sound : sb.Sound)
    (written : Written sb inum source off n off' s inode s' inode') (other : i ≠ inum)
    (small : ((volumeOf sb s.disk).inode i).size ≤ maxFile * bsize) :
    (volumeOf sb s'.disk).inode i = (volumeOf sb s.disk).inode i ∧
      (volumeOf sb s'.disk).contents i = (volumeOf sb s.disk).contents i := by
  have same : (volumeOf sb s'.disk).inode i = (volumeOf sb s.disk).inode i := by
    by_cases low : i < sb.ninodes
    · rw [volumeOf_inode low, volumeOf_inode low, written.others i low other]
    · rw [volumeOf_inode_outside (by omega), volumeOf_inode_outside (by omega)]
  refine ⟨same, List.ext_getElem? fun p => ?_⟩
  rw [getElem?_contents, getElem?_contents, same]
  split
  next below =>
    have block : (volumeOf sb s'.disk).fileBlock i (p / bsize) =
      (volumeOf sb s.disk).fileBlock i (p / bsize) :=
      written.othersAddr i other _
    by_cases absent : (volumeOf sb s.disk).fileBlock i (p / bsize) = 0
    · rw [byte_hole sound.positive absent, byte_hole sound.positive (by rwa [block])]
    · have low : p / bsize < maxFile := Nat.div_lt_of_lt_mul (by rw [Nat.mul_comm]; omega)
      rw [written.kept i p low absent fun same => absurd same other]
  next => rfl

theorem Written.overwritten {buffer : Nat → UInt8} (sound : sb.Sound) (inside : inum < sb.ninodes)
    (holeFree : (volumeOf sb s.disk).HoleFree inum)
    (written : Written sb inum (fun j => some (buffer j)) off n off' s (dinodeAt sb s.disk inum) s'
      inode')
    (within : off ≤ (dinodeAt sb s.disk inum).size) (short : off + n ≤ maxFile * bsize) :
    Overwritten sb inum buffer off s (off' - off) s' inode' := by
  have limit : maxFile * bsize < 2 ^ 32 := by decide
  have reached := written.reached
  have isOff : off + (off' - off) = off' := by omega
  have within' : off ≤ ((volumeOf sb s.disk).inode inum).size := by rwa [volumeOf_inode inside]
  have contents := written.contents inside holeFree within' (written.precise fun _ => rfl)
  rw [sourceBytes_buffer] at contents
  have size : inode'.size = max (dinodeAt sb s.disk inum).size (off + (off' - off)) := by
    rw [isOff]
    exact written.size
  refine ⟨contents, size, fun i other small => written.others_contents sound other small, ?_,
    written.synced, written.owned, written.hole_free inside holeFree⟩
  have bytes : (((volumeOf sb s'.disk).contents inum).drop off).take (off' - off) =
      (List.range (off' - off)).map buffer := by
    have back :
      ((overlay ((volumeOf sb s.disk).contents inum) off
        ((List.range (off' - off)).map buffer)).drop
        off).take ((List.range (off' - off)).map buffer).length = _ := take_drop_overlay (by
          rwa [length_contents])
    rw [List.length_map, List.length_range] at back
    rw [contents, back]
  have read := readi_contents inside written.owned (written.hole_free inside holeFree)
    (show off < 2 ^ 32 by omega) (show off' - off < 2 ^ 32 by omega)
  rw [← written.synced, if_pos ⟨by rw [size]; omega, by omega⟩, bytes] at read
  rw [read]
  simp

/-- The blocks of the transaction, the block of the inode, the bitmap and two more
blocks for each block of the write are not more than a transaction may write. -/
def Room (sb : Superblock) (s : Store) (inum off n : Nat) : Prop :=
  s.lh.Nodup ∧ maxOpBlocks + 1 < sb.nlog ∧
    (s.lh.toFinset ∪ insert (sb.iblock inum) ((range sb.size).image sb.bblock)).card + 2 *
      spanned off n ≤
      maxOpBlocks

theorem Room.pays (room : Room sb s inum off n) :
    Pays (fun stop => stop.lh.length ≤ maxOpBlocks) s
      (s.lh.toFinset ∪ insert (sb.iblock inum) ((range sb.size).image sb.bblock) : Finset Nat)
      (2 * spanned off n + 0) := by
  obtain ⟨distinct, -, within⟩ := room
  refine .reserved _ (fun b => mem_coe) within distinct (fun b logged => ?_) fun stop _ few => few
  exact mem_coe.mpr (mem_union_left _ (List.mem_toFinset.mpr logged))

section Writei

variable (sound : sb.Sound) (inside : inum < sb.ninodes)
  (owned : (volumeOf sb s.disk).Owned sb.first sb.size (Used sb s.disk))
  (inUse : (dinodeAt sb s.disk inum).type ≠ 0) (holeFree : (volumeOf sb s.disk).HoleFree inum)

include sound inside owned inUse holeFree

theorem writei_returns (inOp : s.outstanding ≠ 0) (room : Room sb s inum off n) :
    ∃ r s', writei sb inum (dinodeAt sb s.disk inum) source off n s = .ok (r, s') := by
  have bitmap : ∀ b < sb.size, sb.bblock b ∈
      ((s.lh.toFinset ∪ insert (sb.iblock inum) ((range sb.size).image sb.bblock) : Finset Nat) :
        Set Nat) := by
    intro b below
    refine mem_coe.mpr (mem_union_right _ (mem_insert_of_mem ?_))
    exact mem_image_of_mem _ (mem_range.mpr below)
  have isPaid : sb.iblock inum ∈
      ((s.lh.toFinset ∪ insert (sb.iblock inum) ((range sb.size).image sb.bblock) : Finset Nat) :
        Set Nat) :=
    mem_coe.mpr (mem_union_right _ (mem_insert_self ..))
  have stops : Ensures (TooBig sb) (writei sb inum (dinodeAt sb s.disk inum) source off n) s
    fun _ _ => True :=
    writei_stops inOp
  have spec := stops.and (writei_advanced sound inside owned inUse holeFree bitmap isPaid room.pays)
  have large : maxOpBlocks < logSize := by decide
  obtain ⟨r, s', run, -⟩ := Returns.exists (spec.imp fun stop ⟨⟨_, full⟩, few⟩ => by
    have := room.2.1
    change stop.lh.length ≤ maxOpBlocks at few
    unfold LogFull at full
    omega)
  exact ⟨r, s', run⟩

/-- A file is a byte array to `readi`, and to `writei` in a transaction. -/
theorem readi_writei_contents (buffer : Nat → UInt8) (small : off < 2 ^ 32) (short : n < 2 ^ 32) :
    readi sb (dinodeAt sb s.disk inum) (fun _ => true) off n s =
      .ok ((if off ≤ (dinodeAt sb s.disk inum).size ∧ off + n < 2 ^ 32 then
          let bytes := (((volumeOf sb s.disk).contents inum).drop off).take n
          ((bytes.length : Int), bytes)
        else (0, []), dinodeAt sb s.disk inum), s) ∧
    (s.outstanding ≠ 0 →
      Ensures (TooBig sb)
        (writei sb inum (dinodeAt sb s.disk inum) (fun j => some (buffer j)) off n) s
        (fun r s' =>
          if (dinodeAt sb s.disk inum).size < off ∨ 2 ^ 32 ≤ off + n ∨
            maxFile * bsize < off + n then
            r = (-1, dinodeAt sb s.disk inum) ∧ s' = s
          else ∃ t ≤ n, r.1 = (t : Int) ∧
            ((missing (volumeOf sb s.disk) inum off n).card ≤ (freeBlocks sb s.disk).card → t = n) ∧
            Overwritten sb inum buffer off s t s' r.2) ∧
      (Room sb s inum off n → ∃ r s',
        writei sb inum (dinodeAt sb s.disk inum) (fun j => some (buffer j)) off n s =
          .ok (r, s'))) := by
  refine ⟨readi_contents inside owned holeFree small short, fun inOp => ⟨?_,
    writei_returns sound inside owned inUse holeFree inOp⟩⟩
  have refused : Refused (dinodeAt sb s.disk inum).size off n ↔
      (dinodeAt sb s.disk inum).size < off ∨ 2 ^ 32 ≤ off + n ∨ maxFile * bsize < off + n := by
    unfold Refused
    omega
  have pays : Pays (fun stop => stop.panic ≠ .freeingFreeBlock) s Set.univ
    (2 * spanned off n + 0) :=
    .unlimited (fun _ other => other) Set.mem_univ
  have stops : Ensures (TooBig sb)
      (writei sb inum (dinodeAt sb s.disk inum) (fun j => some (buffer j)) off n) s fun _ _ =>
        True :=
    writei_stops inOp
  have spec :=
    stops.and (writei_advanced sound inside owned inUse holeFree (fun _ _ => Set.mem_univ _)
    (Set.mem_univ _) pays)
  refine (spec.imp fun _ stop => stop.1).mono ?_
  rintro r s' ⟨-, ⟨is, rfl, rfl⟩ | ⟨not, off', result, progress, written, advanced⟩, -⟩
  · rw [if_pos (refused.mp is)]
    exact ⟨rfl, rfl⟩
  · have reached := written.reached
    rw [refused] at not
    have within : off ≤ (dinodeAt sb s.disk inum).size ∧ off + n ≤ maxFile * bsize := by omega
    rw [if_neg not]
    refine ⟨off' - off, by omega, result, fun enough => ?_, ?_⟩
    · by_contra other
      have stopped : off' < off + n := by omega
      by_cases absent : (volumeOf sb s'.disk).fileBlock inum (off' / bsize) = 0
      · have := advanced.free_lt_missing sound owned written within.2 stopped absent
        omega
      · have failed := (advanced.failed stopped absent).1
        rw [torn, readable_of_all _ _ fun _ => rfl] at failed
        exact lt_irrefl _ failed
    · exact written.overwritten sound inside holeFree within.1 within.2

end Writei

theorem readi_writei_contents_fiveBytes :
    ∃ r s', writei layout 1 (dinodeAt layout (store 1 5).disk 1) (fun _ => some 7) 3 10
        (store 1 5) = .ok (r, s') ∧ r.1 = 10 ∧
      Overwritten layout 1 (fun _ => 7) 3 (store 1 5) 10 s' r.2 := by
  have inUse : (dinodeAt layout (store 1 5).disk 1).type ≠ 0 := by decide +kernel
  obtain ⟨-, inTransaction⟩ := readi_writei_contents layout_sound (by decide)
    (owned (by decide) (by decide)) inUse hole_free_fiveBytes (fun _ => 7)
    (show 3 < 2 ^ 32 by decide) (show 10 < 2 ^ 32 by decide)
  obtain ⟨writes, returns⟩ := inTransaction (by decide)
  obtain ⟨r, s', run⟩ := returns (by unfold Room; decide +kernel)
  have result := writes.of_ok run
  rw [if_neg (by decide +kernel)] at result
  obtain ⟨t, -, isResult, all, overwritten⟩ := result
  obtain rfl : t = 10 := all (by decide +kernel)
  exact ⟨r, s', run, isResult, overwritten⟩

def panicOf {α : Type} (result : Except Stop α) : Option Panic :=
  match result with
  | .ok _ => none
  | .error stop => some stop.panic

/-- A write of 30 blocks does not fit in the log, although every block of the file is
there already. -/
theorem writei_thirtyBlocks :
    (volumeOf layout (store 31 30720).disk).HoleFree 1 ∧
      missing (volumeOf layout (store 31 30720).disk) 1 0 30720 = ∅ ∧
      panicOf (writei layout 1 (dinodeAt layout (store 31 30720).disk 1) (fun _ => some 7)
        0 30720 (store 31 30720)) = some .logTooBig := by
  refine ⟨hole_free (by decide) (by decide) fun bn below =>
    ?_, by decide +kernel, by decide +kernel⟩
  have : bn * 1024 < 30720 := below
  unfold slotOf
  split <;> omega

end Xv6.Disk
