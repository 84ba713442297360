import Xv6.Disk.LogSpace

/-!
# Writing in pieces

`filewrite` of `kernel/file.c` on an inode that nobody else uses. The call writes
one piece after the other, each in a transaction of its own, and stops at the first
piece that `writei` does not write in full. What it leaves in the file is what one
`writei` of as many bytes would leave there.
-/

namespace Xv6.Disk

open Finset
open Volume Overlay

variable {sb : Superblock} {s s' s₀ : Store} {inum off off₀ n i : Nat} {source : Nat → Option UInt8}

section

variable (sb : Superblock) (inum : Nat) (source : Nat → Option UInt8)

def filewriteFrom (n : Nat) : Nat → Nat → Nat → StoreM (Nat × Nat)
  | 0, i, off => return (i, off)
  | fuel + 1, i, off => do
    if i < n then
      let n1 := min (n - i) maxWrite
      let (r, off) ← writeSection sb inum (fun j => source (i + j)) off n1
      if r ≠ n1 then
        return (i, off)
      else
        filewriteFrom n fuel (i + n1) off
    else
      return (i, off)

def filewrite (n : Int) (off : Nat) : StoreM (Int × Nat) := do
  let (i, off) ← filewriteFrom sb inum source n.toNat n.toNat 0 off
  return (if (i : Int) = n then n else -1, off)

end

/-! ## Free blocks -/

/-- There is a free block for each slot that the write has to fill, and the file does
not get too long. -/
def Enough (sb : Superblock) (inum off n : Nat) (disk : Blocks) : Prop :=
  off + n ≤ maxFile * bsize ∧
    (missing (volumeOf sb disk) inum off n).card ≤ (freeBlocks sb disk).card
  deriving Decidable

theorem spans_add {n1 m k : Nat} :
    Spans off (n1 + m) k ↔ Spans off n1 k ∨ Spans (off + n1) m k := by
  constructor
  · rintro ⟨bn, low, high, needs⟩
    rcases Nat.lt_or_ge (bn * bsize) (off + n1) with first | second
    · exact .inl ⟨bn, low, first, needs⟩
    · refine .inr ⟨bn, ?_, by omega, needs⟩
      exact le_of_le_of_eq (Nat.div_le_div_right second) (Nat.mul_div_cancel _ (by decide))
  · rintro (⟨bn, low, high, needs⟩ | ⟨bn, low, high, needs⟩)
    · exact ⟨bn, low, by omega, needs⟩
    · exact ⟨bn, le_trans (Nat.div_le_div_right (Nat.le_add_right off n1)) low, by omega, needs⟩

theorem MappedBelow.filled {v : Volume} {k : Nat} (mapped : MappedBelow v inum (off + n))
    (spans : Spans off n k) : v.addr inum k ≠ 0 := by
  obtain ⟨bn, -, high, rfl | ⟨rfl, beyond⟩⟩ := spans
  · exact mapped.2 bn high
  · intro absent
    refine mapped.2 bn high (addr_of_no_indirect ?_ absent)
    rw [slotOf, if_neg (by omega)]
    omega

section Complete

variable {inode inode' : Dinode} {n1 m : Nat} (sound : sb.Sound)
  (owned : (volumeOf sb s.disk).Owned sb.first sb.size (Used sb s.disk))
  (written : Written sb inum source off n1 (off + n1) s inode s' inode')
  (advanced : Advanced sb inum source off n1 (volumeOf sb s.disk) s n1 (off + n1)
    (volumeOf sb s'.disk) s')
  (short : off + (n1 + m) ≤ maxFile * bsize)

include written advanced short

/-- What is missing for both parts of a write is missing for the first, or for the
second when the first is done. -/
theorem missing_add : (missing (volumeOf sb s.disk) inum off (n1 + m)).card =
    (missing (volumeOf sb s.disk) inum off n1).card +
      (missing (volumeOf sb s'.disk) inum (off + n1) m).card := by
  have disjoint : Disjoint (missing (volumeOf sb s.disk) inum off n1)
      (missing (volumeOf sb s'.disk) inum (off + n1) m) := by
    refine disjoint_left.mpr fun k first second => ?_
    have spans := (mem_spannedSlots (by omega)).mp (mem_filter.mp first).1
    exact written.mapped.filled spans (mem_filter.mp second).2
  rw [← card_union_of_disjoint disjoint]
  congr 1
  ext k
  rw [mem_union]
  unfold missing
  rw [mem_filter, mem_filter, mem_filter, mem_spannedSlots short, mem_spannedSlots (by omega),
    mem_spannedSlots (by omega), spans_add]
  constructor
  · rintro ⟨spans, empty⟩
    by_cases first : Spans off n1 k
    · exact .inl ⟨first, empty⟩
    · refine .inr ⟨spans.resolve_left first, ?_⟩
      by_contra present
      exact (advanced.only k present).elim (· empty) first
  · rintro (⟨spans, empty⟩ | ⟨spans, empty⟩)
    · exact ⟨.inl spans, empty⟩
    · refine ⟨.inr spans, ?_⟩
      by_contra present
      rw [written.addr inum k present] at empty
      exact present empty

include sound owned

/-- The blocks that were free are free still, or fill what was missing. -/
theorem free_add : (freeBlocks sb s.disk).card =
    (missing (volumeOf sb s.disk) inum off n1).card + (freeBlocks sb s'.disk).card := by
  have slot : ∀ k ∈ missing (volumeOf sb s.disk) inum off n1,
      k < slots ∧ (volumeOf sb s.disk).addr inum k = 0 ∧ (volumeOf sb s'.disk).addr inum k ≠ 0 := by
    intro k member
    obtain ⟨spans, empty⟩ := mem_filter.mp member
    have spans' := (mem_spannedSlots (by omega)).mp spans
    refine ⟨?_, empty, written.mapped.filled spans'⟩
    obtain ⟨bn, -, high, rfl | ⟨rfl, -⟩⟩ := spans'
    · exact slotOf_lt (Nat.lt_of_mul_lt_mul_right (lt_of_lt_of_le high (by omega)))
    · exact ndirect_lt_slots
  have injective : Set.InjOn ((volumeOf sb s'.disk).addr inum)
    (missing (volumeOf sb s.disk) inum off n1) :=
    fun k member k' member' same =>
      (written.owned.once inum k inum k' (slot k member).1 (slot k' member').1 (slot k member).2.2
        same).2
  have disjoint :
      Disjoint ((missing (volumeOf sb s.disk) inum off n1).image ((volumeOf sb s'.disk).addr inum))
        (freeBlocks sb s'.disk) := by
    refine disjoint_left.mpr fun b taken free => ?_
    obtain ⟨k, member, rfl⟩ := mem_image.mp taken
    obtain ⟨below, unused⟩ := mem_freeBlocks.mp free
    exact unused ((written.owned.used _ below).mpr (.inr ⟨inum, k, (slot k member).1, rfl⟩))
  rw [← card_image_of_injOn injective, ← card_union_of_disjoint disjoint]
  congr 1
  ext b
  rw [mem_union, mem_image]
  constructor
  · intro free
    by_cases used : Used sb s'.disk b
    · exact .inl (advanced.taken sound owned written (by omega) free used).2
    · exact .inr (mem_freeBlocks.mpr ⟨(mem_freeBlocks.mp free).1, used⟩)
  · rintro (⟨k, member, rfl⟩ | free)
    · obtain ⟨inside, empty, present⟩ := slot k member
      obtain ⟨low, below⟩ := written.owned.place inum k inside present
      refine mem_freeBlocks.mpr ⟨below, fun used => ?_⟩
      rcases (owned.used _ below).mp used with before | ⟨i', k', inside', same⟩
      · omega
      · -- that slot has kept its block, so it is this one
        have present' : (volumeOf sb s.disk).addr i' k' ≠ 0 := by rwa [same]
        have kept := written.addr i' k' present'
        obtain ⟨rfl, rfl⟩ :=
          written.owned.once i' k' inum k inside' inside (by rwa [kept]) (kept.trans same)
        exact present' empty
    · obtain ⟨below, unused⟩ := mem_freeBlocks.mp free
      refine mem_freeBlocks.mpr ⟨below, fun used => unused ((written.owned.used b below).mpr ?_)⟩
      rcases (owned.used b below).mp used with before | ⟨i', k', inside', rfl⟩
      · exact .inl before
      · by_cases present : (volumeOf sb s.disk).addr i' k' = 0
        · rw [present]
          exact .inl sound.positive
        · exact .inr ⟨i', k', inside', written.addr i' k' present⟩

end Complete

/-! ## One piece -/

structure Idle (s : Store) : Prop where
  lh : s.lh = []
  outstanding : s.outstanding = 0

theorem writeSection_returns (sound : sb.Sound) (log : maxOpBlocks + 1 < sb.nlog)
    (writable : Writable sb inum s) (idle : Idle s) (piece : n ≤ maxWrite) :
    Prog.Returns (writeSection sb inum source off n) s fun r s' =>
      Writable sb inum s' ∧ Idle s' ∧ Ran sb inum source off n s s' r := by
  refine (writeSection_ran sound writable fun s₁ disk lh count => ?_).mono ?_
  · have holeFree : (viewOf sb s₁.disk inum (dinodeAt sb s₁.disk inum)).HoleFree inum := by
      rw [viewOf_dinodeAt _ writable.inside, disk]
      exact writable.holeFree
    have large : maxOpBlocks < logSize := by decide
    exact writei_fits (by omega) piece holeFree
      (by rwa [lh, idle.lh, List.length_nil, Nat.zero_add])
      (by rwa [lh, idle.lh, List.length_nil, Nat.zero_add])
  · rintro r s' ⟨writable', count, empty, ran⟩
    exact ⟨writable', ⟨empty idle.outstanding, count.trans idle.outstanding⟩, ran⟩

variable {r : Int × Nat}

/-- A piece that is not written in full did not have enough blocks. -/
theorem Ran.not_enough (sound : sb.Sound) (writable : Writable sb inum s)
    (within : off ≤ (fileContents sb inum s).length) (ran : Ran sb inum source off n s s' r)
    (all : ∀ j, (source j).isSome) (short : r.1 ≠ (n : Int)) : ¬ Enough sb inum off n s.disk := by
  rintro ⟨limit, enough⟩
  have small : maxFile * bsize < 2 ^ 32 := by decide
  rw [fileContents, length_contents, volumeOf_inode writable.inside] at within
  cases ran with
  | refused refused =>
    unfold Refused at refused
    omega
  | @wrote e s₁ s₂ inode accepted before after written advanced =>
    have owned := writable.owned
    have reached := written.reached
    rw [← before] at owned enough
    have stopped : e < off + n := by
      simp only at short
      omega
    by_cases absent : (volumeOf sb s₂.disk).fileBlock inum (e / bsize) = 0
    · have := advanced.free_lt_missing sound owned written limit stopped absent
      omega
    · have failed := (advanced.failed stopped absent).1
      rw [torn, readable_of_all _ _ all] at failed
      exact lt_irrefl _ failed

/-- A piece that is written in full leaves enough blocks for the rest, if there were
enough for both. -/
theorem Ran.enough_iff {n1 m : Nat} (sound : sb.Sound) (writable : Writable sb inum s)
    (ran : Ran sb inum source off n1 s s' r) (whole : r.1 = (n1 : Int)) :
    Enough sb inum (off + n1) m s'.disk ↔ Enough sb inum off (n1 + m) s.disk := by
  cases ran with
  | refused => simp at whole
  | @wrote e s₁ s₂ inode accepted before after written advanced =>
    have owned := writable.owned
    have reached := written.reached
    obtain rfl : e = off + n1 := by
      simp only at whole
      omega
    rw [Nat.add_sub_cancel_left] at advanced
    unfold Enough
    rw [← before] at owned ⊢
    rw [← after, Nat.add_assoc]
    refine and_congr_right fun short => ?_
    rw [missing_add written advanced short, free_add sound owned written advanced short]
    omega

/-! ## All pieces -/

theorem sourceBytes_add (source : Nat → Option UInt8) (i m : Nat) :
    sourceBytes source (i + m) = sourceBytes source i ++
      sourceBytes (fun j => source (i + j)) m := by
  unfold sourceBytes
  rw [List.range_add, List.map_append, List.map_map]
  rfl

/-- What holds before each piece of a call that began in `s₀`. -/
structure Progress (sb : Superblock) (inum : Nat) (source : Nat → Option UInt8) (n off₀ : Nat)
    (s₀ : Store) (i off : Nat) (s : Store) : Prop where
  writable : Writable sb inum s
  idle : Idle s
  bound : i ≤ n
  offset : off = off₀ + i
  pieces : i = n ∨ maxWrite ∣ i
  contents : fileContents sb inum s = overlay (fileContents sb inum s₀) off₀ (sourceBytes source i)
  enough : Enough sb inum off (n - i) s.disk ↔ Enough sb inum off₀ n s₀.disk

section Progress

variable (inFile : off₀ ≤ (fileContents sb inum s₀).length)
  (progress : Progress sb inum source n off₀ s₀ i off s)

include inFile progress

theorem Progress.within : off ≤ (fileContents sb inum s).length := by
  rw [progress.contents, length_overlay inFile, length_sourceBytes, progress.offset]
  exact le_max_right ..

theorem Progress.ran {n1 : Nat} (ran : Ran sb inum (fun j => source (i + j)) off n1 s s' r)
    (all : ∀ j, (source j).isSome) : r.2 = off₀ + (i + r.1.toNat) ∧
      fileContents sb inum s' =
        overlay (fileContents sb inum s₀) off₀ (sourceBytes source (i + r.1.toNat)) := by
  have moved := (ran.moved progress.writable).1
  have contents := ran.contents progress.writable (.inr fun j => all (i + j))
  have offset := progress.offset
  refine ⟨by omega, ?_⟩
  rw [contents, progress.contents, offset, sourceBytes_add, ← overlay_overlay inFile,
    length_sourceBytes]

theorem Progress.next (sound : sb.Sound) (more : i < n) (writable' : Writable sb inum s')
    (idle' : Idle s')
    (ran : Ran sb inum (fun j => source (i + j)) off (min (n - i) maxWrite) s s' r)
    (all : ∀ j, (source j).isSome) (whole : r.1 = (min (n - i) maxWrite : Nat)) :
    Progress sb inum source n off₀ s₀ (i + min (n - i) maxWrite) r.2 s' := by
  obtain ⟨moved, contents⟩ := progress.ran inFile ran all
  have offset := progress.offset
  rw [whole, Int.toNat_natCast] at moved contents
  refine ⟨writable', idle', by omega, moved, ?_, contents, ?_⟩
  · rcases Nat.lt_or_ge (n - i) maxWrite with last | full
    · left
      omega
    · right
      rw [Nat.min_eq_right full]
      exact (progress.pieces.resolve_left (by omega)).add (dvd_refl _)
  · rw [← progress.enough, moved, ← Nat.add_assoc, ← offset,
      ran.enough_iff sound progress.writable whole]
    congr! 1
    omega

end Progress

/-- The call has stopped in the piece after the first `done` bytes: `writei` has
reported `r`, which is an error or the `t` bytes that it has written. -/
def StopsIn (sb : Superblock) (inum : Nat) (source : Nat → Option UInt8) (n off : Nat) (s : Store)
    (done t : Nat) (s' : Store) : Prop :=
  ∃ s₁ r, maxWrite ∣ done ∧ done < n ∧
    fileContents sb inum s₁ = overlay (fileContents sb inum s) off (sourceBytes source done) ∧
    writeSection sb inum (fun j => source (done + j)) (off + done) (min (n - done) maxWrite) s₁ =
      .ok ((r, off + (done + t)), s') ∧
    r < (min (n - done) maxWrite : Nat) ∧ t = r.toNat

section Loop

variable (sound : sb.Sound) (all : ∀ j, (source j).isSome)
  (inFile : off₀ ≤ (fileContents sb inum s₀).length)

include sound all inFile

theorem Progress.stop {r : Int} {off' : Nat} (progress : Progress sb inum source n off₀ s₀ i off s)
    (more : i < n)
    (run : writeSection sb inum (fun j => source (i + j)) off (min (n - i) maxWrite) s =
      .ok ((r, off'), s'))
    (ran : Ran sb inum (fun j => source (i + j)) off (min (n - i) maxWrite) s s' (r, off'))
    (short : r ≠ (min (n - i) maxWrite : Nat)) :
    ¬ Enough sb inum off₀ n s₀.disk ∧ ∃ t, StopsIn sb inum source n off₀ s₀ i t s' ∧
    off' = off₀ + (i + t) ∧
      fileContents sb inum s' =
        overlay (fileContents sb inum s₀) off₀ (sourceBytes source (i + t)) := by
  obtain ⟨moved, contents⟩ := progress.ran inFile ran all
  have most := (ran.moved progress.writable).2.1
  refine ⟨fun enough => ?_, r.toNat,
    ⟨s, r, progress.pieces.resolve_left (by omega), more, progress.contents, ?_,
    lt_of_le_of_ne most short, rfl⟩, moved, contents⟩
  · -- with blocks for all the rest there are blocks for this piece
    obtain ⟨limit, free⟩ := progress.enough.mpr enough
    refine ran.not_enough sound progress.writable (progress.within inFile) (fun j => all (i + j))
      short
      ⟨by omega, le_trans (card_le_card fun k member => ?_) free⟩
    obtain ⟨spans, empty⟩ := mem_filter.mp member
    refine mem_filter.mpr ⟨(mem_spannedSlots limit).mpr ?_, empty⟩
    have whole : n - i = min (n - i) maxWrite + (n - i - min (n - i) maxWrite) := by omega
    rw [whole, spans_add]
    exact .inl ((mem_spannedSlots (by omega)).mp spans)
  · rw [← progress.offset, ← moved]
    exact run

theorem filewriteFrom_spec {fuel : Nat} (log : maxOpBlocks + 1 < sb.nlog)
    (progress : Progress sb inum source n off₀ s₀ i off s) (enough : n - i ≤ fuel) :
    Prog.Returns (filewriteFrom sb inum source n fuel i off) s fun r s' =>
      r.1 = n ∧ Progress sb inum source n off₀ s₀ n r.2 s' ∨
      r.1 < n ∧ ¬ Enough sb inum off₀ n s₀.disk ∧ ∃ t, StopsIn sb inum source n off₀ s₀ r.1 t s' ∧
        r.2 = off₀ + (r.1 + t) ∧
        fileContents sb inum s' =
          overlay (fileContents sb inum s₀) off₀ (sourceBytes source (r.1 + t)) := by
  induction fuel generalizing i off s with
  | zero =>
    have bound := progress.bound
    obtain rfl : i = n := by omega
    exact .pure (.inl ⟨rfl, progress⟩)
  | succ fuel ih =>
    unfold filewriteFrom
    refine .ite (fun more => ?_) fun finished => .pure ?_
    swap
    · have bound := progress.bound
      obtain rfl : i = n := by omega
      exact .inl ⟨rfl, progress⟩
    have positive : 0 < maxWrite := by decide
    have returns :
      Prog.Returns (writeSection sb inum (fun j => source (i + j)) off (min (n - i) maxWrite)) s
        _ :=
      writeSection_returns sound log progress.writable progress.idle (Nat.min_le_right ..)
    obtain ⟨⟨r, off'⟩, s', run, writable', idle', ran⟩ := returns.exists
    refine .bind (.of_eq run (.ite (fun short => .pure (.inr ⟨more, ?_⟩)) fun whole => ?_))
    · exact progress.stop sound all inFile more run ran short
    · rw [not_not] at whole
      exact ih (progress.next inFile sound more writable' idle' ran all whole) (by omega)

end Loop

theorem Writable.enough_inside (writable : Writable sb inum s)
    (within : off + n ≤ (fileContents sb inum s).length) : Enough sb inum off n s.disk := by
  rw [fileContents, length_contents] at within
  have mapped := writable.holeFree
  have limit : off + n ≤ maxFile * bsize := le_trans within mapped.1
  have empty : missing (volumeOf sb s.disk) inum off n = ∅ := by
    refine filter_eq_empty_iff.mpr fun k spans => ?_
    exact MappedBelow.filled ⟨limit, fun bn below => mapped.2 bn (by omega)⟩
      ((mem_spannedSlots limit).mp spans)
  refine ⟨limit, ?_⟩
  rw [empty]
  exact Nat.zero_le _

theorem writei_whole {s₁ : Store} {inode : Dinode} (sound : sb.Sound)
    (writable : Writable sb inum s) (all : ∀ j, (source j).isSome) (same : s₁.disk = s.disk)
    (run : writei sb inum (dinodeAt sb s.disk inum) source off n s₁ =
      .ok (((n : Int), inode), s')) :
    fileContents sb inum s' = overlay (fileContents sb inum s) off (sourceBytes source n) := by
  rw [← same] at run
  have runs : Prog.Ensures (fun _ => True) (writei sb inum (dinodeAt sb s₁.disk inum) source off n)
    s₁ fun _ _ => True :=
    .of_eq run trivial
  obtain ⟨-, -, -, -, -, ran⟩ := (writei_ran sound writable same runs).of_ok run
  exact ran.contents writable (.inr all)

/-- `filewrite` writes as one `writei` would. If the blocks do not suffice it returns
-1, and the file has the pieces that were written and the part of the last one that
`writei` has reported. The size of a file is the length of its contents. -/
theorem filewrite_contents (buffer : Nat → UInt8) (sound : sb.Sound)
    (log : maxOpBlocks + 1 < sb.nlog) (writable : Writable sb inum s) (idle : Idle s)
    (within : off ≤ (fileContents sb inum s).length) (n : Nat) :
    ∃ r off' s', filewrite sb inum (fun j => some (buffer j)) n off s = .ok ((r, off'), s') ∧
      (Enough sb inum off n s.disk →
        r = n ∧ off' = off + n ∧
          fileContents sb inum s' =
            overlay (fileContents sb inum s) off ((List.range n).map buffer) ∧
          ∀ s₁ inode s₂, s₁.disk = s.disk →
            writei sb inum (dinodeAt sb s.disk inum) (fun j => some (buffer j)) off n s₁ =
              .ok (((n : Int), inode), s₂) →
            fileContents sb inum s' = fileContents sb inum s₂ ∧
              (dinodeAt sb s'.disk inum).size = (dinodeAt sb s₂.disk inum).size) ∧
      (¬ Enough sb inum off n s.disk →
        r = -1 ∧ ∃ done t, StopsIn sb inum (fun j => some (buffer j)) n off s done t s' ∧
        off' = off + (done + t) ∧
          fileContents sb inum s' =
            overlay (fileContents sb inum s) off ((List.range (done + t)).map buffer)) := by
  have all : ∀ j, (some (buffer j)).isSome := fun _ => rfl
  have begun : Progress sb inum (fun j => some (buffer j)) n off s 0 off s :=
    ⟨writable, idle, Nat.zero_le n, rfl, .inr (dvd_zero _), (overlay_nil _ _).symm, Iff.rfl⟩
  obtain ⟨⟨i, off'⟩, s', run, result⟩ :=
    (filewriteFrom_spec sound all within log begun le_rfl).exists
  refine ⟨if (i : Int) = n then n else -1, off', s', ?_, ?_⟩
  · unfold filewrite
    rw [Int.toNat_natCast]
    exact Prog.bind_ok run
  · obtain ⟨rfl, progress⟩ | ⟨short, not, t, stops, moved, contents⟩ := result
    · have enough := progress.enough.mp (by
        rw [Nat.sub_self]
        exact progress.writable.enough_inside (progress.within within))
      rw [if_pos rfl]
      refine ⟨fun _ => ⟨rfl, progress.offset, progress.contents, fun s₁ inode s₂ same whole => ?_⟩,
        absurd enough⟩
      have equal := progress.contents.trans (writei_whole sound writable all same whole).symm
      refine ⟨equal, ?_⟩
      have length := congrArg List.length equal
      rwa [fileContents, fileContents, length_contents, length_contents,
        volumeOf_inode writable.inside,
        volumeOf_inode writable.inside] at length
    · rw [if_neg (by simp only at short; omega)]
      exact ⟨fun enough => absurd enough not, fun _ => ⟨rfl, i, t, stops, moved, contents⟩⟩

/-- A file of five bytes gets 4000 more in two pieces. -/
theorem filewrite_contents_twoPieces : ∃ s',
    filewrite OneFile.layout 1 (fun _ => some 65) 4000 5
      { SharedOffset.opened with outstanding := 0 } =
      .ok ((4000, 4005), s') ∧
    fileContents OneFile.layout 1 s' = overlay (fileContents OneFile.layout 1 SharedOffset.opened) 5
      ((List.range 4000).map fun _ => 65) := by
  have enough :
    Enough OneFile.layout 1 5 4000 { SharedOffset.opened with outstanding := 0 }.disk := by
      decide +kernel
  have within : 5 ≤
      (fileContents OneFile.layout 1 { SharedOffset.opened with outstanding := 0 }).length := by
    rw [fileContents, length_contents]
    decide +kernel
  have writable : Writable OneFile.layout 1 { SharedOffset.opened with outstanding := 0 } :=
    { SharedOffset.opened_writable with }
  obtain ⟨r, off', s', run, whole, -⟩ :=
    filewrite_contents (fun _ => 65) OneFile.layout_sound (by decide) writable
    ⟨rfl, rfl⟩ within 4000
  obtain ⟨all, moved, contents, -⟩ := whole enough
  rw [all, moved] at run
  exact ⟨s', run, contents⟩

end Xv6.Disk
