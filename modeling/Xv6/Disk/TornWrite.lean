import Xv6.Disk.Contents

/-!
# Writes whose source cannot be read

When `either_copyin` fails, `writei` releases the buffer of the block without
`log_write`, but `copyin` may have copied the pages before the one that failed. The
bytes that it copied are seen by later reads, and the buffer then differs from the
block on disk.
-/

namespace Xv6.Disk

open List
open OneFile
open Volume

variable {sb : Superblock} {s s' : Store} {inum : Nat} {inode' : Dinode}
  {source : Nat → Option UInt8} {off n t f : Nat} {platter : Blocks}

def readByte (sb : Superblock) (inode : Dinode) (off : Nat) (s : Store) : Option UInt8 :=
  match readi sb inode (fun _ => true) off 1 s with
  | .ok (((_, bytes), _), _) => bytes.head?
  | .error _ => none

theorem readByte_eq {p : Nat} (inside : inum < sb.ninodes)
    (owned : (volumeOf sb s.disk).Owned sb.first sb.size (Used sb s.disk))
    (holeFree : (volumeOf sb s.disk).HoleFree inum) (small : p < 2 ^ 32) :
    readByte sb (dinodeAt sb s.disk inum) p s =
      if p < (dinodeAt sb s.disk inum).size then some
        ((volumeOf sb s.disk).byte inum p) else none := by
  have limit : maxFile * bsize < 2 ^ 32 - 1 := by decide
  have bound := holeFree.1
  rw [volumeOf_inode inside] at bound
  rw [readByte, readi_contents inside owned holeFree small (by decide)]
  by_cases below : p < (dinodeAt sb s.disk inum).size
  · rw [if_pos below, if_pos ⟨by omega, by omega⟩]
    change head? _ = _
    rw [head?_take, if_neg (by decide), head?_drop, getElem?_contents, volumeOf_inode inside,
      if_pos below]
  · rw [if_neg below]
    by_cases atEnd : p ≤ (dinodeAt sb s.disk inum).size ∧ p + 1 < 2 ^ 32
    · rw [if_pos atEnd]
      change head? _ = _
      rw [head?_take, if_neg (by decide), head?_drop, getElem?_contents, volumeOf_inode inside,
        if_neg below]
    · rw [if_neg atEnd]
      rfl

/-- Every buffer that is not in the log is equal to its block on disk. -/
def Clean (platter : Blocks) (s : Store) : Prop := ∀ b, b ∉ s.lh → s.disk b = platter b

/-- A write that has returned `t` has changed nothing else. -/
structure Harmless (sb : Superblock) (platter : Blocks) (off t : Nat) (s : Store) (inode : Dinode)
    (s' : Store) (inode' : Dinode) : Prop where
  bytes : ∀ p < 2 ^ 32, ¬ (off ≤ p ∧ p < off + t) → readByte sb inode' p s' = readByte sb inode p s
  clean : Clean platter s'

/-- The first byte of the source that cannot be read is byte `f`. -/
def FirstUnreadable (source : Nat → Option UInt8) (f : Nat) : Prop :=
  (∀ j < f, (source j).isSome) ∧ source f = none

/-- The bytes of the source before byte `f` that go to the same block are there
already. Past the end of the file they need not be, if the block is in the log, or
is new. -/
def Repeats (sb : Superblock) (inum : Nat) (source : Nat → Option UInt8) (off f : Nat) (s : Store) :
    Prop :=
  ∀ j < f, (off + j) / bsize = (off + f) / bsize →
    (volumeOf sb s.disk).fileBlock inum ((off + f) / bsize) ≠ 0 →
    source j = some ((volumeOf sb s.disk).byte inum (off + j)) ∨
      (dinodeAt sb s.disk inum).size ≤ off + j ∧
        (volumeOf sb s.disk).fileBlock inum ((off + f) / bsize) ∈ s.lh

theorem readable_stops {tot m : Nat} (stopped : readable source tot m < m) :
    source (tot + readable source tot m) = none := by
  by_contra some
  have all : ∀ i ∈ range (readable source tot m + 1), (source (tot + i)).isSome := by
    intro i member
    rcases Nat.lt_succ_iff_lt_or_eq.mp (mem_range.mp member) with early | rfl
    · exact readable_isSome early
    · exact Option.isSome_iff_ne_none.mpr some
  have split : range m = range (readable source tot m + 1) ++
      (range (m - (readable source tot m + 1))).map (readable source tot m + 1 + ·) := by
    rw [← range_add, Nat.add_sub_cancel' stopped]
  have longer : readable source tot m + 1 ≤ readable source tot m := by
    conv_rhs => rw [readable, split, takeWhile_append_of_pos all, length_append, length_range]
    exact Nat.le_add_right ..
  exact Nat.not_succ_le_self _ longer

/-- The byte where the copy has stopped is the first that cannot be read, and the bytes
before it in its block are those copied last. -/
theorem Advanced.first_unreadable {v v' : Volume}
    (advanced : Advanced sb inum source off n v s t (off + t) v' s')
    (read : ∀ j < t, (source j).isSome) (stopped : t < n)
    (present : v'.fileBlock inum ((off + t) / bsize) ≠ 0) (first : FirstUnreadable source f) :
    f = t + torn source (off + t) t (n - t) ∧ (off + f) / bsize = (off + t) / bsize ∧
      ∀ j < f, (off + j) / bsize = (off + f) / bsize ↔ t ≤ j := by
  have left : off + n - (off + t) = n - t := by omega
  obtain ⟨short, -⟩ := advanced.failed (by omega) present
  rw [left] at short
  have unreadable := readable_stops short
  change source (t + torn source (off + t) t (n - t)) = none at unreadable
  have isFirst : f = t + torn source (off + t) t (n - t) := by
    rcases Nat.lt_trichotomy f (t + torn source (off + t) t (n - t)) with less | same | more
    · exfalso
      have some : (source f).isSome := by
        rcases Nat.lt_or_ge f t with early | late
        · exact read f early
        · have copied : (source (t + (f - t))).isSome :=
            readable_isSome (show f - t < torn source (off + t) t (n - t) by omega)
          rwa [Nat.add_sub_cancel' late] at copied
      rw [first.2] at some
      exact absurd some (by decide)
    · exact same
    · have some := first.1 _ more
      rw [unreadable] at some
      exact absurd some (by decide)
  have quotient : (off + f) / bsize = (off + t) / bsize := by
    have := (chunk_div short).1
    rwa [Nat.add_assoc, ← isFirst] at this
  refine ⟨isFirst, quotient, fun j early => ?_⟩
  constructor
  · intro same
    by_contra before
    rcases advanced.aligned (by omega) with here | boundary
    · omega
    · have := Nat.div_add_mod (off + t) bsize
      have low := Nat.div_add_mod (off + j) bsize
      rw [same, quotient] at low
      omega
  · intro late
    have := (chunk_div (show j - t < chunk (off + t) (n - t) by omega)).1
    rw [Nat.add_assoc, Nat.add_sub_cancel' late] at this
    rw [this, quotient]

section

variable (inside : inum < sb.ninodes)
  (owned : (volumeOf sb s.disk).Owned sb.first sb.size (Used sb s.disk))
  (holeFree : (volumeOf sb s.disk).HoleFree inum)
  (written : Written sb inum source off n (off + t) s (dinodeAt sb s.disk inum) s' inode')
  (advanced : Advanced sb inum source off n (volumeOf sb s.disk) s t (off + t)
    (volumeOf sb s'.disk) s')
  (within : off ≤ (dinodeAt sb s.disk inum).size) (short : off + n ≤ maxFile * bsize)
  (stopped : t < n) (present : (volumeOf sb s'.disk).fileBlock inum ((off + t) / bsize) ≠ 0)

include written advanced stopped present

section

include inside owned holeFree within

/-- Reads return what they did before if the bytes copied last are the old ones. -/
theorem bytes_kept_iff :
    (∀ p < 2 ^ 32, ¬ (off ≤ p ∧ p < off + t) →
      readByte sb inode' p s' = readByte sb (dinodeAt sb s.disk inum) p s) ↔
    ∀ j < torn source (off + t) t (n - t), off + t + j < (dinodeAt sb s.disk inum).size →
      source (t + j) = some ((volumeOf sb s.disk).byte inum (off + t + j)) := by
  have limit : maxFile * bsize < 2 ^ 32 := by decide
  have left : off + n - (off + t) = n - t := by omega
  have bound := holeFree.1
  rw [volumeOf_inode inside] at bound
  have before : ∀ p < 2 ^ 32, _ := fun p small => readByte_eq inside owned holeFree small
  have after : ∀ p < 2 ^ 32, _ := fun p small => readByte_eq inside written.owned
    (written.hole_free inside holeFree) small
  rw [← written.synced, written.size] at after
  obtain ⟨-, copied⟩ := advanced.failed (by omega) present
  rw [left] at copied
  constructor
  · intro same j early below
    have equal := same (off + t + j) (by omega) (by omega)
    rw [before _ (by omega), after _ (by omega), if_pos below,
      if_pos (lt_max_of_lt_left below)] at equal
    rw [copied j early]
    exact equal
  · intro same p small outside
    rw [before p small, after p small]
    by_cases below : p < (dinodeAt sb s.disk inum).size
    · rw [if_pos below, if_pos (lt_max_of_lt_left below)]
      obtain ⟨low, mapped⟩ := holeFree.mappedBelow.block (by rwa [volumeOf_inode inside])
      by_cases last : off + t ≤ p ∧ p < off + t + torn source (off + t) t (n - t)
      · have index : off + t + (p - (off + t)) = p := by omega
        have new := copied (p - (off + t)) (by omega)
        have old := same (p - (off + t)) (by omega) (by omega)
        rw [index] at new old
        rw [← new, ← old]
      · rw [advanced.kept p low mapped (by rw [left]; omega)]
    · rw [if_neg below, if_neg (by rw [lt_max_iff]; omega)]

end

include short

/-- The buffers agree with the disk if the block is in the log or the bytes copied last
are the old ones. -/
theorem clean_iff (clean : Clean platter s) : Clean platter s' ↔
    ((volumeOf sb s.disk).fileBlock inum ((off + t) / bsize) ≠ 0 →
      (volumeOf sb s.disk).fileBlock inum ((off + t) / bsize) ∉ s.lh →
      ∀ j < torn source (off + t) t (n - t), source (t + j) =
        some ((volumeOf sb s.disk).byte inum (off + t + j))) := by
  have left : off + n - (off + t) = n - t := by omega
  obtain ⟨less, copied⟩ := advanced.failed (by omega) present
  rw [left] at less copied
  have low : (off + t) / bsize < maxFile := Nat.div_lt_of_lt_mul (by rw [Nat.mul_comm]; omega)
  have place := written.owned.fileBlock_place low present
  constructor
  · intro clean' mapped unlogged j early
    have same : (volumeOf sb s'.disk).fileBlock inum ((off + t) / bsize) =
        (volumeOf sb s.disk).fileBlock inum ((off + t) / bsize) := written.addr inum _ mapped
    have unlogged' : (volumeOf sb s.disk).fileBlock inum ((off + t) / bsize) ∉ s'.lh :=
      fun logged => unlogged (advanced.old (by omega) mapped logged)
    have block : s'.disk ((volumeOf sb s.disk).fileBlock inum ((off + t) / bsize)) =
        s.disk ((volumeOf sb s.disk).fileBlock inum ((off + t) / bsize)) := by
      rw [clean' _ unlogged', clean _ unlogged]
    rw [copied j early, Volume.byte, Volume.byte, (chunk_div (lt_trans early less)).1, same,
      volumeOf_block (same ▸ place.1), volumeOf_block (same ▸ place.1), block]
  · intro repeats b unlogged
    have unlogged₀ : b ∉ s.lh := fun logged => unlogged (advanced.more b logged)
    rcases advanced.logged b unlogged with same | ⟨-, isBlock, torn⟩
    · rw [same, clean b unlogged₀]
    rw [left] at torn
    rw [torn, ← clean b unlogged₀]
    by_cases absent : (volumeOf sb s.disk).fileBlock inum ((off + t) / bsize) = 0
    · exact absurd (isBlock ▸ advanced.new (by omega) absent present) unlogged
    have old : b = (volumeOf sb s.disk).fileBlock inum ((off + t) / bsize) :=
      isBlock.trans (written.addr inum _ absent)
    funext a
    by_cases here : (off + t) % bsize ≤ a ∧
      a < (off + t) % bsize + Disk.torn source (off + t) t (n - t)
    · obtain ⟨j, rfl⟩ := Nat.exists_eq_add_of_le here.1
      have early : j < Disk.torn source (off + t) t (n - t) := by omega
      obtain ⟨quotient, remainder⟩ := chunk_div (lt_trans early less)
      have byte := repeats absent (old ▸ unlogged₀) j early
      rw [Volume.byte, quotient, remainder, volumeOf_block (by rw [← old, isBlock]; exact place.1),
        ← old] at byte
      rw [chunkData, ByteSpace.blit_of_inside _ _ early, byte]
      rfl
    · rw [chunkData, ByteSpace.blit_of_outside _ _ (by omega)]

end

/-- A write that has stopped because its source cannot be read has changed nothing but
what it reports if and only if the bytes that were copied last are there already. -/
theorem writei_harmless_iff (sound : sb.Sound) (inside : inum < sb.ninodes)
    (owned : (volumeOf sb s.disk).Owned sb.first sb.size (Used sb s.disk))
    (inUse : (dinodeAt sb s.disk inum).type ≠ 0) (holeFree : (volumeOf sb s.disk).HoleFree inum)
    (clean : Clean platter s) (first : FirstUnreadable source f)
    (run : writei sb inum (dinodeAt sb s.disk inum) source off n s = .ok (((t : Int), inode'), s'))
    (stopped : t < n) -- `bmap` has found a block, so it is the copy that has failed
    (present : (volumeOf sb s'.disk).fileBlock inum ((off + t) / bsize) ≠ 0) :
    Harmless sb platter off t s (dinodeAt sb s.disk inum) s' inode' ↔
    Repeats sb inum source off f s := by
  have pays : Pays (fun _ => True) s Set.univ (2 * spanned off n + 0) :=
    .unlimited (fun _ _ => trivial) Set.mem_univ
  have spec : Prog.Ensures _ (writei sb inum (dinodeAt sb s.disk inum) source off n) s _ :=
    writei_advanced sound inside owned inUse holeFree (fun _ _ => Set.mem_univ _) (Set.mem_univ _)
      pays
  obtain ⟨⟨-, refused, -⟩ | ⟨accepted, off', result, -, written, advanced⟩, -⟩ := spec.of_ok run
  · have := congrArg Prod.fst refused
    change (t : Int) = -1 at this
    omega
  have reached := written.reached
  obtain rfl : off' = off + t := by
    change (t : Int) = _ at result
    omega
  rw [Nat.add_sub_cancel_left] at advanced
  unfold Refused at accepted
  have within : off ≤ (dinodeAt sb s.disk inum).size := by omega
  have short : off + n ≤ maxFile * bsize := by omega
  have read : ∀ j < t, (source j).isSome := by
    intro j early
    rw [written.bytes j (by omega)]
    rfl
  obtain ⟨isFirst, quotient, sameBlock⟩ := advanced.first_unreadable read stopped present first
  have bytes := bytes_kept_iff inside owned holeFree written advanced within stopped present
  have buffers := clean_iff written advanced short stopped present clean
  constructor
  · intro harmless j early block mapped
    have late := (sameBlock j early).mp block
    have index : t + (j - t) = j := Nat.add_sub_cancel' late
    have position : off + t + (j - t) = off + j := by omega
    by_cases below : off + j < (dinodeAt sb s.disk inum).size
    · have old := bytes.mp harmless.bytes (j - t) (by omega) (by omega)
      rw [index, position] at old
      exact .inl old
    · by_cases logged : (volumeOf sb s.disk).fileBlock inum ((off + f) / bsize) ∈ s.lh
      · exact .inr ⟨by omega, logged⟩
      · rw [quotient] at mapped logged
        have old := buffers.mp harmless.clean mapped logged (j - t) (by omega)
        rw [index, position] at old
        exact .inl old
  · intro repeats
    have block : ∀ j < torn source (off + t) t (n - t), (off + (t + j)) / bsize =
      (off + f) / bsize :=
      fun j early => (sameBlock (t + j) (by omega)).mpr (Nat.le_add_right t j)
    have again : ∀ j < torn source (off + t) t (n - t), _ :=
      fun j early => repeats (t + j) (by omega) (block j early)
    simp only [← Nat.add_assoc] at again
    rw [quotient] at again
    refine ⟨bytes.mpr fun j early below => ?_, buffers.mpr fun mapped unlogged j early => ?_⟩
    · obtain ⟨-, mapped⟩ := holeFree.mappedBelow.block (by rwa [volumeOf_inode inside])
      have here := block j early
      rw [← Nat.add_assoc] at here
      rw [here, quotient] at mapped
      exact (again j early mapped).resolve_right fun past => by omega
    · exact (again j early mapped).resolve_right fun logged => unlogged logged.2

theorem ok_of_toOption {ε α : Type} {result : Except ε α} {a : α}
    (returned : result.toOption = some a) : result = .ok a := by
  cases result with
  | ok value => exact congrArg Except.ok (Option.some.inj returned)
  | error => cases returned

/-- The first two of four bytes can be read, and they are in the file already. -/
theorem writei_harmless_iff_unmapped : ∃ inode' s',
    writei layout 1 (dinodeAt layout (store 1 5).disk 1)
      (fun j => if j < 2 then some 0 else none) 0 4 (store 1 5) = .ok ((0, inode'), s') ∧
    Harmless layout (store 1 5).disk 0 0 (store 1 5)
      (dinodeAt layout (store 1 5).disk 1) s' inode' := by
  have seen : (writei layout 1 (dinodeAt layout (store 1 5).disk 1)
      (fun j => if j < 2 then some 0 else none) 0 4 (store 1 5)).toOption.map
        (fun r => (r.1.1, (volumeOf layout r.2.disk).fileBlock 1 0)) = some (0, 37) := by
    decide +kernel
  obtain ⟨⟨⟨r, inode'⟩, s'⟩, returned, result⟩ := Option.map_eq_some_iff.mp seen
  obtain ⟨isZero, isBlock⟩ := Prod.mk.inj result
  obtain rfl : r = 0 := isZero
  have run := ok_of_toOption returned
  have clean : Clean (store 1 5).disk (store 1 5) := fun _ _ => rfl
  have first : FirstUnreadable (fun j => if j < 2 then some (0 : UInt8) else none) 2 :=
    ⟨fun j early => by simp [early], rfl⟩
  have present : (volumeOf layout s'.disk).fileBlock 1 ((0 + 0) / bsize) ≠ 0 := by
    change (volumeOf layout s'.disk).fileBlock 1 0 ≠ 0
    rw [isBlock]
    decide
  have inUse : (dinodeAt layout (store 1 5).disk 1).type ≠ 0 := by decide +kernel
  have owned : (volumeOf layout (store 1 5).disk).Owned layout.first
      layout.size (Used layout (store 1 5).disk) :=
    owned (by decide) (by decide)
  have zeros : ∀ j < 2, (volumeOf layout (store 1 5).disk).byte 1 (0 + j) = 0 := by
    decide +kernel
  have isHarmless := writei_harmless_iff layout_sound (by decide) owned inUse
    hole_free_fiveBytes clean first (t := 0) run (by decide) present
  refine ⟨inode', s', run, isHarmless.mpr fun j early _ _ => .inl ?_⟩
  simp only [if_pos early, zeros j early]

/-- The first two of four bytes can be read: `writei` returns 0, but a later read
returns one of them, and the buffer is not in the log. -/
theorem writei_torn : ∃ inode' s',
    writei layout 1 (dinodeAt layout (store 1 5).disk 1)
      (fun j => if j < 2 then some 7 else none) 0 4 (store 1 5) = .ok ((0, inode'), s') ∧
    readByte layout inode' 0 s' = some 7 ∧
    readByte layout (dinodeAt layout (store 1 5).disk 1) 0 (store 1 5) = some 0 ∧
    37 ∉ s'.lh ∧ s'.disk 37 0 ≠ (store 1 5).disk 37 0 := by
  have seen : (writei layout 1 (dinodeAt layout (store 1 5).disk 1)
      (fun j => if j < 2 then some 7 else none) 0 4 (store 1 5)).toOption.map
        (fun r => (r.1.1, readByte layout r.1.2 0 r.2, decide (37 ∈ r.2.lh), r.2.disk 37 0)) =
          some (0, some 7, false, 7) := by decide +kernel
  obtain ⟨⟨⟨r, inode'⟩, s'⟩, returned, result⟩ := Option.map_eq_some_iff.mp seen
  simp only [Prod.mk.injEq, decide_eq_false_iff_not] at result
  obtain ⟨rfl, new, unlogged, byte⟩ := result
  refine ⟨inode', s', ok_of_toOption returned, new, by decide +kernel, unlogged, ?_⟩
  rw [byte]
  decide +kernel

end Xv6.Disk
