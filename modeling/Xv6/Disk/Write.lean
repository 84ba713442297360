import Xv6.Disk.Map

/-!
# Writing

`writei` gives a file new blocks and writes to them one after the other. Where it
stops early, every block before the new end has been mapped.
-/

namespace Xv6.Disk

open List
open Function
open Volume

variable {sb : Superblock} {s s' s'' : Store} {inum : Nat} {inode inode' inode'' : Dinode}
  {allowed : Stop → Prop} {paid : Set Nat} {k : Nat} {v v' v'' : Volume} {i lo hi : Nat}

/-- `v'` is `v` with new blocks for file `i`, and of its old bytes only those from
`lo` to `hi` may have changed. -/
structure Changed (v v' : Volume) (i lo hi : Nat) : Prop extends Maps v v' i where
  bytes : ∀ i' p, p / bsize < maxFile → v.fileBlock i' (p / bsize) ≠ 0 →
    (i' = i → p < lo ∨ hi ≤ p) →
    v'.byte i' p = v.byte i' p

theorem Volume.Extends.changed (extends' : Extends v v' i) (lo hi : Nat) :
    Changed v v' i lo hi where
  toMaps := extends'.toMaps
  bytes _ _ inside present _ := extends'.byte inside present

theorem Changed.trans (first : Changed v v' i lo hi) (second : Changed v' v'' i lo hi) :
    Changed v v'' i lo hi where
  toMaps := first.toMaps.trans second.toMaps
  bytes i' p inside present outside := by
    have same := first.fileBlock present
    rw [second.bytes i' p inside (by rwa [same]) outside, first.bytes i' p inside present outside]

theorem Changed.mono {lo' hi' : Nat} (changed : Changed v v' i lo hi) (low : lo' ≤ lo)
    (high : hi ≤ hi') : Changed v v' i lo' hi' :=
  { changed with
    bytes := fun i' p inside present outside =>
      changed.bytes i' p inside present fun same => by have := outside same; omega }

theorem changed_setBlock {first size : Nat} {used : Nat → Prop} (owned : v.Owned first size used)
    {bn : Nat} (inside : bn < maxFile) {data : ByteSpace}
    (agree : ∀ p, p / bsize = bn → p < lo ∨ hi ≤ p → data (p % bsize) = v.byte i p) :
    Changed v (v.setBlock (v.fileBlock i bn) data) i lo hi where
  others _ _ := rfl
  fields := rfl
  othersAddr i' _ k := addr_write owned inside data i' k
  addr i' k _ := addr_write owned inside data i' k
  bytes i' p inside' present outside := by
    rw [byte_setBlock owned inside data inside' present]
    split
    next here =>
      obtain ⟨rfl, rfl⟩ := here
      exact agree p rfl (outside rfl)
    next => rfl

def spanned (off n : Nat) : Nat := if n = 0 then 0 else (off + n - 1) / bsize - off / bsize + 1

theorem spanned_chunk {off n : Nat} (positive : n ≠ 0) :
    spanned off n = spanned (off + chunk off n) (n - chunk off n) + 1 := by
  unfold spanned chunk bsize
  rw [if_neg positive]
  split <;> omega

structure Wrote (sb : Superblock) (inum : Nat) (source : Nat → Option UInt8) (off tot n : Nat)
    (s : Store) (inode : Dinode) (tot' off' : Nat) (s' : Store) (inode' : Dinode) : Prop where
  owned : (viewOf sb s'.disk inum inode').Owned sb.first sb.size (Used sb s'.disk)
  changed : Changed (viewOf sb s.disk inum inode) (viewOf sb s'.disk inum inode') inum off (off + n)
  /-- Only a source that cannot be read leaves bytes that do not count. -/
  precise : (∀ j, (source j).isSome) →
    Changed (viewOf sb s.disk inum inode) (viewOf sb s'.disk inum inode') inum off off'
  inodes : ∀ i < sb.ninodes, dinodeAt sb s'.disk i = dinodeAt sb s.disk i
  same : SameTable s s'
  fits : inode'.Fits
  reached : off ≤ off' ∧ off' ≤ off + n ∧ tot' + off = tot + off'
  mapped : MappedBelow (viewOf sb s'.disk inum inode') inum off'
  bytes : ∀ j, off + j < off' →
    source (tot + j) = some ((viewOf sb s'.disk inum inode').byte inum (off + j))

theorem MappedBelow.changed {limit : Nat} (mapped : MappedBelow v i limit)
    (changed : Changed v v' i lo hi) : MappedBelow v' i limit :=
  ⟨mapped.1, fun bn below => by rw [changed.fileBlock (mapped.2 bn below)]; exact mapped.2 bn below⟩

section Wrote

variable {source : Nat → Option UInt8} {off tot n off' tot' n' off'' tot'' : Nat}

theorem Wrote.trans (first : Wrote sb inum source off tot n s inode tot' off' s' inode')
    (second : Wrote sb inum source off' tot' n' s' inode' tot'' off'' s'' inode'')
    (within : off' + n' ≤ off + n) :
    Wrote sb inum source off tot n s inode tot'' off'' s'' inode'' where
  owned := second.owned
  changed := by
    have := first.reached
    exact first.changed.trans (second.changed.mono (by omega) within)
  precise all := by
    have := first.reached
    have := second.reached
    exact ((first.precise all).mono le_rfl (by omega)).trans
      ((second.precise all).mono (by omega) le_rfl)
  inodes i inside := (second.inodes i inside).trans (first.inodes i inside)
  same := first.same.trans second.same
  fits := second.fits
  reached := by
    have := first.reached
    have := second.reached
    omega
  mapped := second.mapped
  bytes j below := by
    have reached := first.reached
    by_cases early : off + j < off'
    · obtain ⟨inside, present⟩ := first.mapped.block early
      rw [first.bytes j early, second.changed.bytes inum _ inside present fun _ => .inl early]
    · have later := second.bytes (off + j - off') (by omega)
      have position : off' + (off + j - off') = off + j := by omega
      have index : tot' + (off + j - off') = tot + j := by omega
      rwa [position, index] at later

theorem Grown.wrote (grown : Grown sb inum s inode s' inode')
    (mapped : MappedBelow (viewOf sb s.disk inum inode) inum off) :
    Wrote sb inum source off tot n s inode tot off s' inode' where
  owned := grown.owned
  changed := grown.extends'.changed off (off + n)
  precise _ := grown.extends'.changed off off
  inodes := grown.inodes
  same := grown.same
  fits := grown.fits
  reached := ⟨le_rfl, Nat.le_add_right off n, rfl⟩
  mapped := mapped.changed (grown.extends'.changed off (off + n))
  bytes j below := by omega

/-- The bytes of a chunk that `writei` puts into the block. -/
def chunkData (source : Nat → Option UInt8) (data : ByteSpace) (off tot count : Nat) : ByteSpace :=
  data.blit (off % bsize) count fun i => (source (tot + i)).getD 0

section

variable (sound : sb.Sound)
  (owned : (viewOf sb s.disk inum inode).Owned sb.first sb.size (Used sb s.disk))
  (fits : inode.Fits) (inside : off / bsize < maxFile) {b : Nat} (present : b ≠ 0)
  (isBlock : (viewOf sb s.disk inum inode).fileBlock inum (off / bsize) = b)
  (mapped : MappedBelow (viewOf sb s.disk inum inode) inum off)

include sound owned fits inside present isBlock mapped

section Chunk

variable {count : Nat} (part : count ≤ chunk off n)
  (disk : s'.disk = update s.disk b (chunkData source (s.disk b) off tot count))

include part disk

omit fits mapped part in
theorem view_chunk : viewOf sb s'.disk inum inode = (viewOf sb s.disk inum inode).setBlock
    ((viewOf sb s.disk inum inode).fileBlock inum (off / bsize))
      (chunkData source (s.disk b) off tot count) := by
  subst isBlock
  rw [disk, viewOf_update sound (owned.fileBlock_place inside present).1]

omit fits mapped part in
theorem changed_chunk :
    Changed (viewOf sb s.disk inum inode) (viewOf sb s'.disk inum inode) inum off
      (off + count) := by
  rw [view_chunk sound owned inside present isBlock disk]
  refine changed_setBlock owned inside fun p block outside => ?_
  have place := owned.fileBlock_place inside (by rwa [isBlock])
  have split := Nat.div_add_mod off bsize
  have position := Nat.div_add_mod p bsize
  rw [block] at position
  rw [chunkData, ByteSpace.blit_of_outside _ _ (by omega), Volume.byte, block, viewOf_block place.1,
    isBlock]

omit fits mapped in
theorem byte_chunk {j : Nat} (early : j < count) (readable : (source (tot + j)).isSome) :
    source (tot + j) = some ((viewOf sb s'.disk inum inode).byte inum (off + j)) := by
  obtain ⟨quotient, remainder⟩ := chunk_div (show j < chunk off n by omega)
  obtain ⟨byte, isByte⟩ := Option.isSome_iff_exists.mp readable
  rw [view_chunk sound owned inside present isBlock disk,
    byte_setBlock owned inside _ (by rwa [quotient]) (by rwa [quotient, isBlock]),
    if_pos ⟨rfl, quotient⟩,
    remainder, chunkData, ByteSpace.blit_of_inside _ _ early, isByte]
  rfl

/-- A part of a chunk is written to its block. If it is the whole chunk, that
counts. -/
theorem wrote_chunk {m : Nat} (same : SameTable s s')
    (progress : m = 0 ∧ ¬ (∀ j, (source j).isSome) ∨ m = count ∧
      ∀ j < count, (source (tot + j)).isSome)
    (short : off + m ≤ maxFile * bsize) :
    Wrote sb inum source off tot n s inode (tot + m) (off + m) s' inode := by
  have place := owned.fileBlock_place inside (by rwa [isBlock])
  rw [isBlock] at place
  have bound := chunk_le off n
  have changed := changed_chunk sound owned inside present isBlock disk
  refine ⟨?_, changed.mono le_rfl (by omega), fun all => ?_, fun i low => ?_, same, fits, by omega,
    ⟨short, fun bn below => ?_⟩, fun j below => ?_⟩
  · rw [view_chunk sound owned inside present isBlock disk]
    refine Owned.of_used (owned.write (slotOf_lt inside) (slotOf_ne_ndirect _) _) fun b below => ?_
    rw [Used, disk, usedAt_update sound place.1 below]
    rfl
  · rcases progress with ⟨-, unreadable⟩ | ⟨rfl, -⟩
    · exact absurd all unreadable
    · exact changed
  · rw [disk, dinodeAt_data sound place.1 low]
  · rcases Nat.lt_or_ge (bn * bsize) off with before | after
    · exact (mapped.changed changed).2 bn before
    · have here : bn = off / bsize := by
        have := Nat.mod_lt off (by decide : 0 < bsize)
        have same : bn * bsize = off := by
          by_contra other
          have low : off / bsize < bn := by
            rw [Nat.div_lt_iff_lt_mul (by decide)]
            omega
          have := chunk_fits off n
          have := Nat.div_add_mod off bsize
          have : (off / bsize + 1) * bsize ≤ bn * bsize := Nat.mul_le_mul_right _ low
          rw [Nat.add_mul, Nat.mul_comm (off / bsize)] at this
          omega
        rw [← same, Nat.mul_div_cancel _ (by decide)]
      rw [here, changed.fileBlock (by rwa [isBlock]), isBlock]
      exact present
  · rcases progress with ⟨rfl, -⟩ | ⟨rfl, all⟩
    · omega
    · exact byte_chunk sound owned inside present isBlock part disk (by omega) (all j (by omega))

end Chunk

end

def readable (source : Nat → Option UInt8) (tot m : Nat) : Nat :=
  ((range m).takeWhile fun i => (source (tot + i)).isSome).length

theorem length_takeWhile_range (p : Nat → Bool) (m : Nat) : ((range m).takeWhile p).length ≤ m := by
  have shorter := (takeWhile_sublist (l := range m) p).length_le
  rwa [length_range] at shorter

theorem readable_le (source : Nat → Option UInt8) (tot m : Nat) : readable source tot m ≤ m :=
  length_takeWhile_range ..

theorem readable_of_all {source : Nat → Option UInt8} (tot m : Nat) (all : ∀ j, (source j).isSome) :
    readable source tot m = m := by
  unfold readable
  rw [takeWhile_eq_self_iff.mpr fun i _ => all _, length_range]

theorem of_lt_takeWhile {p : Nat → Bool} {m j : Nat} (early : j < ((range m).takeWhile p).length) :
    p j = true := by
  have position : ((range m).takeWhile p)[j] = j := by
    rw [(List.takeWhile_prefix _).getElem early, getElem_range]
  exact position ▸ mem_takeWhile_imp (getElem_mem early)

theorem readable_isSome {source : Nat → Option UInt8} {tot m j : Nat}
    (early : j < readable source tot m) : (source (tot + j)).isSome :=
  of_lt_takeWhile early

/-- `writei` may fill this slot when it writes `n` bytes from `off` on. -/
def Spans (off n k : Nat) : Prop := ∃ bn, off / bsize ≤ bn ∧ bn * bsize < off + n ∧ Needs bn k

theorem Spans.here {k : Nat} (more : n ≠ 0) (needs : Needs (off / bsize) k) : Spans off n k := by
  refine ⟨off / bsize, le_rfl, ?_, needs⟩
  have := Nat.div_mul_le_self off bsize
  omega

theorem Spans.later {k m : Nat} (spans : Spans (off + m) (n - m) k) (part : m ≤ n) :
    Spans off n k := by
  obtain ⟨bn, low, high, needs⟩ := spans
  exact ⟨bn, le_trans (Nat.div_le_div_right (Nat.le_add_right off m)) low, by omega, needs⟩

/-- The bytes at the end of a write that were copied to a buffer before the source
could not be read. -/
def torn (source : Nat → Option UInt8) (off tot left : Nat) : Nat :=
  readable source tot (chunk off left)

/-- How far the loop of `writei` has come, why it has stopped, and what is in the
log. -/
structure Advanced (sb : Superblock) (inum : Nat) (source : Nat → Option UInt8) (off n : Nat)
    (v : Volume) (s : Store) (tot' off' : Nat) (v' : Volume) (s' : Store) : Prop where
  only : ∀ k, v'.addr inum k ≠ 0 → v.addr inum k ≠ 0 ∨ Spans off n k
  /-- There was no free block. -/
  full : off' < off + n → v'.fileBlock inum (off' / bsize) = 0 →
    (∀ b < sb.size, Used sb s'.disk b) ∧ ∃ k, Spans off n k ∧ v'.addr inum k = 0
  aligned : off' < off + n → off' = off ∨ off' % bsize = 0
  /-- The source could not be read. -/
  failed : off' < off + n → v'.fileBlock inum (off' / bsize) ≠ 0 →
    torn source off' tot' (off + n - off') < chunk off' (off + n - off') ∧
      ∀ j < torn source off' tot' (off + n - off'), source (tot' + j) =
        some (v'.byte inum (off' + j))
  kept : ∀ p, p / bsize < maxFile → v.fileBlock inum (p / bsize) ≠ 0 →
    p < off ∨ off' + torn source off' tot' (off + n - off') ≤ p → v'.byte inum p = v.byte inum p
  more : ∀ x ∈ s.lh, x ∈ s'.lh
  /-- The last block may have changed without being in the log. -/
  logged : ∀ x, x ∉ s'.lh → s'.disk x = s.disk x ∨
    off' < off + n ∧ x = v'.fileBlock inum (off' / bsize) ∧
      s'.disk x = chunkData source (s.disk x) off' tot' (torn source off' tot' (off + n - off'))
  new : off' < off + n → v.fileBlock inum (off' / bsize) = 0 →
    v'.fileBlock inum (off' / bsize) ≠ 0 →
    v'.fileBlock inum (off' / bsize) ∈ s'.lh
  old : off' < off + n → v.fileBlock inum (off' / bsize) ≠ 0 →
    v.fileBlock inum (off' / bsize) ∈ s'.lh →
    v.fileBlock inum (off' / bsize) ∈ s.lh

theorem Advanced.nothing : Advanced sb inum source off 0 v s tot off v s where
  only _ mapped := .inl mapped
  full more := absurd more (by omega)
  aligned more := absurd more (by omega)
  failed more := absurd more (by omega)
  kept _ _ _ _ := rfl
  more _ logged := logged
  logged _ _ := .inl rfl
  new more := absurd more (by omega)
  old more := absurd more (by omega)

theorem Placed.advanced (placed : Placed sb inum (off / bsize) s inode 0 s' inode')
    (grown : Grown sb inum s inode s' inode') (more : n ≠ 0) :
    Advanced sb inum source off n (viewOf sb s.disk inum inode) s tot off
      (viewOf sb s'.disk inum inode') s' := by
  obtain ⟨full, k, needs, empty⟩ := placed.full rfl
  have absent : (viewOf sb s'.disk inum inode').fileBlock inum (off / bsize) = 0 := by
    rcases needs with rfl | ⟨rfl, beyond⟩
    · exact empty
    · refine addr_of_no_indirect ?_ empty
      rw [slotOf, if_neg (by omega)]
      omega
  constructor
  · intro k mapped
    exact (placed.only k mapped).imp id fun needs => .here more needs
  · exact fun _ _ => ⟨full, k, .here more needs, empty⟩
  · exact fun _ => .inl rfl
  · exact fun _ present => absurd absent present
  · exact fun p inside present _ => grown.extends'.byte inside present
  · exact placed.logged.more
  · exact fun x unlogged => .inl (placed.logged.same x unlogged)
  · exact fun _ _ present => absurd absent present
  · intro _ present
    rw [← grown.extends'.fileBlock present] at present
    exact absurd absent present

section Placed

variable {s₁ s₂ : Store} {inode₁ : Dinode} {addr : Nat}
  (owned : (viewOf sb s.disk inum inode).Owned sb.first sb.size (Used sb s.disk))
  (placed : Placed sb inum (off / bsize) s inode addr s₁ inode₁)
  (grown : Grown sb inum s inode s₁ inode₁) (sound : sb.Sound) (inside : off / bsize < maxFile)
  (present : addr ≠ 0)
  (isBlock : (viewOf sb s₁.disk inum inode₁).fileBlock inum (off / bsize) = addr)

include owned placed

theorem Placed.old {bn : Nat} (inside : bn < maxFile)
    (mapped : (viewOf sb s.disk inum inode).fileBlock inum bn ≠ 0)
    (member : (viewOf sb s.disk inum inode).fileBlock inum bn ∈ s₁.lh) :
    (viewOf sb s.disk inum inode).fileBlock inum bn ∈ s.lh := by
  have place := owned.fileBlock_place inside mapped
  refine placed.unlogged _ member place.1 place.2 ?_ fun same => ?_
  · exact (owned.used _ place.2).mpr (.inr ⟨inum, slotOf bn, slotOf_lt inside, rfl⟩)
  · exact owned.plain (slotOf_lt inside) (slotOf_ne_ndirect bn) inum (same ▸ mapped) same.symm

include grown sound inside present isBlock

theorem Placed.torn
    (disk : s₂.disk =
      update s₁.disk addr (chunkData source (s₁.disk addr) off tot (torn source off tot n)))
    (log : s₂.lh = s₁.lh) (stopped : torn source off tot n < chunk off n) :
    Advanced sb inum source off n (viewOf sb s.disk inum inode) s tot off
      (viewOf sb s₂.disk inum inode₁) s₂ := by
  have changed := changed_chunk sound grown.owned inside present isBlock disk
  have block : (viewOf sb s₂.disk inum inode₁).fileBlock inum (off / bsize) = addr := by
    rw [changed.fileBlock (by rwa [isBlock]), isBlock]
  have some : n ≠ 0 := by
    have := chunk_le off n
    omega
  have left : off + n - off = n := by omega
  constructor
  · intro k mapped
    rw [view_chunk sound grown.owned inside present isBlock disk,
      addr_write grown.owned inside] at mapped
    exact (placed.only k mapped).imp id fun needs => .here some needs
  · exact fun _ absent => absurd (block ▸ absent) present
  · exact fun _ => .inl rfl
  · intro _ _
    rw [left]
    exact ⟨stopped,
      fun j early =>
        byte_chunk sound grown.owned inside present isBlock (le_of_lt stopped) disk early
      (readable_isSome early)⟩
  · rw [left]
    intro p low mapped outside
    exact ((grown.extends'.changed _ _).trans changed).bytes inum p low mapped fun _ => outside
  · rw [log]
    exact placed.logged.more
  · intro x unlogged
    rw [log] at unlogged
    rw [left, block, disk, placed.logged.same x unlogged |>.symm]
    by_cases last : x = addr
    · subst last
      exact .inr ⟨by omega, rfl, update_self ..⟩
    · exact .inl (update_of_ne last _ _)
  · intro _ absent _
    rw [block, log]
    exact placed.new present absent
  · intro _ mapped member
    rw [log] at member
    exact placed.old owned inside mapped member

theorem Placed.advanced_chunk {data : ByteSpace} {off' tot' : Nat} (some : n ≠ 0)
    (reached : off + chunk off n ≤ off') (bound : off + n ≤ maxFile * bsize)
    (disk : data = chunkData source (s₁.disk addr) off tot (chunk off n))
    (next : Advanced sb inum source (off + chunk off n) (n - chunk off n)
      (viewOf sb (s₁.wrote addr data).disk inum inode₁) (s₁.wrote addr data) tot' off' v' s') :
    Advanced sb inum source off n (viewOf sb s.disk inum inode) s tot' off' v' s' := by
  have isUpdate : (s₁.wrote addr data).disk =
      update s₁.disk addr (chunkData source (s₁.disk addr) off tot (chunk off n)) := by
    rw [← disk]
    rfl
  have changed := changed_chunk sound grown.owned inside present isBlock isUpdate
  have m_le := chunk_le off n
  have left : off + chunk off n + (n - chunk off n) = off + n := by omega
  have addr₁ : ∀ k, (viewOf sb (s₁.wrote addr data).disk inum inode₁).addr inum k =
      (viewOf sb s₁.disk inum inode₁).addr inum k := by
    intro k
    rw [view_chunk sound grown.owned inside present isBlock isUpdate, addr_write grown.owned inside]
  have later : off' < off + n → off' / bsize ≠ off / bsize ∧ off' / bsize < maxFile := by
    intro more
    refine ⟨fun same => ?_, Nat.div_lt_of_lt_mul (by rw [Nat.mul_comm]; omega)⟩
    have whole : chunk off n = bsize - off % bsize := by
      unfold chunk at reached ⊢
      omega
    have := Nat.div_add_mod off bsize
    have := Nat.mod_lt off' (by decide : 0 < bsize)
    have := Nat.div_add_mod off' bsize
    rw [same] at this
    omega
  have before : ∀ x, x ∉ s'.lh → (s₁.wrote addr data).disk x = s.disk x := by
    intro x unlogged
    exact (placed.logged.trans (.wrote ..)).same x fun early => unlogged (next.more x early)
  constructor
  · intro k mapped
    rcases next.only k mapped with early | spans
    · rw [addr₁] at early
      exact (placed.only k early).imp id fun needs => .here some needs
    · exact .inr (spans.later m_le)
  · intro more absent
    obtain ⟨full, k, spans, empty⟩ := next.full (by omega) absent
    exact ⟨full, k, spans.later m_le, empty⟩
  · intro more
    refine .inr ((next.aligned (by omega)).elim (fun here => ?_) id)
    have whole : chunk off n = bsize - off % bsize := by
      unfold chunk at reached ⊢
      omega
    have := Nat.mod_lt off (by decide : 0 < bsize)
    have boundary : off' = bsize * (off / bsize + 1) := by
      have := Nat.div_add_mod off bsize
      rw [Nat.mul_add, Nat.mul_one]
      omega
    rw [boundary, Nat.mul_mod_right]
  · rw [← left]
    exact next.failed
  · intro p low mapped outside
    have early := (grown.extends'.changed off (off + chunk off n)).trans changed
    rw [next.kept p low (by rwa [early.fileBlock mapped]) (by rw [left]; omega),
      early.bytes inum p low mapped fun _ => by omega]
  · intro x logged
    exact next.more x (mem_lh_wrote.mpr (.inl (placed.logged.more x logged)))
  · intro x unlogged
    have rest := next.logged x unlogged
    rwa [left, before x unlogged] at rest
  · intro more absent mapped
    refine next.new (by omega) ?_ mapped
    by_contra early
    rw [Volume.fileBlock, addr₁] at early
    rcases placed.only _ early with old | same | ⟨same, -⟩
    · exact old absent
    · exact (later more).1 (slotOf_injective same)
    · exact slotOf_ne_ndirect _ same
  · intro more mapped member
    have kept : (viewOf sb (s₁.wrote addr data).disk inum inode₁).fileBlock inum (off' / bsize) =
        (viewOf sb s.disk inum inode).fileBlock inum (off' / bsize) := by
      rw [Volume.fileBlock, addr₁]
      exact grown.extends'.fileBlock mapped
    have early := next.old (by omega) (by rwa [kept]) (by rwa [kept])
    rw [kept] at early
    rcases mem_lh_wrote.mp early with old | here
    · exact placed.old owned (later more).2 mapped old
    · -- the block just written is another one
      have same : (viewOf sb s₁.disk inum inode₁).addr inum (slotOf (off' / bsize)) =
          (viewOf sb s₁.disk inum inode₁).addr inum (slotOf (off / bsize)) := by
        rw [← addr₁]
        exact kept.trans (here.trans isBlock.symm)
      have slot := grown.owned.once inum _ inum _ (slotOf_lt (later more).2) (slotOf_lt inside)
        (by rwa [same, ← Volume.fileBlock, isBlock]) same
      exact absurd (slotOf_injective slot.2) (later more).1

end Placed

theorem writeBlocks_spec {fuel : Nat} (sound : sb.Sound)
    (owned : (viewOf sb s.disk inum inode).Owned sb.first sb.size (Used sb s.disk))
    (inUse : inode.type ≠ 0) (fits : inode.Fits) (bitmap : ∀ b < sb.size, sb.bblock b ∈ paid)
    (enough : n ≤ fuel) (short : off + n ≤ maxFile * bsize)
    (mapped : MappedBelow (viewOf sb s.disk inum inode) inum off)
    (pays : Pays allowed s paid (2 * spanned off n + k)) :
    Prog.Ensures allowed (writeBlocks sb source fuel inode off tot n) s fun r s' =>
      Wrote sb inum source off tot n s inode r.1.1 r.1.2 s' r.2 ∧
        (r.1.2 = off ∨ off + chunk off n ≤ r.1.2) ∧
        (∃ paid', paid ⊆ paid' ∧ Pays allowed s' paid' k) ∧
        Advanced sb inum source off n (viewOf sb s.disk inum inode) s r.1.1 r.1.2
          (viewOf sb s'.disk inum r.2) s' := by
  induction fuel generalizing s inode off tot n paid with
  | zero =>
    obtain rfl : n = 0 := by omega
    exact .pure
      ⟨(Grown.refl owned fits).wrote mapped, .inl rfl, ⟨paid, subset_rfl, pays.less (by omega)⟩,
      .nothing⟩
  | succ fuel ih =>
    unfold writeBlocks
    refine .ite (fun none => .pure ⟨(Grown.refl owned fits).wrote mapped, .inl rfl,
      ⟨paid, subset_rfl, pays.less (by omega)⟩, none ▸ .nothing⟩) fun more => ?_
    have inside : off / bsize < maxFile := Nat.div_lt_of_lt_mul (by rw [Nat.mul_comm]; omega)
    have cost : 2 * spanned off n + k =
        2 * spanned (off + chunk off n) (n - chunk off n) + k + 2 := by
      rw [spanned_chunk more]
      omega
    rw [cost] at pays
    refine .seq (bmap_placed sound owned inUse fits bitmap inside pays) ?_
    rintro ⟨addr, inode₁⟩ s₁ ⟨⟨grown, block, paid₁, more₁, isPaid, pays₁⟩, placed⟩
    change Placed sb inum (off / bsize) s inode addr s₁ inode₁ at placed
    have step₁ : Wrote sb inum source off tot n s inode tot off s₁ inode₁ := grown.wrote mapped
    refine .ite (fun none => .pure ⟨step₁, .inl rfl, ⟨paid₁, more₁, pays₁.less (by omega)⟩, ?_⟩)
      fun present => .bind (.of_eq rfl ?_)
    · obtain rfl : addr = 0 := none
      exact placed.advanced grown more
    change Grown sb inum s inode s₁ inode₁ at grown
    have isBlock : (viewOf sb s₁.disk inum inode₁).fileBlock inum (off / bsize) = addr :=
      block present
    have m_le := chunk_le off n
    have m_pos : 0 < chunk off n := chunk_pos (by omega)
    have readable_le := readable_le source tot (chunk off n)
    have chunkStep : ∀ s₂ m,
        s₂.disk = update s₁.disk addr
          (chunkData source (s₁.disk addr) off tot (readable source tot (chunk off n))) →
        SameTable s₁ s₂ →
        (m = 0 ∧ ¬ (∀ j, (source j).isSome) ∨ m = readable source tot (chunk off n) ∧
          ∀ j < readable source tot (chunk off n), (source (tot + j)).isSome) →
        off + m ≤ maxFile * bsize →
        Wrote sb inum source off tot n s₁ inode₁ (tot + m) (off + m) s₂ inode₁ :=
      fun s₂ m disk =>
        wrote_chunk sound grown.owned grown.fits inside present isBlock step₁.mapped readable_le
          disk
    refine .ite (fun stopped => .bind (.of_modify (.pure ?_))) fun whole =>
      .bind (logWrite_spec pays₁ ?_)
    · -- what was copied stays in the block, but does not count
      change readable source tot (chunk off n) < chunk off n at stopped
      have unreadable : ¬ ∀ j, (source j).isSome := by
        intro all
        have whole := readable_of_all tot (chunk off n) all
        omega
      refine ⟨step₁.trans (chunkStep _ 0 ?_ ⟨rfl, rfl, rfl⟩ (.inl ⟨rfl, unreadable⟩) (by omega))
        le_rfl,
        .inl rfl, ⟨paid₁, more₁, (pays₁.less (Nat.le_add_left k _)).congr rfl⟩, ?_⟩
      · rfl
      · exact placed.torn owned grown sound inside present isBlock rfl rfl stopped
    · have equal : readable source tot (chunk off n) = chunk off n := by
        change ¬ readable source tot (chunk off n) < chunk off n at whole
        omega
      have step₂ := chunkStep (s₁.wrote addr _) (chunk off n) rfl ⟨rfl, rfl, rfl⟩
        (.inr ⟨equal.symm, fun j early => readable_isSome early⟩) (by omega)
      refine (ih step₂.owned (by rwa [grown.type]) grown.fits
        (fun b below => more₁ (bitmap b below))
        (by omega) (by omega) step₂.mapped (pays₁.wrote (isPaid present) _)).mono ?_
      rintro ⟨⟨tot', off'⟩, inode'⟩ s' ⟨step₃, -, ⟨paid', more', pays'⟩, rest⟩
      refine ⟨(step₁.trans step₂ le_rfl).trans step₃ (by omega), .inr step₃.reached.1,
        ⟨paid', more₁.trans more', pays'⟩, ?_⟩
      have data : chunkData source (s₁.disk addr) off tot (readable source tot (chunk off n)) =
          chunkData source (s₁.disk addr) off tot (chunk off n) := by rw [equal]
      exact placed.advanced_chunk owned grown sound inside present isBlock more step₃.reached.1
        short data rest

end Wrote

/-! ## writei -/

structure Written (sb : Superblock) (inum : Nat) (source : Nat → Option UInt8) (off n off' : Nat)
    (s : Store) (inode : Dinode) (s' : Store) (inode' : Dinode) : Prop where
  synced : inode' = dinodeAt sb s'.disk inum
  others : ∀ i < sb.ninodes, i ≠ inum → dinodeAt sb s'.disk i = dinodeAt sb s.disk i
  same : SameTable s s'
  fields : { inode' with size := inode.size, addrs := inode.addrs } = inode
  size : inode'.size = max inode.size off'
  reached : off ≤ off' ∧ off' ≤ off + n
  owned : (volumeOf sb s'.disk).Owned sb.first sb.size (Used sb s'.disk)
  addr : ∀ i k, (volumeOf sb s.disk).addr i k ≠ 0 →
    (volumeOf sb s'.disk).addr i k = (volumeOf sb s.disk).addr i k
  othersAddr : ∀ i ≠ inum, ∀ k, (volumeOf sb s'.disk).addr i k = (volumeOf sb s.disk).addr i k
  mapped : MappedBelow (volumeOf sb s'.disk) inum off'
  kept : ∀ i p, p / bsize < maxFile → (volumeOf sb s.disk).fileBlock i (p / bsize) ≠ 0 →
    (i = inum → p < off ∨ off + n ≤ p) →
      (volumeOf sb s'.disk).byte i p = (volumeOf sb s.disk).byte i p
  bytes : ∀ j, off + j < off' → source j = some ((volumeOf sb s'.disk).byte inum (off + j))
  precise : (∀ j, (source j).isSome) → ∀ p, p / bsize < maxFile →
    (volumeOf sb s.disk).fileBlock inum (p / bsize) ≠ 0 → p < off ∨ off' ≤ p →
    (volumeOf sb s'.disk).byte inum p = (volumeOf sb s.disk).byte inum p

section

variable {source : Nat → Option UInt8} {off n off' tot' : Nat} (sound : sb.Sound)
  (inside : inum < sb.ninodes)

include sound inside

section Updated

variable (fits : inode''.Fits) (type : inode''.type = inode'.type)
  (addrs : inode''.addrs = inode'.addrs)

include fits

theorem volumeOf_updated (s' : Store) (inode' : Dinode) :
    volumeOf sb (s'.updated sb inum inode'').disk =
    (viewOf sb s'.disk inum inode').setInode inum inode'' := by
  rw [updated_disk, volumeOf_writeDinode sound.inodesBefore inside fits, viewOf, setInode_setInode]

include type addrs

theorem addr_updated (s' : Store) (i k : Nat) :
    (volumeOf sb (s'.updated sb inum inode'').disk).addr i k =
    (viewOf sb s'.disk inum inode').addr i k := by
  rw [volumeOf_updated sound inside fits s' inode']
  apply addr_setInode
  · rw [viewOf_inode, addrs]
  · rw [viewOf_inode, type]

theorem byte_updated (s' : Store) (i p : Nat) :
    (volumeOf sb (s'.updated sb inum inode'').disk).byte i p =
    (viewOf sb s'.disk inum inode').byte i p := by
  unfold Volume.byte Volume.fileBlock
  rw [addr_updated sound inside fits type addrs, volumeOf_updated sound inside fits s' inode']
  rfl

theorem Advanced.updated
    (advanced : Advanced sb inum source off n v s tot' off' (viewOf sb s'.disk inum inode') s')
    (place : ∀ bn < maxFile, v.fileBlock inum bn ≠ 0 → sb.first ≤ v.fileBlock inum bn)
    (short : off + n ≤ maxFile * bsize) :
    Advanced sb inum source off n v s tot' off' (volumeOf sb (s'.updated sb inum inode'').disk)
      (s'.updated sb inum inode'') := by
  have addr := addr_updated sound inside fits type addrs s'
  have byte := byte_updated sound inside fits type addrs s'
  have block : ∀ bn, (volumeOf sb (s'.updated sb inum inode'').disk).fileBlock inum bn =
      (viewOf sb s'.disk inum inode').fileBlock inum bn := fun bn => addr inum (slotOf bn)
  constructor
  · intro k mapped
    rw [addr] at mapped
    exact advanced.only k mapped
  · intro more absent
    rw [block] at absent
    obtain ⟨full, k, spans, empty⟩ := advanced.full more absent
    refine ⟨fun b below => ?_, k, spans, by rwa [addr]⟩
    rw [Used, updated_disk, usedAt_writeDinode sound _ inside]
    exact full b below
  · exact advanced.aligned
  · intro more present
    rw [block] at present
    obtain ⟨stopped, bytes⟩ := advanced.failed more present
    exact ⟨stopped, fun j early => by rw [byte]; exact bytes j early⟩
  · intro p low mapped outside
    rw [byte]
    exact advanced.kept p low mapped outside
  · exact fun x logged => mem_lh_wrote.mpr (.inl (advanced.more x logged))
  · intro x unlogged
    have early : x ∉ s'.lh := fun logged => unlogged (mem_lh_wrote.mpr (.inl logged))
    have same : (s'.updated sb inum inode'').disk x = s'.disk x := (Logged.wrote ..).same x unlogged
    rw [same, block]
    exact advanced.logged x early
  · intro more absent present
    rw [block] at present ⊢
    exact mem_lh_wrote.mpr (.inl (advanced.new more absent present))
  · intro more mapped member
    refine advanced.old more mapped ((mem_lh_wrote.mp member).resolve_right fun last => ?_)
    have := place (off' / bsize) (Nat.div_lt_of_lt_mul (by rw [Nat.mul_comm]; omega)) mapped
    have := sound.inodesBefore _ inside
    omega

end Updated

theorem Wrote.updated
    (wrote : Wrote sb inum source off 0 n s (dinodeAt sb s.disk inum) tot' off' s' inode')
    (small : off' < 2 ^ 32) (sized : inode'' = { inode' with size := max inode'.size off' }) :
    Written sb inum source off n off' s (dinodeAt sb s.disk inum) (s'.updated sb inum inode'')
      inode'' := by
  have fits : inode''.Fits := by
    rw [sized]
    exact { wrote.fits with size := max_lt wrote.fits.size small }
  have type : inode''.type = inode'.type := by rw [sized]
  have addrs : inode''.addrs = inode'.addrs := by rw [sized]
  have addr := addr_updated sound inside fits type addrs s'
  have byte := byte_updated sound inside fits type addrs s'
  have changed := wrote.changed
  have fields := changed.fields
  rw [viewOf_inode, viewOf_inode] at fields
  rw [viewOf_dinodeAt _ inside] at changed
  constructor
  · rw [updated_disk, dinodeAt_writeDinode fits, if_pos rfl]
  · intro i below other
    rw [updated_disk, dinodeAt_writeDinode fits, if_neg other, wrote.inodes i below]
  · exact wrote.same.trans (.wrote ..)
  · rw [sized]
    have resized :=
      congrArg (fun d : Dinode => { d with size := (dinodeAt sb s.disk inum).size }) fields
    exact resized
  · rw [sized]
    have size := congrArg Dinode.size fields
    change inode'.size = (dinodeAt sb s.disk inum).size at size
    rw [← size]
  · exact ⟨wrote.reached.1, wrote.reached.2.1⟩
  · refine Owned.of_used (wrote.owned.congr fun i k _ => addr i k) fun b below => ?_
    rw [Used, updated_disk, usedAt_writeDinode sound _ inside]
    rfl
  · intro i k present
    rw [addr, changed.addr i k present]
  · intro i other k
    rw [addr, changed.othersAddr i other k]
  · refine ⟨wrote.mapped.1, fun bn below => ?_⟩
    rw [Volume.fileBlock, addr]
    exact wrote.mapped.2 bn below
  · intro i p inside' present outside
    rw [byte, changed.bytes i p inside' present outside]
  · intro j below
    rw [byte, ← wrote.bytes j below, Nat.zero_add]
  · intro all p inside' present outside
    have changed := wrote.precise all
    rw [viewOf_dinodeAt _ inside] at changed
    rw [byte, changed.bytes inum p inside' present fun _ => outside]

/-- The test of `writei` on its arguments. -/
def Refused (size off n : Nat) : Prop :=
  size < off ∨ (off + n) % 2 ^ 32 < off ∨ maxFile * bsize < off + n

theorem writei_advanced (owned : (volumeOf sb s.disk).Owned sb.first sb.size (Used sb s.disk))
    (inUse : (dinodeAt sb s.disk inum).type ≠ 0) (holeFree : (volumeOf sb s.disk).HoleFree inum)
    (bitmap : ∀ b < sb.size, sb.bblock b ∈ paid) (isPaid : sb.iblock inum ∈ paid)
    (pays : Pays allowed s paid (2 * spanned off n + k)) :
    Prog.Ensures allowed (writei sb inum (dinodeAt sb s.disk inum) source off n) s fun r s' =>
      ((Refused (dinodeAt sb s.disk inum).size off n ∧ r = (-1, dinodeAt sb s.disk inum) ∧ s' = s) ∨
        ¬ Refused (dinodeAt sb s.disk inum).size off n ∧
        ∃ off', r.1 = ((off' - off : Nat) : Int) ∧ (off' = off ∨ off + chunk off n ≤ off') ∧
          Written sb inum source off n off' s (dinodeAt sb s.disk inum) s' r.2 ∧
          Advanced sb inum source off n (volumeOf sb s.disk) s (off' - off) off'
            (volumeOf sb s'.disk) s') ∧
      ∃ paid', paid ⊆ paid' ∧ Pays allowed s' paid' k := by
  have fits : (dinodeAt sb s.disk inum).Fits := loadDinode_fits _ _
  unfold writei
  refine .ite
    (fun outside => .pure ⟨.inl ⟨?_, rfl, rfl⟩, paid, subset_rfl, pays.less (Nat.le_add_left k _)⟩)
    fun within => ?_
  · exact outside.elim .inl fun overflow => .inr (.inl overflow)
  refine .ite
    (fun long =>
      .pure ⟨.inl ⟨.inr (.inr long), rfl, rfl⟩, paid, subset_rfl, pays.less (Nat.le_add_left k _)⟩)
    fun short => ?_
  have view : viewOf sb s.disk inum (dinodeAt sb s.disk inum) = volumeOf sb s.disk :=
    viewOf_dinodeAt _ inside
  have mapped : MappedBelow (viewOf sb s.disk inum (dinodeAt sb s.disk inum)) inum off := by
    rw [view]
    refine ⟨by omega, fun bn below => holeFree.2 bn ?_⟩
    rw [volumeOf_inode inside]
    omega
  rw [← view] at owned
  refine .seq (writeBlocks_spec sound owned inUse fits bitmap le_rfl (by omega) mapped pays) ?_
  rintro ⟨⟨tot', off'⟩, inode'⟩ s₁ ⟨wrote, progress, ⟨paid', more, pays'⟩, advanced⟩
  change Wrote sb inum source off 0 n s _ tot' off' s₁ inode' at wrote
  have limit : maxFile * bsize < 2 ^ 32 := by decide
  have reached := wrote.reached
  have total : tot' = off' - off := by omega
  have sized : (if inode'.size < off' then { inode' with size := off' } else inode') =
      { inode' with size := max inode'.size off' } := by
    split
    next grows => rw [max_eq_right (le_of_lt grows)]
    next stays => rw [max_eq_left (Nat.le_of_not_lt stays)]
  have fits' : { inode' with size := max inode'.size off' }.Fits :=
    { wrote.fits with size := max_lt wrote.fits.size (by omega) }
  change Prog.Ensures _
    (iupdate sb inum (if inode'.size < off' then { inode' with size := off' } else inode') >>= _) _
      _
  rw [sized]
  refine .bind (iupdate_spec pays' (.pure ⟨.inr ⟨?_, off', ?_, progress, ?_, ?_⟩, paid', more,
    pays'.updated (more isPaid) _⟩))
  · unfold Refused
    omega
  · change ((tot' : Nat) : Int) = _
    rw [total]
  · exact Wrote.updated sound inside wrote (by omega) rfl
  · change Advanced sb inum source off n _ s tot' off' _ s₁ at advanced
    rw [view, total] at advanced
    rw [view] at owned
    have type : { inode' with size := max inode'.size off' }.type = inode'.type := rfl
    have addrs : { inode' with size := max inode'.size off' }.addrs = inode'.addrs := rfl
    apply Advanced.updated sound inside fits' type addrs advanced ?_ (by omega)
    exact fun bn low present => (owned.fileBlock_place low present).1

end

end Xv6.Disk
