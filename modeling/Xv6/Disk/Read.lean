import Xv6.Disk.Extend
import Xv6.Disk.Inode

/-!
# Reading

On a file without holes `readi` changes nothing, and what it copies are the bytes of
the file.
-/

namespace Xv6.Disk

open List
open Volume

variable {sb : Superblock} {s : Store} {inum : Nat} {inode : Dinode}

/-- What the disk holds when the inode in memory is `inode`. -/
def viewOf (sb : Superblock) (disk : Blocks) (inum : Nat) (inode : Dinode) : Volume :=
  (volumeOf sb disk).setInode inum inode

@[simp] theorem viewOf_inode (disk : Blocks) : (viewOf sb disk inum inode).inode inum = inode :=
  setInode_inode_same inum inode

theorem viewOf_self (disk : Blocks) :
    viewOf sb disk inum ((volumeOf sb disk).inode inum) = volumeOf sb disk := by
  unfold viewOf Volume.setInode
  rw [Function.update_eq_self]

theorem viewOf_dinodeAt (disk : Blocks) (inside : inum < sb.ninodes) :
    viewOf sb disk inum (dinodeAt sb disk inum) = volumeOf sb disk := by
  rw [← volumeOf_inode inside, viewOf_self]

theorem viewOf_block {disk : Blocks} {b : Nat} (data : sb.first ≤ b) :
    (viewOf sb disk inum inode).block b = disk b := volumeOf_block data

theorem chunk_pos {off n : Nat} (positive : 0 < n) : 0 < chunk off n := by
  have := Nat.mod_lt off (by decide : 0 < bsize)
  unfold chunk
  omega

theorem chunk_le (off n : Nat) : chunk off n ≤ n := Nat.min_le_left ..

theorem chunk_fits (off n : Nat) : off % bsize + chunk off n ≤ bsize := by
  have := Nat.mod_lt off (by decide : 0 < bsize)
  unfold chunk
  omega

theorem chunk_div {off n j : Nat} (inside : j < chunk off n) : (off + j) / bsize = off / bsize ∧
    (off + j) % bsize = off % bsize + j := by
  have fits := chunk_fits off n
  have split := Nat.div_add_mod off bsize
  have quotient : (off + j) / bsize = off / bsize := by
    rw [Nat.div_eq_iff (by decide)]
    constructor
    · have := Nat.mul_comm (off / bsize) bsize
      omega
    · have := Nat.mul_comm (off / bsize) bsize
      omega
  refine ⟨quotient, ?_⟩
  have split' := Nat.div_add_mod (off + j) bsize
  rw [quotient] at split'
  omega

theorem bmap_mapped {bn : Nat} (inside : bn < maxFile)
    (present : (viewOf sb s.disk inum inode).fileBlock inum bn ≠ 0) :
    bmap sb inode bn s = .ok (((viewOf sb s.disk inum inode).fileBlock inum bn, inode), s) := by
  have type : ((viewOf sb s.disk inum inode).inode inum).type ≠ 0 :=
    fun free => present (addr_of_free free _)
  by_cases direct : bn < ndirect
  · have slot : slotOf bn = bn := if_pos direct
    have address : (viewOf sb s.disk inum inode).fileBlock inum bn = inode.addr bn := by
      rw [Volume.fileBlock, slot, addr_direct type (le_of_lt direct), viewOf_inode]
    rw [address] at present ⊢
    rw [bmap, if_pos direct, if_neg present]
    rfl
  · have slot : slotOf bn = bn + 1 := if_neg direct
    have indirect : (viewOf sb s.disk inum inode).addr inum ndirect = inode.addr ndirect := by
      rw [addr_direct type le_rfl, viewOf_inode]
    have hasIndirect : inode.addr ndirect ≠ 0 := by
      rw [← indirect]
      intro absent
      apply present
      rw [Volume.fileBlock, slot]
      exact addr_of_no_indirect (by omega) absent
    have index : bn + 1 - (ndirect + 1) = bn - ndirect := by omega
    have load : (viewOf sb s.disk inum inode).fileBlock inum bn =
        ((viewOf sb s.disk inum inode).block (inode.addr ndirect)).load (4 * (bn - ndirect)) 4 := by
      rw [Volume.fileBlock, slot, addr_entry (by omega) (by rwa [indirect]), indirect, index]
    -- a block before the data would be empty
    have place : sb.first ≤ inode.addr ndirect := by
      by_contra before
      have empty : (viewOf sb s.disk inum inode).block (inode.addr ndirect) = zeroes :=
        if_neg before
      rw [load, empty, load_zeroes] at present
      exact present rfl
    have entry : (viewOf sb s.disk inum inode).fileBlock inum bn =
        (s.disk (inode.addr ndirect)).load (4 * (bn - ndirect)) 4 := by
      rw [load, viewOf_block place]
    have bound : bn - ndirect < nindirect := by
      unfold maxFile at inside
      omega
    rw [entry] at present ⊢
    have found : bmapEntry sb (inode.addr ndirect) (bn - ndirect) s =
        .ok ((s.disk (inode.addr ndirect)).load (4 * (bn - ndirect)) 4, s) := by
      unfold bmapEntry
      rw [Prog.bind_ok
        (show bread (inode.addr ndirect) s = .ok (s.disk (inode.addr ndirect), s) from rfl),
        if_neg present]
      rfl
    rw [bmap, if_neg direct, if_pos bound, if_neg hasIndirect, Prog.bind_ok found]
    rfl

def MappedBelow (v : Volume) (i limit : Nat) : Prop :=
  limit ≤ maxFile * bsize ∧ ∀ bn, bn * bsize < limit → v.fileBlock i bn ≠ 0

theorem MappedBelow.block {v : Volume} {i limit off : Nat} (mapped : MappedBelow v i limit)
    (below : off < limit) : off / bsize < maxFile ∧ v.fileBlock i (off / bsize) ≠ 0 := by
  constructor
  · have := mapped.1
    exact Nat.div_lt_of_lt_mul (by rw [Nat.mul_comm]; omega)
  · apply mapped.2
    have := Nat.div_mul_le_self off bsize
    omega

def Volume.bytes (v : Volume) (i off n : Nat) : List UInt8 :=
  (range n).map fun j => v.byte i (off + j)

@[simp] theorem Volume.length_bytes (v : Volume) (i off n : Nat) :
    (v.bytes i off n).length = n := by
  simp [Volume.bytes]

@[simp] theorem Volume.bytes_zero (v : Volume) (i off : Nat) : v.bytes i off 0 = [] := rfl

theorem Volume.bytes_add (v : Volume) (i off m n : Nat) :
    v.bytes i off (m + n) = v.bytes i off m ++ v.bytes i (off + m) n := by
  simp only [Volume.bytes, range_add, map_append, map_map, Function.comp_def, Nat.add_assoc]

/-- How many bytes `readi` is asked for: none if `off` is past the end, or if the
sum of `off` and `n` overflows. -/
def readSpan (size off n : Nat) : Nat :=
  if size < off ∨ (off + n) % 2 ^ 32 < off then 0 else min n (size - off)

def Volume.dirent (v : Volume) (i k : Nat) : Dirent :=
  Dirent.load (v.bytes i (direntSize * k) direntSize)

/-- What a scan of the entries of a directory from index `k` on finds: the first
that passes the test. -/
def Scanned (v : Volume) (i : Nat) (test : Dirent → Bool) (k : Nat) : Option (Dirent × Nat) → Prop
  | some (de, off) => ∃ j, k ≤ j ∧ off = direntSize * j ∧ direntSize * (j + 1) ≤ (v.inode i).size ∧
      de = v.dirent i j ∧ test de = true ∧ ∀ j', k ≤ j' → j' < j → test (v.dirent i j') = false
  | none => ((v.inode i).size ≤ direntSize * k ∨ (v.inode i).size % direntSize = 0) ∧
      ∀ j, k ≤ j → direntSize * (j + 1) ≤ (v.inode i).size → test (v.dirent i j) = false

theorem Scanned.step {v : Volume} {i k : Nat} {test : Dirent → Bool} {found : Option (Dirent × Nat)}
    (scanned : Scanned v i test (k + 1) found) (failed : test (v.dirent i k) = false)
    (whole : direntSize * (k + 1) ≤ (v.inode i).size) : Scanned v i test k found := by
  cases found with
  | none =>
    obtain ⟨ends, scanned⟩ := scanned
    refine ⟨.inr (ends.elim (fun last => ?_) id), fun j from' inside => ?_⟩
    · rw [Nat.le_antisymm last whole, Nat.mul_mod_right]
    rcases Nat.eq_or_lt_of_le from' with rfl | later
    · exact failed
    · exact scanned j later inside
  | some result =>
    obtain ⟨j, from', off, inside, entry, passed, before⟩ := scanned
    refine ⟨j, by omega, off, inside, entry, passed, fun j' from'' earlier => ?_⟩
    rcases Nat.eq_or_lt_of_le from'' with rfl | later
    · exact failed
    · exact before j' later earlier

theorem readSpan_dirent {size off : Nat} (small : size ≤ maxFile * bsize) (below : off < size) :
    readSpan size off direntSize = min direntSize (size - off) := by
  have limit : maxFile * bsize + direntSize < 2 ^ 32 := by decide
  rw [readSpan, if_neg]
  omega

section

variable {first' : Nat} {used : Nat → Prop}
  (owned : (viewOf sb s.disk inum inode).Owned sb.first first' used)

include owned

variable {writable : Nat → Bool}

theorem readBlocks_spec {fuel off tot n : Nat} {copied : List UInt8} (enough : n ≤ fuel)
    (mapped : MappedBelow (viewOf sb s.disk inum inode) inum (off + n)) :
    Prog.Returns (readBlocks sb writable fuel inode off tot n copied) s fun r s' =>
      s' = s ∧ r.2 = inode ∧ ((∀ k, writable k = true) →
        r.1 =
          (((tot + n : Nat) : Int), copied ++ (viewOf sb s.disk inum inode).bytes inum off n)) := by
  induction fuel generalizing off tot n copied with
  | zero =>
    obtain rfl : n = 0 := by omega
    exact .pure ⟨rfl, rfl, fun _ => by simp⟩
  | succ fuel ih =>
    unfold readBlocks
    refine .ite (fun none => .pure ⟨rfl, rfl, fun _ => by simp [none]⟩) fun some => ?_
    obtain ⟨inside, present⟩ := mapped.block (show off < off + n by omega)
    have place := owned.fileBlock_place inside present
    refine .bind (.of_eq (bmap_mapped inside present) ?_)
    refine .ite (fun absent => absurd absent present) fun _ => .bind (.of_eq rfl ?_)
    have m_le := chunk_le off n
    have m_pos : 0 < chunk off n := chunk_pos (by omega)
    refine .ite (fun short => .pure ⟨rfl, rfl, fun all => ?_⟩) fun _ => ?_
    · exfalso
      have whole : (range (chunk off n)).takeWhile (fun i => writable (tot + i)) =
          range (chunk off n) := takeWhile_eq_self_iff.mpr fun i _ => all _
      rw [whole, length_range] at short
      omega
    · have rest : MappedBelow (viewOf sb s.disk inum inode) inum
          (off + chunk off n + (n - chunk off n)) := by
        have same : off + chunk off n + (n - chunk off n) = off + n := by omega
        rwa [same]
      refine (ih (by omega) rest).mono ?_
      rintro r s' ⟨same, sameInode, bytes⟩
      refine ⟨same, sameInode, fun all => ?_⟩
      have whole : (range (chunk off n)).takeWhile (fun i => writable (tot + i)) =
          range (chunk off n) := takeWhile_eq_self_iff.mpr fun i _ => all _
      have byteOf : (range (chunk off n)).map (fun i =>
          s.disk ((viewOf sb s.disk inum inode).fileBlock inum (off / bsize)) (off % bsize + i)) =
            (viewOf sb s.disk inum inode).bytes inum off (chunk off n) := by
        refine map_congr_left fun j member => ?_
        obtain ⟨quotient, remainder⟩ := chunk_div (mem_range.mp member)
        rw [Volume.byte, quotient, remainder, viewOf_block place.1]
      have total : tot + chunk off n + (n - chunk off n) = tot + n := by omega
      have split : n = chunk off n + (n - chunk off n) := by omega
      rw [bytes all, whole, byteOf, total, append_assoc, ← Volume.bytes_add, ← split]

theorem readi_spec {off n : Nat}
    (mapped : MappedBelow (viewOf sb s.disk inum inode) inum (min (off + n) inode.size)) :
    Prog.Returns (readi sb inode writable off n) s fun r s' =>
      s' = s ∧ r.2 = inode ∧ ((∀ k, writable k = true) → r.1 =
        (((readSpan inode.size off n : Nat) : Int),
          (viewOf sb s.disk inum inode).bytes inum off (readSpan inode.size off n))) := by
  unfold readi readSpan
  by_cases outside : inode.size < off ∨ (off + n) % 2 ^ 32 < off
  · rw [if_pos outside, if_pos outside]
    exact .pure ⟨rfl, rfl, fun _ => rfl⟩
  · rw [if_neg outside, if_neg outside]
    have span : (if inode.size < off + n then inode.size - off else n) =
        min n (inode.size - off) := by
      split <;> omega
    rw [span]
    have limit : off + min n (inode.size - off) = min (off + n) inode.size := by omega
    refine (readBlocks_spec owned le_rfl (by rwa [limit])).mono ?_
    rintro r s' ⟨same, sameInode, bytes⟩
    refine ⟨same, sameInode, fun all => ?_⟩
    rw [bytes all, Nat.zero_add, nil_append]

/-- The scan visits the entries in their order up to the first that passes the
test, or up to the end. It fails only if the last entry is not whole. -/
theorem scanDirents_spec {panic : Panic} {test : Dirent → Bool} {fuel k : Nat}
    (small : inode.size ≤ maxFile * bsize) (enough : inode.size < fuel + direntSize * k)
    (reached : ∀ j, k ≤ j →
      (∀ j', k ≤ j' → j' < j → test ((viewOf sb s.disk inum inode).dirent inum j') = false) →
      direntSize * j < inode.size →
      MappedBelow (viewOf sb s.disk inum inode) inum (min (direntSize * (j + 1)) inode.size)) :
    Prog.Ensures (fun stop => stop = ⟨panic, s.lh⟩ ∧ inode.size % direntSize ≠ 0)
      (scanDirents sb panic test fuel inode (direntSize * k)) s fun r s' =>
        s' = s ∧ r.2 = inode ∧ Scanned (viewOf sb s.disk inum inode) inum test k r.1 := by
  have width : direntSize = 16 := rfl
  induction fuel generalizing k with
  | zero =>
    refine .pure ⟨rfl, rfl, .inl ?_, fun j from' inside => ?_⟩
    · rw [viewOf_inode]
      omega
    · rw [viewOf_inode] at inside
      rw [width] at *
      omega
  | succ fuel ih =>
    unfold scanDirents
    refine .ite (fun finished => .pure ⟨rfl, rfl, .inl ?_, fun j from' inside => ?_⟩) fun more => ?_
    · rwa [viewOf_inode]
    · rw [viewOf_inode] at inside
      rw [width] at *
      omega
    · have below : direntSize * k < inode.size := by omega
      have next : direntSize * (k + 1) = direntSize * k + direntSize := by ring
      have here := reached k le_rfl (fun j' from' before => by omega) below
      rw [next] at here
      refine .seq (.of_returns (readi_spec owned here)) ?_
      rintro ⟨⟨r, bytes⟩, inode'⟩ s' ⟨same, sameInode, result⟩
      obtain rfl : s = s' := same.symm
      obtain rfl : inode = inode' := sameInode.symm
      obtain ⟨rfl, rfl⟩ := Prod.mk.inj (result fun _ => rfl)
      rw [readSpan_dirent small below]
      by_cases whole : direntSize ≤ inode.size - direntSize * k
      · rw [Nat.min_eq_left whole]
        refine .ite (fun short => absurd rfl short) fun _ => ?_
        refine .ite (fun found => .pure ⟨rfl, rfl, k, le_rfl, rfl, ?_, rfl, found, ?_⟩) fun other =>
          ?_
        · rw [viewOf_inode, next]
          omega
        · intro j' from' before
          omega
        · have failed : test ((viewOf sb s.disk inum inode).dirent inum k) = false :=
            Bool.eq_false_iff.mpr other
          have rest := ih (k := k + 1) (by rw [width] at *; omega) fun j from' before inside => by
            refine reached j (by omega) (fun j' from' before' => ?_) inside
            rcases Nat.eq_or_lt_of_le from' with rfl | later
            · exact failed
            · exact before j' later before'
          rw [next] at rest
          refine rest.mono ?_
          rintro r s' ⟨same, sameInode, scanned⟩
          exact ⟨same, sameInode, scanned.step failed (by rw [viewOf_inode, next]; omega)⟩
      · -- the bytes left are less than an entry
        refine .ite (fun _ => .bind (.get (.throw ⟨rfl, ?_⟩))) fun whole' => ?_
        · rw [width] at *
          omega
        · exfalso
          rw [Nat.min_eq_right (by omega)] at whole'
          omega

def Dirent.named (name : List UInt8) (de : Dirent) : Bool := de.inum ≠ 0 ∧ namecmp name de.name

theorem findDirent_found {name : List UInt8} {j : Nat} (isDir : inode.type = typeDir)
    (small : inode.size ≤ maxFile * bsize) (whole : inode.size % direntSize = 0)
    (mapped : MappedBelow (viewOf sb s.disk inum inode) inum (direntSize * (j + 1)))
    (inside : direntSize * (j + 1) ≤ inode.size)
    (passes : Dirent.named name ((viewOf sb s.disk inum inode).dirent inum j) = true)
    (earlier : ∀ j' < j, Dirent.named name ((viewOf sb s.disk inum inode).dirent inum j') = false) :
    findDirent sb inode name s =
      .ok
        ((some (((viewOf sb s.disk inum inode).dirent inum j).inum, direntSize * j), inode),
          s) := by
  have reached : ∀ j', 0 ≤ j' → (∀ j'', 0 ≤ j'' → j'' < j' →
      Dirent.named name ((viewOf sb s.disk inum inode).dirent inum j'') = false) →
      direntSize * j' < inode.size →
      MappedBelow (viewOf sb s.disk inum inode) inum (min (direntSize * (j' + 1)) inode.size) := by
    intro j' _ before _
    have notPast : j' ≤ j := by
      by_contra later
      rw [before j (Nat.zero_le j) (by omega)] at passes
      exact absurd passes (by decide)
    have : direntSize * (j' + 1) ≤ direntSize * (j + 1) := Nat.mul_le_mul_left _ (by omega)
    exact ⟨by omega, fun bn low => mapped.2 bn (by omega)⟩
  have scan : Prog.Ensures (fun stop => stop = ⟨.dirlookupRead, s.lh⟩ ∧ inode.size % direntSize ≠ 0)
      (scanDirents sb .dirlookupRead (Dirent.named name) (inode.size + 1) inode (direntSize * 0)) s
        _ :=
    scanDirents_spec owned small (by omega) reached
  have returns := Prog.Returns.exists (scan.imp fun _ short => short.2 whole)
  obtain ⟨⟨found, inode'⟩, s', run, same, sameInode, scanned⟩ := returns
  obtain rfl : s = s' := same.symm
  obtain rfl : inode = inode' := sameInode.symm
  cases found with
  | none =>
    have := scanned.2 j (Nat.zero_le j) (by rwa [viewOf_inode])
    rw [passes] at this
    exact absurd this (by decide)
  | some result =>
    obtain ⟨de, off⟩ := result
    obtain ⟨j', -, rfl, -, rfl, passed, before⟩ := scanned
    have same : j' = j := by
      rcases Nat.lt_trichotomy j' j with less | same | more
      · rw [earlier j' less] at passed
        exact absurd passed (by decide)
      · exact same
      · rw [before j (Nat.zero_le j) more] at passes
        exact absurd passes (by decide)
    subst same
    rw [findDirent, if_neg (not_not_intro isDir)]
    exact Prog.bind_ok run

end

end Xv6.Disk
