import Xv6.Disk.Volume

/-!
# The volume of a disk

The volume that the bytes of a disk describe, its bitmap, and what a write to one
block of the disk does to both.
-/

namespace Xv6.Disk

open Function

variable (sb : Superblock) (disk : Blocks)

def dinodeAt (inum : Nat) : Dinode := loadDinode (disk (sb.iblock inum)) (inum % ipb)

def usedAt (b : Nat) : Bool := bit (disk (sb.bblock b)) (b % bpb)

/-- Inodes beyond the last one count as free, and blocks before the data as
empty. -/
def volumeOf : Volume where
  inode i := if i < sb.ninodes then dinodeAt sb disk i else Dinode.zero
  block b := if sb.first ≤ b then disk b else zeroes

def writeDinode (inum : Nat) (inode : Dinode) : Blocks :=
  update disk (sb.iblock inum)
    (storeDinode (disk (sb.iblock inum)) (inum % ipb) inode)

def markUsed (b : Nat) : Blocks :=
  update disk (sb.bblock b) (setBit (disk (sb.bblock b)) (b % bpb))

variable {sb disk}

variable {i : Nat}

theorem volumeOf_inode (inside : i < sb.ninodes) :
    (volumeOf sb disk).inode i = dinodeAt sb disk i := if_pos inside

theorem volumeOf_inode_outside (outside : sb.ninodes ≤ i) :
    (volumeOf sb disk).inode i = Dinode.zero := if_neg (by omega)

variable {b : Nat}

theorem volumeOf_block (data : sb.first ≤ b) : (volumeOf sb disk).block b = disk b :=
  if_pos data

theorem volumeOf_block_outside (before : b < sb.first) : (volumeOf sb disk).block b = zeroes :=
  if_neg (by omega)

theorem volumeOf_fits (i : Nat) : ((volumeOf sb disk).inode i).Fits := by
  by_cases inside : i < sb.ninodes
  · rw [volumeOf_inode inside]
    exact loadDinode_fits _ _
  · rw [volumeOf_inode_outside (by omega)]
    exact Dinode.Fits.zero

theorem volumeOf_ext {disk' : Blocks}
    (inodes : ∀ i < sb.ninodes, dinodeAt sb disk' i = dinodeAt sb disk i)
    (blocks : ∀ b, sb.first ≤ b → disk' b = disk b) : volumeOf sb disk' = volumeOf sb disk := by
  simp only [volumeOf, Volume.mk.injEq]
  constructor
  · funext i
    by_cases inside : i < sb.ninodes
    · rw [if_pos inside, if_pos inside, inodes i inside]
    · rw [if_neg inside, if_neg inside]
  · funext b
    by_cases data : sb.first ≤ b
    · rw [if_pos data, if_pos data, blocks b data]
    · rw [if_neg data, if_neg data]

theorem dinodeAt_writeDinode {i i' : Nat} {inode : Dinode} (fits : inode.Fits) :
    dinodeAt sb (writeDinode sb disk i inode) i' =
      if i' = i then inode else dinodeAt sb disk i' := by
  unfold dinodeAt writeDinode
  by_cases block : sb.iblock i' = sb.iblock i
  · rw [block, update_self]
    have quotient : i' / ipb = i / ipb := by
      simp only [Superblock.iblock] at block
      omega
    by_cases same : i' = i
    · subst same
      rw [if_pos rfl, loadDinode_storeDinode _ _ fits]
    · have slot : i' % ipb ≠ i % ipb := by
        intro equal
        apply same
        rw [← Nat.div_add_mod i' ipb, ← Nat.div_add_mod i ipb, quotient, equal]
      rw [if_neg same, loadDinode_storeDinode_ne _ _ slot]
  · have other : i' ≠ i := fun same => block (by rw [same])
    rw [update_of_ne block, if_neg other]

/-- The blocks of the inodes are before the data. -/
def Superblock.InodesBefore (sb : Superblock) : Prop := ∀ i < sb.ninodes, sb.iblock i < sb.first

theorem volumeOf_update (before : sb.InodesBefore) (data : sb.first ≤ b) (bytes : ByteSpace) :
    volumeOf sb (update disk b bytes) = (volumeOf sb disk).setBlock b bytes := by
  simp only [volumeOf, Volume.setBlock, Volume.mk.injEq]
  constructor
  · funext i
    split
    next inside =>
      have := before i inside
      rw [dinodeAt, update_of_ne (by omega)]
      rfl
    next => rfl
  · funext b'
    by_cases same : b' = b
    · subst same
      rw [if_pos data, update_self, update_self]
    · rw [update_of_ne same, update_of_ne same]

theorem volumeOf_writeDinode {inode : Dinode} (before : sb.InodesBefore) (inside : i < sb.ninodes)
    (fits : inode.Fits) :
    volumeOf sb (writeDinode sb disk i inode) = (volumeOf sb disk).setInode i inode := by
  simp only [volumeOf, Volume.setInode, Volume.mk.injEq]
  constructor
  · funext i'
    by_cases same : i' = i
    · subst same
      rw [if_pos inside, dinodeAt_writeDinode fits, if_pos rfl, update_self]
    · rw [update_of_ne same, dinodeAt_writeDinode fits, if_neg same]
  · funext b
    split
    next data =>
      have := before i inside
      rw [writeDinode, update_of_ne (by omega)]
    next => rfl

section Sound

variable (sound : sb.Sound)

include sound

theorem Superblock.Sound.inodesBefore : sb.InodesBefore := by
  intro i inside
  have zero : sb.bblock 0 = sb.bmapstart := by simp [Superblock.bblock]
  have size : 0 < sb.size := by
    have := sound.positive
    unfold Superblock.first at this
    omega
  have := sound.inodes i inside
  have := sound.bitmap 0 size
  omega

theorem iblock_ne_bblock (b : Nat) (inside : i < sb.ninodes) : sb.iblock i ≠ sb.bblock b := by
  have := sound.inodes i inside
  have : sb.bmapstart ≤ sb.bblock b := Nat.le_add_left ..
  omega

theorem usedAt_update {b b' : Nat} (data : sb.first ≤ b) (below : b' < sb.size)
    (bytes : ByteSpace) : usedAt sb (update disk b bytes) b' = usedAt sb disk b' := by
  have := sound.bitmap b' below
  rw [usedAt, update_of_ne (by omega)]
  rfl

theorem usedAt_writeDinode (inode : Dinode) (inside : i < sb.ninodes) (b : Nat) :
    usedAt sb (writeDinode sb disk i inode) b = usedAt sb disk b := by
  rw [usedAt, writeDinode, update_of_ne (Ne.symm (iblock_ne_bblock sound b inside))]
  rfl

theorem volumeOf_bitmap (below : b < sb.size) (bytes : ByteSpace) :
    volumeOf sb (update disk (sb.bblock b) bytes) = volumeOf sb disk := by
  apply volumeOf_ext
  · intro i inside
    rw [dinodeAt, update_of_ne (iblock_ne_bblock sound b inside)]
    rfl
  · intro b' data
    have := sound.bitmap b below
    rw [update_of_ne (by omega)]

end Sound

theorem same_bit {b b' : Nat} (block : sb.bblock b' = sb.bblock b) :
    b' % bpb = b % bpb ↔ b' = b := by
  have quotient : b' / bpb = b / bpb := by
    simp only [Superblock.bblock] at block
    omega
  constructor
  · intro equal
    rw [← Nat.div_add_mod b' bpb, ← Nat.div_add_mod b bpb, quotient, equal]
  · rintro rfl
    rfl

theorem usedAt_markUsed (b b' : Nat) :
    usedAt sb (markUsed sb disk b) b' = (decide (b' = b) || usedAt sb disk b') := by
  unfold usedAt markUsed
  by_cases block : sb.bblock b' = sb.bblock b
  · rw [block, update_self, bit_setBit]
    simp only [same_bit block]
  · have other : b' ≠ b := fun same => block (by rw [same])
    rw [update_of_ne block]
    simp [other]

end Xv6.Disk
