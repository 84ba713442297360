import Xv6.Disk.Alloc

/-!
# Disks with one file

A family of small disks for the operations on files: inode 1 is a file or a directory
whose first `m` slots are filled, with the first `m` data blocks in their order. The
other inodes are empty files.
-/

namespace Xv6.Disk.OneFile

open Volume

variable {isDir : Bool} {content : ByteSpace} {m size : Nat}

def layout : Superblock where
  size := 337
  nblocks := 300
  ninodes := 64
  nlog := 30
  logstart := 2
  inodestart := 32
  bmapstart := 36

theorem layout_sound : layout.Sound where
  inodes inum inside := by
    change inum < 64 at inside
    change inum / 16 + 32 < 36
    omega
  bitmap b inside := by
    change b < 337 at inside
    change b / 8192 + 36 < 37
    omega
  positive := by decide
  small := by decide

def inode (isDir : Bool) (m size i : Nat) : Dinode :=
  if i = 0 then Dinode.zero
  else if i = 1 then
    { Dinode.zero with
      type := if isDir then typeDir else typeFile
      nlink := 1
      size := size
      addrs := fun k => if k.val < m then layout.first + k else 0 }
  else { Dinode.zero with type := typeFile, nlink := 1 }

def bitmap (m : Nat) : ByteSpace := fun i => UInt8.ofNat (2 ^ min 8 (layout.first + m - 8 * i) - 1)

/-- `content` is the first block of the file. -/
def image (isDir : Bool) (content : ByteSpace) (m size : Nat) : Blocks := fun b =>
  if layout.inodestart ≤ b ∧ b < layout.bmapstart then fun a =>
    dinodeBytes (inode isDir m size ((b - layout.inodestart) * ipb + a / dinodeSize))
      (a % dinodeSize)
  else if b = layout.bmapstart then bitmap m
  else if b = layout.first then content
  else if b = layout.first + ndirect then
    .words fun j => if ndirect + 1 + j < m then layout.first + (ndirect + 1 + j) else 0
  else zeroes

theorem inode_fits (small : size < 2 ^ 32) (i : Nat) : (inode isDir m size i).Fits := by
  unfold inode
  split
  · exact Dinode.Fits.zero
  split
  · refine ⟨?_, ?_, ?_, ?_, small, fun k => ?_⟩
    · change (if isDir then typeDir else typeFile) < 2 ^ 16
      split <;> decide
    iterate 3 norm_num [Dinode.zero]
    have := k.isLt
    change (if k.val < m then 37 + k.val else 0) < 2 ^ 32
    unfold ndirect at this
    split <;> omega
  · refine ⟨?_, ?_, ?_, ?_, ?_, fun _ => ?_⟩ <;> norm_num [Dinode.zero, typeFile]

theorem dinodeAt_image (small : size < 2 ^ 32) {i : Nat} (inside : i < layout.ninodes) :
    dinodeAt layout (image isDir content m size) i = inode isDir m size i := by
  change i < 64 at inside
  have block : layout.inodestart ≤ layout.iblock i ∧ layout.iblock i < layout.bmapstart := by
    change 32 ≤ i / 16 + 32 ∧ i / 16 + 32 < 36
    omega
  have stored : image isDir content m size (layout.iblock i) =
      storeDinode (image isDir content m size (layout.iblock i)) (i % ipb)
        (inode isDir m size i) := by
    funext a
    unfold storeDinode ByteSpace.blit
    split
    next here =>
      change 64 * (i % 16) ≤ a ∧ a < 64 * (i % 16) + 64 at here
      rw [image, if_pos block]
      change dinodeBytes (inode isDir m size ((i / 16 + 32 - 32) * 16 + a / 64)) (a % 64) =
        dinodeBytes _ (a - 64 * (i % 16))
      rw [show (i / 16 + 32 - 32) * 16 + a / 64 = i by omega,
        show a % 64 = a - 64 * (i % 16) by omega]
    next => rfl
  rw [dinodeAt, stored, loadDinode_storeDinode _ _ (inode_fits small i)]

theorem inode_image (small : size < 2 ^ 32) {i : Nat} (inside : i < layout.ninodes) :
    (volumeOf layout (image isDir content m size)).inode i = inode isDir m size i := by
  rw [volumeOf_inode inside, dinodeAt_image small inside]

theorem used_iff {b : Nat} (inside : b < layout.size) :
    Used layout (image isDir content m size) b ↔ b < layout.first + m := by
  have block : layout.bblock b = layout.bmapstart := by
    change b < 337 at inside
    change b / 8192 + 36 = 36
    omega
  have index : b % bpb = b := Nat.mod_eq_of_lt (lt_trans inside (by decide))
  have small : 2 ^ min 8 (layout.first + m - 8 * (b / 8)) - 1 < 2 ^ 8 := by
    have :=
      Nat.pow_le_pow_right (show 0 < 2 by decide)
        (Nat.min_le_left 8 (layout.first + m - 8 * (b / 8)))
    omega
  have byte : image isDir content m size (layout.bblock b) = bitmap m := by rw [block]; rfl
  rw [Used, usedAt, byte, index, bit, bitmap, UInt8.toNat_ofNat', Nat.mod_eq_of_lt small,
    Nat.testBit_two_pow_sub_one,
    decide_eq_true_eq]
  omega

section

variable (small : size < 2 ^ 32)

include small

theorem addr_file {k : Nat} (inside : k < slots) :
    (volumeOf layout (image isDir content m size)).addr 1 k =
      if k < m then layout.first + k else 0 := by
  have file : (volumeOf layout (image isDir content m size)).inode 1 = inode isDir m size 1 :=
    inode_image small (by decide)
  have inUse : ((volumeOf layout (image isDir content m size)).inode 1).type ≠ 0 := by
    rw [file]
    change (if isDir then typeDir else typeFile) ≠ 0
    split <;> decide
  have direct : ∀ k ≤ ndirect, (volumeOf layout (image isDir content m size)).addr 1 k =
      if k < m then layout.first + k else 0 := by
    intro k low
    rw [addr_direct inUse low, file, Dinode.addr, dif_pos (by omega)]
    rfl
  by_cases low : k ≤ ndirect
  · exact direct k low
  by_cases many : ndirect < m
  · have indirect := direct ndirect le_rfl
    rw [if_pos many] at indirect
    have index : ndirect + 1 + (k - (ndirect + 1)) = k := by omega
    rw [addr_entry (by omega) (by rw [indirect]; decide), indirect, volumeOf_block (by decide)]
    change (ByteSpace.words fun j =>
      if ndirect + 1 + j < m then layout.first + (ndirect + 1 + j) else 0).load _ 4 = _
    rw [ByteSpace.load_words, index, Nat.mod_eq_of_lt]
    have bound : k < 269 := inside
    change (if k < m then 37 + k else 0) < _
    split <;> omega
  · rw [addr_of_no_indirect (by omega) (by rw [direct ndirect le_rfl, if_neg many]),
      if_neg (by omega)]

theorem addr_other {i : Nat} (other : i ≠ 1) (k : Nat) :
    (volumeOf layout (image isDir content m size)).addr i k = 0 := by
  refine addr_blank (fun j => ?_) k
  by_cases inside : i < layout.ninodes
  · rw [inode_image small inside, inode, if_neg other]
    split_ifs <;> rfl
  · rw [volumeOf_inode_outside (by omega)]
    rfl

theorem addr_cases {i k : Nat} (inside : k < slots)
    (present : (volumeOf layout (image isDir content m size)).addr i k ≠ 0) :
    i = 1 ∧ k < m ∧ (volumeOf layout (image isDir content m size)).addr i k = layout.first + k := by
  have isFile : i = 1 := by
    by_contra other
    exact present (addr_other small other k)
  subst isFile
  rw [addr_file small inside] at present ⊢
  split
  next filled => exact ⟨rfl, filled, rfl⟩
  next empty => exact absurd (if_neg empty) present

theorem owned (few : m ≤ slots) :
    (volumeOf layout (image isDir content m size)).Owned layout.first layout.size
      (Used layout (image isDir content m size)) where
  place i k inside present := by
    obtain ⟨-, filled, isBlock⟩ := addr_cases small inside present
    rw [isBlock]
    have bound : k < 269 := inside
    change 37 ≤ 37 + k ∧ 37 + k < 337
    omega
  once i k i' k' inside inside' present same := by
    obtain ⟨rfl, -, isBlock⟩ := addr_cases small inside present
    obtain ⟨rfl, -, isBlock'⟩ := addr_cases small inside' (same ▸ present)
    exact ⟨rfl, by omega⟩
  used b inside := by
    rw [used_iff inside]
    constructor
    · intro below
      by_cases early : b < layout.first
      · exact .inl early
      · have slot : b - layout.first < slots := by omega
        refine .inr ⟨1, b - layout.first, slot, ?_⟩
        rw [addr_file small slot, if_pos (by omega)]
        omega
    · rintro (early | ⟨i, k, slot, isBlock⟩)
      · omega
      · by_cases absent : (volumeOf layout (image isDir content m size)).addr i k = 0
        · have : 0 < layout.first := by decide
          omega
        · obtain ⟨-, filled, isBlock'⟩ := addr_cases small slot absent
          omega

theorem hole_free (limit : size ≤ maxFile * bsize)
    (filled : ∀ bn, bn * bsize < size → slotOf bn < m) :
    (volumeOf layout (image isDir content m size)).HoleFree 1 := by
  rw [Volume.HoleFree, inode_image small (show 1 < 64 by decide)]
  refine ⟨limit, fun bn below => ?_⟩
  have inside : bn < maxFile := Nat.lt_of_mul_lt_mul_right (lt_of_lt_of_le below limit)
  rw [Volume.fileBlock, addr_file small (slotOf_lt inside), if_pos (filled bn below)]
  change 37 + slotOf bn ≠ 0
  omega

end

abbrev disk (m size : Nat) : Blocks := image false zeroes m size

theorem hole_free_fiveBytes : (volumeOf layout (disk 1 5)).HoleFree 1 := by
  refine hole_free (by decide) (by decide) fun bn below => ?_
  have : bn * 1024 < 5 := below
  obtain rfl : bn = 0 := by omega
  decide

def store (m size : Nat) : Store := ⟨disk m size, [], 1, fun _ => ⟨0, false, false, Dinode.zero⟩, 0⟩

end Xv6.Disk.OneFile
