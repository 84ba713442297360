import Xv6.Fs.Layout
import Xv6.Library.Bytes

/-!
# Bytes on disk

Where `kernel/fs.h` puts inodes, bitmap bits and block addresses in the bytes of
a block.
-/

namespace Xv6.Disk

abbrev Blocks := Nat → ByteSpace

def zeroes : ByteSpace := fun _ => 0

/-- `struct superblock` after its magic number. -/
structure Superblock where
  size : Nat
  nblocks : Nat
  ninodes : Nat
  nlog : Nat
  logstart : Nat
  inodestart : Nat
  bmapstart : Nat
  deriving DecidableEq

def dinodeSize : Nat := 64
def ipb : Nat := bsize / dinodeSize
def bpb : Nat := bsize * 8
def nindirect : Nat := bsize / 4
def maxFile : Nat := ndirect + nindirect
def dirsiz : Nat := 14
def direntSize : Nat := 16
def fsMagic : Nat := 0x10203040

namespace Superblock

def iblock (sb : Superblock) (inum : Nat) : Nat := inum / ipb + sb.inodestart

def bblock (sb : Superblock) (b : Nat) : Nat := b / bpb + sb.bmapstart

def first (sb : Superblock) : Nat := sb.size - sb.nblocks

def store (sb : Superblock) : ByteSpace :=
  (ByteSpace.store zeroes 0 4 fsMagic)
    |>.store 4 4 sb.size |>.store 8 4 sb.nblocks |>.store 12 4 sb.ninodes |>.store 16 4 sb.nlog
    |>.store 20 4 sb.logstart |>.store 24 4 sb.inodestart |>.store 28 4 sb.bmapstart

def load (block : ByteSpace) : Superblock where
  size := block.load 4 4
  nblocks := block.load 8 4
  ninodes := block.load 12 4
  nlog := block.load 16 4
  logstart := block.load 20 4
  inodestart := block.load 24 4
  bmapstart := block.load 28 4

/-- The inode blocks come before the bitmap, and the bitmap before the data. -/
structure Sound (sb : Superblock) : Prop where
  inodes : ∀ inum, inum < sb.ninodes → sb.iblock inum < sb.bmapstart
  bitmap : ∀ b, b < sb.size → sb.bblock b < sb.first
  positive : 0 < sb.first
  small : sb.size < 2 ^ 31

end Superblock

end Xv6.Disk

namespace Xv6.Dinode

/-- `addrs[k]`, and zero beyond the array. -/
def addr (inode : Dinode) (k : Nat) : Nat :=
  if inside : k < ndirect + 1 then inode.addrs ⟨k, inside⟩ else 0

def setAddr (inode : Dinode) (k b : Nat) : Dinode :=
  { inode with addrs := fun i => if i.val = k then b else inode.addrs i }

/-- Every field has a value of its C type. -/
structure Fits (inode : Dinode) : Prop where
  type : inode.type < 2 ^ 16
  major : inode.major < 2 ^ 16
  minor : inode.minor < 2 ^ 16
  nlink : inode.nlink < 2 ^ 16
  size : inode.size < 2 ^ 32
  addrs : ∀ k, inode.addrs k < 2 ^ 32

theorem addr_setAddr (inode : Dinode) {k : Nat} (b k' : Nat) (inside : k < ndirect + 1) :
    (inode.setAddr k b).addr k' = if k' = k then b else inode.addr k' := by
  unfold addr setAddr
  by_cases bound : k' < ndirect + 1
  · simp [bound]
  · have other : k' ≠ k := by omega
    simp [bound, other]

@[simp] theorem setAddr_type (inode : Dinode) (k b : Nat) : (inode.setAddr k b).type = inode.type :=
  rfl

theorem Fits.setAddr {inode : Dinode} (fits : inode.Fits) {k b : Nat} (small : b < 2 ^ 32) :
    (inode.setAddr k b).Fits := by
  refine ⟨fits.type, fits.major, fits.minor, fits.nlink, fits.size, fun i => ?_⟩
  simp only [Dinode.setAddr]
  split
  · exact small
  · exact fits.addrs i

theorem Fits.zero : zero.Fits := by
  refine ⟨?_, ?_, ?_, ?_, ?_, fun _ => ?_⟩ <;> simp [Dinode.zero]

end Xv6.Dinode

namespace Xv6.Disk

/-! ## Inodes -/

def dinodeBytes (inode : Dinode) : ByteSpace := fun a =>
  if a < 12 then
    ((ByteSpace.store zeroes 0 2 inode.type) |>.store 2 2 inode.major |>.store 4 2 inode.minor
      |>.store 6 2 inode.nlink |>.store 8 4 inode.size) a
  else
    ByteSpace.words inode.addr (a - 12)

def loadDinode (block : ByteSpace) (slot : Nat) : Dinode where
  type := block.load (dinodeSize * slot) 2
  major := block.load (dinodeSize * slot + 2) 2
  minor := block.load (dinodeSize * slot + 4) 2
  nlink := block.load (dinodeSize * slot + 6) 2
  size := block.load (dinodeSize * slot + 8) 4
  addrs := fun k => block.load (dinodeSize * slot + (12 + 4 * k)) 4

def storeDinode (block : ByteSpace) (slot : Nat) (inode : Dinode) : ByteSpace :=
  block.blit (dinodeSize * slot) dinodeSize (dinodeBytes inode)

theorem loadDinode_fits (block : ByteSpace) (slot : Nat) : (loadDinode block slot).Fits := by
  refine ⟨?_, ?_, ?_, ?_, ?_, fun k => ?_⟩
  all_goals exact ByteSpace.load_lt _ _ _

theorem load_dinodeBytes_addr (inode : Dinode) (k : Fin (ndirect + 1)) :
    (dinodeBytes inode).load (12 + 4 * k) 4 = inode.addrs k % 2 ^ 32 := by
  have words : (dinodeBytes inode).load (12 + 4 * k) 4 =
      (ByteSpace.words inode.addr).load (4 * k) 4 := by
    rw [← ByteSpace.load_shift]
    refine ByteSpace.load_congr fun a _ _ => ?_
    simp only [dinodeBytes]
    rw [if_neg (by omega), Nat.add_sub_cancel_left]
  rw [words, ByteSpace.load_words]
  simp only [Dinode.addr, dif_pos k.isLt]
  rfl

theorem load_dinodeBytes_header (inode : Dinode) {addr width : Nat} (inside : addr + width ≤ 12) :
    (dinodeBytes inode).load addr width =
      ((ByteSpace.store zeroes 0 2 inode.type) |>.store 2 2 inode.major |>.store 4 2 inode.minor
        |>.store 6 2 inode.nlink |>.store 8 4 inode.size).load addr width := by
  refine ByteSpace.load_congr fun a _ _ => ?_
  simp only [dinodeBytes]
  rw [if_pos (by omega)]

theorem loadDinode_storeDinode (block : ByteSpace) (slot : Nat) {inode : Dinode}
    (fits : inode.Fits) : loadDinode (storeDinode block slot inode) slot = inode := by
  have field : ∀ addr width, addr + width ≤ dinodeSize →
      (storeDinode block slot inode).load (dinodeSize * slot + addr) width =
        (dinodeBytes inode).load addr width :=
    fun addr width inside => ByteSpace.load_blit_inside _ _ inside
  have start := field 0
  rw [Nat.add_zero] at start
  obtain ⟨type, major, minor, nlink, size, addrs⟩ := inode
  obtain ⟨type_lt, major_lt, minor_lt, nlink_lt, size_lt, addrs_lt⟩ := fits
  simp only [loadDinode, Dinode.mk.injEq]
  refine ⟨?_, ?_, ?_, ?_, ?_, ?_⟩
  · rw [start 2 (by decide), load_dinodeBytes_header _ (by decide)]
    iterate 4 rw [ByteSpace.load_store_disjoint _ _ (by decide)]
    rw [ByteSpace.load_store_same]
    exact Nat.mod_eq_of_lt type_lt
  · rw [field 2 2 (by decide), load_dinodeBytes_header _ (by decide)]
    iterate 3 rw [ByteSpace.load_store_disjoint _ _ (by decide)]
    rw [ByteSpace.load_store_same]
    exact Nat.mod_eq_of_lt major_lt
  · rw [field 4 2 (by decide), load_dinodeBytes_header _ (by decide)]
    iterate 2 rw [ByteSpace.load_store_disjoint _ _ (by decide)]
    rw [ByteSpace.load_store_same]
    exact Nat.mod_eq_of_lt minor_lt
  · rw [field 6 2 (by decide), load_dinodeBytes_header _ (by decide),
      ByteSpace.load_store_disjoint _ _ (by decide), ByteSpace.load_store_same]
    exact Nat.mod_eq_of_lt nlink_lt
  · rw [field 8 4 (by decide), load_dinodeBytes_header _ (by decide), ByteSpace.load_store_same]
    exact Nat.mod_eq_of_lt size_lt
  · funext k
    have inside : 12 + 4 * k.val + 4 ≤ dinodeSize := by
      have bound := k.isLt
      simp only [ndirect] at bound
      simp only [dinodeSize]
      omega
    rw [field (12 + 4 * k) 4 inside, load_dinodeBytes_addr]
    exact Nat.mod_eq_of_lt (addrs_lt k)

theorem loadDinode_storeDinode_ne (block : ByteSpace) {slot other : Nat} (inode : Dinode)
    (apart : other ≠ slot) :
    loadDinode (storeDinode block slot inode) other = loadDinode block other := by
  have field : ∀ addr width, addr + width ≤ dinodeSize →
      (storeDinode block slot inode).load (dinodeSize * other + addr) width =
        block.load (dinodeSize * other + addr) width := by
    intro addr width inside
    apply ByteSpace.load_blit_disjoint
    simp only [dinodeSize] at inside ⊢
    omega
  have start := field 0
  rw [Nat.add_zero] at start
  simp only [loadDinode, Dinode.mk.injEq]
  refine ⟨start 2 (by decide), field 2 2 (by decide), field 4 2 (by decide), field 6 2 (by decide),
    field 8 4 (by decide), ?_⟩
  funext k
  apply field
  have bound := k.isLt
  simp only [ndirect] at bound
  simp only [dinodeSize]
  omega

@[simp]
theorem load_zeroes (addr width : Nat) : zeroes.load addr width = 0 :=
  ByteSpace.load_zero addr width

theorem loadDinode_zeroes (slot : Nat) : loadDinode zeroes slot = Dinode.zero := by
  simp [loadDinode, Dinode.zero]

/-! ## The bitmap -/

def bit (block : ByteSpace) (bi : Nat) : Bool := (block (bi / 8)).toNat.testBit (bi % 8)

def mask (bi : Nat) : UInt8 := 1 <<< UInt8.ofNat (bi % 8)

def setBit (block : ByteSpace) (bi : Nat) : ByteSpace :=
  Function.update block (bi / 8) (block (bi / 8) ||| mask bi)

def clearBit (block : ByteSpace) (bi : Nat) : ByteSpace :=
  Function.update block (bi / 8) (block (bi / 8) &&& ~~~mask bi)

theorem toNat_mask_testBit (bi i : Nat) (inside : i < 8) :
    (mask bi).toNat.testBit i = decide (bi % 8 = i) := by
  have small : bi % 8 < 8 := Nat.mod_lt _ (by decide)
  unfold mask
  interval_cases bi % 8 <;> interval_cases i <;> decide

theorem bit_setBit (block : ByteSpace) (bi other : Nat) :
    bit (setBit block bi) other = (decide (other = bi) || bit block other) := by
  by_cases byte : other / 8 = bi / 8
  · have split : other = bi ↔ bi % 8 = other % 8 := by omega
    simp only [bit, setBit, byte, Function.update_self, UInt8.toNat_or, Nat.testBit_or,
      toNat_mask_testBit bi (other % 8) (Nat.mod_lt _ (by decide)), split]
    exact Bool.or_comm _ _
  · have apart : other ≠ bi := fun same => byte (by rw [same])
    simp [bit, setBit, Function.update_of_ne byte, apart]

/-! ## Directories -/

structure Dirent where
  inum : Nat
  name : List UInt8
  deriving DecidableEq

def Dirent.load (bytes : List UInt8) : Dirent where
  inum := ByteSpace.load (fun i => bytes.getD i 0) 0 2
  name := bytes.drop 2

/-- `strncpy` pads the name with zeros. -/
def Dirent.bytes (de : Dirent) (i : Nat) : UInt8 :=
  if i < 2 then ByteSpace.store zeroes 0 2 de.inum i else de.name.getD (i - 2) 0

end Xv6.Disk
