import Xv6.Disk.Alloc
import Xv6.Disk.Dirent
import Xv6.Mkfs.Finish

/-!
# The image and the kernel

On an image that `mkfs` has made, the kernel finds every file by its name and reads
its bytes, and the first block that it allocates belongs to no file.
-/

namespace Xv6.Mkfs

open List
open Function
open Xv6.Disk Xv6.Disk.Volume

variable {s₀ : State} {args : List Arg}

/-! ## The volume that the kernel sees -/

section

variable (built : Built args s₀) (few : args.length ≤ 198)

include built few

/-- The kernel knows of fewer inodes than there is room for, but the others are
free. -/
theorem Built.volumeOf_kernel :
    volumeOf superblock (finish s₀) =
      (volumeOf wide s₀.image).setInode rootIno (rounded s₀.image) := by
  have inodes : (volumeOf superblock (finish s₀)).inode =
      ((volumeOf wide s₀.image).setInode rootIno (rounded s₀.image)).inode := by
    funext i
    by_cases inside : i < superblock.ninodes
    · exact inode_finish (by decide) inside
    · have freeinode := built.freeinode
      change ¬ i < 200 at inside
      rw [volumeOf_inode_outside (Nat.le_of_not_lt inside),
        setInode_inode_ne _ (by unfold rootIno; omega),
        (built.holds.free i (by omega)).1]
  exact congrArg₂ Volume.mk inodes (@block_finish s₀ superblock.ninodes)

theorem Built.addr_kernel (i k : Nat) :
    (volumeOf superblock (finish s₀)).addr i k = (volumeOf wide s₀.image).addr i k := by
  rw [built.volumeOf_kernel few]
  apply addr_setInode
  · rw [inode_root]
    rfl
  · rw [inode_root]
    rfl

theorem Built.owned_kernel :
    (volumeOf superblock (finish s₀)).Owned superblock.first superblock.size (· < s₀.freeblock) :=
  built.holds.good.owned.congr fun i k _ => built.addr_kernel few i k

theorem Built.filled_kernel {i : Nat} (low : 1 ≤ i) (high : i < s₀.freeinode) :
    Filled (volumeOf superblock (finish s₀)) i (textOf args i) := by
  refine (built.holds.filled i low high).congr (built.addr_kernel few i) fun off _ => ?_
  unfold Volume.byte Volume.fileBlock
  rw [built.addr_kernel few, built.volumeOf_kernel few]
  rfl

end

/-! ## The root directory -/

def rootEntries (args : List Arg) : List Dirent :=
  ⟨rootIno, [46]⟩ :: ⟨rootIno, [46, 46]⟩ :: (args.zipIdx 2).map fun (arg, inum) =>
    ⟨inum, entryName arg⟩

theorem rootText_eq (args : List Arg) : rootText args = (rootEntries args).flatMap direntBytes := by
  simp [rootText, rootEntries, entries, flatMap_map]

theorem length_rootEntries (args : List Arg) : (rootEntries args).length = args.length + 2 := by
  simp [rootEntries]

variable {arg : Arg} {k : Nat}

theorem rootEntries_file (isArg : args[k]? = some arg) :
    (rootEntries args)[k + 2]? = some ⟨k + 2, entryName arg⟩ := by
  simp [rootEntries, getElem?_zipIdx, isArg, Nat.add_comm]

variable {de : Dirent}

theorem getElem?_flatMap_direntBytes {des : List Dirent} {k j : Nat}
    (isEntry : des[k]? = some de) (inside : j < direntSize) :
    (des.flatMap direntBytes)[direntSize * k + j]? = (direntBytes de)[j]? := by
  induction des generalizing k with
  | nil => simp at isEntry
  | cons first des ih =>
    rw [flatMap_cons]
    cases k with
    | zero =>
      obtain rfl : first = de := by simpa using isEntry
      rw [Nat.mul_zero, Nat.zero_add, getElem?_append_left]
      rwa [length_direntBytes]
    | succ k =>
      have next : direntSize * (k + 1) + j = direntSize + (direntSize * k + j) := by ring
      rw [next, getElem?_append_right (by rw [length_direntBytes]; omega), length_direntBytes,
        Nat.add_sub_cancel_left]
      exact ih (by simpa using isEntry)

section

variable (built : Built args s₀) (few : args.length ≤ 198)

include built few

theorem Built.dirent_kernel (isEntry : (rootEntries args)[k]? = some de) :
    (volumeOf superblock (finish s₀)).dirent rootIno k = ⟨de.inum % 2 ^ 16, padded de.name⟩ := by
  have freeinode := built.freeinode
  have filled := built.filled_kernel few (i := rootIno) le_rfl (by unfold rootIno; omega)
  have bytes : (volumeOf superblock (finish s₀)).bytes rootIno (direntSize * k) direntSize =
      (range direntSize).map de.bytes := by
    refine map_congr_left fun j member => ?_
    apply filled.bytes
    have inside := mem_range.mp member
    rw [textOf, if_pos rfl, rootText_eq, getElem?_flatMap_direntBytes isEntry inside]
    simp [direntBytes, inside]
  rw [Volume.dirent, bytes, Dirent.load_bytes]

end

/-! ## What the kernel finds -/

def Finds (image : Blocks) (name : List UInt8) (inum : Nat) : Prop :=
  ∀ store : Store, store.disk = image → ∃ off,
    findDirent superblock (dinodeAt superblock image rootIno) name store =
      .ok ((some (inum, off), dinodeAt superblock image rootIno), store)

/-- What `readi` returns of these bytes. -/
def window (text : List UInt8) (off n : Nat) : List UInt8 :=
  if off + n < 2 ^ 32 then (text.drop off).take n else []

def Reads (image : Blocks) (inum : Nat) (text : List UInt8) : Prop :=
  (dinodeAt superblock image inum).size = text.length ∧
    ∀ store : Store, store.disk = image → ∀ off n, off < 2 ^ 32 → n < 2 ^ 32 →
      readi superblock (dinodeAt superblock image inum) (fun _ => true) off n store =
        .ok
          ((((window text off n).length, window text off n), dinodeAt superblock image inum), store)

/-- Outside of the file and where the sum overflows nothing is read. -/
theorem length_window (text : List UInt8) {off n : Nat} (small : off < 2 ^ 32)
    (small' : n < 2 ^ 32) : (window text off n).length = readSpan text.length off n := by
  unfold window readSpan
  split
  next fits =>
    rw [length_take, length_drop, Nat.mod_eq_of_lt fits]
    split <;> omega
  next overflow =>
    rw [if_pos (by omega)]
    rfl

theorem bytes_of_filled {v : Volume} {i : Nat} {text : List UInt8} (filled : Filled v i text)
    {off n : Nat} : v.bytes i off (window text off n).length = window text off n := by
  apply ext_getElem (by simp)
  intro j inside inside'
  have char : text[off + j]? = some (window text off n)[j] := by
    rw [← getElem?_eq_getElem inside']
    unfold window at inside' ⊢
    split at inside'
    next fits =>
      rw [if_pos fits]
      rw [length_take] at inside'
      rw [getElem?_take_of_lt (by omega), getElem?_drop]
    next => exact absurd inside' (Nat.not_lt_zero j)
  rw [← filled.bytes (off + j) _ char]
  simp [Volume.bytes]

theorem reads_of_filled {image : Blocks} {i : Nat} {text : List UInt8} {used : Nat → Prop}
    (owned : (volumeOf superblock image).Owned superblock.first superblock.size used)
    (filled : Filled (volumeOf superblock image) i text) (inside : i < superblock.ninodes)
    (size : (dinodeAt superblock image i).size = text.length) : Reads image i text := by
  refine ⟨size, ?_⟩
  intro store disk off n small small'
  have view : viewOf superblock store.disk i (dinodeAt superblock image i) =
      volumeOf superblock image := by
    rw [disk, viewOf_dinodeAt _ inside]
  have mapped : MappedBelow (volumeOf superblock image) i
      (min (off + n) (dinodeAt superblock image i).size) := by
    rw [size]
    have short := filled.short
    refine ⟨by omega, fun bn below => (filled.mapped bn ?_).mpr (by omega)⟩
    exact Nat.lt_of_mul_lt_mul_right (lt_of_lt_of_le below (by omega))
  rw [← view] at mapped owned
  have returns : Prog.Returns
      (readi superblock (dinodeAt superblock image i) (fun _ => true) off n) store _ :=
    readi_spec owned mapped
  obtain ⟨⟨result, inode⟩, store', run, same, sameInode, bytes⟩ := returns.exists
  obtain rfl : store = store' := same.symm
  obtain rfl : dinodeAt superblock image i = inode := sameInode.symm
  have value : result = _ := bytes fun _ => rfl
  rw [run, value, view, size, ← length_window text small small', bytes_of_filled filled]

section

variable (built : Built args s₀) (few : args.length ≤ 198)

include built few

theorem Built.inode_kernel {i : Nat} (low : 2 ≤ i) (inside : i < superblock.ninodes) :
    dinodeAt superblock (finish s₀) i = (volumeOf wide s₀.image).inode i := by
  rw [← volumeOf_inode inside, built.volumeOf_kernel few,
    setInode_inode_ne _ (by unfold rootIno; omega)]

theorem Built.reads {i : Nat} (low : 2 ≤ i) (high : i < s₀.freeinode) :
    Reads (finish s₀) i (textOf args i) := by
  have freeinode := built.freeinode
  have inside : i < superblock.ninodes := by
    change i < 200
    omega
  have isInode := built.inode_kernel few low inside
  refine reads_of_filled (built.owned_kernel few) (built.filled_kernel few (by omega) high) inside
    ?_
  rw [isInode, built.holds.size i (by omega) high]

theorem Built.root_kernel : dinodeAt superblock (finish s₀) rootIno = rounded s₀.image := by
  rw [← volumeOf_inode (by decide), built.volumeOf_kernel few, setInode_inode_same]

theorem Built.size_root :
    (rounded s₀.image).size = (direntSize * (args.length + 2) / bsize + 1) * bsize := by
  have freeinode := built.freeinode
  have size := built.holds.size rootIno le_rfl (by unfold rootIno; omega)
  rw [inode_root, textOf, if_pos rfl, length_rootText] at size
  change roundUp (dinodeAt layout s₀.image rootIno).size = _
  rw [size]
  unfold roundUp direntSize bsize
  omega

theorem Built.type_root : (rounded s₀.image).type = typeDir := by
  have freeinode := built.freeinode
  have type := built.holds.inUse rootIno le_rfl (by unfold rootIno; omega)
  rw [inode_root, if_pos rfl] at type
  exact type

theorem Built.finds (isEntry : (rootEntries args)[k]? = some de)
    (names : ∀ de ∈ rootEntries args, de.inum ≠ 0 ∧ de.inum < 2 ^ 16 ∧ IsName de.name)
    (earlier : ∀ j < k, ∀ de', (rootEntries args)[j]? = some de' → de'.name ≠ de.name) :
    Finds (finish s₀) de.name de.inum := by
  intro store disk
  have freeinode := built.freeinode
  have filled := built.filled_kernel few (i := rootIno) le_rfl (by unfold rootIno; omega)
  have length : (textOf args rootIno).length = direntSize * (args.length + 2) :=
    length_rootText args
  have isRoot := built.root_kernel few
  have type := built.type_root few
  have size := built.size_root few
  have view : viewOf superblock store.disk rootIno (rounded s₀.image) =
      volumeOf superblock (finish s₀) := by
    rw [disk, ← isRoot, viewOf_dinodeAt _ (by decide)]
  have count : k < args.length + 2 := by
    have inside := (List.getElem?_eq_some_iff.mp isEntry).1
    rwa [length_rootEntries] at inside
  have owned := built.owned_kernel few
  have mapped : MappedBelow (volumeOf superblock (finish s₀)) rootIno (direntSize * (k + 1)) := by
    have short := filled.short
    have upTo : direntSize * (k + 1) ≤ (textOf args rootIno).length := by
      rw [length]
      exact Nat.mul_le_mul_left _ (by omega)
    refine ⟨by omega, fun bn below => (filled.mapped bn ?_).mpr (by omega)⟩
    exact Nat.lt_of_mul_lt_mul_right (lt_of_lt_of_le below (by omega))
  have named : ∀ j de', (rootEntries args)[j]? = some de' →
      (Dirent.named de.name ((volumeOf superblock (finish s₀)).dirent rootIno j) = true ↔
        de.name = de'.name) := by
    intro j de' isEntry'
    obtain ⟨nonzero, small, isName⟩ := names de' (mem_of_getElem? isEntry')
    rw [built.dirent_kernel few isEntry', Dirent.named, Nat.mod_eq_of_lt small]
    simp only [decide_eq_true_eq]
    rw [namecmp_padded (names de (mem_of_getElem? isEntry)).2.2 isName]
    exact and_iff_right nonzero
  rw [isRoot]
  rw [← view] at owned mapped named
  refine ⟨direntSize * k, ?_⟩
  have found := findDirent_found owned type
    (by rw [size]; unfold direntSize bsize maxFile ndirect nindirect bsize; omega)
    (by rw [size]; unfold direntSize bsize; omega) mapped
    (by rw [size]; unfold direntSize bsize; omega) ((named k de isEntry).mpr rfl) fun j less => by
      have inside : j < (rootEntries args).length := by
        rw [length_rootEntries]
        omega
      have other := earlier j less _ (getElem?_eq_getElem inside)
      exact Bool.eq_false_iff.mpr fun same =>
        other ((named j _ (getElem?_eq_getElem inside)).mp same).symm
  rw [found, view, built.dirent_kernel few isEntry,
    Nat.mod_eq_of_lt (names de (mem_of_getElem? isEntry)).2.1]

end

/-! ## The bitmap -/

theorem bit_bitmap (used b : Nat) : bit (bitmap used) b = decide (b < used) := by
  induction used with
  | zero => simp [bitmap, bit, zeroes]
  | succ used ih =>
    have step : bitmap (used + 1) = setBit (bitmap used) used := by
      unfold bitmap
      rw [range_succ, foldl_append]
      rfl
    rw [step, bit_setBit, ih, ← Bool.decide_or]
    exact decide_eq_decide.mpr (by omega)

theorem usedAt_finish {b : Nat} (below : b < superblock.size) :
    usedAt superblock (finish s₀) b = decide (b < s₀.freeblock) := by
  change b < 2000 at below
  have block : superblock.bblock b = layout.bmapstart := by
    change b / 8192 + 45 = 45
    omega
  rw [usedAt, block, finish, update_self, Nat.mod_eq_of_lt (by change b < 8192; omega), bit_bitmap]

theorem firstFree_finish : firstFree superblock (finish s₀) =
    if s₀.freeblock < superblock.size then some s₀.freeblock else none := by
  unfold firstFree
  split
  next room =>
    rw [find?_range_eq_some]
    refine ⟨?_, mem_range.mpr room, fun b low => ?_⟩
    · simp [usedAt_finish room]
    · simp [usedAt_finish (lt_trans low room), low]
  next full =>
    rw [find?_eq_none]
    intro b member
    have below := mem_range.mp member
    have used : b < s₀.freeblock := by omega
    simp [usedAt_finish below, used]

/-- In a new transaction `balloc` finds the first free block, if there is one. -/
theorem balloc_finish {store : Store} (disk : store.disk = finish s₀) (inOp : store.outstanding ≠ 0)
    (empty : store.lh = []) : ∃ store', Disk.balloc superblock store =
      .ok (if s₀.freeblock < superblock.size then s₀.freeblock else 0, store') := by
  unfold Disk.balloc
  rw [Prog.bind_ok (show (get : StoreM Store) store = .ok (store, store) from rfl), disk,
    firstFree_finish]
  split
  next =>
    have length : ∀ data, (store.wrote (superblock.bblock s₀.freeblock) data).lh.length = 1 := by
      intro data
      simp [Store.wrote, empty]
    refine ⟨_,
      (Prog.bind_ok (logWrite_ok ?_ ?_ inOp)).trans (Prog.bind_ok (logWrite_ok ?_ ?_ inOp))⟩
    · rw [empty]
      decide
    · rw [empty]
      decide
    · rw [length]
      decide
    · rw [length]
      decide
  next => exact ⟨store, rfl⟩

/-! ## Agreement -/

/-- The names of the files tell them apart from each other and from `.` and `..`. -/
structure Named (args : List Arg) : Prop where
  strings : ∀ arg ∈ args, 0 ∉ arg.path
  distinct : (args.map entryName).Nodup
  notDots : ∀ arg ∈ args, entryName arg ≠ [46] ∧ entryName arg ≠ [46, 46]

theorem mem_entryName {byte : UInt8} (member : byte ∈ entryName arg) : byte ∈ arg.path := by
  have short : byte ∈ shortname arg.path := by
    unfold entryName skipUnderscore at member
    split at member
    · exact mem_of_mem_tail member
    · exact member
  unfold shortname at short
  split at short
  · exact mem_of_mem_drop short
  · exact short

theorem rootEntries_names (few : args.length ≤ 198)
    (names : ∀ arg ∈ args, (entryName arg).length ≤ dirsiz) (strings : ∀ arg ∈ args, 0 ∉ arg.path) :
    ∀ de ∈ rootEntries args, de.inum ≠ 0 ∧ de.inum < 2 ^ 16 ∧ IsName de.name := by
  intro de member
  rcases mem_cons.mp member with rfl | member
  · decide
  rcases mem_cons.mp member with rfl | member
  · decide
  · obtain ⟨⟨arg, inum⟩, isArg, rfl⟩ := mem_map.mp member
    obtain ⟨low, high, is⟩ := mem_zipIdx isArg
    have isMember : arg ∈ args := by
      rw [is]
      exact getElem_mem _
    refine ⟨by change inum ≠ 0; omega, by change inum < _; omega, fun zero => ?_,
      names arg isMember⟩
    exact strings arg isMember (mem_entryName zero)

structure Agree (args : List Arg) (s : State) : Prop where
  superblock : Superblock.load (s.image 1) = superblock ∧ (s.image 1).load 0 4 = fsMagic
  files : ∀ arg ∈ args, ∃ inum, Finds s.image (entryName arg) inum ∧
    Reads s.image inum (contents arg)
  place : ∀ i k, k < slots → (volumeOf Mkfs.superblock s.image).addr i k ≠ 0 →
    nmeta ≤ (volumeOf Mkfs.superblock s.image).addr i k
  once : ∀ i k i' k', k < slots → k' < slots → (volumeOf Mkfs.superblock s.image).addr i k ≠ 0 →
    (volumeOf Mkfs.superblock s.image).addr i k = (volumeOf Mkfs.superblock s.image).addr i' k' →
    i = i' ∧ k = k'
  bitmap : ∀ b < bpb, bit (s.image Mkfs.superblock.bmapstart) b = decide (b < s.freeblock)
  free : ∀ store : Store, store.disk = s.image → store.outstanding ≠ 0 → store.lh = [] →
    ∃ b store', Disk.balloc Mkfs.superblock store = .ok (b, store') ∧
      (b = if s.freeblock < fssize then s.freeblock else 0) ∧
      ∀ i k, k < slots → b ≠ 0 → (volumeOf Mkfs.superblock s.image).addr i k ≠ b

theorem finish_one : finish s₀ 1 = s₀.image 1 := by
  rw [finish, update_of_ne (by decide), writeDinode, update_of_ne (by decide)]

theorem superblock_store : Superblock.load superblock.store = superblock ∧
    superblock.store.load 0 4 = fsMagic := by decide

theorem textOf_file (isArg : args[k]? = some arg) :
    textOf args (k + 2) = contents arg := by
  rw [textOf, if_neg (by unfold rootIno; omega), if_pos (by omega), Nat.add_sub_cancel, isArg]
  rfl

theorem Named.earlier (named : Named args) (isArg : args[k]? = some arg) {j : Nat}
    (less : j < k + 2) (isEntry : (rootEntries args)[j]? = some de) :
    de.name ≠ entryName arg := by
  have notDots := named.notDots arg (mem_of_getElem? isArg)
  match j with
  | 0 =>
    obtain rfl : (⟨rootIno, [46]⟩ : Dirent) = de := Option.some.inj isEntry
    exact fun same => notDots.1 same.symm
  | 1 =>
    obtain rfl : (⟨rootIno, [46, 46]⟩ : Dirent) = de := Option.some.inj isEntry
    exact fun same => notDots.2 same.symm
  | j + 2 =>
    have inside : j < args.length := by
      have := (List.getElem?_eq_some_iff.mp isArg).1
      omega
    have isArg' : args[j]? = some args[j] := getElem?_eq_getElem inside
    obtain rfl := Option.some.inj ((rootEntries_file isArg').symm.trans isEntry)
    intro same
    have equal : (args.map entryName)[j]? = (args.map entryName)[k]? := by
      rw [getElem?_map, getElem?_map, isArg', isArg]
      exact congrArg some same
    have := (getElem?_inj (by rwa [length_map]) named.distinct).mp equal
    omega

theorem Built.files (built : Built args s₀) (few : args.length ≤ 198)
    (names : ∀ arg ∈ args, (entryName arg).length ≤ dirsiz) (named : Named args)
    (member : arg ∈ args) :
    ∃ inum, Finds (finish s₀) (entryName arg) inum ∧ Reads (finish s₀) inum (contents arg) := by
  obtain ⟨k, inside, is⟩ := mem_iff_getElem.mp member
  have isArg : args[k]? = some arg := by rw [getElem?_eq_getElem inside, is]
  refine ⟨k + 2, ?_, ?_⟩
  · have names' := rootEntries_names few names named.strings
    have found := built.finds few (rootEntries_file isArg) names' fun j less de' isEntry =>
      named.earlier isArg less isEntry
    exact found
  · rw [← textOf_file isArg]
    exact built.reads few (by omega) (by rw [built.freeinode]; omega)

/-- The kernel can use every image that `mkfs` makes, as long as the names of the
files are not `.` or `..`. -/
theorem mkfs_agrees (acceptable : Acceptable args) (few : args.length < ninodes - 1)
    (named : Named args) : ∃ s, Makes args s ∧ Agree args s := by
  change args.length < 199 at few
  obtain ⟨s, made⟩ := makes_of_acceptable (by change args.length + 2 ≤ 224; omega) acceptable
  obtain ⟨s₀, run, image, freeblock⟩ := made.finish
  have built := (build_spec (by change args.length + 2 ≤ 224; omega)).of_ok run
  have few' : args.length ≤ 198 := by omega
  have owned := built.owned_kernel few'
  refine ⟨s, made, ?_⟩
  constructor
  · rw [image, finish_one, built.front]
    exact superblock_store
  · rw [image]
    exact fun arg => built.files few' (fun arg member => (acceptable.names arg member).2) named
  · intro i k inside nonzero
    rw [image] at nonzero ⊢
    exact (owned.place i k inside nonzero).1
  · rw [image]
    exact owned.once
  · intro b below
    rw [image, freeblock]
    change bit (finish s₀ layout.bmapstart) b = _
    rw [finish, update_self, bit_bitmap]
  · intro store disk inOp empty
    rw [image] at disk
    obtain ⟨store', returned⟩ := balloc_finish disk inOp empty
    refine ⟨_, store', returned, ?_, ?_⟩
    · rw [freeblock]
      rfl
    · intro i k inside nonzero
      rw [image]
      split at nonzero
      next room =>
        rw [if_pos room]
        exact owned.fresh_plain (lt_irrefl _) room i k inside
      next => exact absurd rfl nonzero

def oneFile (path : List UInt8) : List Arg := [⟨path, some [[120]]⟩]

theorem oneFile_acceptable {path : List UInt8} (noSlash : 47 ∉ shortname path)
    (short : (entryName ⟨path, some [[120]]⟩).length ≤ dirsiz) : Acceptable (oneFile path) := by
  have isFile : ∀ arg ∈ oneFile path, arg = ⟨path, some [[120]]⟩ := fun arg => mem_singleton.mp
  refine ⟨fun arg member => ?_, fun arg member => ?_,
    sized_textOf (show 3 ≤ wide.ninodes by decide) (fun arg member => ?_) ?_⟩
  · rw [isFile arg member]
    exact ⟨noSlash, short⟩
  · rw [isFile arg member]
    exact Option.some_ne_none _
  · rw [isFile arg member]
    exact show 1 ≤ maxFile * bsize by decide
  · exact show nmeta + (blocksFor (direntSize * 3) + (blocksFor 1 + 0)) ≤ fssize by decide

/-- A file `a` of two blocks, and a file `b` that needs its indirect block. -/
def twoFiles : List Arg :=
  [⟨[97], some [.replicate 1024 120, [121]]⟩, ⟨[98], some (.replicate 13 (.replicate 1024 122))⟩]

theorem length_twoFiles : twoFiles.map (fun arg => (contents arg).length) = [1025, 13312] := by
  simp only [twoFiles, contents, map_cons, map_nil, Option.getD_some, length_flatten,
    length_cons, length_nil, length_replicate, map_replicate, sum_replicate, smul_eq_mul]
  decide

theorem twoFiles_acceptable : Acceptable twoFiles := by
  have lengths := length_twoFiles
  refine ⟨by decide, by decide, sized_textOf (by decide) (fun arg member => ?_) ?_⟩
  · have isLength : (contents arg).length ∈ [1025, 13312] := lengths ▸ mem_map_of_mem member
    revert isLength
    generalize (contents arg).length = n
    intro isLength
    rcases mem_pair.mp isLength with rfl | rfl <;> decide
  · have blocks : (twoFiles.map fun arg => blocksFor (contents arg).length) =
        [1025, 13312].map blocksFor := by
      rw [← lengths, map_map]
      rfl
    rw [blocks]
    decide

theorem mkfs_agrees_two : ∃ s, Makes twoFiles s ∧ Agree twoFiles s :=
  mkfs_agrees twoFiles_acceptable (by decide) ⟨by decide, by decide, by decide⟩

/-- A file `.` is hidden by the first entry of the root directory. -/
theorem mkfs_dot_hidden : ∃ s, Makes (oneFile [95, 46]) s ∧ Acceptable (oneFile [95, 46]) ∧
    ((oneFile [95, 46]).map entryName).Nodup ∧
    ¬ ∃ inum, Finds s.image [46] inum ∧ Reads s.image inum [120] := by
  have acceptable : Acceptable (oneFile [95, 46]) := oneFile_acceptable (by decide) (by decide)
  obtain ⟨s, made⟩ := makes_of_acceptable (by decide) acceptable
  obtain ⟨s₀, run, image, -⟩ := made.finish
  have built := (build_spec (by decide)).of_ok run
  have few : (oneFile [95, 46]).length ≤ 198 := by decide
  refine ⟨s, made, acceptable, by decide, ?_⟩
  rintro ⟨inum, finds, size, -⟩
  rw [image] at finds size
  have isEntry : (rootEntries (oneFile [95, 46]))[0]? = some ⟨rootIno, [46]⟩ := rfl
  have names := rootEntries_names few (by decide) (by decide)
  have first := built.finds few isEntry names fun j less => absurd less (Nat.not_lt_zero j)
  let store : Store := ⟨finish s₀, [], 0, fun _ => ⟨0, false, false, Dinode.zero⟩, 0⟩
  obtain ⟨_, found⟩ := finds store rfl
  obtain ⟨_, found'⟩ := first store rfl
  rw [found] at found'
  obtain rfl : inum = rootIno := by
    have := Except.ok.inj found'
    simp only [Prod.mk.injEq, Option.some.injEq] at this
    exact this.1.1.1
  rw [built.root_kernel few, built.size_root few] at size
  exact absurd size (by decide)

end Xv6.Mkfs
