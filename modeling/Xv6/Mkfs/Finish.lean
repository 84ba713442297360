import Xv6.Mkfs.Build

/-!
# The end of mkfs

After the last file the size of the root directory is rounded up and the bitmap is
written.
-/

namespace Xv6.Mkfs

open Function
open List
open Xv6.Disk Xv6.Disk.Volume

variable {s s₀ : State} {args : List Arg}

/-- The inodes before the bitmap. -/
def layout : Superblock := { superblock with ninodes := ninodeblocks * ipb }

def rounded (image : Blocks) : Dinode :=
  { dinodeAt layout image rootIno with size := roundUp (dinodeAt layout image rootIno).size }

/-- The bitmap of an image whose first `used` blocks are in use. -/
def bitmap (used : Nat) : ByteSpace := (range used).foldl setBit zeroes

/-- The image at the end, from the image after the last file. -/
def finish (s₀ : State) : Blocks :=
  update (writeDinode layout s₀.image rootIno (rounded s₀.image)) layout.bmapstart
    (bitmap s₀.freeblock)

theorem sector_iblock_root : sector (superblock.iblock rootIno) = layout.iblock rootIno := by decide

theorem sector_bmapstart : sector superblock.bmapstart = layout.bmapstart := by decide

theorem Makes.finish (made : Makes args s) :
    ∃ s₀, build args start = .ok ((), s₀) ∧ s.image = finish s₀ ∧ s.freeblock = s₀.freeblock := by
  obtain ⟨_, s₀, built, rest⟩ := Prog.bind_eq_ok made
  have ends : Prog.Ensures (fun _ => True) (do fixRoot; balloc (← get).freeblock) s₀ fun _ s =>
      s.image = Mkfs.finish s₀ ∧ s.freeblock = s₀.freeblock := by
    unfold fixRoot rinode winode balloc
    refine .bind (.bind (.bind (rsect_of_ok fun _ => .pure ?_)))
    refine .bind (rsect_of_ok fun _ => .bind (.of_modify (.of_modify (.bind (.get ?_)))))
    refine .ite (fun _ => .throw trivial) fun _ => .of_modify ?_
    rw [sector_iblock_root, sector_bmapstart]
    exact ⟨rfl, rfl⟩
  exact ⟨s₀, built, ends.of_ok rest⟩

/-- The last two steps do not fail on a good image. -/
theorem makes_of_built (run : build args start = .ok ((), s₀)) (built : Built args s₀) :
    ∃ s, Makes args s := by
  have good := built.holds.good
  have ends : Prog.Returns (do fixRoot; balloc (← get).freeblock) s₀ fun _ _ => True := by
    unfold fixRoot balloc
    refine .bind (.bind (rinode_ensures good.sectors (by decide) ?_))
    refine winode_ensures good.sectors (by decide)
      (.bind (.get (.ite (fun tooMany => ?_) fun _ => ?_)))
    · have high := good.high
      have : fssize < bpb := by decide
      change bpb ≤ s₀.freeblock at tooMany
      omega
    · exact wsect_ensures good.sectors (by decide) trivial
  obtain ⟨⟨⟩, s, ended, -⟩ := ends.exists
  refine ⟨s, ?_⟩
  rw [Makes, main, Prog.bind_ok run]
  exact ended

theorem makes_of_acceptable (few : args.length + 2 ≤ wide.ninodes) (acceptable : Acceptable args) :
    ∃ s, Makes args s := by
  have returns : Prog.Returns (build args) start fun _ s => Built args s :=
    (build_spec few).imp fun _ not => not acceptable
  obtain ⟨⟨⟩, s₀, run, built⟩ := returns.exists
  exact makes_of_built run built

theorem rounded_fits (image : Blocks) : (rounded image).Fits := by
  have fits := loadDinode_fits (image (layout.iblock rootIno)) (rootIno % ipb)
  exact ⟨fits.type, fits.major, fits.minor, fits.nlink, Nat.mod_lt _ (by decide), fits.addrs⟩

theorem inode_root (image : Blocks) :
    (volumeOf wide image).inode rootIno = dinodeAt layout image rootIno :=
  volumeOf_inode (by decide)

section

variable {n i : Nat} (front : n ≤ layout.ninodes) (inside : i < n)

include front inside

/-- The bitmap is written over the inodes in its block. The ones before it are as they
were made, but for the size of the root directory. -/
theorem inode_finish : (volumeOf { superblock with ninodes := n } (finish s₀)).inode i =
    ((volumeOf wide s₀.image).setInode rootIno (rounded s₀.image)).inode i := by
  change n ≤ 208 at front
  have block : layout.iblock i ≠ layout.bmapstart := by
    change i / 16 + 32 ≠ 45
    omega
  rw [volumeOf_inode inside]
  change loadDinode (finish s₀ (layout.iblock i)) (i % ipb) = _
  rw [finish, update_of_ne block]
  change dinodeAt layout (writeDinode layout s₀.image rootIno (rounded s₀.image)) i = _
  rw [dinodeAt_writeDinode (rounded_fits _)]
  split
  next isRoot => rw [isRoot, setInode_inode_same]
  next other =>
    have made : i < wide.ninodes := by
      change i < 224
      omega
    rw [setInode_inode_ne _ other, volumeOf_inode made]
    rfl

omit front inside in
theorem block_finish : (volumeOf { superblock with ninodes := n } (finish s₀)).block =
    (volumeOf wide s₀.image).block := by
  funext b
  have first : Superblock.first { superblock with ninodes := n } = wide.first := rfl
  by_cases data : wide.first ≤ b
  · have notBitmap : b ≠ layout.bmapstart := ne_of_gt (lt_of_lt_of_le (by decide) data)
    have notRoot : b ≠ layout.iblock rootIno := ne_of_gt (lt_of_lt_of_le (by decide) data)
    rw [volumeOf_block data, volumeOf_block (first ▸ data), finish, update_of_ne notBitmap,
      writeDinode, update_of_ne notRoot]
  · rw [volumeOf_block_outside (Nat.lt_of_not_le data),
      volumeOf_block_outside (by rw [first]; omega)]

end

/-! ## Sizes -/

theorem length_direntBytes (de : Dirent) : (direntBytes de).length = direntSize := by
  simp [direntBytes]

theorem length_entries (args : List Arg) : (entries args).length = direntSize * args.length := by
  suffices from' : ∀ k, ((args.zipIdx k).flatMap fun entry =>
      direntBytes ⟨entry.2, entryName entry.1⟩).length = direntSize * args.length from from' 2
  induction args with
  | nil => simp
  | cons arg args ih =>
    intro k
    rw [zipIdx_cons, flatMap_cons, length_append, length_direntBytes, ih (k + 1), length_cons]
    ring

theorem length_rootText (args : List Arg) :
    (rootText args).length = direntSize * (args.length + 2) := by
  rw [rootText, length_append, length_append, length_direntBytes, length_direntBytes,
    length_entries]
  ring

theorem textOf_beyond : textOf args (2 + args.length) = [] := by
  rw [textOf, if_neg (by unfold rootIno; omega), if_pos (by omega), getElem?_eq_none (by omega)]
  rfl

/-- The blocks of the root directory and of the files. -/
theorem blocksOf_textOf (few : args.length + 2 ≤ wide.ninodes) :
    blocksOf (textOf args) = blocksFor (direntSize * (args.length + 2)) +
      (args.map fun arg => blocksFor (contents arg).length).sum := by
  have rootInside : rootIno < wide.ninodes := by decide
  have none : blocksFor (length ([] : List UInt8)) = 0 := by decide
  induction args using reverseRecOn with
  | nil =>
    have root := blocksOf_update (fun _ => []) rootInside (rootText [])
    rw [length_rootText, blocksOf_nil, none] at root
    rw [textOf_nil, map_nil, sum_nil]
    omega
  | append_singleton args arg ih =>
    rw [length_append, length_singleton] at few
    have inside : 2 + args.length < wide.ninodes := by omega
    have other : 2 + args.length ≠ rootIno := by
      unfold rootIno
      omega
    have before : textOf args rootIno = rootText args := if_pos rfl
    have root := blocksOf_update (textOf args) rootInside (rootText (args ++ [arg]))
    have file := blocksOf_update (update (textOf args) rootIno (rootText (args ++ [arg])))
      inside (contents arg)
    rw [before, length_rootText, length_rootText, ih (by omega), length_append] at root
    rw [update_of_ne other, textOf_beyond] at file
    rw [textOf_append, ← rootText_append, length_append, map_append, sum_append,
      map_singleton, sum_singleton]
    omega

theorem sized_textOf (few : args.length + 2 ≤ wide.ninodes)
    (short : ∀ arg ∈ args, (contents arg).length ≤ maxFile * bsize)
    (enough : nmeta +
      (blocksFor (direntSize * (args.length + 2)) +
        (args.map fun arg => blocksFor (contents arg).length).sum) ≤ fssize) :
    Sized (textOf args) := by
  refine ⟨fun i _ => ?_, by rwa [blocksOf_textOf few]⟩
  rw [textOf]
  split_ifs
  · rw [length_rootText]
    change args.length + 2 ≤ 224 at few
    change 16 * (args.length + 2) ≤ 268 * 1024
    omega
  · cases found : args[i - 2]? with
    | none => exact Nat.zero_le _
    | some arg => exact short arg (mem_of_getElem? found)
  · exact Nat.zero_le _

/-- Files with the same name and the same bytes. -/
def copies (n : Nat) (pieces : List (List UInt8)) : List Arg := replicate n ⟨[97], some pieces⟩

theorem copies_make (n : Nat) (pieces : List (List UInt8)) (few : n ≤ 222)
    (short : pieces.flatten.length ≤ bsize) : ∃ s, Makes (copies n pieces) s := by
  have isCopy : ∀ arg ∈ copies n pieces, arg = ⟨[97], some pieces⟩ := fun arg => eq_of_mem_replicate
  have count : (copies n pieces).length = n := length_replicate
  have inodes : (copies n pieces).length + 2 ≤ wide.ninodes := by
    rw [count]
    change n + 2 ≤ 224
    omega
  refine makes_of_acceptable inodes ⟨fun arg member => ?_, fun arg member => ?_,
    sized_textOf inodes (fun arg member => ?_) ?_⟩
  · rw [isCopy arg member]
    exact ⟨show 47 ∉ shortname [97] by decide,
      show (skipUnderscore (shortname [97])).length ≤ dirsiz by decide⟩
  · rw [isCopy arg member]
    exact Option.some_ne_none _
  · rw [isCopy arg member]
    exact le_trans short (by decide)
  · have root : blocksFor (direntSize * (n + 2)) ≤ 4 :=
      le_trans
        (blocksFor_mono
          (show direntSize * (n + 2) ≤ 16 * 224 from Nat.mul_le_mul_left 16 (by omega))) (by decide)
    have each : blocksFor pieces.flatten.length ≤ 1 := le_trans (blocksFor_mono short) (by decide)
    have files : n * blocksFor pieces.flatten.length ≤ n * 1 := Nat.mul_le_mul_left n each
    rw [count, copies, map_replicate, sum_replicate, smul_eq_mul]
    change 46 + (_ + n * blocksFor pieces.flatten.length) ≤ 2000
    omega

end Xv6.Mkfs
