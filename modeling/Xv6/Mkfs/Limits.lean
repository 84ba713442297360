import Xv6.Mkfs.Finish

/-!
# The limits of the disk

A block past the end of the image cannot be read, so `mkfs` stops before it uses
one. The number of inodes is not checked: an inode from number 200 on is not one of
those the superblock allows.
-/

namespace Xv6.Mkfs

open Xv6.Disk
open Prog (Ensures)

/-- What `mkfs` has taken is within the limits of the superblock. -/
structure WithinLimits (s : State) : Prop where
  blocks : ∀ b, nmeta ≤ b → b < s.freeblock → b < superblock.size
  inodes : ∀ inum, 1 ≤ inum → inum < s.freeinode → inum < superblock.ninodes
  writes : ∀ b ∈ s.inodeWrites, b < superblock.bmapstart

/-- The image is as long as it was made, and the blocks taken are in it. -/
structure Counted (s : State) : Prop where
  sectors : s.sectors = fssize
  high : s.freeblock ≤ fssize

/-- Blocks may be taken, but no inodes. -/
structure Kept (s s' : State) : Prop where
  counted : Counted s'
  freeinode : s'.freeinode = s.freeinode
  inodeWrites : s'.inodeWrites = s.inodeWrites

variable {s : State} {inum : Nat} {din : Dinode} {allowed : Failure → Prop}

theorem Kept.refl (counted : Counted s) : Kept s s := ⟨counted, rfl, rfl⟩

theorem Kept.trans {s s' s'' : State} (first : Kept s s') (second : Kept s' s'') : Kept s s'' :=
  ⟨second.counted, second.freeinode.trans first.freeinode,
  second.inodeWrites.trans first.inodeWrites⟩

theorem Kept.write {s s' : State} (kept : Kept s s') (image : Blocks) : Kept s { s' with image } :=
  ⟨⟨kept.counted.sectors, kept.counted.high⟩, kept.freeinode, kept.inodeWrites⟩

theorem wsect_counted {sec : Nat} {buf : ByteSpace} (below : sector sec < s.sectors)
    {post : PUnit → State → Prop}
    (holds : post ⟨⟩ { s with image := Function.update s.image (sector sec) buf }) :
    Ensures allowed (wsect sec buf) s post := by
  unfold wsect
  apply Ensures.of_modify
  have same : max s.sectors (sector sec + 1) = s.sectors := by omega
  rw [same]
  exact holds

theorem Counted.sector_lt {s : State} (counted : Counted s) : s.freeblock < 2 ^ 22 :=
  lt_of_le_of_lt counted.high (by decide)

def Found (s : State) (x : Nat) (s' : State) : Prop :=
  s'.sectors = fssize ∧ s'.freeinode = s.freeinode ∧ s'.inodeWrites = s.inodeWrites ∧
    (sector x < fssize → s'.freeblock ≤ fssize)

theorem Found.of_kept {s s' : State} {x : Nat} (kept : Kept s s') : Found s x s' :=
  ⟨kept.counted.sectors, kept.freeinode, kept.inodeWrites, fun _ => kept.counted.high⟩

theorem found_next (counted : Counted s) (image : Blocks) :
    Found s s.freeblock { s with image, freeblock := s.freeblock + 1 } := by
  refine ⟨counted.sectors, rfl, rfl, fun below => ?_⟩
  rw [sector_eq counted.sector_lt] at below
  exact below

theorem entryBlock_counted {b j : Nat} (found : Found s b s) :
    Ensures (fun _ => True) (entryBlock b j) s fun x s' => Found s x s' := by
  unfold entryBlock
  refine .bind (rsect_of_ok fun below => ?_)
  rw [found.1] at below
  have counted : Counted s := ⟨found.1, found.2.2.2 below⟩
  refine .ite (fun _ => ?_) (fun _ => .pure (.of_kept (.refl counted)))
  refine .bind (nextBlock_ensures (.bind (wsect_counted ?_ (.pure (found_next counted _)))))
  exact lt_of_lt_of_eq below counted.sectors.symm

theorem fileBlock_counted {fbn : Nat} (counted : Counted s) :
    Ensures (fun _ => True) (fileBlock din fbn) s fun r s' => Found s r.1 s' := by
  unfold fileBlock
  refine .ite (fun _ => .ite (fun _ => ?_) fun _ => ?_) fun _ => .ite (fun _ => ?_) fun _ => ?_
  · exact .bind (nextBlock_ensures (.pure (found_next counted s.image)))
  · exact .pure (.of_kept (.refl counted))
  · refine .bind (nextBlock_ensures (.bind ?_))
    have next : Found { s with freeblock := s.freeblock + 1 } s.freeblock
        { s with freeblock := s.freeblock + 1 } := found_next counted s.image
    refine (entryBlock_counted next).mono fun x s' found => .pure ?_
    exact found
  · refine .seq (entryBlock_counted (.of_kept (.refl counted))) fun x s' found => .pure ?_
    exact found

theorem appendBlocks_counted {fuel off : Nat} {p : List UInt8} (counted : Counted s) :
    Ensures (fun _ => True) (appendBlocks fuel din off p) s fun _ s' => Kept s s' := by
  induction fuel generalizing s din off p with
  | zero => exact .pure (.refl counted)
  | succ fuel ih =>
    unfold appendBlocks
    refine .ite (fun _ => .pure (.refl counted)) fun _ => .ite (fun _ => .throw trivial) fun _ => ?_
    refine .seq (fileBlock_counted counted) ?_
    rintro ⟨x, din'⟩ s₁ found
    refine .bind (rsect_of_ok fun below => .bind (wsect_counted below ?_))
    rw [found.1] at below
    have kept : Kept s s₁ := ⟨⟨found.1, found.2.2.2 below⟩, found.2.1, found.2.2.1⟩
    exact (ih (kept.write _).counted).mono fun _ _ rest => (kept.write _).trans rest

/-- Inodes before `bound` were written, and no others. -/
structure Tracked (bound : Nat) (s : State) : Prop where
  counted : Counted s
  writes : ∀ b ∈ s.inodeWrites, ∃ i < bound, b = superblock.iblock i

theorem rinode_counted {post : Dinode → State → Prop} (holds : ∀ din, post din s) :
    Ensures (fun _ => True) (rinode inum) s post := by
  unfold rinode
  exact .bind (rsect_of_ok fun _ => .pure (holds _))

theorem winode_tracked {bound : Nat} {ip : Dinode} (tracked : Tracked bound s)
    (inside : inum < bound) :
    Ensures (fun _ => True) (winode inum ip) s fun _ s' =>
      Tracked bound s' ∧ s'.freeinode = s.freeinode := by
  unfold winode
  refine .bind (rsect_of_ok fun below => .bind (wsect_counted below (.of_modify ⟨⟨?_, ?_⟩, rfl⟩)))
  · exact ⟨tracked.counted.sectors, tracked.counted.high⟩
  · intro b member
    rcases List.mem_append.mp member with before | isNew
    · exact tracked.writes b before
    · exact ⟨inum, inside, List.mem_singleton.mp isNew⟩

theorem iappend_tracked {bound : Nat} {p : List UInt8} (tracked : Tracked bound s)
    (inside : inum < bound) :
    Ensures (fun _ => True) (iappend inum p) s fun _ s' =>
      Tracked bound s' ∧ s'.freeinode = s.freeinode := by
  unfold iappend
  refine .bind (rinode_counted fun din => .seq (appendBlocks_counted tracked.counted) ?_)
  rintro ⟨off, din'⟩ s₁ kept
  have tracked₁ : Tracked bound s₁ := ⟨kept.counted, by rw [kept.inodeWrites]; exact tracked.writes⟩
  refine (winode_tracked tracked₁ inside).mono ?_
  rintro _ s₂ ⟨tracked₂, freeinode₂⟩
  exact ⟨tracked₂, freeinode₂.trans kept.freeinode⟩

theorem Tracked.mono {bound more : Nat} (tracked : Tracked bound s) (le : bound ≤ more) :
    Tracked more s := by
  refine ⟨tracked.counted, fun b member => ?_⟩
  obtain ⟨i, inside, isBlock⟩ := tracked.writes b member
  exact ⟨i, lt_of_lt_of_le inside le, isBlock⟩

/-- The inodes written are those before `freeinode`. -/
abbrev UpToDate (s : State) : Prop := Tracked s.freeinode s

theorem ialloc_tracked {type : Nat} (upToDate : UpToDate s) :
    Ensures (fun _ => True) (ialloc type) s fun inum s' =>
      inum = s.freeinode ∧ UpToDate s' ∧ s'.freeinode = s.freeinode + 1 := by
  unfold ialloc
  refine .bind (.get (.bind (.of_modify (.bind ?_))))
  have tracked : Tracked (s.freeinode + 1) { s with freeinode := s.freeinode + 1 } :=
    ⟨⟨upToDate.counted.sectors, upToDate.counted.high⟩,
      (upToDate.mono (Nat.le_succ _)).writes⟩
  refine (winode_tracked tracked (Nat.lt_succ_self _)).mono ?_
  rintro _ s₁ ⟨tracked₁, freeinode₁⟩
  refine .pure ⟨rfl, ?_, freeinode₁⟩
  rw [UpToDate, freeinode₁]
  exact tracked₁

theorem pieces_tracked {pieces : List (List UInt8)} (upToDate : UpToDate s)
    (inside : inum < s.freeinode) :
    Ensures (fun _ => True) (pieces.forM (iappend inum)) s fun _ s' =>
      UpToDate s' ∧ s'.freeinode = s.freeinode := by
  induction pieces generalizing s with
  | nil => exact .pure ⟨upToDate, rfl⟩
  | cons piece pieces ih =>
    refine .seq (iappend_tracked upToDate inside) ?_
    rintro _ s₁ ⟨tracked₁, freeinode₁⟩
    rw [← freeinode₁] at tracked₁ inside ⊢
    exact ih tracked₁ inside

theorem addFile_tracked {arg : Arg} (upToDate : UpToDate s) (rooted : rootIno < s.freeinode) :
    Ensures (fun _ => True) (addFile arg) s fun _ s' =>
      UpToDate s' ∧ s'.freeinode = s.freeinode + 1 := by
  unfold addFile
  refine .ite (fun _ => .throw trivial) fun _ => ?_
  cases arg.pieces with
  | none => exact .throw trivial
  | some pieces =>
    refine .ite (fun _ => .throw trivial) fun _ => .seq (ialloc_tracked upToDate) ?_
    rintro inum s₁ ⟨rfl, upToDate₁, freeinode₁⟩
    refine .seq (iappend_tracked upToDate₁ (by omega)) ?_
    rintro _ s₂ ⟨tracked₂, freeinode₂⟩
    rw [← freeinode₂] at tracked₂
    refine (pieces_tracked tracked₂ (by omega)).mono ?_
    rintro _ s₃ ⟨tracked₃, freeinode₃⟩
    exact ⟨tracked₃, by omega⟩

variable {args : List Arg}

theorem addFiles_tracked (upToDate : UpToDate s) (rooted : rootIno < s.freeinode) :
    Ensures (fun _ => True) (args.forM addFile) s fun _ s' =>
      UpToDate s' ∧ s'.freeinode = s.freeinode + args.length := by
  induction args generalizing s with
  | nil => exact .pure ⟨upToDate, rfl⟩
  | cons arg args ih =>
    refine .seq (addFile_tracked upToDate rooted) ?_
    rintro _ s₁ ⟨upToDate₁, freeinode₁⟩
    refine (ih upToDate₁ (by omega)).mono ?_
    rintro _ s₂ ⟨upToDate₂, freeinode₂⟩
    refine ⟨upToDate₂, ?_⟩
    rw [List.length_cons]
    omega

theorem fresh_upToDate : UpToDate freshState := ⟨⟨rfl, by decide⟩, nofun⟩

theorem makeRoot_tracked :
    Ensures (fun _ => True) makeRoot freshState fun _ s => UpToDate s ∧ s.freeinode = 2 := by
  unfold makeRoot
  refine .seq (ialloc_tracked fresh_upToDate) ?_
  rintro root s₁ ⟨-, upToDate₁, freeinode₁⟩
  have two : s₁.freeinode = 2 := freeinode₁
  have inside : rootIno < s₁.freeinode := by
    rw [two]
    decide
  refine .ite (fun _ => .throw trivial) fun _ => .seq (iappend_tracked upToDate₁ inside) ?_
  rintro _ s₂ ⟨tracked₂, freeinode₂⟩
  refine (iappend_tracked tracked₂ inside).mono ?_
  rintro _ s₃ ⟨tracked₃, freeinode₃⟩
  have same : s₃.freeinode = s₁.freeinode := freeinode₃.trans freeinode₂
  rw [← same] at tracked₃
  exact ⟨tracked₃, same.trans two⟩

theorem build_tracked :
    Ensures (fun _ => True) (build args) start fun _ s =>
      UpToDate s ∧ s.freeinode = 2 + args.length := by
  unfold build
  refine .bind (.of_modify (.seq zeroImage_spec ?_))
  rintro _ s₀ rfl
  refine .bind (wsect_ensures rfl (by decide) (.seq makeRoot_tracked ?_))
  rintro _ s₁ ⟨upToDate₁, freeinode₁⟩
  refine (addFiles_tracked upToDate₁ (by rw [freeinode₁]; decide)).mono ?_
  rintro _ s₂ ⟨upToDate₂, freeinode₂⟩
  exact ⟨upToDate₂, by omega⟩

theorem main_tracked :
    Ensures (fun _ => True) (main args) start fun _ s =>
      UpToDate s ∧ s.freeinode = 2 + args.length := by
  unfold main
  refine .seq build_tracked ?_
  rintro _ s₁ ⟨upToDate₁, freeinode₁⟩
  have inside : rootIno < s₁.freeinode := by
    unfold rootIno
    omega
  unfold fixRoot
  refine .bind (.bind (rinode_counted fun din => (winode_tracked upToDate₁ inside).mono ?_))
  rintro _ s₂ ⟨tracked₂, freeinode₂⟩
  rw [← freeinode₂] at tracked₂ freeinode₁
  refine .bind (.get ?_)
  unfold balloc
  refine .ite (fun _ => .throw trivial) fun _ =>
    wsect_ensures tracked₂.counted.sectors (by decide) ?_
  exact ⟨⟨⟨tracked₂.counted.sectors, tracked₂.counted.high⟩, tracked₂.writes⟩, freeinode₁⟩

/-- When `mkfs` ends normally, everything it has taken is within the limits of the
superblock if and only if it was given at most 198 files. -/
theorem mkfs_within_limits {s : State} (made : Makes args s) :
    WithinLimits s ↔ args.length ≤ 198 := by
  obtain ⟨upToDate, freeinode⟩ := main_tracked.of_ok made
  constructor
  · intro limits
    by_contra many
    have := limits.inodes 200 (by decide) (by omega)
    exact absurd this (by decide)
  · intro few
    refine ⟨fun b _ below => lt_of_lt_of_le below upToDate.counted.high, fun inum _ below => ?_, ?_⟩
    · change inum < 200
      omega
    · intro b member
      obtain ⟨i, inside, rfl⟩ := upToDate.writes b member
      change i / 16 + 32 < 45
      omega

theorem mkfs_within_limits_three : ∃ s, Makes (copies 3 []) s ∧ WithinLimits s := by
  obtain ⟨s, made⟩ := copies_make 3 [] (by decide) (by decide)
  exact ⟨s, made, (mkfs_within_limits made).mpr (by decide)⟩

/-- With 199 files the last one has inode number 200. -/
theorem mkfs_limits_199 : ∃ s, Makes (copies 199 []) s ∧ ¬ WithinLimits s := by
  obtain ⟨s, made⟩ := copies_make 199 [] (by decide) (by decide)
  have freeinode := (main_tracked.of_ok made).2
  rw [copies, List.length_replicate] at freeinode
  refine ⟨s, made, fun limits => ?_⟩
  exact absurd (limits.inodes 200 (by decide) (by omega)) (by decide)

end Xv6.Mkfs
