import Mathlib.Data.Finset.Card
import Xv6.Disk.Read

/-!
# Allocating blocks

What a transaction writes is counted against a reservation: a section of code that
writes only blocks that are paid for does not write more than `maxOpBlocks` blocks.
`balloc` finds a block that no file has.
-/

namespace Xv6.Disk

open List
open Function
open Volume

variable {sb : Superblock} {s s' : Store} {allowed : Stop → Prop} {paid : Set Nat} {k : Nat}

/-! ## Reservations -/

/-- The state after `log_write`. -/
def Store.wrote (s : Store) (b : Nat) (data : ByteSpace) : Store :=
  { s with
    disk := update s.disk b data
    lh := if b ∈ s.lh then s.lh else s.lh ++ [b] }

/-- The blocks in `paid` and `k` more may be written: either there is no limit, or
there are not more than a transaction may have. Freeing a free block is never
allowed. -/
inductive Pays (allowed : Stop → Prop) (s : Store) (paid : Set Nat) (k : Nat) : Prop where
  | unlimited (stops : ∀ stop, stop.panic ≠ .freeingFreeBlock → allowed stop) (all : ∀ b, b ∈ paid)
  | reserved (blocks : Finset Nat) (are : ∀ b, b ∈ paid ↔ b ∈ blocks)
      (within : blocks.card + k ≤ maxOpBlocks) (distinct : s.lh.Nodup)
        (logged : ∀ b ∈ s.lh, b ∈ paid)
      (stops : ∀ stop, stop.panic ≠ .freeingFreeBlock → stop.lh.length ≤ maxOpBlocks → allowed stop)

theorem Pays.length_le (blocks : Finset Nat) (are : ∀ b, b ∈ paid ↔ b ∈ blocks)
    (distinct : s.lh.Nodup) (logged : ∀ b ∈ s.lh, b ∈ paid) : s.lh.length ≤ blocks.card := by
  rw [← toFinset_card_of_nodup distinct]
  apply Finset.card_le_card
  intro b member
  exact (are b).mp (logged b (mem_toFinset.mp member))

section

variable (pays : Pays allowed s paid k)

include pays

theorem Pays.congr (same : s'.lh = s.lh) : Pays allowed s' paid k := by
  cases pays with
  | unlimited stops all => exact .unlimited stops all
  | reserved blocks are within distinct logged stops =>
    exact .reserved blocks are within (same ▸ distinct) (same ▸ logged) stops

theorem Pays.less {fewer : Nat} (le : fewer ≤ k) :
    Pays allowed s paid fewer := by
  cases pays with
  | unlimited stops all => exact .unlimited stops all
  | reserved blocks are within distinct logged stops =>
    exact .reserved blocks are (by omega) distinct logged stops

omit pays in
theorem Pays.pay (pays : Pays allowed s paid (k + 1)) (b : Nat) :
    Pays allowed s (insert b paid) k := by
  cases pays with
  | unlimited stops all => exact .unlimited stops fun b' => .inr (all b')
  | reserved blocks are within distinct logged stops =>
    refine .reserved (insert b blocks) (fun b' => ?_) ?_ distinct (fun b' member => ?_) stops
    · rw [Finset.mem_insert, Set.mem_insert_iff, are]
    · have := Finset.card_insert_le b blocks
      omega
    · exact .inr (logged b' member)

theorem Pays.wrote {b : Nat} (isPaid : b ∈ paid) (data : ByteSpace) :
    Pays allowed (s.wrote b data) paid k := by
  cases pays with
  | unlimited stops all => exact .unlimited stops all
  | reserved blocks are within distinct logged stops =>
    refine .reserved blocks are within ?_ ?_ stops
    · unfold Store.wrote
      split
      next => exact distinct
      next new =>
        rw [nodup_append]
        refine ⟨distinct, nodup_singleton b, fun b' member => ?_⟩
        rintro _ (_ | ⟨_, ⟨⟩⟩) rfl
        exact new member
    · intro b' member
      unfold Store.wrote at member
      split at member
      next => exact logged b' member
      next =>
        rcases mem_append.mp member with old | new
        · exact logged b' old
        · rwa [mem_singleton.mp new]

theorem Pays.allows {panic : Panic} (other : panic ≠ .freeingFreeBlock) :
    allowed ⟨panic, s.lh⟩ := by
  cases pays with
  | unlimited stops all => exact stops _ other
  | reserved blocks are within distinct logged stops =>
    have := length_le blocks are distinct logged
    exact stops _ other (by change s.lh.length ≤ _; omega)

theorem fail_spec {α : Type} {post : α → Store → Prop} {panic : Panic}
    (other : panic ≠ .freeingFreeBlock) : Prog.Ensures allowed (fail panic) s post :=
  .bind (.get (.throw (pays.allows other)))

theorem logWrite_spec {b : Nat} {data : ByteSpace} {post : PUnit → Store → Prop}
    (holds : post ⟨⟩ (s.wrote b data)) :
    Prog.Ensures allowed (logWrite sb b data) s post := by
  unfold logWrite
  refine .bind (.get (.ite (fun _ => fail_spec pays (by decide)) fun _ => ?_))
  exact .ite (fun _ => fail_spec pays (by decide)) fun _ => .of_modify holds

end

theorem logWrite_ok {b : Nat} {data : ByteSpace} (room : s.lh.length < logSize)
    (room' : s.lh.length + 1 < sb.nlog) (inOp : s.outstanding ≠ 0) :
    logWrite sb b data s = .ok (⟨⟩, s.wrote b data) := by
  have first : ¬ (logSize ≤ s.lh.length ∨ sb.nlog ≤ s.lh.length + 1) := by omega
  have second : ¬ s.outstanding < 1 := by omega
  unfold logWrite
  rw [Prog.bind_ok (show (get : StoreM Store) s = .ok (s, s) from rfl), if_neg first, if_neg second]
  rfl

structure SameTable (s s' : Store) : Prop where
  table : s'.table = s.table
  cached : s'.cached = s.cached
  outstanding : s'.outstanding = s.outstanding

theorem SameTable.refl (s : Store) : SameTable s s := ⟨rfl, rfl, rfl⟩

theorem SameTable.trans {s'' : Store} (first : SameTable s s') (second : SameTable s' s'') :
    SameTable s s'' :=
  ⟨second.table.trans first.table, second.cached.trans first.cached,
    second.outstanding.trans first.outstanding⟩

theorem SameTable.wrote (s : Store) (b : Nat) (data : ByteSpace) : SameTable s (s.wrote b data) :=
  ⟨rfl, rfl, rfl⟩

structure Logged (s s' : Store) : Prop where
  more : ∀ x ∈ s.lh, x ∈ s'.lh
  same : ∀ x, x ∉ s'.lh → s'.disk x = s.disk x

theorem Logged.refl (s : Store) : Logged s s := ⟨fun _ logged => logged, fun _ _ => rfl⟩

theorem Logged.trans {s'' : Store} (first : Logged s s') (second : Logged s' s'') :
    Logged s s'' where
  more x logged := second.more x (first.more x logged)
  same x unlogged := by
    rw [second.same x unlogged, first.same x fun early => unlogged (second.more x early)]

theorem mem_lh_wrote {b x : Nat} {data : ByteSpace} :
    x ∈ (s.wrote b data).lh ↔ x ∈ s.lh ∨ x = b := by
  unfold Store.wrote
  split
  next present => exact ⟨.inl, fun either => either.elim id fun same => same ▸ present⟩
  next => simp

theorem Logged.wrote (s : Store) (b : Nat) (data : ByteSpace) : Logged s (s.wrote b data) where
  more _ logged := mem_lh_wrote.mpr (.inl logged)
  same _ unlogged := update_of_ne (fun same => unlogged (mem_lh_wrote.mpr (.inr same))) _ _

/-! ## balloc and bfree -/

def Used (sb : Superblock) (disk : Blocks) (b : Nat) : Prop := usedAt sb disk b = true

def Store.allocated (sb : Superblock) (s : Store) (b : Nat) : Store :=
  (s.wrote (sb.bblock b) (setBit (s.disk (sb.bblock b)) (b % bpb))).wrote b zeroes

variable {disk : Blocks}

theorem used_of_firstFree_none (none : firstFree sb disk = none) {b : Nat} (below : b < sb.size) :
    Used sb disk b := by
  have taken := find?_eq_none.mp none b (mem_range.mpr below)
  rw [Used]
  simpa using taken

theorem firstFree_spec {b : Nat} (found : firstFree sb disk = some b) :
    b < sb.size ∧ ¬ Used sb disk b := by
  have member := mem_of_find?_eq_some found
  have free := find?_some found
  refine ⟨mem_range.mp member, fun used => ?_⟩
  rw [Used] at used
  rw [used] at free
  exact absurd free (by decide)

theorem balloc_spec (pays : Pays allowed s paid (k + 1))
    (bitmap : ∀ b < sb.size, sb.bblock b ∈ paid) :
    Prog.Ensures allowed (balloc sb) s fun b s' =>
      (b = 0 ∧ s' = s ∧ ∀ x < sb.size, Used sb s.disk x) ∨
      (b < sb.size ∧ ¬ Used sb s.disk b ∧ s' = s.allocated sb b ∧
        Pays allowed s' (insert b paid) k) := by
  unfold balloc
  refine .bind (.get ?_)
  cases found : firstFree sb s.disk with
  | none => exact .pure (.inl ⟨rfl, rfl, fun x below => used_of_firstFree_none found below⟩)
  | some b =>
    obtain ⟨below, unused⟩ := firstFree_spec found
    have pays₁ :=
      (pays.pay b).wrote (.inr (bitmap b below)) (setBit (s.disk (sb.bblock b)) (b % bpb))
    refine .bind (logWrite_spec pays (.bind (logWrite_spec pays₁ (.pure (.inr ?_)))))
    exact ⟨below, unused, rfl, pays₁.wrote (.inl rfl) _⟩

theorem SameTable.allocated (s : Store) (b : Nat) : SameTable s (s.allocated sb b) :=
  (SameTable.wrote ..).trans (.wrote ..)

theorem Logged.allocated (s : Store) (b : Nat) : Logged s (s.allocated sb b) :=
  (Logged.wrote ..).trans (.wrote ..)

theorem mem_lh_allocated {b x : Nat} :
    x ∈ (s.allocated sb b).lh ↔ x ∈ s.lh ∨ x = sb.bblock b ∨ x = b := by
  rw [Store.allocated, mem_lh_wrote, mem_lh_wrote, or_assoc]

theorem dinodeAt_data (sound : sb.Sound) {b i : Nat} (data : sb.first ≤ b)
    (inside : i < sb.ninodes) (bytes : ByteSpace) :
    dinodeAt sb (update disk b bytes) i = dinodeAt sb disk i := by
  have := sound.inodesBefore _ inside
  rw [dinodeAt, update_of_ne (by omega)]
  rfl

section Sound

variable (sound : sb.Sound)

include sound

theorem viewOf_update {inum b : Nat} {inode : Dinode} (data : sb.first ≤ b) (bytes : ByteSpace) :
    viewOf sb (update disk b bytes) inum inode = (viewOf sb disk inum inode).setBlock b bytes := by
  rw [viewOf, volumeOf_update sound.inodesBefore data]
  rfl

theorem viewOf_allocated {inum b : Nat} {inode : Dinode} (data : sb.first ≤ b)
    (below : b < sb.size) :
    viewOf sb (s.allocated sb b).disk inum inode =
      (viewOf sb s.disk inum inode).setBlock b zeroes := by
  change viewOf sb (update (markUsed sb s.disk b) b zeroes) inum inode = _
  rw [viewOf_update sound data, viewOf, markUsed, volumeOf_bitmap sound below]
  rfl

theorem used_allocated {b b' : Nat} (data : sb.first ≤ b) (below : b' < sb.size) :
    Used sb (s.allocated sb b).disk b' ↔ Used sb s.disk b' ∨ b' = b := by
  change usedAt sb (update (markUsed sb s.disk b) b zeroes) b' = true ↔ _
  rw [usedAt_update sound data below, usedAt_markUsed]
  simp [Used, or_comm]

theorem dinodeAt_allocated {b i : Nat} (data : sb.first ≤ b) (inside : i < sb.ninodes) :
    dinodeAt sb (s.allocated sb b).disk i = dinodeAt sb s.disk i := by
  change dinodeAt sb (update (markUsed sb s.disk b) b zeroes) i = _
  rw [dinodeAt_data sound data inside, dinodeAt, markUsed,
    update_of_ne (iblock_ne_bblock sound b inside)]
  rfl

end Sound

/-! ## iupdate -/

def Store.updated (sb : Superblock) (s : Store) (inum : Nat) (inode : Dinode) : Store :=
  s.wrote (sb.iblock inum) (storeDinode (s.disk (sb.iblock inum)) (inum % ipb) inode)

theorem iupdate_spec {inum : Nat} {inode : Dinode} {post : PUnit → Store → Prop}
    (pays : Pays allowed s paid k) (holds : post ⟨⟩ (s.updated sb inum inode)) :
    Prog.Ensures allowed (iupdate sb inum inode) s post :=
  .bind (.of_eq rfl (logWrite_spec pays holds))

theorem Pays.updated (pays : Pays allowed s paid k) {inum : Nat} (isPaid : sb.iblock inum ∈ paid)
    (inode : Dinode) : Pays allowed (s.updated sb inum inode) paid k := pays.wrote isPaid _

theorem updated_disk (inum : Nat) (inode : Dinode) :
    (s.updated sb inum inode).disk = writeDinode sb s.disk inum inode := rfl

end Xv6.Disk
