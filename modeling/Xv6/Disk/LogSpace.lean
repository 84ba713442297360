import Xv6.Disk.SharedOffset

/-!
# The blocks of one section of a write

`filewrite` writes at most `maxWrite` bytes between `begin_op` and `end_op`. Every
block that it allocates costs a block of the bitmap, perhaps each time another one,
and the block itself. A block that is there costs only itself, and if the section
does not start at a block boundary its first block is there.
-/

namespace Xv6.Disk

open Volume
open Prog (Ensures Returns)

variable {sb : Superblock} {s s' : Store} {inum limit : Nat} {inode : Dinode}

/-- The blocks on which a program calls `log_write`. Another operation is
outstanding, so that the program does not end the transaction. -/
def loggedBy {α : Type} (prog : StoreM α) (s : Store) : List Nat :=
  match prog { s with lh := [], outstanding := s.outstanding + 1 } with
  | .ok (_, s') => s'.lh
  | .error stop => stop.lh

def Within (limit : Nat) (stop : Stop) : Prop := stop.lh.length ≤ limit

theorem length_wrote (s : Store) (b : Nat) (data : ByteSpace) :
    (s.wrote b data).lh.length = s.lh.length + if b ∈ s.lh then 0 else 1 := by
  unfold Store.wrote
  split
  next => rfl
  next => exact List.length_append

theorem fail_within {α : Type} {post : α → Store → Prop} (room : s.lh.length ≤ limit)
    (panic : Panic) : Ensures (Within limit) (fail panic) s post := .bind (.get (.throw room))

theorem logWrite_within {b : Nat} {data : ByteSpace} {post : PUnit → Store → Prop}
    (room : s.lh.length ≤ limit) (holds : post ⟨⟩ (s.wrote b data)) :
    Ensures (Within limit) (logWrite sb b data) s post := by
  unfold logWrite
  refine .bind (.get (.ite (fun _ => fail_within room _) fun _ => ?_))
  exact .ite (fun _ => fail_within room _) fun _ => .of_modify holds

structure Adds (k : Nat) (s s' : Store) : Prop where
  length : s'.lh.length ≤ s.lh.length + k
  more : ∀ b ∈ s.lh, b ∈ s'.lh

theorem adds_wrote (s : Store) (b : Nat) (data : ByteSpace) : Adds 1 s (s.wrote b data) := by
  refine ⟨?_, fun _ member => mem_lh_wrote.mpr (.inl member)⟩
  rw [length_wrote]
  split <;> omega

theorem balloc_within (room : s.lh.length + 2 ≤ limit) :
    Ensures (Within limit) (balloc sb) s fun b s' =>
      Adds 2 s s' ∧ (b ≠ 0 → b ∈ s'.lh ∧ s'.disk b = zeroes) := by
  unfold balloc
  refine .bind (.get ?_)
  split
  next =>
    exact .pure ⟨⟨Nat.le_add_right _ 2, fun _ member => member⟩, fun present => absurd rfl present⟩
  next b _ =>
    have first := adds_wrote s (sb.bblock b) (setBit (s.disk (sb.bblock b)) (b % bpb))
    have second :=
      adds_wrote (s.wrote (sb.bblock b) (setBit (s.disk (sb.bblock b)) (b % bpb))) b zeroes
    have := first.length
    have := second.length
    refine .bind
      (logWrite_within (by omega)
        (.bind (logWrite_within (by omega) (.pure ⟨⟨by omega, ?_⟩, fun _ => ?_⟩))))
    · exact fun b member => second.more b (first.more b member)
    · exact ⟨mem_lh_wrote.mpr (.inr rfl), Function.update_self ..⟩

/-- What it may cost to have an indirect block in the log. It costs two blocks if
there is none. -/
def indirectCost (s : Store) (b : Nat) : Nat := if b ≠ 0 ∧ b ∈ s.lh then 0 else 2

theorem Adds.indirectCost_le {k : Nat} (adds : Adds k s s') (b : Nat) :
    indirectCost s' b ≤ indirectCost s b := by
  unfold indirectCost
  split
  next => exact Nat.zero_le _
  next notLogged => rw [if_neg fun logged => notLogged ⟨logged.1, adds.more _ logged.2⟩]

/-- The cost of a block of the file that is not there. It is in the log afterwards. -/
structure Charged (s : Store) (b : Nat) (addr : Nat) (s' : Store) (b' : Nat) : Prop where
  cost : s'.lh.length + indirectCost s' b' ≤ s.lh.length + indirectCost s b + 2
  logged : addr ≠ 0 → addr ∈ s'.lh

theorem bmapEntry_within {b j : Nat} (present : b ≠ 0)
    (room : s.lh.length + indirectCost s b + 2 ≤ limit) :
    Ensures (Within limit) (bmapEntry sb b j) s fun r s' =>
      s' = s ∧ (s.disk b).load (4 * j) 4 ≠ 0 ∨ Charged s b r s' b := by
  unfold bmapEntry
  refine .bind (.of_eq rfl (.ite (fun _ => ?_) fun nonzero => .pure (.inl ⟨rfl, nonzero⟩)))
  refine .seq (balloc_within (by omega)) ?_
  rintro addr s₁ ⟨adds, logged⟩
  have := adds.length
  have := adds.indirectCost_le b
  refine .ite (fun _ => .pure (.inr ⟨by omega, fun some => absurd rfl some⟩)) fun some => ?_
  refine .bind (logWrite_within (by omega) (.pure (.inr ⟨?_, fun _ => ?_⟩)))
  · have paid : ∀ data, indirectCost (s₁.wrote b data) b = 0 :=
      fun _ => if_pos ⟨present, mem_lh_wrote.mpr (.inr rfl)⟩
    rw [paid, length_wrote]
    split
    next => omega
    next notLogged =>
      have unpaid : indirectCost s b = 2 := if_neg fun early => notLogged (adds.more b early.2)
      omega
  · exact mem_lh_wrote.mpr (.inl (logged some).1)

theorem bmap_within {bn : Nat}
    (room : s.lh.length + indirectCost s (inode.addr ndirect) + 2 ≤ limit) :
    Ensures (Within limit) (bmap sb inode bn) s fun r s' =>
      s' = s ∧ r.2 = inode ∨ Charged s (inode.addr ndirect) r.1 s' (r.2.addr ndirect) := by
  unfold bmap
  refine .ite (fun direct => .ite (fun _ => ?_) fun _ => .pure (.inl ⟨rfl, rfl⟩)) fun _ =>
    .ite (fun _ => ?_) fun _ => ?_
  · refine .seq (balloc_within (by omega)) ?_
    rintro addr s₁ ⟨adds, logged⟩
    have := adds.length
    have := adds.indirectCost_le (inode.addr ndirect)
    refine .ite (fun _ => .pure (.inr ⟨by simp only; omega, fun some => absurd rfl some⟩))
      fun some =>
      .pure (.inr ⟨?_, fun _ => (logged some).1⟩)
    rw [Dinode.addr_setAddr _ _ _ (by omega), if_neg (by omega)]
    omega
  · refine .ite (fun absent => ?_) fun present => .seq (bmapEntry_within present room) ?_
    · have unpaid : indirectCost s (inode.addr ndirect) = 2 :=
        if_neg fun present => present.1 absent
      refine .seq (balloc_within (by omega)) ?_
      rintro indirect s₁ ⟨adds, logged⟩
      have := adds.length
      have := adds.indirectCost_le (inode.addr ndirect)
      refine .ite (fun _ => .pure (.inr ⟨by simp only; omega, fun some => absurd rfl some⟩))
        fun some => ?_
      obtain ⟨isLogged, empty⟩ := logged some
      have paid : indirectCost s₁ indirect = 0 := if_pos ⟨some, isLogged⟩
      refine .seq (bmapEntry_within some (by omega)) ?_
      rintro addr s₂ (⟨-, nonzero⟩ | charged)
      · rw [empty, load_zeroes] at nonzero
        exact absurd rfl nonzero
      · refine .pure (.inr ⟨?_, charged.logged⟩)
        have := charged.cost
        rw [Dinode.addr_setAddr _ _ _ (by omega), if_pos rfl]
        omega
    · rintro addr s₁ (⟨rfl, -⟩ | charged)
      · exact .pure (.inl ⟨rfl, rfl⟩)
      · exact .pure (.inr charged)
  · exact fail_within (by omega) _

variable {source : Nat → Option UInt8}

/-- The loop of `writei`: two blocks for each block of the file, or one for the first
if it is there. -/
theorem writeBlocks_within {fuel off tot n saved : Nat}
    (first : saved = 0 ∨ saved = 1 ∧ n ≠ 0 ∧
      ∃ addr, bmap sb inode (off / bsize) s = .ok ((addr, inode), s))
    (room : s.lh.length + indirectCost s (inode.addr ndirect) + 2 * spanned off n ≤ limit + saved) :
    Ensures (Within limit) (writeBlocks sb source fuel inode off tot n) s fun _ s' =>
      s'.lh.length ≤ limit := by
  have start : s.lh.length ≤ limit := by
    rcases first with rfl | ⟨rfl, some, -⟩
    · omega
    · have : 0 < spanned off n := by
        rw [spanned, if_neg some]
        omega
      omega
  induction fuel generalizing s inode off tot n saved with
  | zero => exact .pure start
  | succ fuel ih =>
    unfold writeBlocks
    refine .ite (fun _ => .pure start) fun more => ?_
    rw [spanned_chunk more] at room
    have mapped : Ensures (Within limit) (bmap sb inode (off / bsize)) s fun r s₁ =>
        s₁ = s ∧ r.2 = inode ∨ saved = 0 ∧
          Charged s (inode.addr ndirect) r.1 s₁ (r.2.addr ndirect) := by
      rcases first with rfl | ⟨-, -, addr, run⟩
      · exact (bmap_within (by omega)).mono fun r s₁ result => result.imp id fun charged =>
          ⟨rfl, charged⟩
      · exact .of_eq run (.inl ⟨rfl, rfl⟩)
    refine .seq mapped ?_
    rintro ⟨addr, inode₁⟩ s₁ result
    have few : s₁.lh.length ≤ limit := by
      rcases result with ⟨rfl, -⟩ | ⟨rfl, charged⟩
      · exact start
      · have := charged.cost
        omega
    refine .ite (fun _ => .pure few) fun present => .bind (.of_eq rfl ?_)
    have cost : ∀ data, (s₁.wrote addr data).lh.length +
        indirectCost (s₁.wrote addr data) (inode₁.addr ndirect) + saved ≤
          s.lh.length + indirectCost s (inode.addr ndirect) + 2 := by
      intro data
      have := (adds_wrote s₁ addr data).indirectCost_le (inode₁.addr ndirect)
      rcases result with ⟨rfl, same⟩ | ⟨rfl, charged⟩
      · obtain rfl : inode₁ = inode := same
        have := (adds_wrote s₁ addr data).length
        omega
      · have paid : s₁.lh.length + indirectCost s₁ (inode₁.addr ndirect) ≤ _ := charged.cost
        rw [length_wrote, if_pos (charged.logged present)]
        omega
    have rest : ∀ data,
        Ensures (Within limit) (writeBlocks sb source fuel inode₁ (off + chunk off n)
          (tot + chunk off n) (n - chunk off n)) (s₁.wrote addr data) fun _ s' =>
            s'.lh.length ≤ limit := by
      intro data
      have := cost data
      exact ih (.inl rfl) (by omega) (by omega)
    exact .ite (fun _ => .bind (.of_modify (.pure few))) fun _ =>
      .bind (logWrite_within few (rest _))

theorem spanned_le {n : Nat} (off : Nat) (piece : n ≤ maxWrite) :
    spanned off n ≤ 3 ∨ spanned off n ≤ 4 ∧ off % bsize ≠ 0 ∧ n ≠ 0 := by
  change n ≤ 3 * 1024 at piece
  unfold spanned bsize
  split <;> omega

variable {off n : Nat}

theorem writei_within (piece : n ≤ maxWrite)
    (holeFree : (viewOf sb s.disk inum inode).HoleFree inum)
    (room : s.lh.length + maxOpBlocks ≤ limit) :
    Ensures (Within limit) (writei sb inum inode source off n) s fun _ s' =>
      s'.lh.length ≤ limit := by
  change s.lh.length + 10 ≤ limit at room
  have cost : indirectCost s (inode.addr ndirect) ≤ 2 := by
    unfold indirectCost
    split <;> omega
  unfold writei
  refine .ite (fun _ => .pure (by omega)) fun within =>
    .ite (fun _ => .pure (by omega)) fun short => ?_
  have blocks : Ensures (Within (limit - 1)) (writeBlocks sb source n inode off 0 n) s
      fun _ s' => s'.lh.length ≤ limit - 1 := by
    rcases spanned_le off piece with few | ⟨four, unaligned, some⟩
    · exact writeBlocks_within (.inl rfl) (by omega)
    · -- the size is not before `off`, so the block of `off` is mapped
      have inside : off / bsize < maxFile := Nat.div_lt_of_lt_mul (by rw [Nat.mul_comm]; omega)
      have below : off / bsize * bsize < ((viewOf sb s.disk inum inode).inode inum).size := by
        rw [viewOf_inode]
        have := Nat.div_add_mod' off bsize
        omega
      exact writeBlocks_within (.inr ⟨rfl, some, _, bmap_mapped inside (holeFree.2 _ below)⟩)
        (by omega)
  refine .seq (blocks.imp fun stop few => ?_) ?_
  · change stop.lh.length ≤ limit - 1 at few
    change stop.lh.length ≤ limit
    omega
  · rintro ⟨⟨tot', off'⟩, inode'⟩ s₁ few
    refine .bind (.bind (.of_eq rfl (logWrite_within (by omega) (.pure ?_))))
    rw [length_wrote]
    split <;> omega

/-- An operation that has written nothing else has room in the log for a piece. -/
theorem writei_fits (inOp : s.outstanding ≠ 0) (piece : n ≤ maxWrite)
    (holeFree : (viewOf sb s.disk inum inode).HoleFree inum)
    (room : s.lh.length + maxOpBlocks < logSize) (log : s.lh.length + maxOpBlocks + 1 < sb.nlog) :
    Returns (writei sb inum inode source off n) s fun _ _ => True := by
  have few : Ensures (Within (s.lh.length + maxOpBlocks)) (writei sb inum inode source off n) s _ :=
    writei_within piece holeFree le_rfl
  refine (((writei_stops inOp).and few).imp fun stop ⟨⟨_, full⟩, within⟩ => ?_).mono fun _ _ _ =>
    trivial
  unfold LogFull at full
  change stop.lh.length ≤ s.lh.length + maxOpBlocks at within
  omega

theorem ilock_within
    (copy : (s.table inum).valid = true → (s.table inum).inode = dinodeAt sb s.disk inum)
    (room : s.lh.length ≤ limit) :
    Ensures (Within limit) (ilock sb inum) s fun inode s' =>
      inode = dinodeAt sb s.disk inum ∧ s'.disk = s.disk ∧ s'.lh = s.lh := by
  unfold ilock setEntry
  refine .bind
    (.get
      (.ite (fun _ => fail_within room _) fun _ => .ite (fun _ => fail_within room _) fun _ => ?_))
  refine .ite (fun valid => .bind (.of_modify (.pure ⟨copy valid, rfl, rfl⟩))) fun _ =>
    .bind (.of_modify ?_)
  exact .ite (fun _ => fail_within (by exact room) _) fun _ => .pure ⟨rfl, rfl, rfl⟩

/-- A section of `filewrite` fits into the log: it calls `log_write` on at most
`maxOpBlocks` blocks, whatever the size of the disk and wherever the free blocks are. -/
theorem writeSection_fits {source : Nat → Option UInt8} (inside : inum < sb.ninodes)
    (copy : (s.table inum).valid = true → (s.table inum).inode = dinodeAt sb s.disk inum)
    (holeFree : (volumeOf sb s.disk).HoleFree inum) (piece : n ≤ maxWrite) :
    (loggedBy (writeSection sb inum source off n) s).toFinset.card ≤ maxOpBlocks := by
  have section' : Ensures (Within maxOpBlocks) (writeSection sb inum source off n)
      { s with lh := [], outstanding := s.outstanding + 1 } fun _ s' =>
        s'.lh.length ≤ maxOpBlocks := by
    unfold writeSection beginOp endOp iunlock setEntry
    refine .bind (.of_modify (.seq (ilock_within (by exact copy) (Nat.zero_le _)) ?_))
    rintro _ s₁ ⟨rfl, disk, empty⟩
    have view : viewOf sb s₁.disk inum (dinodeAt sb s.disk inum) = volumeOf sb s.disk := by
      rw [disk, viewOf_dinodeAt _ inside]
    refine .seq (writei_within piece (by rwa [view]) (by rw [empty]; rfl)) ?_
    rintro ⟨r, inode⟩ s₂ few
    refine .bind
      (.bind
        (.get
          (.ite (fun _ => fail_within few _) fun _ => .of_modify (.bind (.of_modify (.pure ?_))))))
    simp only
    split
    next => exact Nat.zero_le _
    next => exact few
  unfold loggedBy
  refine le_trans (List.toFinset_card_le _) ?_
  split
  next run => exact section'.of_ok run
  next run => exact section'.of_error run

/-- Three blocks of bytes from the fifth byte of a file on: the first block is there,
and the other three come from one block of the bitmap. -/
theorem writeSection_fits_fiveBytes :
    loggedBy (writeSection OneFile.layout 1 (fun _ => some 65) 4 maxWrite) SharedOffset.opened =
        [37, 36, 38, 39, 40, 32] ∧
      (loggedBy (writeSection OneFile.layout 1 (fun _ => some 65) 4 maxWrite)
        SharedOffset.opened).toFinset.card ≤
        maxOpBlocks := by
  have writable := SharedOffset.opened_writable
  refine ⟨by decide +kernel,
    writeSection_fits writable.inside writable.copy writable.holeFree le_rfl⟩

end Xv6.Disk
