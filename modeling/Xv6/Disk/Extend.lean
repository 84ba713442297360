import Xv6.Disk.Volume

/-!
# Files that grow

A file gets new blocks full of zeros, and its old blocks and all other files stay
as they are. `Filled` says which bytes a file has when it is written from front to
back.
-/

namespace Xv6.Disk

namespace Volume

variable {v v' v'' w : Volume} {first size : Nat} {used : Nat → Prop} {i k x : Nat}

/-- Every file has the blocks it had, and file `i` may have more. -/
structure Maps (v v' : Volume) (i : Nat) : Prop where
  others : ∀ i' ≠ i, v'.inode i' = v.inode i'
  fields : { v'.inode i with addrs := (v.inode i).addrs } = v.inode i
  othersAddr : ∀ i' ≠ i, ∀ k, v'.addr i' k = v.addr i' k
  addr : ∀ i' k, v.addr i' k ≠ 0 → v'.addr i' k = v.addr i' k

theorem Maps.fileBlock (maps : Maps v v' i) {i' bn : Nat} (present : v.fileBlock i' bn ≠ 0) :
    v'.fileBlock i' bn = v.fileBlock i' bn := maps.addr i' (slotOf bn) present

theorem Maps.trans (first : Maps v v' i) (second : Maps v' v'' i) : Maps v v'' i where
  others i' other := (second.others i' other).trans (first.others i' other)
  fields := by
    have inner := first.fields
    have outer := second.fields
    rw [← outer] at inner
    exact inner
  othersAddr i' other k := (second.othersAddr i' other k).trans (first.othersAddr i' other k)
  addr i' k present := by
    have same := first.addr i' k present
    rw [second.addr i' k (by rwa [same]), same]

/-- `v'` is `v` with new blocks for file `i`. -/
structure Extends (v v' : Volume) (i : Nat) : Prop extends Maps v v' i where
  bytes : ∀ i' bn, bn < maxFile → v.fileBlock i' bn ≠ 0 →
    v'.block (v.fileBlock i' bn) = v.block (v.fileBlock i' bn)
  zero : ∀ bn, bn < maxFile → v.fileBlock i bn = 0 → v'.fileBlock i bn ≠ 0 →
    v'.block (v'.fileBlock i bn) = zeroes

theorem Extends.refl (v : Volume) (i : Nat) : Extends v v i where
  others _ _ := rfl
  fields := rfl
  othersAddr _ _ _ := rfl
  addr _ _ _ := rfl
  bytes _ _ _ _ := rfl
  zero _ _ absent present := absurd absent present

theorem Extends.trans (first : Extends v v' i) (second : Extends v' v'' i) : Extends v v'' i where
  toMaps := first.toMaps.trans second.toMaps
  bytes i' bn inside present := by
    have same := first.fileBlock present
    have later := second.bytes i' bn inside (by rwa [same])
    rw [same] at later
    rw [later, first.bytes i' bn inside present]
  zero bn inside absent present := by
    by_cases between : v'.fileBlock i bn = 0
    · exact second.zero bn inside between present
    · have later := second.bytes i bn inside between
      rw [second.fileBlock between, later]
      exact first.zero bn inside absent between

variable {bn : Nat}

section Grow

variable (owned : v.Owned first size used) (growable : Growable v first size used i k x)
  (positive : 0 < first) (small : size < 2 ^ 32)

include owned growable positive small

theorem extends_grow : Extends v (v.grow i k x) i := by
  have addr := addr_grow owned growable positive small
  have fresh := growable.fresh owned
  have indirect : (v.inode i).addr ndirect = v.addr i ndirect :=
    (addr_direct growable.inUse le_rfl).symm
  refine ⟨⟨fun i' other => grow_inode_ne other, ?_, ?_, ?_⟩, ?_, ?_⟩
  · rw [grow_inode]
    split <;> rfl
  · intro i' other k'
    rw [addr, if_neg (fun same => other same.1)]
  · intro i' k' present
    rw [addr, if_neg]
    rintro ⟨rfl, rfl⟩
    exact present growable.empty
  · intro i' bn inside present
    apply grow_block
    · exact fresh i' _ (slotOf_lt inside)
    · intro beyond
      rw [indirect]
      exact Ne.symm
        (owned.plain (slotOf_lt inside) (slotOf_ne_ndirect bn) i (growable.indirect beyond))
  · intro bn inside absent present
    have here : (v.grow i k x).fileBlock i bn = x := by
      unfold Volume.fileBlock at absent present ⊢
      rw [addr] at present ⊢
      by_cases isSlot : slotOf bn = k
      · rw [if_pos ⟨rfl, isSlot⟩]
      · rw [if_neg (fun same => isSlot same.2)] at present
        exact absurd absent present
    rw [here]
    apply grow_block_new
    intro beyond equal
    rw [indirect] at equal
    exact fresh i ndirect ndirect_lt_slots equal.symm

omit growable in
theorem fileBlock_grow (growable : Growable v first size used i (slotOf bn) x) (i' bn' : Nat) :
    (v.grow i (slotOf bn) x).fileBlock i' bn' =
      if i' = i ∧ bn' = bn then x else v.fileBlock i' bn' := by
  unfold Volume.fileBlock
  rw [addr_grow owned growable positive small]
  by_cases same : bn' = bn
  · subst same
    simp
  · have apart : slotOf bn' ≠ slotOf bn := fun equal => same (slotOf_injective equal)
    simp [same, apart]

omit growable in
theorem indirect_grow (growable : Growable v first size used i (slotOf bn) x) (i' : Nat) :
    (v.grow i (slotOf bn) x).addr i' ndirect = v.addr i' ndirect := by
  rw [addr_grow owned growable positive small, if_neg]
  exact fun same => slotOf_ne_ndirect bn same.2.symm

omit growable in
theorem fileBlock_grow_indirect (growable : Growable v first size used i ndirect x) (i' bn : Nat) :
    (v.grow i ndirect x).fileBlock i' bn = v.fileBlock i' bn := by
  unfold Volume.fileBlock
  rw [addr_grow owned growable positive small, if_neg]
  exact fun same => slotOf_ne_ndirect bn same.2

end Grow

/-! ## Bytes -/

theorem Extends.byte (extends' : Extends v v' i) {i' off : Nat} (inside : off / bsize < maxFile)
    (present : v.fileBlock i' (off / bsize) ≠ 0) : v'.byte i' off = v.byte i' off := by
  unfold Volume.byte
  rw [extends'.fileBlock present, extends'.bytes i' _ inside present]

theorem addr_write (owned : v.Owned first size used) (inside : bn < maxFile) (data : ByteSpace)
    (i' k : Nat) : (v.setBlock (v.fileBlock i bn) data).addr i' k = v.addr i' k :=
  addr_setBlock data (owned.plain (slotOf_lt inside) (slotOf_ne_ndirect bn)) i' k

theorem fileBlock_setBlock (owned : v.Owned first size used) (inside : bn < maxFile)
    (data : ByteSpace) (i' bn' : Nat) :
    (v.setBlock (v.fileBlock i bn) data).fileBlock i' bn' = v.fileBlock i' bn' :=
  addr_write owned inside data i' _

theorem byte_setBlock (owned : v.Owned first size used) (inside : bn < maxFile) (data : ByteSpace)
    {i' off : Nat} (inside' : off / bsize < maxFile) (present : v.fileBlock i' (off / bsize) ≠ 0) :
    (v.setBlock (v.fileBlock i bn) data).byte i' off =
      if i' = i ∧ off / bsize = bn then data (off % bsize) else v.byte i' off := by
  unfold Volume.byte
  rw [fileBlock_setBlock owned inside]
  by_cases same : i' = i ∧ off / bsize = bn
  · obtain ⟨rfl, rfl⟩ := same
    rw [if_pos ⟨rfl, rfl⟩, setBlock_block_same]
  · rw [if_neg same]
    rw [setBlock_block_ne]
    intro equal
    apply same
    obtain ⟨isFile, isSlot⟩ :=
      owned.once i' _ i _ (slotOf_lt inside') (slotOf_lt inside) present equal
    exact ⟨isFile, slotOf_injective isSlot⟩

/-! ## Files written from front to back -/

structure Filled (v : Volume) (i : Nat) (text : List UInt8) : Prop where
  mapped : ∀ bn, bn < maxFile → (v.fileBlock i bn ≠ 0 ↔ bn * bsize < text.length)
  indirect : v.addr i ndirect ≠ 0 ↔ ndirect * bsize < text.length
  bytes : ∀ off b, text[off]? = some b → v.byte i off = b
  short : text.length ≤ maxFile * bsize

variable {text : List UInt8}

theorem Filled.inside (filled : Filled v i text) {off : Nat} (below : off < text.length) :
    off / bsize < maxFile := by
  have := filled.short
  exact Nat.div_lt_of_lt_mul (by rw [Nat.mul_comm]; omega)

theorem Filled.present (filled : Filled v i text) {off : Nat} (below : off < text.length) :
    v.fileBlock i (off / bsize) ≠ 0 := by
  refine (filled.mapped _ (filled.inside below)).mpr ?_
  have := Nat.div_mul_le_self off bsize
  omega

theorem Filled.congr (filled : Filled v i text) (addr : ∀ k, v'.addr i k = v.addr i k)
    (bytes : ∀ off < text.length, v'.byte i off = v.byte i off) : Filled v' i text where
  mapped bn inside := by
    unfold Volume.fileBlock
    rw [addr]
    exact filled.mapped bn inside
  indirect := by
    rw [addr]
    exact filled.indirect
  bytes off b char := by
    rw [bytes off (List.getElem?_eq_some_iff.mp char).1]
    exact filled.bytes off b char
  short := filled.short

theorem Filled.extends_other {i' : Nat} (filled : Filled v i' text)
    (extends' : Extends v v' i) (other : i' ≠ i) : Filled v' i' text :=
  filled.congr (extends'.othersAddr i' other) fun _ below =>
    extends'.byte (filled.inside below) (filled.present below)

theorem Filled.write_other {i' bn : Nat} (filled : Filled v i' text)
    (owned : v.Owned first size used) (inside : bn < maxFile) (data : ByteSpace) (other : i' ≠ i) :
    Filled (v.setBlock (v.fileBlock i bn) data) i' text := by
  refine filled.congr (addr_write owned inside data i') ?_
  intro off below
  rw [byte_setBlock owned inside data (filled.inside below) (filled.present below),
    if_neg (fun same => other same.1)]

structure Ready (v : Volume) (i : Nat) (text : List UInt8) : Prop where
  inside : text.length / bsize < maxFile
  mapped : ∀ bn, bn < maxFile → (v.fileBlock i bn ≠ 0 ↔ bn ≤ text.length / bsize)
  indirect : v.addr i ndirect ≠ 0 ↔ ndirect ≤ text.length / bsize
  bytes : ∀ off b, text[off]? = some b → v.byte i off = b

theorem Ready.write {text p : List UInt8} (ready : Ready v i text) (owned : v.Owned first size used)
    (nonempty : 0 < p.length) (fits : text.length % bsize + p.length ≤ bsize) :
    Filled (v.setBlock (v.fileBlock i (text.length / bsize))
      ((v.block (v.fileBlock i (text.length / bsize))).blit (text.length % bsize) p.length
        fun j => p.getD j 0)) i (text ++ p) := by
  have positive : 0 < bsize := by decide
  have split := Nat.div_add_mod text.length bsize
  have mapped_iff : ∀ bn, bn ≤ text.length / bsize ↔ bn * bsize < (text ++ p).length := by
    intro bn
    rw [List.length_append, Nat.le_div_iff_mul_le positive]
    constructor
    · intro low
      omega
    · intro high
      by_contra above
      have next : text.length / bsize + 1 ≤ bn := by
        rw [Nat.succ_le_iff, Nat.div_lt_iff_lt_mul positive]
        omega
      have := Nat.mul_le_mul_right bsize next
      have : (text.length / bsize + 1) * bsize = bsize * (text.length / bsize) + bsize := by ring
      omega
  constructor
  · intro bn inside
    rw [fileBlock_setBlock owned ready.inside, ready.mapped bn inside, mapped_iff]
  · rw [addr_write owned ready.inside, ready.indirect, mapped_iff]
  · intro off b char
    have below : off < (text ++ p).length := (List.getElem?_eq_some_iff.mp char).1
    have low : off / bsize ≤ text.length / bsize := by
      rw [mapped_iff]
      have := Nat.div_mul_le_self off bsize
      omega
    have inside : off / bsize < maxFile := lt_of_le_of_lt low ready.inside
    rw [byte_setBlock owned ready.inside _ inside ((ready.mapped _ inside).mpr low)]
    have splitOff := Nat.div_add_mod off bsize
    by_cases old : off < text.length
    · rw [List.getElem?_append_left old] at char
      have before := ready.bytes off b char
      split
      next same =>
        have less : off % bsize < text.length % bsize := by
          rw [same.2] at splitOff
          omega
        rw [ByteSpace.blit_of_outside _ _ (.inl less), ← before, Volume.byte, same.2]
      next => exact before
    · have same : off / bsize = text.length / bsize :=
        le_antisymm low (Nat.div_le_div_right (by omega))
      rw [List.getElem?_append_right (by omega)] at char
      rw [if_pos ⟨rfl, same⟩]
      have place : off % bsize = text.length % bsize + (off - text.length) := by
        rw [same] at splitOff
        omega
      have short : off - text.length < p.length := (List.getElem?_eq_some_iff.mp char).1
      rw [place, ByteSpace.blit_of_inside _ _ short, List.getD_eq_getElem?_getD, char]
      rfl
  · have high := ready.inside
    have : (text.length / bsize + 1) * bsize ≤ maxFile * bsize := Nat.mul_le_mul_right bsize high
    have : (text.length / bsize + 1) * bsize = bsize * (text.length / bsize) + bsize := by ring
    rw [List.length_append]
    omega

end Volume

end Xv6.Disk
