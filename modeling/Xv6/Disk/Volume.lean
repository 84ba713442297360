import Xv6.Disk.Format

/-!
# Volumes

What the inodes and data blocks of a disk mean: which blocks each inode refers
to, and which bytes its file has. An inode has 269 slots for block addresses: the
direct ones, the one of the indirect block, and those in the indirect block. A
volume is owned when no block is in two slots.
-/

namespace Xv6.Disk

open Function

structure Volume where
  inode : Nat → Dinode
  block : Nat → ByteSpace

def slots : Nat := maxFile + 1

def slotOf (bn : Nat) : Nat := if bn < ndirect then bn else bn + 1

theorem slotOf_ne_ndirect (bn : Nat) : slotOf bn ≠ ndirect := by
  unfold slotOf
  split <;> omega

theorem slotOf_lt {bn : Nat} (inside : bn < maxFile) : slotOf bn < slots := by
  unfold slotOf slots
  split <;> omega

theorem slotOf_injective {bn bn' : Nat} (same : slotOf bn = slotOf bn') : bn = bn' := by
  unfold slotOf at same
  split at same <;> split at same <;> omega

namespace Volume

variable (v : Volume)

/-- The address in a slot. A free inode has none. -/
def addr (i k : Nat) : Nat :=
  if (v.inode i).type = 0 then 0
  else if k ≤ ndirect then (v.inode i).addr k
  else if (v.inode i).addr ndirect = 0 then 0
  else (v.block ((v.inode i).addr ndirect)).load (4 * (k - (ndirect + 1))) 4

def fileBlock (i bn : Nat) : Nat := v.addr i (slotOf bn)

def byte (i off : Nat) : UInt8 := v.block (v.fileBlock i (off / bsize)) (off % bsize)

def HoleFree (i : Nat) : Prop :=
  (v.inode i).size ≤ maxFile * bsize ∧
    ∀ bn, bn * bsize < (v.inode i).size → v.fileBlock i bn ≠ 0

/-- No block is in two slots, and the used ones are those in a slot and those
before the data. -/
structure Owned (first size : Nat) (used : Nat → Prop) : Prop where
  place : ∀ i k, k < slots → v.addr i k ≠ 0 → first ≤ v.addr i k ∧ v.addr i k < size
  once : ∀ i k i' k', k < slots → k' < slots → v.addr i k ≠ 0 → v.addr i k = v.addr i' k' →
    i = i' ∧ k = k'
  used : ∀ b, b < size → (used b ↔ b < first ∨ ∃ i k, k < slots ∧ v.addr i k = b)

def setInode (i : Nat) (inode : Dinode) : Volume :=
  { v with inode := update v.inode i inode }

def setBlock (b : Nat) (data : ByteSpace) : Volume :=
  { v with block := update v.block b data }

def assign (i k x : Nat) : Volume :=
  if k ≤ ndirect then v.setInode i ((v.inode i).setAddr k x)
  else v.setBlock ((v.inode i).addr ndirect)
    ((v.block ((v.inode i).addr ndirect)).store (4 * (k - (ndirect + 1))) 4 x)

def grow (i k x : Nat) : Volume := (v.setBlock x zeroes).assign i k x

variable {v}

@[simp] theorem setInode_block (i : Nat) (inode : Dinode) : (v.setInode i inode).block = v.block :=
  rfl
@[simp] theorem setBlock_inode (b : Nat) (data : ByteSpace) : (v.setBlock b data).inode = v.inode :=
  rfl

@[simp] theorem setInode_inode_same (i : Nat) (inode : Dinode) :
    (v.setInode i inode).inode i = inode :=
  update_self ..

theorem setInode_inode_ne {i i' : Nat} (inode : Dinode) (other : i' ≠ i) :
    (v.setInode i inode).inode i' = v.inode i' := update_of_ne other ..

theorem setInode_setInode (i : Nat) (inode inode' : Dinode) :
    (v.setInode i inode).setInode i inode' = v.setInode i inode' := by
  unfold setInode
  rw [update_idem]

@[simp] theorem setBlock_block_same (b : Nat) (data : ByteSpace) :
    (v.setBlock b data).block b = data :=
  update_self ..

theorem setBlock_block_ne {b b' : Nat} (data : ByteSpace) (other : b' ≠ b) :
    (v.setBlock b data).block b' = v.block b' := update_of_ne other ..

/-! ## Addresses -/

theorem addr_of_free {i : Nat} (free : (v.inode i).type = 0) (k : Nat) : v.addr i k = 0 := by
  rw [addr, if_pos free]

theorem addr_direct {i k : Nat} (inUse : (v.inode i).type ≠ 0) (direct : k ≤ ndirect) :
    v.addr i k = (v.inode i).addr k := by
  rw [addr, if_neg inUse, if_pos direct]

theorem addr_of_no_indirect {i k : Nat} (beyond : ndirect < k) (absent : v.addr i ndirect = 0) :
    v.addr i k = 0 := by
  by_cases free : (v.inode i).type = 0
  · exact addr_of_free free k
  · rw [addr_direct free le_rfl] at absent
    rw [addr, if_neg free, if_neg (by omega), if_pos absent]

theorem addr_entry {i k : Nat} (beyond : ndirect < k) (present : v.addr i ndirect ≠ 0) :
    v.addr i k = (v.block (v.addr i ndirect)).load (4 * (k - (ndirect + 1))) 4 := by
  have inUse : (v.inode i).type ≠ 0 := fun free => present (addr_of_free free _)
  rw [addr_direct inUse le_rfl] at present ⊢
  rw [addr, if_neg inUse, if_neg (by omega), if_neg present]

theorem addr_congr {v' : Volume} {i : Nat} (inode : v'.inode i = v.inode i)
    (block : v.addr i ndirect ≠ 0 → v'.block (v.addr i ndirect) = v.block (v.addr i ndirect))
    (k : Nat) : v'.addr i k = v.addr i k := by
  by_cases free : (v.inode i).type = 0
  · have free' : (v'.inode i).type = 0 := by rw [inode, free]
    rw [addr_of_free free, addr_of_free free']
  have inUse' : (v'.inode i).type ≠ 0 := by rwa [inode]
  have indirect : v'.addr i ndirect = v.addr i ndirect := by
    rw [addr_direct free le_rfl, addr_direct inUse' le_rfl, inode]
  by_cases direct : k ≤ ndirect
  · rw [addr_direct free direct, addr_direct inUse' direct, inode]
  · have beyond : ndirect < k := by omega
    by_cases absent : v.addr i ndirect = 0
    · rw [addr_of_no_indirect beyond absent, addr_of_no_indirect beyond (indirect.trans absent)]
    · have present' : v'.addr i ndirect ≠ 0 := by rwa [indirect]
      rw [addr_entry beyond absent, addr_entry beyond present', indirect, block absent]

theorem addr_setBlock {b : Nat} (data : ByteSpace)
    (plain : ∀ i, v.addr i ndirect ≠ 0 → v.addr i ndirect ≠ b) (i k : Nat) :
    (v.setBlock b data).addr i k = v.addr i k := by
  apply addr_congr
  · rfl
  · exact fun present => setBlock_block_ne data (plain i present)

theorem addr_setInode_ne {i i' : Nat} (inode : Dinode) (other : i' ≠ i) (k : Nat) :
    (v.setInode i inode).addr i' k = v.addr i' k :=
  addr_congr (setInode_inode_ne inode other) (fun _ => rfl) k

theorem addr_setInode {i : Nat} {inode : Dinode} (addrs : inode.addrs = (v.inode i).addrs)
    (type : inode.type = 0 ↔ (v.inode i).type = 0) (i' k : Nat) :
    (v.setInode i inode).addr i' k = v.addr i' k := by
  by_cases other : i' = i
  · subst other
    have same : ∀ k, inode.addr k = (v.inode i').addr k := fun k => by
      simp only [Dinode.addr, addrs]
    simp only [addr, setInode_inode_same, setInode_block, type, same]
  · exact addr_setInode_ne inode other k

theorem addr_blank {i : Nat} (blank : ∀ k, (v.inode i).addrs k = 0) (k : Nat) : v.addr i k = 0 := by
  have zero : ∀ k, (v.inode i).addr k = 0 := by
    intro k
    unfold Dinode.addr
    split
    · exact blank _
    · rfl
  simp [addr, zero]

/-! ## Ownership -/

variable {first size : Nat} {used : Nat → Prop}

section

variable (owned : v.Owned first size used)

include owned

theorem Owned.congr {v' : Volume} (same : ∀ i k, k < slots → v'.addr i k = v.addr i k) :
    v'.Owned first size used := by
  constructor
  · intro i k inside nonzero
    rw [same i k inside] at nonzero ⊢
    exact owned.place i k inside nonzero
  · intro i k i' k' inside inside' nonzero equal
    rw [same i k inside] at nonzero equal
    rw [same i' k' inside'] at equal
    exact owned.once i k i' k' inside inside' nonzero equal
  · intro b below
    rw [owned.used b below]
    refine or_congr Iff.rfl (exists_congr fun i => exists_congr fun k => ?_)
    refine and_congr_right fun inside => ?_
    rw [same i k inside]

theorem Owned.of_used {used' : Nat → Prop} (same : ∀ b < size, (used' b ↔ used b)) :
    v.Owned first size used' :=
  ⟨owned.place, owned.once, fun b below => (same b below).trans (owned.used b below)⟩

omit owned in
theorem ndirect_lt_slots : ndirect < slots := by decide

theorem Owned.fileBlock_place {i bn : Nat} (inside : bn < maxFile)
    (present : v.fileBlock i bn ≠ 0) :
    first ≤ v.fileBlock i bn ∧ v.fileBlock i bn < size :=
  owned.place i (slotOf bn) (slotOf_lt inside) present

theorem Owned.plain {i k : Nat} (inside : k < slots) (data : k ≠ ndirect) :
    ∀ i', v.addr i' ndirect ≠ 0 → v.addr i' ndirect ≠ v.addr i k := by
  intro i' present equal
  exact data (owned.once i' ndirect i k ndirect_lt_slots inside present equal).2.symm

theorem Owned.fresh_plain {x : Nat} (unused : ¬ used x) (below : x < size) :
    ∀ i k, k < slots → v.addr i k ≠ x := by
  intro i k inside equal
  exact unused ((owned.used x below).mpr (.inr ⟨i, k, inside, equal⟩))

end

/-! ## New blocks -/

/-- An address in the inode itself. A new indirect block has no addresses yet. -/
theorem addr_assign_direct {i k x : Nat} (inUse : (v.inode i).type ≠ 0) (direct : k ≤ ndirect)
    (nonzero : x ≠ 0)
    (indirect : k = ndirect → v.addr i ndirect = 0 ∧ v.block x = zeroes) (i' k' : Nat) :
    (v.assign i k x).addr i' k' = if i' = i ∧ k' = k then x else v.addr i' k' := by
  rw [assign, if_pos direct]
  by_cases other : i' = i
  · subst other
    have bound : k < ndirect + 1 := by omega
    have inUse' : ((v.setInode i' ((v.inode i').setAddr k x)).inode i').type ≠ 0 := by
      simpa using inUse
    have now : ∀ k' ≤ ndirect, (v.setInode i' ((v.inode i').setAddr k x)).addr i' k' =
        if k' = k then x else v.addr i' k' := by
      intro k' direct'
      rw [addr_direct inUse' direct', setInode_inode_same, Dinode.addr_setAddr _ _ _ bound,
        addr_direct inUse direct']
    by_cases direct' : k' ≤ ndirect
    · rw [now k' direct']
      simp
    · have beyond : ndirect < k' := by omega
      have differs : ¬ (i' = i' ∧ k' = k) := by omega
      have here := now ndirect le_rfl
      rw [if_neg differs]
      by_cases isIndirect : ndirect = k
      · obtain ⟨absent, blank⟩ := indirect isIndirect.symm
        rw [if_pos isIndirect] at here
        rw [addr_of_no_indirect beyond absent, addr_entry beyond (by rwa [here]), here,
          setInode_block,
          blank, load_zeroes]
      · rw [if_neg isIndirect] at here
        by_cases absent : v.addr i' ndirect = 0
        · rw [addr_of_no_indirect beyond absent, addr_of_no_indirect beyond (here.trans absent)]
        · rw [addr_entry beyond absent, addr_entry beyond (by rwa [here]), here, setInode_block]
  · rw [addr_setInode_ne _ other, if_neg (fun same => other same.1)]

/-- An address in an indirect block that only this inode has. -/
theorem addr_assign_entry {i k x : Nat} (beyond : ndirect < k) (present : v.addr i ndirect ≠ 0)
    (alone : ∀ i', v.addr i' ndirect = v.addr i ndirect → i' = i) (small : x < 2 ^ 32)
    (i' k' : Nat) : (v.assign i k x).addr i' k' = if i' = i ∧ k' = k then x else v.addr i' k' := by
  have inUse : (v.inode i).type ≠ 0 := fun free => present (addr_of_free free _)
  have address : (v.inode i).addr ndirect = v.addr i ndirect := (addr_direct inUse le_rfl).symm
  rw [assign, if_neg (by omega), address]
  by_cases other : i' = i
  · subst other
    have now : ∀ k' ≤ ndirect, (v.setBlock (v.addr i' ndirect)
        ((v.block (v.addr i' ndirect)).store (4 * (k - (ndirect + 1))) 4 x)).addr i' k' =
          v.addr i' k' := by
      intro k' direct'
      rw [addr_direct (by simpa using inUse) direct', addr_direct inUse direct', setBlock_inode]
    by_cases direct' : k' ≤ ndirect
    · have differs : ¬ (i' = i' ∧ k' = k) := by omega
      rw [if_neg differs]
      exact now k' direct'
    · have beyond' : ndirect < k' := by omega
      have here := now ndirect le_rfl
      have stored := addr_entry beyond' (by rwa [here])
      rw [here, setBlock_block_same] at stored
      refine stored.trans ?_
      by_cases same : k' = k
      · subst same
        rw [if_pos ⟨rfl, rfl⟩, ByteSpace.load_store_same]
        exact Nat.mod_eq_of_lt small
      · rw [if_neg (fun both => same both.2), addr_entry beyond' present]
        exact ByteSpace.load_store_disjoint _ _ (by omega)
  · rw [if_neg (fun same => other same.1)]
    apply addr_congr
    · rfl
    · intro _
      apply setBlock_block_ne
      exact fun equal => other (alone i' equal)

section Grow

variable {i k x : Nat}

/-- The slot is empty and can take the new block. -/
structure Growable (v : Volume) (first size : Nat) (used : Nat → Prop) (i k x : Nat) : Prop where
  inUse : (v.inode i).type ≠ 0
  inside : k < slots
  empty : v.addr i k = 0
  indirect : ndirect < k → v.addr i ndirect ≠ 0
  unused : ¬ used x
  low : first ≤ x
  below : x < size

variable (owned : v.Owned first size used) (growable : Growable v first size used i k x)
  (positive : 0 < first) (small : size < 2 ^ 32)

include owned growable

theorem Growable.fresh : ∀ i' k', k' < slots → v.addr i' k' ≠ x :=
  owned.fresh_plain growable.unused growable.below

theorem Growable.addr_zeroed (i' k' : Nat) : (v.setBlock x zeroes).addr i' k' = v.addr i' k' :=
  addr_setBlock zeroes (fun i' _ => growable.fresh owned i' ndirect ndirect_lt_slots) i' k'

include positive small

theorem addr_grow (i' k' : Nat) :
    (v.grow i k x).addr i' k' = if i' = i ∧ k' = k then x else v.addr i' k' := by
  have zeroed := growable.addr_zeroed owned
  have low := growable.low
  have below := growable.below
  rw [← zeroed i' k', grow]
  by_cases direct : k ≤ ndirect
  · have nonzero : x ≠ 0 := by omega
    have inUse : ((v.setBlock x zeroes).inode i).type ≠ 0 := growable.inUse
    refine addr_assign_direct inUse direct nonzero ?_ i' k'
    rintro rfl
    exact ⟨(zeroed i ndirect).trans growable.empty, setBlock_block_same x zeroes⟩
  · have present := growable.indirect (by omega)
    have fits : x < 2 ^ 32 := by omega
    refine addr_assign_entry (by omega) (by rwa [zeroed]) ?_ fits i' k'
    intro i'' equal
    rw [zeroed, zeroed] at equal
    exact (owned.once i'' ndirect i ndirect ndirect_lt_slots ndirect_lt_slots (by rwa [equal])
      equal).1

theorem Owned.grow : (v.grow i k x).Owned first size fun b => used b ∨ b = x := by
  have addr := addr_grow owned growable positive small
  have fresh := growable.fresh owned
  constructor
  · intro i' k' inside nonzero
    rw [addr i' k'] at nonzero ⊢
    split at nonzero
    next same => exact if_pos same ▸ ⟨growable.low, growable.below⟩
    next differs => exact if_neg differs ▸ owned.place i' k' inside nonzero
  · intro i₁ k₁ i₂ k₂ inside₁ inside₂ nonzero equal
    rw [addr i₁ k₁] at nonzero equal
    rw [addr i₂ k₂] at equal
    by_cases same₁ : i₁ = i ∧ k₁ = k
    · by_cases same₂ : i₂ = i ∧ k₂ = k
      · exact ⟨same₁.1.trans same₂.1.symm, same₁.2.trans same₂.2.symm⟩
      · rw [if_pos same₁, if_neg same₂] at equal
        exact absurd equal.symm (fresh i₂ k₂ inside₂)
    · by_cases same₂ : i₂ = i ∧ k₂ = k
      · rw [if_neg same₁, if_pos same₂] at equal
        exact absurd equal (fresh i₁ k₁ inside₁)
      · rw [if_neg same₁, if_neg same₂] at equal
        rw [if_neg same₁] at nonzero
        exact owned.once i₁ k₁ i₂ k₂ inside₁ inside₂ nonzero equal
  · intro b below
    rw [owned.used b below]
    constructor
    · rintro ((before | ⟨i', k', inside, is⟩) | rfl)
      · exact .inl before
      · by_cases same : i' = i ∧ k' = k
        · -- the slot was empty, so this is block zero
          obtain ⟨rfl, rfl⟩ := same
          rw [growable.empty] at is
          exact .inl (by omega)
        · exact .inr ⟨i', k', inside, by rw [addr i' k', if_neg same, is]⟩
      · exact .inr ⟨i, k, growable.inside, by rw [addr i k, if_pos ⟨rfl, rfl⟩]⟩
    · rintro (before | ⟨i', k', inside, is⟩)
      · exact .inl (.inl before)
      · rw [addr i' k'] at is
        split at is
        next => exact .inr is.symm
        next => exact .inl (.inr ⟨i', k', inside, is⟩)

end Grow

/-- Blocks other than the new one and the indirect block keep their bytes. -/
theorem grow_block {i k x b : Nat} (other : b ≠ x)
    (notIndirect : ndirect < k → b ≠ (v.inode i).addr ndirect) :
    (v.grow i k x).block b = v.block b := by
  rw [grow, assign]
  split
  next => rw [setInode_block, setBlock_block_ne _ other]
  next beyond =>
    have apart : b ≠ (v.inode i).addr ndirect := notIndirect (by omega)
    rw [setBlock_inode, setBlock_block_ne _ apart, setBlock_block_ne _ other]

theorem grow_block_new {i k x : Nat} (notIndirect : ndirect < k → x ≠ (v.inode i).addr ndirect) :
    (v.grow i k x).block x = zeroes := by
  rw [grow, assign]
  split
  next => rw [setInode_block, setBlock_block_same]
  next beyond =>
    have apart : x ≠ (v.inode i).addr ndirect := notIndirect (by omega)
    rw [setBlock_inode, setBlock_block_ne _ apart, setBlock_block_same]

theorem grow_inode_ne {i k x i' : Nat} (other : i' ≠ i) : (v.grow i k x).inode i' = v.inode i' := by
  rw [grow, assign]
  split
  next => rw [setInode_inode_ne _ other, setBlock_inode]
  next => rfl

theorem grow_inode {i k x : Nat} : (v.grow i k x).inode i =
    if k ≤ ndirect then (v.inode i).setAddr k x else v.inode i := by
  rw [grow, assign]
  split
  next => rw [setInode_inode_same, setBlock_inode]
  next => rfl

/-! ## Data and inodes -/

theorem Owned.write (owned : v.Owned first size used) {i k : Nat} (inside : k < slots)
    (plain : k ≠ ndirect) (data : ByteSpace) :
    (v.setBlock (v.addr i k) data).Owned first size used :=
  owned.congr fun i' k' _ => addr_setBlock data (owned.plain inside plain) i' k'

end Volume

end Xv6.Disk
