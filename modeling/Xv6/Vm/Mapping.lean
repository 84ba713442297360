import Xv6.Vm.Walk

/-!
# Entries of the last level

`mappages` writes the entries of a range, as far as pages for the tables can be
had, and `uvmunmap` clears them and may free the pages. Both are followed entry
by entry.
-/

namespace Xv6.Vm

open List
open Trie
open Prog (Ensures Returns)

variable {layout : Layout} {m m' m'' : Memory} {free free' : List Nat} {touched : Set Nat}
  {root va low value : Nat}

section leaf

variable (tree : Sv39 m root) (at' : lastTable m root va = some low)
  (entry : entryOf m' low (index 0 va) = value)
  (same : ∀ y ∈ tables m root, ∀ j, ¬ (y = low ∧ j = index 0 va) → entryOf m' y j = entryOf m y j)

include tree at' same

/-- Writing an entry of the last level changes no path to a table. -/
theorem node_leaf {path : List (Fin 512)} (short : path.length ≤ 2) :
    node (child m') root path = node (child m) root path := by
  have relinked : ∀ y ∈ tables m root, ∀ j, ¬ (y = low ∧ j = index 0 va) →
      child m' y j = child m y j :=
    fun y member j other => child_congr (same y member j other)
  rw [node_relink tree.distinct (by simp) at' relinked (by omega), if_neg]
  · rintro rfl
    simp at short
  · rintro rest rfl
    simp at short

theorem tables_leaf : tables m' root = tables m root := by
  ext y
  constructor <;> rintro ⟨path, short, there⟩
  · exact ⟨path, short, by rwa [node_leaf tree at' same short] at there⟩
  · exact ⟨path, short, by rwa [node_leaf tree at' same short]⟩

theorem Sv39.leaf : Sv39 m' root := by
  refine ⟨tree.aligned, ?_, ?_, ?_⟩
  · rw [tables_leaf tree at' same]
    exact tree.notNull
  · intro path path' y short short' here there
    rw [node_leaf tree at' same (by omega)] at here there
    exact tree.distinct path path' y short short' here there
  · rintro y ⟨path, short, there⟩ j
    rw [node_leaf tree at' same (by omega)] at there
    rw [same y ⟨path, by omega, there⟩ j]
    · exact tree.interior y ⟨path, short, there⟩ j
    · -- tables above the last level are other pages
      rintro ⟨rfl, _⟩
      have := tree.distinct path _ y (by omega) (by simp) there at'
      rw [this] at short
      simp at short

include entry in
theorem lookup_leaf (below : va < 2 * maxVa) {va' : Nat} (below' : va' < 2 * maxVa) :
    lookup m' root va' =
      if va' / pgSize = va / pgSize then (if value &&& pteV ≠ 0 then some value else none)
      else lookup m root va' := by
  have last : lastTable m' root va' = lastTable m root va' := node_leaf tree at' same (by simp)
  unfold lookup
  rw [last]
  split
  next samePage =>
    have indices : ∀ level, index level va' = index level va :=
      fun level => Fin.ext (px_page samePage level)
    have here : lastTable m root va' = some low := by
      rw [← at']
      simp only [lastTable, indices]
    rw [here, Option.bind_some, indices, entry]
  next otherPage =>
    refine Option.bind_congr fun y there => ?_
    rw [same y (Sv39.lastTable_mem there)]
    rintro ⟨rfl, sameIndex⟩
    have paths := tree.distinct _ _ y (by simp) (by simp) there at'
    simp only [cons.injEq, and_true] at paths
    refine otherPage (px_inj below' below fun level bound => ?_)
    obtain rfl | rfl | rfl : level = 0 ∨ level = 1 ∨ level = 2 := by omega
    · exact congrArg Fin.val sameIndex
    · exact congrArg Fin.val paths.2
    · exact congrArg Fin.val paths.1

end leaf

def storeLeaf (m : Memory) (low va value : Nat) : Memory :=
  { m with bytes := m.bytes.store (low + 8 * px 0 va) 8 value }

section store

variable (tree : Sv39 m root) (at' : lastTable m root va = some low)

include tree at'

theorem storeLeaf_unchanged (value : Nat) : Unchanged {low} m (storeLeaf m low va value) := by
  have := px_lt 0 va
  exact store_unchanged m (tree.table_aligned (Sv39.lastTable_mem at')) (by omega)
    (by unfold pgSize; omega) value

theorem storeLeaf_other (value : Nat) : ∀ y ∈ tables m root, ∀ j, ¬ (y = low ∧ j = index 0 va) →
    entryOf (storeLeaf m low va value) y j = entryOf m y j := by
  intro y member j other
  by_cases self : y = low
  · subst self
    refine ByteSpace.load_store_disjoint _ _ ?_
    have : (j : Nat) ≠ px 0 va := fun same => other ⟨rfl, Fin.ext same⟩
    omega
  · exact (storeLeaf_unchanged tree at' value).entryOf (tree.table_aligned member)
      (by simpa using self) j

omit tree at' in
theorem storeLeaf_entry (word : value < 2 ^ 64) :
    entryOf (storeLeaf m low va value) low (index 0 va) = value :=
  (ByteSpace.load_store_same _ _ _ _).trans (Nat.mod_eq_of_lt word)

end store

theorem Grows.leaf (space : Space layout m root free) (at' : lastTable m root va = some low)
    (value : Nat) : Grows layout root m (storeLeaf m low va value) free free := by
  have inside := Sv39.lastTable_mem at'
  have unchanged := storeLeaf_unchanged space.tree at' value
  have same := storeLeaf_other space.tree at' value
  have tables := tables_leaf space.tree at' same
  refine ⟨⟨unchanged.mono ?_, ?_⟩, ⟨?_, Sv39.leaf space.tree at' same, ?_⟩, [], rfl,
    by simp [tables]⟩
  · rintro y rfl
    exact .inl inside
  · intro path x short there
    rwa [node_leaf space.tree at' same short]
  · refine space.heap.frame unchanged rfl fun page member => ?_
    rintro rfl
    exact space.apart _ member inside
  · rw [tables]
    exact space.apart

theorem lookup_walked (at' : lastTable m root va = some low) :
    lookup m root va =
      if entryOf m low (index 0 va) &&& pteV ≠ 0 then some
        (entryOf m low (index 0 va)) else none := by
  simp only [lookup, at', Option.bind_some]

/-- The first `count` pages of a range, mapped to consecutive physical pages. -/
def mapRange (old : Nat → Option Nat) (va pa perm count : Nat) : Nat → Option Nat := fun va' =>
  if va ≤ va' ∧ va' < va + count * pgSize then
    some (pa2pte (pa + (pgRoundDown va' - va)) ||| perm ||| pteV)
  else
    old va'

variable {old : Nat → Option Nat}

theorem mapRange_succ {va pa perm count va' : Nat} (aligned : va % pgSize = 0) :
    mapRange old va pa perm (count + 1) va' =
      if va' / pgSize = (va + count * pgSize) / pgSize then
        some (pa2pte (pa + count * pgSize) ||| perm ||| pteV)
      else
        mapRange old va pa perm count va' := by
  unfold mapRange
  by_cases here : va' / pgSize = (va + count * pgSize) / pgSize
  · have offset : pgRoundDown va' - va = count * pgSize := by
      unfold pgRoundDown pgSize at *
      omega
    rw [if_pos here, if_pos (by unfold pgSize at *; omega), offset]
  · have same : (va ≤ va' ∧ va' < va + (count + 1) * pgSize) ↔
        (va ≤ va' ∧ va' < va + count * pgSize) := by
      unfold pgSize at *
      omega
    rw [if_neg here]
    exact if_congr same rfl rfl

theorem range_next {va size count : Nat} (aligned : size % pgSize = 0)
    (more : count * pgSize < size) (notLast : va + count * pgSize ≠ va + size - pgSize) :
    (count + 1) * pgSize < size := by
  simp only [Nat.mul_comm _ pgSize] at *
  unfold pgSize at *
  omega

structure Range (va size pa perm : Nat) : Prop where
  vaAligned : va % pgSize = 0
  sizeAligned : size % pgSize = 0
  nonempty : size ≠ 0
  below : va + size ≤ maxVa
  paAligned : pa % pgSize = 0
  fits : pa + size < 2 ^ 56
  flags : perm < 1024

theorem or_valid (flags : Nat) : (flags ||| pteV) &&& pteV ≠ 0 := by
  rw [Nat.and_or_distrib_right, Nat.and_self]
  have := @Nat.right_le_or (flags &&& pteV) pteV
  intro zero
  rw [zero] at this
  exact absurd this (by decide)

theorem leaf_pte {pa perm : Nat} (aligned : pa % pgSize = 0) (fits : pa < 2 ^ 56)
    (small : perm < 1024) : pa2pte pa ||| perm ||| pteV < 2 ^ 64 ∧
      pte2pa (pa2pte pa ||| perm ||| pteV) = pa ∧
      pteFlags (pa2pte pa ||| perm ||| pteV) = perm ||| pteV := by
  have flags : perm ||| pteV < 1024 := Nat.or_lt_two_pow (n := 10) small (by decide)
  obtain ⟨back, kept, word⟩ := pte_roundTrip aligned fits flags
  rw [Nat.or_assoc]
  exact ⟨word, back, kept⟩

/-- What `mappages` leaves behind: it returns zero when the whole range is
mapped, and otherwise it ran out of pages and stopped early. -/
theorem mappages_spec {size pa perm : Nat} (space : Space layout m root free)
    (range : Range va size pa perm)
    (unmapped : ∀ va', va ≤ va' → va' < va + size → lookup m root va' = none) :
    Returns (mappages root va size pa perm) m fun r m' =>
      ∃ free' count, Grows layout root m m' free free' ∧
        ((r = 0 ∧ count * pgSize = size) ∨ (r = -1 ∧ count * pgSize < size ∧ free' = [])) ∧
        ∀ va', va' < 2 * maxVa →
          lookup m' root va' = mapRange (lookup m root) va pa perm count va' := by
  obtain ⟨vaAligned, sizeAligned, nonempty, below, paAligned, fits, flags⟩ := range
  have last : sub64 (u64 (va + size)) pgSize = va + size - pgSize := by
    unfold sub64 u64 maxVa pgSize at *
    omega
  unfold mappages
  rw [if_neg (by omega), if_neg (by omega), if_neg nonempty, last]
  refine .loop (fun (vars : Nat × Nat) m' => ∃ free' count, vars.1 = va + count * pgSize ∧
      vars.2 = pa + count * pgSize ∧ count * pgSize < size ∧ Grows layout root m m' free free' ∧
      ∀ va', va' < 2 * maxVa → lookup m' root va' = mapRange (lookup m root) va pa perm count va')
    (fun vars => va + size - vars.1) ?_ ?_ ?_
  · rintro ⟨a, pa'⟩ m₁ ⟨free₁, count, rfl, rfl, more, grows, lookups⟩
    have aBelow : va + count * pgSize < maxVa := by omega
    refine .seq (walk_alloc_spec aBelow grows.space)
      fun r m₂ ⟨free₂, grows₂, lookups₂, result⟩ => ?_
    have grown := grows.trans grows₂
    refine .ite (fun null => .pure ?_) fun found => ?_
    · rcases result with ⟨_, empty⟩ | ⟨nonzero, _⟩
      · exact ⟨free₂, count, grown, .inr ⟨rfl, more, empty⟩, fun va' below' => by
          rw [lookups₂, lookups va' below']⟩
      · exact absurd null nonzero
    · rcases result with ⟨null, _⟩ | ⟨_, low, at', rfl⟩
      · exact absurd null found
      have invalid : ¬ entryOf m₂ low (index 0 (va + count * pgSize)) &&& pteV ≠ 0 := by
        intro valid
        have here := lookup_walked at'
        rw [if_pos valid, lookups₂, lookups _ (by omega), mapRange, if_neg (by omega),
          unmapped _ (by omega) (by omega)] at here
        cases here
      refine .bind (load64_rule (.ite (fun valid => absurd valid invalid) fun _ => ?_))
      refine .bind (store64_rule ?_)
      have paAligned' : (pa + count * pgSize) % pgSize = 0 := by unfold pgSize at *; omega
      obtain ⟨word, _⟩ := leaf_pte paAligned' (by omega) flags
      have mapped := grown.trans (Grows.leaf grown.space at'
        (pa2pte (pa + count * pgSize) ||| perm ||| pteV))
      have lookups' : ∀ va', va' < 2 * maxVa → lookup (storeLeaf m₂ low (va + count * pgSize)
          (pa2pte (pa + count * pgSize) ||| perm ||| pteV)) root va' =
          mapRange (lookup m root) va pa perm (count + 1) va' := by
        intro va' below'
        rw [lookup_leaf grown.space.tree at' (storeLeaf_entry word)
          (storeLeaf_other grown.space.tree at' _) (by omega) below', mapRange_succ vaAligned,
          if_pos (or_valid _), lookups₂, lookups va' below']
      refine .ite (fun isLast => .pure ?_) fun notLast => .pure ?_
      · refine ⟨free₂, count + 1, mapped, .inl ⟨rfl, ?_⟩, lookups'⟩
        unfold pgSize at *
        omega
      · refine ⟨⟨free₂, count + 1, ?_, ?_, ?_, mapped, lookups'⟩, ?_⟩
        · simp only [u64]
          unfold maxVa pgSize at *
          omega
        · simp only [u64]
          unfold maxVa pgSize at *
          omega
        · exact range_next sizeAligned more notLast
        · simp only [u64]
          unfold maxVa pgSize at *
          omega
  · unfold maxIterations maxVa at *
    simp only
    omega
  · exact ⟨free, 0, by simp, by simp, by omega, .refl space, fun va' _ => by simp [mapRange]⟩

/-! ## Unmapping -/

/-- The pages that `uvmunmap` frees, for the entries `pte` it meets. -/
def freedPages (doFree : Bool) (pte : Nat → Nat) (count : Nat) : List Nat :=
  if doFree then (range count).map fun k => pte2pa (pte k) else []

theorem freedPages_succ (doFree : Bool) (pte : Nat → Nat) (count : Nat) :
    freedPages doFree pte (count + 1) =
      freedPages doFree pte count ++ if doFree then [pte2pa (pte count)] else [] := by
  cases doFree <;> simp [freedPages, range_succ]

/-- Some mappings are gone, and perhaps their pages are free. -/
structure Shrinks (layout : Layout) (root : Nat) (m m' : Memory) (freed : List Nat) : Prop where
  tree : Sv39 m' root
  tables : tables m' root = tables m root
  nodes : ∀ path, path.length ≤ 2 → node (child m') root path = node (child m) root path
  apart : ∀ x ∈ freed, x ∉ Vm.tables m root
  unchanged : Unchanged (Vm.tables m root ∪ { x | x ∈ freed }) m m'
  heap : ∀ free, Space layout m root free → (freed ++ free).Nodup →
    Heap layout m' (freed.reverse ++ free)

theorem Shrinks.refl (tree : Sv39 m root) : Shrinks layout root m m [] :=
  ⟨tree, rfl, fun _ _ => rfl, by simp, Unchanged.refl m, fun _ space _ => space.heap⟩

/-- One page more: its frame may be freed, then its entry is cleared. -/
theorem Shrinks.step {freed more : List Nat} (shrinks : Shrinks layout root m m' freed)
    (at' : lastTable m' root va = some low) (single : more.length ≤ 1)
    (apart : ∀ x ∈ more, x ∉ Vm.tables m root) (unchanged : Unchanged { x | x ∈ more } m' m'')
    (heaps : ∀ free, Heap layout m' free → (∀ x ∈ more, x ∉ free) →
      Heap layout m'' (more ++ free)) :
    Shrinks layout root m (storeLeaf m'' low va 0) (freed ++ more) ∧
      ∀ va', va < 2 * maxVa → va' < 2 * maxVa → lookup (storeLeaf m'' low va 0) root va' =
        if va' / pgSize = va / pgSize then none else lookup m' root va' := by
  have apart' : ∀ page ∈ Vm.tables m' root, page ∉ { x | x ∈ more } := by
    rw [shrinks.tables]
    exact fun page member freed => apart page freed member
  have tree := shrinks.tree.frame unchanged apart'
  have tables := tables_frame shrinks.tree unchanged apart'
  have at'' : lastTable m'' root va = some low := by
    rw [← at']
    exact node_frame (tables_child shrinks.tree unchanged apart') (by simp)
  have same := storeLeaf_other tree at'' 0
  have store := storeLeaf_unchanged tree at'' 0
  have inside : low ∈ Vm.tables m root := by
    rw [← shrinks.tables]
    exact Sv39.lastTable_mem at'
  refine ⟨⟨Sv39.leaf tree at'' same, ?_, ?_, ?_, ?_, fun free space distinct => ?_⟩, ?_⟩
  · rw [tables_leaf tree at'' same, tables, shrinks.tables]
  · intro path short
    rw [node_leaf tree at'' same short, ← shrinks.nodes path short]
    exact node_frame (tables_child shrinks.tree unchanged apart') (by omega)
  · intro x member
    rcases mem_append.mp member with member | member
    · exact shrinks.apart x member
    · exact apart x member
  · refine (shrinks.unchanged.mono ?_).trans ((unchanged.mono ?_).trans (store.mono ?_))
    · rintro x (member | member)
      · exact .inl member
      · exact .inr (mem_append_left _ member)
    · exact fun x member => .inr (mem_append_right _ member)
    · rintro x rfl
      exact .inl inside
  · have order : (freed ++ more).reverse = more ++ freed.reverse := by
      match more, single with
      | [], _ => simp
      | [x], _ => simp
    obtain ⟨fresh, nodup, disjoint⟩ := nodup_append.mp distinct
    obtain ⟨freedNodup, moreNodup, between⟩ := nodup_append.mp fresh
    have before : (freed ++ free).Nodup := nodup_append.mpr ⟨freedNodup, nodup,
      fun x left y right => disjoint x (mem_append_left _ left) y right⟩
    rw [order, append_assoc]
    refine (heaps _ (shrinks.heap free space before) fun x member => ?_).frame store rfl ?_
    · rw [mem_append, mem_reverse]
      rintro (old | old)
      · exact between x old x member rfl
      · exact disjoint x (mem_append_right _ member) x old rfl
    · rintro x member rfl
      simp only [mem_append, mem_reverse] at member
      rcases member with member | member | member
      · exact apart _ member inside
      · exact shrinks.apart _ member inside
      · exact space.apart _ member inside
  · intro va' below below'
    have invalid : ¬ (0 &&& pteV ≠ 0) := by decide
    rw [lookup_leaf tree at'' (storeLeaf_entry (by decide)) same below below', if_neg invalid,
      lookup_frame shrinks.tree unchanged apart']

theorem kfree_if_spec {doFree : Bool} {page : Nat} (freeable : doFree → Page layout page) :
    Returns (if doFree then kfree layout page else pure ()) m fun _ m' =>
      Unchanged { x | x ∈ if doFree then [page] else [] } m m' ∧
      ∀ free, Heap layout m free → (doFree → page ∉ free) →
        Heap layout m' ((if doFree then [page] else []) ++ free) := by
  cases doFree with
  | false => exact .pure ⟨Unchanged.refl m, fun free heap _ => heap⟩
  | true =>
    have isPage := freeable rfl
    obtain ⟨⟨⟩, m', run, unchanged, _⟩ := (kfree_unchanged (m := m) isPage).exists
    refine .of_eq run ⟨?_, fun free heap owned => ?_⟩
    · simpa using unchanged
    · exact ((kfree_spec heap isPage (owned rfl)).of_ok run).1

theorem unmapped_succ {count va' : Nat} (aligned : va % pgSize = 0) :
    (if va' / pgSize = (va + count * pgSize) / pgSize then none
      else if va ≤ va' ∧ va' < va + count * pgSize then none else old va') =
      if va ≤ va' ∧ va' < va + (count + 1) * pgSize then none else old va' := by
  have split : (va ≤ va' ∧ va' < va + (count + 1) * pgSize) ↔
      (va' / pgSize = (va + count * pgSize) / pgSize ∨ (va ≤ va' ∧ va' < va + count * pgSize)) := by
    simp only [Nat.mul_comm _ pgSize]
    unfold pgSize at *
    omega
  rw [if_congr split rfl rfl]
  by_cases here : va' / pgSize = (va + count * pgSize) / pgSize
  · rw [if_pos here, if_pos (.inl here)]
  · rw [if_neg here]
    exact if_congr (or_iff_right here).symm rfl rfl

theorem uvmunmap_spec {npages : Nat} {doFree : Bool} {pte : Nat → Nat} (tree : Sv39 m root)
    (aligned : va % pgSize = 0) (below : va + npages * pgSize ≤ maxVa)
    (mapped : ∀ k, k < npages → lookup m root (va + k * pgSize) = some (pte k) ∧
      pteFlags (pte k) ≠ pteV)
    (freeable : doFree → ∀ k, k < npages → Page layout (pte2pa (pte k)) ∧
      pte2pa (pte k) ∉ tables m root) :
    Returns (uvmunmap layout root va npages doFree) m fun _ m' =>
      Shrinks layout root m m' (freedPages doFree pte npages) ∧
      ∀ va', va' < 2 * maxVa → lookup m' root va' =
        if va ≤ va' ∧ va' < va + npages * pgSize then none else lookup m root va' := by
  have bound : u64 (va + npages * pgSize) = va + npages * pgSize := by
    unfold u64 maxVa at *
    omega
  unfold uvmunmap
  rw [if_neg (by omega), bound]
  refine .loop (fun (a : Nat) m' => ∃ count, count ≤ npages ∧ a = va + count * pgSize ∧
      Shrinks layout root m m' (freedPages doFree pte count) ∧
      ∀ va', va' < 2 * maxVa → lookup m' root va' =
        if va ≤ va' ∧ va' < va + count * pgSize then none else lookup m root va')
    (fun a => va + npages * pgSize - a) ?_ ?_ ?_
  · rintro a m₁ ⟨count, some', rfl, shrinks, lookups⟩
    refine .ite (fun more => ?_) fun done => .pure ?_
    · have left : count < npages := by
        unfold pgSize at *
        omega
      obtain ⟨present, leaf⟩ := mapped count left
      have here : lookup m₁ root (va + count * pgSize) = some (pte count) := by
        rw [lookups _ (by omega), if_neg (by omega), present]
      refine .seq (walk_spec (by omega) shrinks.tree) ?_
      rintro r m₂ ⟨same, result⟩
      subst same
      refine .ite (fun null => ?_) fun found => ?_
      · rcases result with ⟨_, absent⟩ | ⟨nonzero, _⟩
        · simp [lookup, absent] at here
        · exact absurd null nonzero
      rcases result with ⟨null, _⟩ | ⟨_, low, at', rfl⟩
      · exact absurd null found
      obtain ⟨valid, entry⟩ : entryOf m₂ low (index 0 (va + count * pgSize)) &&& pteV ≠ 0 ∧
          entryOf m₂ low (index 0 (va + count * pgSize)) = pte count := by
        rw [lookup_walked at'] at here
        split at here
        next valid => exact ⟨valid, Option.some.inj here⟩
        next => cases here
      refine .bind (load64_rule ?_)
      rw [show m₂.bytes.load (low + 8 * px 0 (va + count * pgSize)) 8 = pte count from entry]
      refine .ite (fun zero => absurd zero (entry ▸ valid)) fun _ => ?_
      refine .ite (fun notLeaf => absurd notLeaf leaf) fun _ => ?_
      refine .seq (kfree_if_spec fun free => (freeable free count left).1) ?_
      rintro _ m₃ ⟨freed, heaps⟩
      refine .bind (store64_rule (.pure ?_))
      have single : (if doFree then [pte2pa (pte count)] else []).length ≤ 1 := by
        cases doFree <;> simp
      have apart : ∀ x ∈ (if doFree then [pte2pa (pte count)] else []), x ∉ tables m root := by
        intro x member
        cases doFree with
        | false => simp at member
        | true =>
          simp only [if_true, mem_singleton] at member
          exact member ▸ (freeable rfl count left).2
      obtain ⟨shrinks', lookups'⟩ := shrinks.step at' single apart freed
        (fun free heap absent => heaps free heap fun free => absent _ (by simp [free]))
      refine ⟨⟨count + 1, left, ?_, ?_, fun va' below' => ?_⟩, ?_⟩
      · unfold u64 maxVa pgSize at *
        omega
      · rw [freedPages_succ]
        exact shrinks'
      · rw [← unmapped_succ aligned, ← lookups va' below']
        exact lookups' va' (by omega) below'
      · unfold u64 maxVa pgSize at *
        omega
    · have all : count = npages := by
        unfold pgSize at *
        omega
      subst all
      exact ⟨shrinks, lookups⟩
  · unfold maxIterations maxVa at *
    omega
  · refine ⟨0, by omega, by simp, by simpa [freedPages] using Shrinks.refl tree, fun va' _ => ?_⟩
    rw [if_neg (by omega)]

/-! ## Looking up -/

theorem walkaddr_spec (tree : Sv39 m root) (va : Nat) :
    Returns (walkaddr root va) m fun pa m' => m' = m ∧
      pa = if va < maxVa then
        match lookup m root va with
        | some pte => if pte &&& pteU ≠ 0 then pte2pa pte else 0
        | none => 0
      else 0 := by
  refine .ite (fun above => .pure ⟨rfl, by rw [if_neg (by omega)]⟩) fun below => ?_
  rw [not_le] at below
  simp only [if_pos below]
  refine .seq (walk_spec below tree) fun r m' ⟨same, result⟩ => ?_
  subst same
  rcases result with ⟨rfl, absent⟩ | ⟨nonzero, low, at', rfl⟩
  · rw [if_pos rfl]
    exact .pure ⟨rfl, by simp [lookup, absent]⟩
  · rw [if_neg nonzero, lookup_walked at']
    refine .bind (load64_rule ?_)
    change Ensures _ (if entryOf m' low (index 0 va) &&& pteV = 0 then _ else
      if entryOf m' low (index 0 va) &&& pteU = 0 then _ else _) _ _
    refine .ite (fun invalid => .pure ⟨rfl, ?_⟩) fun valid => ?_
    · simp [invalid]
    · refine .ite (fun kernel => .pure ⟨rfl, ?_⟩) fun user => .pure ⟨rfl, ?_⟩
      · simp [valid, kernel]
      · simp [valid, user]
        rfl

end Xv6.Vm
