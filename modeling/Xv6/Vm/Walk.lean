import Xv6.Vm.Tree

/-!
# `walk`

With `alloc` set, `walk` may link free pages into the tree on its way down. It
does not change what any address maps to, whether it gets to the last level or
runs out of pages before.
-/

namespace Xv6.Vm

open Trie
open Prog (Ensures Returns)

variable {layout : Layout} {m m' m'' : Memory} {free free' free'' : List Nat} {touched : Set Nat}
  {root page va x : Nat} {i : Fin 512} {path : List (Fin 512)} {rest : List Nat}

/-- Page tables are where they were, and only they and free pages were written. -/
structure Keeps (root : Nat) (m m' : Memory) (free : List Nat) : Prop where
  unchanged : Unchanged (tables m root ∪ { x | x ∈ free }) m m'
  kept : ∀ path x, path.length ≤ 2 → node (child m) root path = some x →
    node (child m') root path = some x

theorem Keeps.refl (root : Nat) (m : Memory) (free : List Nat) : Keeps root m m free :=
  ⟨.refl m, fun _ _ _ => id⟩

theorem Keeps.trans (first : Keeps root m m' free) (second : Keeps root m' m'' free')
    (within : tables m' root ∪ { x | x ∈ free' } ⊆ tables m root ∪ { x | x ∈ free }) :
    Keeps root m m'' free :=
  ⟨first.unchanged.trans (second.unchanged.mono within),
    fun path x short at' => second.kept path x short (first.kept path x short at')⟩

/-- Free pages became page tables. -/
structure Grows (layout : Layout) (root : Nat) (m m' : Memory) (free free' : List Nat) : Prop
    extends Keeps root m m' free where
  space : Space layout m' root free'
  taken : ∃ new, free = new ++ free' ∧ tables m' root = tables m root ∪ { x | x ∈ new }

namespace Grows

theorem refl (space : Space layout m root free) : Grows layout root m m free free :=
  ⟨.refl root m free, space, [], rfl, by simp⟩

theorem trans (first : Grows layout root m m' free free')
    (second : Grows layout root m' m'' free' free'') : Grows layout root m m'' free free'' := by
  obtain ⟨new, split, tables⟩ := first.taken
  obtain ⟨new', split', tables'⟩ := second.taken
  refine ⟨first.toKeeps.trans second.toKeeps ?_, second.space, new ++ new', ?_, ?_⟩
  · rw [tables, split]
    rintro y ((inside | inside) | inside)
    · exact .inl inside
    · exact .inr (List.mem_append_left _ inside)
    · exact .inr (List.mem_append_right _ inside)
  · rw [split, split', List.append_assoc]
  · rw [tables', tables]
    ext y
    simp [or_assoc]

end Grows

theorem link_pte (isPage : Page layout page) :
    pte2pa (pa2pte page ||| pteV) = page ∧ (pa2pte page ||| pteV) &&& pteV ≠ 0 ∧
      (pa2pte page ||| pteV) &&& (pteR ||| pteW ||| pteX) = 0 ∧ pa2pte page ||| pteV < 2 ^ 64 := by
  have fits : page < 2 ^ 56 := isPage.below.trans (by decide)
  obtain ⟨back, _, word⟩ := pte_roundTrip isPage.aligned fits (show pteV < 1024 by decide)
  have value := pa2pte_or isPage.aligned fits (show pteV < 1024 by decide)
  refine ⟨back, ?_, ?_, word⟩
  · rw [valid_iff, value]
    simp only [pteV]
    omega
  · have low : (pa2pte page ||| pteV) % 2 ^ 4 = 1 := by
      rw [value]
      simp only [pteV]
      omega
    have small : (pa2pte page ||| pteV) &&& (pteR ||| pteW ||| pteX) < 2 ^ 4 :=
      Nat.and_lt_two_pow _ (by decide)
    rw [← Nat.mod_eq_of_lt small, Nat.and_mod_two_pow, low]
    rfl

section link

variable (space : Space layout m root (page :: rest)) (short : path.length ≤ 1)
  (at' : node (child m) root path = some x) (empty : ¬ entryOf m x i &&& pteV ≠ 0)
  (entry : entryOf m' x i = pa2pte page ||| pteV) (bare : ∀ j, entryOf m' page j = 0)
  (same : ∀ y ∈ tables m root, ∀ j, ¬ (y = x ∧ j = i) → entryOf m' y j = entryOf m y j)

include space short at' empty entry bare same

/-- Where a linked page shows up in the tree. -/
theorem node_link {path' : List (Fin 512)} (short' : path'.length ≤ 3) :
    node (child m') root path' =
      if path' = path ++ [i] then some page else node (child m) root path' := by
  obtain ⟨back, valid, _⟩ := link_pte (space.heap.pages page (by simp))
  refine node_extend space.tree.distinct (by omega) at' (if_neg empty) ?_ ?_ ?_ short'
  · unfold child
    rw [entry, if_pos valid, back]
  · intro j
    simp [child, bare j]
  · intro y member j other
    exact child_congr (same y member j other)

theorem tables_link : tables m' root = insert page (tables m root) := by
  have linked : ∀ path' : List (Fin 512), path'.length ≤ 2 → node (child m') root path' =
      if path' = path ++ [i] then some page else node (child m) root path' :=
    fun path' short' => node_link space short at' empty entry bare same (by omega)
  refine nodes_extend linked (by omega) ?_
  · rw [node_snoc at']
    exact if_neg empty

theorem Sv39.link : Sv39 m' root := by
  have node := @node_link layout m m' root page x i path rest space short at' empty entry bare same
  have isPage := space.heap.pages page (by simp)
  refine ⟨space.tree.aligned, ?_, ?_, ?_⟩
  · rw [tables_link space short at' empty entry bare same]
    rintro (null | inside)
    · exact absurd null.symm (Nat.ne_of_gt isPage.pos)
    · exact space.tree.notNull inside
  · exact space.tree.distinct.extend (space.apart page (by simp)) fun path' short' =>
      node (by omega)
  · rintro y ⟨path', short', there⟩ j valid
    rw [node (by omega)] at there
    split at there
    next =>
      cases there
      simp [bare] at valid
    next =>
      by_cases hit : y = x ∧ j = i
      · obtain ⟨rfl, rfl⟩ := hit
        rw [entry]
        exact (link_pte isPage).2.2.1
      · rw [same y ⟨path', by omega, there⟩ j hit] at valid ⊢
        exact space.tree.interior y ⟨path', short', there⟩ j valid

theorem lookup_link (va : Nat) : lookup m' root va = lookup m root va := by
  have node := @node_link layout m m' root page x i path rest space short at' empty entry bare same
  unfold lookup lastTable
  rw [node (by simp)]
  split
  next here =>
    have before : Trie.node (child m) root [index 2 va, index 1 va] = none := by
      rw [here, node_snoc at']
      exact if_neg empty
    simp [before, bare]
  next =>
    refine Option.bind_congr fun y there => ?_
    rw [same y ⟨_, by simp, there⟩ _ ?_]
    rintro ⟨rfl, _⟩
    have := space.tree.distinct _ _ y (by simp) (by omega) there at'
    rw [← this] at short
    simp at short

theorem Space.link (heap : Heap layout m' rest) : Space layout m' root rest := by
  refine ⟨heap, Sv39.link space short at' empty entry bare same, fun y member => ?_⟩
  rw [tables_link space short at' empty entry bare same]
  rintro (rfl | inside)
  · exact (List.nodup_cons.mp space.heap.nodup).1 member
  · exact space.apart y (by simp [member]) inside

end link

theorem load_zero {bytes : ByteSpace} {addr width : Nat}
    (zero : ∀ a, addr ≤ a → a < addr + width → bytes a = 0) : bytes.load addr width = 0 := by
  induction width generalizing addr with
  | zero => rfl
  | succ width ih =>
    rw [ByteSpace.load, zero addr le_rfl (by omega), ih fun a low high =>
      zero a (by omega) (by omega)]
    rfl

/-- The memory after a new page was cleared and linked in. -/
def linkPage (m : Memory) (page x : Nat) (i : Fin 512) : Memory where
  bytes := ByteSpace.store (fun a => if page ≤ a ∧ a < page + pgSize then 0 else m.bytes a)
    (x + 8 * i) 8 (pa2pte page ||| pteV)
  freelist := m.freelist

theorem Grows.link (space : Space layout m root (page :: rest)) (short : path.length ≤ 1)
    (at' : node (child m) root path = some x) (empty : ¬ entryOf m x i &&& pteV ≠ 0)
    (heap : Heap layout m' rest) (unchanged : Unchanged {page} m m') :
    Grows layout root m (linkPage m' page x i) (page :: rest) rest ∧
      (∀ va, lookup (linkPage m' page x i) root va = lookup m root va) ∧
      node (child (linkPage m' page x i)) root (path ++ [i]) = some page := by
  let cleared : Memory :=
    { m' with bytes := fun a => if page ≤ a ∧ a < page + pgSize then 0 else m'.bytes a }
  let linked : Memory := linkPage m' page x i
  have isPage := space.heap.pages page (by simp)
  have inside : x ∈ tables m root := mem_nodes at' (by omega)
  have xAligned := space.tree.table_aligned inside
  have different : page ≠ x := by
    rintro rfl
    exact space.apart page (by simp) inside
  have clear : Unchanged {page} m' cleared := memset_unchanged m' isPage.aligned 0
  have store : Unchanged {x} cleared linked :=
    store_unchanged cleared xAligned (by omega) (by unfold pgSize; omega) _
  have entry : entryOf linked x i = pa2pte page ||| pteV := by
    refine (ByteSpace.load_store_same _ _ _ _).trans (Nat.mod_eq_of_lt ?_)
    exact (link_pte isPage).2.2.2
  have bare : ∀ j, entryOf linked page j = 0 := by
    intro j
    rw [store.entryOf isPage.aligned (by simpa using different)]
    refine load_zero fun a low high => if_pos ?_
    unfold pgSize
    omega
  have same : ∀ y ∈ tables m root, ∀ j, ¬ (y = x ∧ j = i) → entryOf linked y j = entryOf m y j := by
    intro y member j other
    have yAligned := space.tree.table_aligned member
    have notPage : y ∉ ({page} : Set Nat) := by
      rintro rfl
      exact space.apart _ (by simp) member
    have until' : entryOf cleared y j = entryOf m y j :=
      (clear.entryOf yAligned notPage j).trans (unchanged.entryOf yAligned notPage j)
    rw [← until']
    by_cases self : y = x
    · subst self
      refine ByteSpace.load_store_disjoint _ _ ?_
      have : (j : Nat) ≠ i := fun same => other ⟨rfl, Fin.ext same⟩
      omega
    · exact store.entryOf yAligned (by simpa using self) j
  have heap' : Heap layout linked rest := by
    have absent := (List.nodup_cons.mp space.heap.nodup).1
    refine (heap.frame clear rfl fun y member => ?_).frame store rfl fun y member => ?_
    · rintro rfl
      exact absent member
    · rintro rfl
      exact space.apart _ (by simp [member]) inside
  have node :=
    @node_link layout m linked root page x i path rest space short at' empty entry bare same
  refine ⟨⟨⟨?_, fun path' y short' there => ?_⟩, space.link short at' empty entry bare same heap',
    [page], rfl, ?_⟩, lookup_link space short at' empty entry bare same, ?_⟩
  · refine ((unchanged.trans clear).mono ?_).trans (store.mono ?_)
    · rintro y rfl
      exact .inr (by simp)
    · rintro y rfl
      exact .inl inside
  · rw [node (by omega), if_neg, there]
    rintro rfl
    rw [node_snoc at', child, if_neg empty] at there
    cases there
  · rw [tables_link space short at' empty entry bare same]
    ext y
    simp [or_comm]
  · rw [node (by simp; omega), if_pos rfl]

/-- The table for the address at the end of a walk. -/
def Walked (m : Memory) (root va r : Nat) : Prop :=
  ∃ low, lastTable m root va = some low ∧ r = low + 8 * px 0 va

variable {level : Nat}

theorem take_snoc (va : Nat) (bound : level + 1 ≤ 2) :
    [index 2 va, index 1 va].take (2 - level) =
      [index 2 va, index 1 va].take (2 - (level + 1)) ++ [index (level + 1) va] := by
  obtain rfl | rfl : level = 0 ∨ level = 1 := by omega
  all_goals rfl

theorem walkFrom_spec (bound : level ≤ 2) (space : Space layout m root free)
    (at' : node (child m) root ([index 2 va, index 1 va].take (2 - level)) = some x) :
    Returns (walkFrom va true level x) m fun r m' =>
      ∃ free', Grows layout root m m' free free' ∧
        (∀ va, lookup m' root va = lookup m root va) ∧
        ((r = 0 ∧ free' = []) ∨ (r ≠ 0 ∧ Walked m' root va r)) := by
  induction level generalizing m free x with
  | zero =>
    refine .pure ⟨free, .refl space, fun _ => rfl, .inr ⟨?_, x, at', rfl⟩⟩
    have : x ≠ 0 := by
      rintro rfl
      exact space.tree.notNull (mem_nodes at' (by simp))
    omega
  | succ level ih =>
    have next := take_snoc va bound
    have short : ([index 2 va, index 1 va].take (2 - (level + 1))).length ≤ 1 := by
      simp
    unfold walkFrom
    refine .bind (load64_rule (.ite (fun valid => ?_) fun invalid => ?_))
    · -- down to the next table
      refine ih (by omega) space ?_
      rw [next, node_snoc at']
      exact if_pos valid
    · rw [if_pos rfl]
      refine .seq (kalloc_spec space.heap) fun r m' result => ?_
      rcases result with ⟨rfl, rfl, rfl⟩ | ⟨nonzero, rest, rfl, heap, unchanged⟩
      · rw [if_pos rfl]
        exact .pure ⟨[], .refl space, fun _ => rfl, .inl ⟨rfl, rfl⟩⟩
      · rw [if_neg nonzero]
        refine .bind (memset_rule (.bind (store64_rule ?_)))
        obtain ⟨linked, lookups, here⟩ :=
          Grows.link (i := index (level + 1) va) space short at' invalid heap unchanged
        change Returns (walkFrom va true level r) (linkPage m' r x (index (level + 1) va)) _
        refine (ih (by omega) linked.space ?_).mono fun r m' ⟨free', more, lookups', result⟩ => ?_
        · rw [next]
          exact here
        · exact ⟨free', linked.trans more, fun va => (lookups' va).trans (lookups va), result⟩

theorem walk_alloc_spec (below : va < maxVa) (space : Space layout m root free) :
    Returns (walk root va true) m fun r m' =>
      ∃ free', Grows layout root m m' free free' ∧
        (∀ va, lookup m' root va = lookup m root va) ∧
        ((r = 0 ∧ free' = []) ∨ (r ≠ 0 ∧ Walked m' root va r)) := by
  unfold walk
  rw [if_neg (by omega)]
  exact walkFrom_spec le_rfl space rfl

theorem walkFrom_lookup (bound : level ≤ 2) (tree : Sv39 m root)
    (at' : node (child m) root ([index 2 va, index 1 va].take (2 - level)) = some x) :
    Returns (walkFrom va false level x) m fun r m' =>
      m' = m ∧ ((r = 0 ∧ lastTable m root va = none) ∨ (r ≠ 0 ∧ Walked m root va r)) := by
  induction level generalizing x with
  | zero =>
    refine .pure ⟨rfl, .inr ⟨?_, x, at', rfl⟩⟩
    have : x ≠ 0 := by
      rintro rfl
      exact tree.notNull (mem_nodes at' (by simp))
    omega
  | succ level ih =>
    have next := take_snoc va bound
    unfold walkFrom
    refine .bind (load64_rule (.ite (fun valid => ?_) fun invalid => ?_))
    · refine ih (by omega) ?_
      rw [next, node_snoc at']
      exact if_pos valid
    · rw [if_neg (by simp)]
      refine .pure ⟨rfl, .inl ⟨rfl, ?_⟩⟩
      have stop : node (child m) root ([index 2 va, index 1 va].take (2 - level)) = none := by
        rw [next, node_snoc at']
        exact if_neg invalid
      unfold lastTable
      rw [← List.take_append_drop (2 - level) [index 2 va, index 1 va], node_append, stop]
      rfl

/-- Without `alloc` nothing changes. -/
theorem walk_spec (below : va < maxVa) (tree : Sv39 m root) :
    Returns (walk root va false) m fun r m' =>
      m' = m ∧ ((r = 0 ∧ lastTable m root va = none) ∨ (r ≠ 0 ∧ Walked m root va r)) := by
  unfold walk
  rw [if_neg (by omega)]
  exact walkFrom_lookup le_rfl tree rfl

end Xv6.Vm
