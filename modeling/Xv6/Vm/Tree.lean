import Xv6.Library.Trie
import Xv6.Vm.Alloc
import Xv6.Vm.PageTable

/-!
# Page tables as trees

The pages of a page table are the nodes of a trie: a valid entry links its page
to the next one. `Sv39` is what the kernel relies on, and `lookup` is the entry
that is found for a virtual address.
-/

namespace Xv6.Vm

open Trie

variable {layout : Layout} {m m' m'' : Memory} {free free' : List Nat} {touched : Set Nat}
  {root page va : Nat} {i : Fin 512}

def entryOf (m : Memory) (page : Nat) (i : Fin 512) : Nat := m.bytes.load (page + 8 * i) 8

def child (m : Memory) (page : Nat) (i : Fin 512) : Option Nat :=
  if entryOf m page i &&& pteV ≠ 0 then some (pte2pa (entryOf m page i)) else none

def index (level va : Nat) : Fin 512 := ⟨px level va, px_lt level va⟩

def tables (m : Memory) (root : Nat) : Set Nat := nodes (child m) root 2

structure Sv39 (m : Memory) (root : Nat) : Prop where
  aligned : root % pgSize = 0
  notNull : 0 ∉ tables m root
  distinct : Trie.Distinct (child m) root 2
  /-- Entries above the last level have none of the leaf flags. -/
  interior : ∀ page ∈ nodes (child m) root 1, ∀ i, entryOf m page i &&& pteV ≠ 0 →
    entryOf m page i &&& (pteR ||| pteW ||| pteX) = 0

def lastTable (m : Memory) (root va : Nat) : Option Nat :=
  node (child m) root [index 2 va, index 1 va]

def lookup (m : Memory) (root va : Nat) : Option Nat :=
  (lastTable m root va).bind fun page =>
    if entryOf m page (index 0 va) &&& pteV ≠ 0 then some (entryOf m page (index 0 va)) else none

theorem lookup_page (m : Memory) (root va : Nat) :
    lookup m root (va / pgSize * pgSize) = lookup m root va := by
  have same : ∀ level, index level (va / pgSize * pgSize) = index level va := fun level =>
    Fin.ext (px_page (Nat.mul_div_cancel _ (by decide)) level)
  simp only [lookup, lastTable, same]

theorem child_aligned {next : Nat} (linked : child m page i = some next) : next % pgSize = 0 := by
  unfold child at linked
  split at linked
  next => cases linked; exact pte2pa_aligned _
  next => cases linked

theorem node_aligned {path : List (Fin 512)} {x : Nat} (aligned : root % pgSize = 0)
    (at' : node (child m) root path = some x) : x % pgSize = 0 := by
  induction path generalizing root with
  | nil => cases at'; exact aligned
  | cons i path ih =>
    obtain ⟨next, linked, at'⟩ := Option.bind_eq_some_iff.mp at'
    exact ih (child_aligned linked) at'

namespace Sv39

theorem table_aligned (tree : Sv39 m root) (member : page ∈ tables m root) : page % pgSize = 0 := by
  obtain ⟨path, _, at'⟩ := member
  exact node_aligned tree.aligned at'

theorem lastTable_mem {x : Nat} (at' : lastTable m root va = some x) : x ∈ tables m root :=
  mem_nodes at' (by simp)

end Sv39

theorem Unchanged.entryOf (unchanged : Unchanged touched m m') (aligned : page % pgSize = 0)
    (outside : page ∉ touched) (i : Fin 512) : entryOf m' page i = entryOf m page i :=
  unchanged.load aligned (by omega) (by unfold pgSize; omega) outside

theorem child_congr (same : entryOf m' page i = entryOf m page i) :
    child m' page i = child m page i := by
  simp only [child, same]

section frame

variable (tree : Sv39 m root) (unchanged : Unchanged touched m m')
  (apart : ∀ page ∈ tables m root, page ∉ touched)

include tree unchanged apart

theorem tables_child : ∀ page ∈ tables m root, ∀ i, child m' page i = child m page i :=
  fun page member i =>
    child_congr (unchanged.entryOf (tree.table_aligned member) (apart page member) i)

theorem tables_frame : tables m' root = tables m root :=
  nodes_frame (tables_child tree unchanged apart)

theorem Sv39.frame : Sv39 m' root := by
  have same := tables_child tree unchanged apart
  have shallow : nodes (child m) root 1 ⊆ tables m root :=
    fun _ ⟨path, short, at'⟩ => ⟨path, by omega, at'⟩
  refine ⟨tree.aligned, ?_, ?_, ?_⟩
  · rw [tables_frame tree unchanged apart]
    exact tree.notNull
  · intro path path' x short short' at' there
    rw [node_frame same (by omega)] at at' there
    exact tree.distinct path path' x short short' at' there
  · intro page member i
    rw [nodes_frame fun y inside => same y (shallow inside)] at member
    have inside := shallow member
    rw [unchanged.entryOf (tree.table_aligned inside) (apart page inside)]
    exact tree.interior page member i

theorem lookup_frame (va : Nat) : lookup m' root va = lookup m root va := by
  have same : lastTable m' root va = lastTable m root va :=
    node_frame (tables_child tree unchanged apart) (by simp)
  unfold lookup
  rw [same]
  refine Option.bind_congr fun page at' => ?_
  have inside := Sv39.lastTable_mem at'
  rw [unchanged.entryOf (tree.table_aligned inside) (apart page inside)]

end frame

theorem tables_empty (bare : ∀ i, entryOf m root i = 0) : tables m root = {root} := by
  ext page
  constructor
  · rintro ⟨path, _, at'⟩
    cases path with
    | nil => exact (Option.some.inj at').symm
    | cons i path => simp [child, bare] at at'
  · rintro rfl
    exact root_mem_nodes

theorem Sv39.empty (aligned : root % pgSize = 0) (notNull : root ≠ 0)
    (bare : ∀ i, entryOf m root i = 0) : Sv39 m root := by
  refine ⟨aligned, ?_, ?_, ?_⟩
  · rw [tables_empty bare]
    exact fun null => notNull null.symm
  · intro path path' x _ _ at' there
    cases path <;> cases path' <;> simp_all [child]
  · rintro page ⟨path, _, at'⟩ i valid
    cases path with
    | nil =>
      obtain rfl := Option.some.inj at'
      simp [bare] at valid
    | cons j path => simp [child, bare] at at'

theorem lookup_empty (bare : ∀ i, entryOf m root i = 0) (va : Nat) : lookup m root va = none := by
  simp [lookup, lastTable, child, bare]

/-- A page table and the free list, side by side. -/
structure Space (layout : Layout) (m : Memory) (root : Nat) (free : List Nat) : Prop where
  heap : Heap layout m free
  tree : Sv39 m root
  apart : ∀ page ∈ free, page ∉ tables m root

end Xv6.Vm
