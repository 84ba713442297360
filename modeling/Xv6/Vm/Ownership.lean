import Xv6.Vm.Mapping
import Xv6.Vm.User

/-!
# Pages that change hands

A page of the allocator is on the free list or somebody holds it. `Moves` is
what every piece of kernel code does with them: pages go from the free list to
the holder and back, none is lost or held twice, and no page outside the two is
written.
-/

namespace Xv6.Vm

open List
open Prog (Ensures Returns)

variable {layout : Layout} {m m' m'' : Memory} {free free' free'' : List Nat}
  {owned owned' owned'' part part' rest touched : Set Nat} {root va x : Nat}

/-- The free list, and pages in somebody's hands. -/
structure Held (layout : Layout) (m : Memory) (free : List Nat) (owned : Set Nat) : Prop where
  heap : Heap layout m free
  pages : ∀ x ∈ owned, Page layout x
  apart : ∀ x ∈ owned, x ∉ free

theorem Held.mono (held : Held layout m free owned) (subset : part ⊆ owned) :
    Held layout m free part :=
  ⟨held.heap, fun x member => held.pages x (subset member),
    fun x member => held.apart x (subset member)⟩

structure Moves (layout : Layout) (m m' : Memory) (free free' : List Nat) (owned owned' : Set Nat) :
    Prop where
  held : Held layout m' free' owned'
  same : ∀ x, x ∈ free' ∨ x ∈ owned' ↔ x ∈ free ∨ x ∈ owned
  unchanged : Unchanged ({ x | x ∈ free } ∪ owned) m m'

namespace Moves

theorem refl (held : Held layout m free owned) : Moves layout m m free free owned owned :=
  ⟨held, fun _ => .rfl, Unchanged.refl m⟩

theorem trans (first : Moves layout m m' free free' owned owned')
    (second : Moves layout m' m'' free' free'' owned' owned'') :
    Moves layout m m'' free free'' owned owned'' :=
  ⟨second.held, fun x => (second.same x).trans (first.same x),
    first.unchanged.trans (second.unchanged.mono fun x => (first.same x).mp)⟩

theorem write (held : Held layout m free owned) (unchanged : Unchanged touched m m')
    (same : m'.freelist = m.freelist) (inside : touched ⊆ owned) :
    Moves layout m m' free free owned owned := by
  refine ⟨⟨?_, held.pages, held.apart⟩, fun _ => .rfl, unchanged.mono fun x member =>
    .inr (inside member)⟩
  exact held.heap.frame unchanged same fun x isFree written => held.apart x (inside written) isFree

theorem frame (moves : Moves layout m m' free free' part part') (held : Held layout m free owned)
    (before : ∀ x, x ∈ owned ↔ x ∈ part ∨ x ∈ rest) (disjoint : ∀ x ∈ rest, x ∉ part)
    (after : ∀ x, x ∈ owned' ↔ x ∈ part' ∨ x ∈ rest) :
    Moves layout m m' free free' owned owned' := by
  have restApart : ∀ x ∈ rest, x ∉ free' := by
    intro x member isFree
    rcases (moves.same x).mp (.inl isFree) with isFree | isPart
    · exact held.apart x ((before x).mpr (.inr member)) isFree
    · exact disjoint x member isPart
  refine ⟨⟨moves.held.heap, ?_, ?_⟩, fun x => ?_, moves.unchanged.mono ?_⟩
  · intro x member
    rcases (after x).mp member with member | member
    · exact moves.held.pages x member
    · exact held.pages x ((before x).mpr (.inr member))
  · intro x member
    rcases (after x).mp member with member | member
    · exact moves.held.apart x member
    · exact restApart x member
  · rw [before, after, ← or_assoc, moves.same, or_assoc]
  · rintro x (isFree | member)
    · exact .inl isFree
    · exact .inr ((before x).mpr (.inl member))

theorem free_subset (moves : Moves layout m m' free free' owned owned') (more : owned ⊆ owned')
    (isFree : x ∈ free') : x ∈ free := by
  rcases (moves.same x).mp (.inl isFree) with isFree | inside
  · exact isFree
  · exact absurd isFree (moves.held.apart x (more inside))

end Moves

theorem kalloc_moves (held : Held layout m free owned) :
    Returns kalloc m fun r m' =>
      (r = 0 ∧ free = [] ∧ m' = m) ∨
      (r ≠ 0 ∧ r ∉ owned ∧ Page layout r ∧ Unchanged {r} m m' ∧ ∃ free',
        Moves layout m m' free free' owned (insert r owned)) := by
  refine (kalloc_spec held.heap).mono fun r m' result => ?_
  rcases result with result | ⟨nonzero, rest, rfl, heap, unchanged⟩
  · exact .inl result
  have isPage := held.heap.pages r (by simp)
  have absent : r ∉ owned := fun member => held.apart r member (by simp)
  have notRest := (nodup_cons.mp held.heap.nodup).1
  refine .inr ⟨nonzero, absent, isPage, unchanged, rest, ⟨heap, ?_, ?_⟩, fun x => ?_, ?_⟩
  · rintro x (rfl | member)
    · exact isPage
    · exact held.pages x member
  · rintro x (rfl | member)
    · exact notRest
    · exact fun isFree => held.apart x member (mem_cons_of_mem _ isFree)
  · rw [Set.mem_insert_iff, mem_cons]
    tauto
  · refine unchanged.mono ?_
    rintro x rfl
    exact .inl (by simp)

theorem kfree_moves (held : Held layout m free owned) (member : x ∈ owned) :
    Returns (kfree layout x) m fun _ m' => Unchanged {x} m m' ∧ ∃ free',
      Moves layout m m' free free' owned (owned \ {x}) := by
  have isPage := held.pages x member
  refine (kfree_spec held.heap isPage (held.apart x member)).mono fun _ m' ⟨heap, unchanged⟩ => ?_
  refine ⟨unchanged, x :: free, ⟨heap, fun y member => held.pages y member.1, ?_⟩, fun y => ?_, ?_⟩
  · rintro y ⟨inside, other⟩ isFree
    rcases mem_cons.mp isFree with rfl | isFree
    · exact other rfl
    · exact held.apart y inside isFree
  · rw [mem_cons, Set.mem_sdiff, Set.mem_singleton_iff]
    by_cases same : y = x
    · subst same
      tauto
    · tauto
  · refine unchanged.mono ?_
    rintro y rfl
    exact .inr member

theorem Grows.moves (grows : Grows layout root m m' free free')
    (held : Held layout m free (tables m root)) :
    Moves layout m m' free free' (tables m root) (tables m' root) := by
  obtain ⟨new, split, tables⟩ := grows.taken
  refine ⟨⟨grows.space.heap, ?_, fun x member isFree => grows.space.apart x isFree member⟩,
    fun x => ?_, grows.unchanged.mono fun x => Or.symm⟩
  · rw [tables]
    rintro x (member | member)
    · exact held.pages x member
    · exact held.heap.pages x (by rw [split]; exact mem_append_left _ member)
  · rw [tables, split, mem_append]
    simp only [Set.mem_union, Set.mem_ofPred_eq]
    tauto

theorem Shrinks.moves {freed : List Nat} (shrinks : Shrinks layout root m m' freed)
    (held : Held layout m free (Vm.tables m root ∪ { x | x ∈ freed })) (tree : Sv39 m root)
    (nodup : freed.Nodup) :
    Moves layout m m' free (freed.reverse ++ free) (Vm.tables m root ∪ { x | x ∈ freed })
      (Vm.tables m' root) := by
  have space : Space layout m root free :=
    ⟨held.heap, tree, fun x isFree member => held.apart x (.inl member) isFree⟩
  have disjoint : (freed ++ free).Nodup :=
    nodup.append held.heap.nodup fun x isFreed isFree => held.apart x (.inr isFreed) isFree
  refine ⟨⟨shrinks.heap free space disjoint, ?_, ?_⟩, fun x => ?_, shrinks.unchanged.mono fun x =>
    .inr⟩
  · rw [shrinks.tables]
    exact fun x member => held.pages x (.inl member)
  · rw [shrinks.tables]
    intro x member isFree
    rcases mem_append.mp isFree with isFreed | isFree
    · exact shrinks.apart x (mem_reverse.mp isFreed) member
    · exact held.apart x (.inl member) isFree
  · rw [shrinks.tables, mem_append, mem_reverse]
    simp only [Set.mem_union, Set.mem_ofPred_eq]
    tauto

end Xv6.Vm
