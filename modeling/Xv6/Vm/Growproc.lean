import Xv6.Vm.ProcSpace

/-!
# Growing a process

When `uvmalloc` runs out of memory all is as before, but for page tables without
entries. `growproc` changes the size by `n`, unless `n` is below minus the size: then
it returns success and changes nothing.
-/

namespace Xv6.Vm

open List
open Prog (Ensures Returns)

variable {layout : Layout} {m m' m'' : Memory} {free free' : List Nat} {root x : Nat}
  {fixed : Nat → Option Nat} {image : List Nat}

/-! ## Failed allocations -/

/-- The table `x` is on the way to the entry for `va`. -/
def OnPath (m : Memory) (root va x : Nat) : Prop :=
  ∃ k ≤ 2, Trie.node (child m) root ([index 2 va, index 1 va].take k) = some x

section

variable (restored : Rebuilt layout root fixed image image m m' free free')

include restored

theorem Rebuilt.accounted (held : Held layout m free (footprint m root image))
    (isFree : x ∈ free) : x ∈ free' ∨ x ∈ tables m' root := by
  rcases (restored.moves.same x).mpr (.inl isFree) with isFree' | isTable | isFrame
  · exact .inl isFree'
  · exact .inr isTable
  · exact absurd isFree (held.apart x (.inr isFrame))

theorem Rebuilt.lookup (space : AddrSpace m root fixed image) {va : Nat} (below : va < 2 * maxVa) :
    lookup m' root va = lookup m root va := by
  have low : va / pgSize * pgSize < 2 * maxVa :=
    lt_of_le_of_lt (Nat.div_mul_le_self va pgSize) below
  rw [← lookup_page m', ← lookup_page m, restored.space.map _ low, space.map _ low]

theorem Rebuilt.leafless (space : AddrSpace m root fixed image) {va : Nat} (below : va < 2 * maxVa)
    (new : x ∉ tables m root) (onPath : OnPath m' root va x) : Vm.lookup m' root va = none := by
  obtain ⟨k, bound, there⟩ := onPath
  by_contra found
  rw [restored.lookup space below] at found
  obtain ⟨pte, here⟩ := Option.ne_none_iff_exists'.mp found
  obtain ⟨low, last, -⟩ := Option.bind_eq_some_iff.mp here
  -- the whole path was there before
  have split := take_append_drop k [index 2 va, index 1 va]
  unfold lastTable at last
  rw [← split, Trie.node_append] at last
  obtain ⟨y, before, -⟩ := Option.bind_eq_some_iff.mp last
  have short : ([index 2 va, index 1 va].take k).length ≤ 2 := by
    rw [length_take]
    exact le_trans (Nat.min_le_left _ _) bound
  have same := restored.kept _ y short before
  rw [there] at same
  obtain rfl := Option.some.inj same
  exact new ⟨_, short, before⟩

end

/-- After a failed `uvmalloc` the mappings and the mapped pages are as before, every
page that it took is free or a table without entries below it, and the page table can
be freed. -/
theorem uvmalloc_atomic {oldsz newsz xperm : Nat} (space : AddrSpace m root fixed image)
    (held : Held layout m free (footprint m root image)) (outside : Outside m root free fixed)
    (size : image.length * pgSize = pgRoundUp oldsz) (more : oldsz ≤ newsz) (fits : newsz < 2 ^ 64)
    (flags : xperm < 1024) :
    ∃ r m', uvmalloc layout root oldsz newsz xperm m = .ok (r, m') ∧ (r = 0 → newsz ≠ 0 →
      (∀ va < 2 * maxVa, lookup m' root va = lookup m root va) ∧
      (∀ va < 2 * maxVa, ∀ pte, lookup m root va = some pte →
        ∀ a, pgRoundDown a = pte2pa pte → m'.bytes a = m.bytes a) ∧
      (∃ free', Heap layout m' free' ∧ (∀ x ∈ free', x ∈ free) ∧
        (∀ x ∈ free, x ∈ free' ∨ x ∈ tables m' root)) ∧
      (∀ x ∈ tables m root, x ∈ tables m' root) ∧
      (∀ x ∈ tables m' root, x ∉ tables m root → ∀ va < 2 * maxVa, OnPath m' root va x →
        lookup m' root va = none) ∧
      (fixed = (fun _ => none) → ∃ m'' free'', uvmfree layout root oldsz m' = .ok ((), m'') ∧
        Heap layout m'' free'' ∧ ∀ x, x ∈ free'' ↔ x ∈ free ∨ x ∈ footprint m root image) ∧
      ∀ trapframe, Page layout trapframe → fixed = procFixed layout trapframe →
        ∃ m'' free'', procFreepagetable layout root oldsz m' = .ok ((), m'') ∧
          Heap layout m'' free'' ∧ ∀ x, x ∈ free'' ↔ x ∈ free ∨ x ∈ footprint m root image) := by
  have count : image.length = pageCount oldsz := by
    rw [pageCount, ← size, Nat.mul_div_cancel _ (by decide)]
  obtain ⟨r, m', run, free', result⟩ := (uvmalloc_spec space held size more fits flags).exists
  refine ⟨r, m', run, fun zero nonzero => ?_⟩
  have restored : Rebuilt layout root fixed image image m m' free free' := by
    rcases result with ⟨success, -⟩ | ⟨-, restored⟩
    · exact absurd (success.symm.trans zero) nonzero
    · exact restored
  -- once everything is freed, the free list has what was free or part of the address space
  have freed : ∀ m'' free'', Moves layout m' m'' free' free'' (footprint m' root image) ∅ →
      Heap layout m'' free'' ∧ ∀ x, x ∈ free'' ↔ x ∈ free ∨ x ∈ footprint m root image := by
    intro m'' free'' moves
    have all := restored.moves.trans moves
    refine ⟨all.held.heap, fun x => ?_⟩
    rw [← all.same x, or_iff_left (Set.notMem_empty x)]
  refine ⟨fun va => restored.lookup space, fun va below pte found a is => ?_,
    ⟨free', restored.moves.held.heap, fun x => restored.wasFree subset_rfl,
      fun x => restored.accounted held⟩,
    fun x => restored.tables_subset, fun x _ new va below => restored.leafless space below new, ?_,
      ?_⟩
  · apply restored.unchanged
    rw [is]
    exact outside.leaf space held below found
  · rintro rfl
    obtain ⟨_, m'', run', free'', moves⟩ :=
      (uvmfree_spec restored.space restored.moves.held count).exists
    exact ⟨m'', free'', run', freed m'' free'' moves⟩
  · rintro trapframe isPage rfl
    obtain ⟨_, m'', run', free'', moves⟩ :=
      (procFreepagetable_spec restored.space restored.moves.held isPage count).exists
    exact ⟨m'', free'', run', freed m'' free'' moves⟩

/-- The memory that is left by a program that does not panic. -/
def after {α : Type} (prog : VmM α) (m : Memory) : Memory := ((prog m).toOption.map Prod.snd).getD m

theorem eq_ok_after {α : Type} {prog : VmM α} {r : α} (returns : (prog m).map Prod.fst = .ok r) :
    prog m = .ok (r, after prog m) := by
  unfold after
  cases run : prog m with
  | error panic =>
    rw [run] at returns
    cases returns
  | ok result =>
    rw [run] at returns
    exact congrArg (fun r => Except.ok (r, result.2)) (Except.ok.inj returns)

/-- There is a page table for a process without memory. -/
def newMemory : Memory := after (procPagetable smallLayout 0x80200000) sample

theorem newProcess : ∃ free, ProcSpace smallLayout newMemory 0x80100000 0x80200000 free [] 0 := by
  have heldFree : Held smallLayout sample samplePages ∅ :=
    ⟨sample_heap, fun x none => none.elim, fun x none => none.elim⟩
  have isPage : Page smallLayout 0x80200000 := ⟨by decide, by decide, by decide⟩
  have made : procPagetable smallLayout 0x80200000 sample = .ok (0x80100000, newMemory) :=
    eq_ok_after (by decide +kernel)
  obtain ⟨free, result⟩ := (procPagetable_spec heldFree isPage).of_ok made
  rcases result with ⟨failed, -⟩ | ⟨-, space, moves⟩
  · exact absurd failed (by decide)
  have outside : ¬(0x80200000 ∈ free ∨ 0x80200000 ∈ footprint newMemory 0x80100000 []) := by
    rw [moves.same, or_iff_left (Set.notMem_empty _)]
    decide
  exact ⟨free,
    .bare space moves.held isPage
      ⟨fun owned => outside (.inr owned), fun isFree => outside (.inl isFree)⟩⟩

/-- There are not enough pages for the process to grow by 32. It keeps none of them,
and what it had can be freed. -/
theorem uvmalloc_atomic_newProcess : ∃ m' m'' free'',
    uvmalloc smallLayout 0x80100000 0 0x20000 pteW newMemory = .ok (0, m') ∧
      (∀ va < 2 * maxVa, lookup m' 0x80100000 va = lookup newMemory 0x80100000 va) ∧
      procFreepagetable smallLayout 0x80100000 0 m' = .ok ((), m'') ∧
      Heap smallLayout m'' free'' := by
  obtain ⟨free, proc⟩ := newProcess
  have none : ([] : List Nat).length * pgSize = pgRoundUp 0 := by decide
  have flags : pteW < 1024 := by decide
  obtain ⟨r, m', run, atomic⟩ :=
    uvmalloc_atomic proc.space proc.held proc.outside none (Nat.zero_le 0x20000) (by decide) flags
  have failed : (uvmalloc smallLayout 0x80100000 0 0x20000 pteW newMemory).map Prod.fst =
      .ok 0 := by
    decide +kernel
  rw [run] at failed
  obtain rfl : r = 0 := Except.ok.inj failed
  obtain ⟨same, -, -, -, -, -, freeable⟩ := atomic rfl (by decide)
  obtain ⟨m'', free'', freed, heap, -⟩ := freeable 0x80200000 ⟨by decide, by decide, by decide⟩ rfl
  exact ⟨m', m'', free'', run, same, freed, heap⟩

/-! ## Changing the size -/

theorem userByte_same {va : Nat} (tree : Sv39 m root) (tree' : Sv39 m' root)
    (same : Vm.lookup m' root (va / pgSize * pgSize) = Vm.lookup m root (va / pgSize * pgSize))
    (contents : ∀ pte, Vm.lookup m root (va / pgSize * pgSize) = some pte →
      va / pgSize * pgSize < maxVa → ∀ a, pgRoundDown a = pte2pa pte → m'.bytes a = m.bytes a) :
    userByte m' root va = userByte m root va := by
  unfold userByte physical
  rw [pageMap_eq tree, pageMap_eq tree']
  split
  next below =>
    rw [same]
    cases found : Vm.lookup m root (va / pgSize * pgSize) with
    | none => rfl
    | some pte =>
      exact contents pte found below _
        (pgRoundDown_inside (pte2pa_aligned pte) (Nat.le_add_right _ _)
        (Nat.add_lt_add_left (Nat.mod_lt _ (by decide)) _))
  next => rfl

structure Resized (m m' : Memory) (root sz sz' : Nat) : Prop where
  mapped : ∀ vpn, vpn * pgSize < trapframeVa →
    ((lookup m' root (vpn * pgSize)).isSome ↔ vpn * pgSize < sz')
  kept : ∀ vpn, vpn * pgSize < sz → vpn * pgSize < sz' →
    lookup m' root (vpn * pgSize) = lookup m root (vpn * pgSize)
  contents : ∀ va, va / pgSize * pgSize < sz → va / pgSize * pgSize < sz' →
    userByte m' root va = userByte m root va
  zero : ∀ va, sz ≤ va / pgSize * pgSize → va / pgSize * pgSize < sz' → userByte m' root va = 0
  fixed : ∀ va, trapframeVa ≤ va → va < 2 * maxVa → lookup m' root va = lookup m root va

structure Untouched (m m' : Memory) (root : Nat) : Prop where
  mapped : ∀ va < 2 * maxVa, lookup m' root va = lookup m root va
  contents : ∀ va, userByte m' root va = userByte m root va

/-- The size changed by `n`, or `growproc` failed and nothing changed. -/
def ChangedBy (n : Int) (m m' : Memory) (root sz : Nat) (r : Int) (sz' : Nat) : Prop :=
  (r = 0 ∧ (sz' : Int) = sz + n ∧ Resized m m' root sz sz') ∨
    (r = -1 ∧ sz' = sz ∧ Untouched m m' root)

section

variable {trapframe sz sz' : Nat} {image' : List Nat}

section

variable (proc : ProcSpace layout m root trapframe free image sz)

include proc

/-- The first pages of the image stay, new ones are zero. -/
theorem Resized.of_images (proc' : ProcSpace layout m' root trapframe free' image' sz')
    (kept : ∀ vpn < image.length, vpn < image'.length → image'[vpn]? = image[vpn]?)
    (contents : ∀ pte ∈ image, pte ∈ image' → ∀ a, pgRoundDown a = pte2pa pte →
      m'.bytes a = m.bytes a)
    (zero : ∀ vpn pte, image.length ≤ vpn → image'[vpn]? = some pte →
      ∀ a, pgRoundDown a = pte2pa pte → m'.bytes a = 0) :
    Resized m m' root sz sz' := by
  have below : ∀ {vpn}, vpn * pgSize < sz' → vpn * pgSize < trapframeVa := fun inside =>
    inside.trans ((Nat.lt_add_of_pos_right (by decide)).trans proc'.small)
  have same : ∀ vpn, vpn * pgSize < sz → vpn * pgSize < sz' →
      Vm.lookup m' root (vpn * pgSize) = Vm.lookup m root (vpn * pgSize) := by
    intro vpn old new
    rw [proc'.mapped (below new), proc.mapped (below new),
      kept vpn (proc.inside.mpr old) (proc'.inside.mpr new)]
  refine ⟨fun vpn low => ?_, same, fun va old new => ?_, fun va old new => ?_, fun va high low =>
    ?_⟩
  · rw [proc'.mapped low, ← proc'.inside, isSome_getElem?]
  · apply userByte_same proc.space.tree proc'.space.tree (same _ old new)
    intro pte found _ a is
    have inOld := found
    rw [proc.mapped (below new)] at inOld
    have inNew := same _ old new
    rw [found, proc'.mapped (below new)] at inNew
    exact contents pte (mem_of_getElem? inOld) (mem_of_getElem? inNew) a is
  · have outside : image.length ≤ va / pgSize := by
      rw [← not_lt, proc.inside]
      exact not_lt.mpr old
    obtain ⟨pte, here⟩ : ∃ pte, image'[va / pgSize]? = some pte :=
      ⟨_, getElem?_eq_getElem (proc'.inside.mpr new)⟩
    have found := proc'.mapped (below new)
    rw [here] at found
    unfold userByte physical
    rw [pageMap_eq proc'.space.tree, if_pos ((below new).trans (by decide)), found]
    exact zero _ pte outside here _ (pgRoundDown_inside (pte2pa_aligned pte) (Nat.le_add_right _ _)
      (Nat.add_lt_add_left (Nat.mod_lt _ (by decide)) _))
  · have low' : va / pgSize * pgSize < 2 * maxVa :=
      lt_of_le_of_lt (Nat.div_mul_le_self va pgSize) low
    rw [← lookup_page m', ← lookup_page m, proc'.space.map _ low', proc.space.map _ low',
      proc.beyond high, proc'.beyond high]

theorem Resized.refl : Resized m m root sz sz :=
  .of_images proc proc (fun _ _ _ => rfl) (fun _ _ _ _ _ => rfl) fun vpn pte outside here => by
    rw [getElem?_eq_none outside] at here
    cases here

theorem Rebuilt.untouched
    (restored : Rebuilt layout root (procFixed layout trapframe) image image m m' free free') :
    Untouched m m' root := by
  refine ⟨fun va => restored.lookup proc.space, fun va => ?_⟩
  by_cases below : va / pgSize * pgSize < maxVa
  · have low : va / pgSize * pgSize < 2 * maxVa := below.trans (by decide)
    apply userByte_same proc.space.tree restored.space.tree (restored.lookup proc.space low)
    intro pte found _ a is
    apply restored.unchanged
    rw [is]
    exact proc.outside.leaf proc.space proc.held low found
  · unfold userByte physical
    rw [pageMap_eq proc.space.tree, pageMap_eq restored.space.tree, if_neg below, if_neg below]
    rfl

theorem Grown.resized {perm : Nat} {new : List Nat}
    (grown : Grown layout root (procFixed layout trapframe) image perm m m' free free' new)
    (proc' : ProcSpace layout m' root trapframe free' (image ++ new) sz') :
    Resized m m' root sz sz' := by
  refine .of_images proc proc' (fun vpn inside _ => getElem?_append_left inside)
    (fun pte member _ a is => ?_)
    fun vpn pte outside here a is => ?_
  · apply grown.contents proc.space proc.held
    rw [is]
    exact ⟨pte, member, rfl⟩
  · rw [getElem?_append_right outside] at here
    exact grown.zero pte (mem_of_getElem? here) a is

theorem Shrunk.resized {count : Nat}
    (shrunk : Shrunk layout root (procFixed layout trapframe) image count m m' free free')
    (proc' : ProcSpace layout m' root trapframe free' (image.take count) sz') :
    Resized m m' root sz sz' := by
  refine .of_images proc proc' (fun vpn _ inside => ?_) (fun pte member kept a is => ?_)
    fun vpn pte outside here => ?_
  · rw [getElem?_take_of_lt (lt_of_lt_of_le inside (length_take_le _ _))]
  · apply shrunk.unchanged
    rw [is]
    rintro (isTable | dropped)
    · exact proc.space.apart _ ⟨pte, member, rfl⟩ isTable
    · exact proc.space.frames_disjoint ⟨pte, kept, rfl⟩ dropped
  · rw [getElem?_eq_none (le_trans (length_take_le' _ _) outside)] at here
    cases here

theorem growproc_spec {n : Int} (word : -2 ^ 31 ≤ n ∧ n < 2 ^ 31) :
    Returns (growproc layout root sz n) m fun result m' => ∃ free' image',
      ProcSpace layout m' root trapframe free' image' result.2 ∧
        Moves layout m m' free free' (footprint m root image) (footprint m' root image') ∧
        ((sz + n < 0 ∧ result = (0, sz) ∧ m' = m) ∨
          (0 ≤ sz + n ∧ ChangedBy n m m' root sz result.1 result.2)) := by
  have small := proc.small
  have bound : trapframeVa + 2 ^ 31 < 2 ^ 64 := by decide
  have page : 0 < pgSize := by decide
  refine .ite (fun positive => ?_) fun notPositive => .ite (fun negative => ?_) fun notNegative =>
    ?_
  · obtain ⟨new, is⟩ : ∃ new : Nat, (sz + n) = (new : Int) := ⟨(sz + n).toNat, by omega⟩
    have fits : new < 2 ^ 64 := by omega
    have arg : ((sz + n) % 2 ^ 64).toNat = new := by omega
    rw [arg]
    refine .seq (uvmalloc_spec proc.space proc.held proc.bytes (by omega) fits (by decide)) ?_
    rintro r m₁ ⟨free₁, ⟨rfl, below, added, length, grown⟩ | ⟨rfl, restored⟩⟩
    · rw [if_neg (by omega)]
      have size : r ≤ pageCount r * pgSize ∧ pageCount r * pgSize < r + pgSize :=
        pageCount_bounds (by omega)
      rw [← length] at size
      have proc' := proc.moved grown.space grown.moves size
      exact .pure
        ⟨free₁, _, proc', grown.moves,
        .inr ⟨by omega, .inl ⟨rfl, is.symm, grown.resized proc proc'⟩⟩⟩
    · rw [if_pos rfl]
      exact .pure ⟨free₁, image, proc.moved restored.space restored.moves proc.size, restored.moves,
        .inr ⟨by omega, .inr ⟨rfl, rfl, restored.untouched proc⟩⟩⟩
  · refine .seq (uvmdealloc_spec proc.space proc.held proc.count (by omega)) ?_
    rintro r m₁ (⟨wrapped, rfl, rfl⟩ | ⟨less, is, free₁, shrunk⟩)
    · exact .pure ⟨free, image, proc, .refl proc.held, .inl ⟨by omega, rfl, rfl⟩⟩
    · have exact' : (r : Int) = sz + n := by omega
      rw [← is] at shrunk
      have size : r ≤ pageCount r * pgSize ∧ pageCount r * pgSize < r + pgSize :=
        pageCount_bounds (by omega)
      have fewer : pageCount r ≤ image.length := by
        rw [proc.count]
        exact pageCount_mono (by omega) (by omega)
      rw [← length_take_of_le fewer] at size
      have proc' := proc.moved shrunk.space shrunk.moves size
      exact .pure
        ⟨free₁, _, proc', shrunk.moves,
        .inr ⟨by omega, .inl ⟨rfl, exact', shrunk.resized proc proc'⟩⟩⟩
  · obtain rfl : n = 0 := by omega
    exact .pure
      ⟨free, image, proc, .refl proc.held,
      .inr ⟨by omega, .inl ⟨rfl, (Int.add_zero _).symm, .refl proc⟩⟩⟩

end

/-- `growproc` changes the size by `n` or fails, but for an `n` below minus the size. -/
theorem growproc_changes_iff {n : Int} (proc : ProcSpace layout m root trapframe free image sz)
    (word : -2 ^ 31 ≤ n ∧ n < 2 ^ 31) :
    ∃ r sz' m', growproc layout root sz n m = .ok ((r, sz'), m') ∧
    (ChangedBy n m m' root sz r sz' ↔ 0 ≤ sz + n) := by
  obtain ⟨⟨r, sz'⟩, m', run, -, -, -, -, result⟩ := (growproc_spec proc word).exists
  refine ⟨r, sz', m', run, ?_⟩
  rcases result with ⟨wrapped, is, -⟩ | ⟨inside, changed⟩
  · obtain ⟨rfl, rfl⟩ := Prod.mk.inj is
    refine ⟨fun changed => ?_, fun inside => absurd wrapped (not_lt.mpr inside)⟩
    rcases changed with ⟨-, size, -⟩ | ⟨failed, -⟩
    · omega
    · exact absurd failed (by decide)
  · exact ⟨fun _ => inside, fun _ => changed⟩

end

/-- The process has grown by a page. -/
def grownMemory : Memory := after (growproc smallLayout 0x80100000 0 0x1000) newMemory

theorem growproc_newMemory :
    growproc smallLayout 0x80100000 0 0x1000 newMemory = .ok ((0, 0x1000), grownMemory) :=
  eq_ok_after (by decide +kernel)

theorem growproc_changes_iff_onePage :
    growproc smallLayout 0x80100000 0 0x1000 newMemory = .ok ((0, 0x1000), grownMemory) ∧
      ChangedBy 0x1000 newMemory grownMemory 0x80100000 0 0 0x1000 := by
  obtain ⟨free, proc⟩ := newProcess
  obtain ⟨r, sz', m', run, iff⟩ := growproc_changes_iff proc (n := 0x1000) (by decide)
  obtain ⟨is, rfl⟩ := Prod.mk.inj (Except.ok.inj (run.symm.trans growproc_newMemory))
  obtain ⟨rfl, rfl⟩ := Prod.mk.inj is
  exact ⟨run, iff.mpr (by decide)⟩

/-- `growproc(-1)` succeeds for a process without memory. -/
theorem growproc_wraps : ∃ m root free, ProcSpace smallLayout m root 0x80200000 free [] 0 ∧
    growproc smallLayout root 0 (-1) m = .ok ((0, 0), m) ∧ ¬ChangedBy (-1) m m root 0 0 0 := by
  obtain ⟨free, proc⟩ := newProcess
  refine ⟨_, _, free, proc, rfl, ?_⟩
  rintro (⟨-, size, -⟩ | ⟨failed, -⟩)
  · exact absurd size (by decide)
  · exact absurd failed (by decide)

end Xv6.Vm
