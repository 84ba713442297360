import Xv6.Vm.Mapping

/-!
# Page tables refine a finite map

`pageMap` is the partial map from virtual page numbers to physical pages and
flags that a page table stands for. `mappages` extends it by a range,
`uvmunmap` takes a range out and `walkaddr` looks one page up.
-/

namespace Xv6.Vm

open Prog (Ensures Returns)

variable {layout : Layout} {m m' : Memory} {free : List Nat} {root : Nat}

def pageMap (m : Memory) (root vpn : Nat) : Option (Nat × Nat) :=
  match walk root (vpn * pgSize) false m with
  | .ok (pte, _) =>
    if pte ≠ 0 ∧ m.bytes.load pte 8 &&& pteV ≠ 0 then
      some (pte2pa (m.bytes.load pte 8), pteFlags (m.bytes.load pte 8))
    else
      none
  | .error _ => none

/-- A range of pages mapped to consecutive physical pages. -/
def extendMap (old : Nat → Option (Nat × Nat)) (first pa flags count : Nat) :
    Nat → Option (Nat × Nat) := fun vpn =>
  if first ≤ vpn ∧ vpn < first + count then some (pa + (vpn - first) * pgSize, flags) else old vpn

def removeMap (old : Nat → Option (Nat × Nat)) (first count : Nat) : Nat → Option (Nat × Nat) :=
  fun vpn => if first ≤ vpn ∧ vpn < first + count then none else old vpn

/-- A page table whose pages are not mapped by it. -/
structure PageTree (m : Memory) (root : Nat) : Prop extends Sv39 m root where
  unmapped : ∀ vpn pa flags, pageMap m root vpn = some (pa, flags) → pa ∉ tables m root

/-- Pages for `kalloc` that the page table does not use. -/
structure Reserve (layout : Layout) (m : Memory) (root : Nat) (free : List Nat) : Prop where
  heap : Heap layout m free
  apart : ∀ page ∈ free, page ∉ tables m root
  unmapped : ∀ vpn pa flags, pageMap m root vpn = some (pa, flags) → pa ∉ free

/-- What an entry says. -/
def decode (pte : Nat) : Nat × Nat := (pte2pa pte, pteFlags pte)

theorem pageMap_eq (tree : Sv39 m root) (vpn : Nat) :
    pageMap m root vpn =
      if vpn * pgSize < maxVa then (lookup m root (vpn * pgSize)).map decode else none := by
  unfold pageMap
  by_cases below : vpn * pgSize < maxVa
  · obtain ⟨r, m', run, rfl, result⟩ := (walk_spec below tree).exists
    rw [run, if_pos below]
    rcases result with ⟨rfl, absent⟩ | ⟨nonzero, low, at', rfl⟩
    · simp [lookup, absent]
    · rw [lookup_walked at']
      have load : m'.bytes.load (low + 8 * px 0 (vpn * pgSize)) 8 =
          entryOf m' low (index 0 (vpn * pgSize)) := rfl
      simp only [load, nonzero, ne_eq, not_false_iff, true_and]
      split
      · rfl
      · rfl
  · rw [if_neg below, show walk root (vpn * pgSize) false m = .error .walk by
      unfold walk
      rw [if_pos (by omega)]
      rfl]

/-- `mapRange` on entries is `extendMap` on pages. -/
theorem pageMap_extend {va pa perm count : Nat} (tree : Sv39 m root) (tree' : Sv39 m' root)
    (vaAligned : va % pgSize = 0) (below : va + count * pgSize ≤ maxVa)
    (paAligned : pa % pgSize = 0) (fits : pa + count * pgSize < 2 ^ 56) (flags : perm < 1024)
    (lookups : ∀ va', va' < 2 * maxVa →
      lookup m' root va' = mapRange (lookup m root) va pa perm count va') :
    pageMap m' root =
      extendMap (pageMap m root) (va / pgSize) pa (perm ||| pteV) count := by
  funext vpn
  rw [pageMap_eq tree', extendMap]
  have inRange : (va ≤ vpn * pgSize ∧ vpn * pgSize < va + count * pgSize) ↔
      (va / pgSize ≤ vpn ∧ vpn < va / pgSize + count) := by
    simp only [Nat.mul_comm _ pgSize]
    unfold pgSize at *
    omega
  by_cases here : va / pgSize ≤ vpn ∧ vpn < va / pgSize + count
  · have inside := inRange.mpr here
    have offset : pa + (pgRoundDown (vpn * pgSize) - va) = pa + (vpn - va / pgSize) * pgSize := by
      simp only [Nat.mul_comm _ pgSize] at *
      unfold pgRoundDown pgSize at *
      omega
    have pageAligned : (pa + (vpn - va / pgSize) * pgSize) % pgSize = 0 := by
      simp only [Nat.mul_comm _ pgSize] at *
      unfold pgSize at *
      omega
    have pageFits : pa + (vpn - va / pgSize) * pgSize < 2 ^ 56 := by
      simp only [Nat.mul_comm _ pgSize] at *
      unfold pgSize at *
      omega
    obtain ⟨_, back, kept⟩ := leaf_pte pageAligned pageFits flags
    rw [if_pos here, if_pos (by omega), lookups _ (by omega), mapRange, if_pos inside, offset,
      Option.map_some, decode, back, kept]
  · rw [if_neg here, pageMap_eq tree]
    split
    next below' =>
      rw [lookups _ (by omega), mapRange, if_neg fun inside => here (inRange.mp inside)]
    next => rfl

theorem lookup_of_pageMap {vpn pa flags : Nat} (tree : Sv39 m root)
    (mapped : pageMap m root vpn = some (pa, flags)) :
    ∃ pte, lookup m root (vpn * pgSize) = some pte ∧ pte2pa pte = pa ∧ pteFlags pte = flags := by
  rw [pageMap_eq tree] at mapped
  split at mapped
  next =>
    obtain ⟨pte, found, decoded⟩ := Option.map_eq_some_iff.mp mapped
    exact ⟨pte, found, congrArg Prod.fst decoded, congrArg Prod.snd decoded⟩
  next => cases mapped

theorem pageMap_remove {va count : Nat} (tree : Sv39 m root) (tree' : Sv39 m' root)
    (vaAligned : va % pgSize = 0)
    (lookups : ∀ va', va' < 2 * maxVa →
      lookup m' root va' = if va ≤ va' ∧ va' < va + count * pgSize then none else lookup m root
        va') :
    pageMap m' root = removeMap (pageMap m root) (va / pgSize) count := by
  funext vpn
  rw [pageMap_eq tree', removeMap, pageMap_eq tree]
  have inRange : (va ≤ vpn * pgSize ∧ vpn * pgSize < va + count * pgSize) ↔
      (va / pgSize ≤ vpn ∧ vpn < va / pgSize + count) := by
    simp only [Nat.mul_comm _ pgSize]
    unfold pgSize at *
    omega
  split
  next below =>
    rw [lookups _ (by omega)]
    by_cases here : va / pgSize ≤ vpn ∧ vpn < va / pgSize + count
    · rw [if_pos (inRange.mpr here), if_pos here]
      rfl
    · rw [if_neg fun inside => here (inRange.mp inside), if_neg here]
  next => simp

theorem mappages_refines {va size pa perm : Nat} (tree : PageTree m root)
    (reserve : Reserve layout m root free) (range : Range va size pa perm)
    (absent : ∀ i, i < size / pgSize → pageMap m root (va / pgSize + i) = none)
    (outside : ∀ i, i < size / pgSize → pa + i * pgSize ∉ tables m root ∧ pa + i * pgSize ∉ free) :
    Returns (mappages root va size pa perm) m fun r m' =>
      PageTree m' root ∧ ∃ count,
        ((r = 0 ∧ count = size / pgSize) ∨ (r = -1 ∧ count < size / pgSize)) ∧
        pageMap m' root = extendMap (pageMap m root) (va / pgSize) pa (perm ||| pteV) count := by
  have space : Space layout m root free := ⟨reserve.heap, tree.toSv39, reserve.apart⟩
  have unmapped : ∀ va', va ≤ va' → va' < va + size → lookup m root va' = none := by
    intro va' low high
    have none' := absent (va' / pgSize - va / pgSize)
      (by have := range.vaAligned; have := range.sizeAligned; unfold pgSize at *; omega)
    have vpn : va / pgSize + (va' / pgSize - va / pgSize) = va' / pgSize := by
      have := Nat.div_le_div_right (c := pgSize) low
      omega
    have below' : va' / pgSize * pgSize < maxVa :=
      lt_of_le_of_lt (Nat.div_mul_le_self va' pgSize) (by have := range.below; omega)
    rwa [vpn, pageMap_eq tree.toSv39, if_pos below', lookup_page, Option.map_eq_none_iff] at none'
  have := range.sizeAligned
  have := range.below
  have := range.fits
  refine (mappages_spec space range unmapped).mono
    fun r m' ⟨free', count, grows, result, lookups⟩ => ?_
  have bounded : count ≤ size / pgSize := by
    rcases result with ⟨_, all⟩ | ⟨_, some', _⟩ <;> unfold pgSize at * <;> omega
  have extended := pageMap_extend tree.toSv39 grows.space.tree range.vaAligned
    (by unfold pgSize at *; omega) range.paAligned (by unfold pgSize at *; omega) range.flags
      lookups
  refine ⟨⟨grows.space.tree, ?_⟩, count, ?_, extended⟩
  · intro vpn pa' flags mapped
    obtain ⟨new, split, tables⟩ := grows.taken
    rw [tables]
    rw [extended, extendMap] at mapped
    split at mapped
    next here =>
      cases mapped
      obtain ⟨notTable, notFree⟩ := outside (vpn - va / pgSize) (by omega)
      rintro (inside | inside)
      · exact notTable inside
      · exact notFree (by rw [split]; exact List.mem_append_left _ inside)
    next =>
      rintro (inside | inside)
      · exact tree.unmapped vpn pa' flags mapped inside
      · exact reserve.unmapped vpn pa' flags mapped
          (by rw [split]; exact List.mem_append_left _ inside)
  · rcases result with ⟨rfl, all⟩ | ⟨rfl, some', _⟩
    · exact .inl ⟨rfl, by unfold pgSize at *; omega⟩
    · exact .inr ⟨rfl, by unfold pgSize at *; omega⟩

theorem uvmunmap_refines {va npages : Nat} {doFree : Bool} (tree : PageTree m root)
    (aligned : va % pgSize = 0) (below : va + npages * pgSize ≤ maxVa)
    (leaves : ∀ i, i < npages → ∃ pa flags, pageMap m root (va / pgSize + i) = some (pa, flags) ∧
      flags ≠ pteV ∧ (doFree → Page layout pa)) :
    Returns (uvmunmap layout root va npages doFree) m fun _ m' =>
      PageTree m' root ∧ pageMap m' root = removeMap (pageMap m root) (va / pgSize) npages := by
  have entries : ∀ i, ∃ pte, i < npages → lookup m root (va + i * pgSize) = some pte ∧
      pteFlags pte ≠ pteV ∧ (doFree → Page layout (pte2pa pte) ∧ pte2pa pte ∉ tables m root) := by
    intro i
    by_cases inside : i < npages
    · obtain ⟨pa, flags, mapped, leaf, page⟩ := leaves i inside
      obtain ⟨pte, found, rfl, rfl⟩ := lookup_of_pageMap tree.toSv39 mapped
      refine ⟨pte, fun _ => ⟨?_, leaf, fun free => ⟨page free, tree.unmapped _ _ _ mapped⟩⟩⟩
      rw [← found]
      congr 1
      unfold pgSize at *
      omega
    · exact ⟨0, fun inside' => absurd inside' inside⟩
  choose pte spec using entries
  refine (uvmunmap_spec tree.toSv39 aligned below (fun k inside => ⟨(spec k inside).1,
    (spec k inside).2.1⟩) fun free k inside => (spec k inside).2.2 free).mono
    fun _ m' ⟨shrinks, lookups⟩ => ?_
  have removed := pageMap_remove tree.toSv39 shrinks.tree aligned lookups
  refine ⟨⟨shrinks.tree, fun vpn pa flags mapped => ?_⟩, removed⟩
  rw [removed, removeMap] at mapped
  split at mapped
  next => cases mapped
  next =>
    rw [shrinks.tables]
    exact tree.unmapped vpn pa flags mapped

theorem walkaddr_refines (tree : Sv39 m root) (va : Nat) :
    walkaddr root va m = .ok (match pageMap m root (va / pgSize) with
      | some (pa, flags) => if flags &&& pteU ≠ 0 then pa else 0
      | none => 0, m) := by
  obtain ⟨pa, m', run, rfl, result⟩ := (walkaddr_spec tree va).exists
  rw [run, result, pageMap_eq tree, lookup_page]
  by_cases below : va < maxVa
  · have below' : va / pgSize * pgSize < maxVa :=
      lt_of_le_of_lt (Nat.div_mul_le_self va pgSize) below
    rw [if_pos below, if_pos below']
    cases found : lookup m' root va with
    | none => rfl
    | some pte =>
      simp only [Option.map_some, decode, flags_and pte (show 0x3FF &&& pteU = pteU by decide)]
  · have below' : ¬ va / pgSize * pgSize < maxVa := by
      unfold maxVa pgSize at *
      omega
    rw [if_neg below, if_neg below']

/-- Page tables refine finite maps. For `mappages` the physical pages must not
be page-table pages or free, and `uvmunmap` can free pages of the allocator
only. -/
theorem pagetable_refines_map (tree : PageTree m root) (reserve : Reserve layout m root free) :
    (∀ va size pa perm, Range va size pa perm →
      (∀ i, i < size / pgSize → pageMap m root (va / pgSize + i) = none) →
      (∀ i, i < size / pgSize → pa + i * pgSize ∉ tables m root ∧ pa + i * pgSize ∉ free) →
      ∃ r m', mappages root va size pa perm m = .ok (r, m') ∧ PageTree m' root ∧
        ((r = 0 ∧ pageMap m' root =
            extendMap (pageMap m root) (va / pgSize) pa (perm ||| pteV) (size / pgSize)) ∨
          (r = -1 ∧ ∃ count, count < size / pgSize ∧ pageMap m' root =
            extendMap (pageMap m root) (va / pgSize) pa (perm ||| pteV) count))) ∧
    (∀ va npages doFree, va % pgSize = 0 → va + npages * pgSize ≤ maxVa →
      (∀ i, i < npages → ∃ pa flags, pageMap m root (va / pgSize + i) = some (pa, flags) ∧
        flags ≠ pteV ∧ (doFree = true → Page layout pa)) →
      ∃ m', uvmunmap layout root va npages doFree m = .ok ((), m') ∧ PageTree m' root ∧
        pageMap m' root = removeMap (pageMap m root) (va / pgSize) npages) ∧
    ∀ va, walkaddr root va m = .ok (match pageMap m root (va / pgSize) with
      | some (pa, flags) => if flags &&& pteU ≠ 0 then pa else 0
      | none => 0, m) := by
  refine ⟨fun va size pa perm range absent outside => ?_,
    fun va npages doFree aligned below leaves => ?_, walkaddr_refines tree.toSv39⟩
  · obtain ⟨r, m', run, tree', count, result, extended⟩ :=
      (mappages_refines tree reserve range absent outside).exists
    refine ⟨r, m', run, tree', ?_⟩
    rcases result with ⟨rfl, rfl⟩ | ⟨rfl, fewer⟩
    · exact .inl ⟨rfl, extended⟩
    · exact .inr ⟨rfl, count, fewer, extended⟩
  · obtain ⟨_, m', run, tree', removed⟩ := (uvmunmap_refines tree aligned below leaves).exists
    exact ⟨m', run, tree', removed⟩

def smallLayout : Layout where
  kernelEnd := 0x80100000
  trampoline := 0x80000000
  aboveBase := by decide
  belowTop := by decide
  trampolineAligned := by decide
  trampolineInside := by decide

/-- Sixteen free pages, an empty page table at `0x80200000` and a string at
`0x80300000`. -/
def sample : Memory where
  bytes a :=
    if 0x80100000 ≤ a ∧ a < 0x8010F000 then
      ByteSpace.store (fun _ => 0) (pgRoundDown a) 8 (pgRoundDown a + pgSize) a
    else if a = 0x80300000 then 104
    else if a = 0x80300001 then 105
    else 0
  freelist := 0x80100000

def samplePages : List Nat := (List.range 16).map fun i => 0x80100000 + pgSize * i

theorem sample_heap : Heap smallLayout sample samplePages := by
  have pages : ∀ page ∈ samplePages, page % pgSize = 0 ∧ smallLayout.kernelEnd ≤ page ∧
      page < physTop := by
    decide
  refine ⟨by decide +kernel, by decide, fun page member => ?_⟩
  obtain ⟨aligned, above, below⟩ := pages page member
  exact ⟨aligned, above, below⟩

theorem sample_bare (i : Fin 512) : entryOf sample 0x80200000 i = 0 := by
  refine load_zero fun a low high => ?_
  simp only [sample]
  rw [if_neg (by omega), if_neg (by omega), if_neg (by omega)]

theorem sample_tree : Sv39 sample 0x80200000 :=
  .empty (by decide) (by decide) sample_bare

theorem sample_pageMap (vpn : Nat) : pageMap sample 0x80200000 vpn = none := by
  rw [pageMap_eq sample_tree, lookup_empty sample_bare]
  simp

theorem sample_pageTree : PageTree sample 0x80200000 :=
  ⟨sample_tree, fun vpn pa flags mapped => by simp [sample_pageMap] at mapped⟩

theorem sample_reserve :
    Reserve smallLayout sample 0x80200000 samplePages := by
  refine ⟨sample_heap, fun page member => ?_, fun vpn pa flags mapped => ?_⟩
  · rw [tables_empty sample_bare]
    rintro rfl
    revert member
    decide
  · simp [sample_pageMap] at mapped

/-- Two pages are mapped. -/
theorem pagetable_refines_map_twoPages :
    ∃ m', mappages 0x80200000 0x1000 0x2000 0x80300000 (pteR ||| pteU) sample = .ok (0, m') ∧
      PageTree m' 0x80200000 ∧ pageMap m' 0x80200000 2 = some (0x80301000, 19) := by
  have range : Range 0x1000 0x2000 0x80300000 (pteR ||| pteU) :=
    ⟨by decide, by decide, by decide, by decide, by decide, by decide, by decide⟩
  obtain ⟨r, m', run, tree, result⟩ :=
    (pagetable_refines_map sample_pageTree sample_reserve).1 _ _ _ _ range
      (fun i _ => sample_pageMap _) fun i inside => by
        have few : i < 2 := inside
        rw [tables_empty sample_bare]
        obtain rfl | rfl : i = 0 ∨ i = 1 := by omega
        all_goals exact ⟨by decide, by decide⟩
  have success : (mappages 0x80200000 0x1000 0x2000 0x80300000 (pteR ||| pteU) sample).map
      Prod.fst = .ok 0 := by
    decide +kernel
  rw [run] at success
  obtain rfl : r = 0 := Except.ok.inj success
  rcases result with ⟨-, extended⟩ | ⟨failed, -⟩
  · exact ⟨m', run, tree, by rw [extended]; rfl⟩
  · exact absurd failed (by decide)

/-- The page table's root can be mapped by the page table itself, and a page
that is not the allocator's can be mapped but not freed. -/
theorem mappages_ownRoot_uvmunmap_foreign :
    (PageTree sample 0x80200000 ∧ ∃ m',
      mappages 0x80200000 0 0x1000 0x80200000 pteR sample = .ok (0, m') ∧
        ¬ PageTree m' 0x80200000) ∧
    ∃ m, PageTree m 0x80200000 ∧ pageMap m 0x80200000 0 = some (0x1000, pteR ||| pteV) ∧
      ∃ panic, uvmunmap smallLayout 0x80200000 0 1 true m = .error panic := by
  constructor
  · refine ⟨sample_pageTree, ?_⟩
    have run : (mappages 0x80200000 0 0x1000 0x80200000 pteR sample).map
        (fun result => (result.1, pageMap result.2 0x80200000 0)) =
        .ok (0, some (0x80200000, pteR ||| pteV)) := by decide +kernel
    cases done : mappages 0x80200000 0 0x1000 0x80200000 pteR sample with
    | error panic => simp [done, Except.map] at run
    | ok result =>
      obtain ⟨r, m'⟩ := result
      simp only [done, Except.map, Except.ok.injEq, Prod.mk.injEq] at run
      obtain ⟨rfl, mapped⟩ := run
      exact ⟨m', rfl, fun tree => tree.unmapped _ _ _ mapped Trie.root_mem_nodes⟩
  · have run : (mappages 0x80200000 0 0x1000 0x1000 pteR sample).map
        (fun result => (pageMap result.2 0x80200000 0,
          (uvmunmap smallLayout 0x80200000 0 1 true result.2).isOk)) =
        .ok (some (0x1000, pteR ||| pteV), false) := by decide +kernel
    cases done : mappages 0x80200000 0 0x1000 0x1000 pteR sample with
    | error panic => simp [done, Except.map] at run
    | ok result =>
      obtain ⟨r, m⟩ := result
      simp only [done, Except.map, Except.ok.injEq, Prod.mk.injEq] at run
      have range : Range 0 0x1000 0x1000 pteR :=
        ⟨by decide, by decide, by decide, by decide, by decide, by decide, by decide⟩
      have spec := mappages_refines sample_pageTree sample_reserve range
        (fun i _ => sample_pageMap _) fun i inside => by
          have few : i < 1 := inside
          rw [tables_empty sample_bare]
          obtain rfl : i = 0 := by omega
          exact ⟨by decide, by decide⟩
      refine ⟨m, (spec.of_ok done).1, run.1, ?_⟩
      cases failed : uvmunmap smallLayout 0x80200000 0 1 true m with
      | ok result => simp [failed, Except.isOk, Except.toBool] at run
      | error panic => exact ⟨panic, rfl⟩

end Xv6.Vm
