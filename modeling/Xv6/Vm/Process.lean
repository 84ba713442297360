import Xv6.Vm.Free
import Xv6.Vm.Refinement

/-!
# Page tables of processes

`proc_pagetable`, `proc_freepagetable` and `growproc` of `kernel/proc.c`. Besides its
image a process has the trampoline and its trapframe mapped, for the kernel only.
-/

namespace Xv6.Vm

open Function
open Prog (Ensures Returns)

variable {layout : Layout} {m m' m'' : Memory} {free free' free'' : List Nat}
  {owned touched : Set Nat} {root vpn x : Nat} {fixed : Nat → Option Nat} {image : List Nat}

section

variable (layout : Layout)

def procPagetable (trapframe : Nat) : VmM Nat := do
  let pagetable ← uvmcreate
  if pagetable = 0 then
    return 0
  else
    let mapped ← mappages pagetable trampolineVa pgSize layout.trampoline (pteR ||| pteX)
    if mapped < 0 then
      uvmfree layout pagetable 0
      return 0
    else
      let mapped ← mappages pagetable trapframeVa pgSize trapframe (pteR ||| pteW)
      if mapped < 0 then
        uvmunmap layout pagetable trampolineVa 1 false
        uvmfree layout pagetable 0
        return 0
      else
        return pagetable

def procFreepagetable (pagetable sz : Nat) : VmM Unit := do
  uvmunmap layout pagetable trampolineVa 1 false
  uvmunmap layout pagetable trapframeVa 1 false
  uvmfree layout pagetable sz

/-- The return value and the new `p->sz`. `n` is widened to 64 bits. -/
def growproc (pagetable sz : Nat) (n : Int) : VmM (Int × Nat) := do
  if n > 0 then
    let new ← uvmalloc layout pagetable sz ((sz + n) % 2 ^ 64).toNat pteW
    if new = 0 then return (-1, sz) else return (0, new)
  else if n < 0 then
    let new ← uvmdealloc layout pagetable sz ((sz + n) % 2 ^ 64).toNat
    return (0, new)
  else
    return (0, sz)

end

/-! ## Fixed pages -/

def fix (fixed : Nat → Option Nat) (vpn : Nat) (pte : Option Nat) : Nat → Option Nat :=
  update fixed vpn pte

theorem AddrSpace.outside (space : AddrSpace m root fixed image)
    (held : Held layout m free (footprint m root image)) (below : (vpn + 1) * pgSize ≤ maxVa)
    (high : trapframeVa ≤ vpn * pgSize) : image.length ≤ vpn ∧ vpn * pgSize < 2 * maxVa := by
  have top := space.below held
  unfold pgSize maxVa trapframeVa trampolineVa at *
  omega

theorem unfix_spec {pte : Nat} (space : AddrSpace m root fixed image)
    (held : Held layout m free (footprint m root image)) (below : (vpn + 1) * pgSize ≤ maxVa)
    (high : trapframeVa ≤ vpn * pgSize) (present : fixed vpn = some pte)
    (leaf : pteFlags pte ≠ pteV) :
    Returns (uvmunmap layout root (vpn * pgSize) 1 false) m fun _ m' =>
      AddrSpace m' root (fix fixed vpn none) image ∧
        Moves layout m m' free free (footprint m root image) (footprint m' root image) ∧
        Unchanged (tables m root) m m' := by
  obtain ⟨outside, low⟩ := space.outside held below high
  have single : vpn * pgSize + 1 * pgSize ≤ maxVa := by
    rw [← Nat.add_mul]
    exact below
  have here : lookup m root (vpn * pgSize) = some pte := by
    rw [space.map vpn low, List.getElem?_eq_none outside, present]
    rfl
  have mapped : ∀ k, k < 1 → lookup m root (vpn * pgSize + k * pgSize) = some pte ∧
      pteFlags pte ≠ pteV := by
    intro k only
    obtain rfl : k = 0 := by omega
    rw [Nat.zero_mul, Nat.add_zero]
    exact ⟨here, leaf⟩
  refine (uvmunmap_spec space.tree (Nat.mul_mod_left _ _) single mapped
    fun freed => absurd freed Bool.false_ne_true).mono ?_
  rintro _ m' ⟨shrinks, lookups⟩
  have part : Held layout m free (tables m root ∪ { y | y ∈ ([] : List Nat) }) := by
    apply held.mono
    rintro y (inside | none)
    · exact .inl inside
    · cases none
  have moves := shrinks.moves part space.tree List.nodup_nil
  have none : ∀ y, y ∉ { y | y ∈ freedPages false (fun _ => pte) 1 } :=
    fun y member => nomatch member
  refine ⟨⟨shrinks.tree, fun v bound => ?_, space.nodup, ?_, space.leaves, fun v bound => ?_,
    fun v e is => ?_⟩,
    moves.frame held (fun y => ?_) (fun y inside => ?_) fun y => .rfl, shrinks.unchanged.mono ?_⟩
  · rw [lookups _ bound, space.map v bound, fix]
    by_cases same : v = vpn
    · subst same
      rw [if_pos (by unfold pgSize; omega), update_self, List.getElem?_eq_none outside]
      rfl
    · rw [update_of_ne same, if_neg]
      unfold pgSize
      omega
  · rw [shrinks.tables]
    exact space.apart
  · rw [fix, update_of_ne]
    · exact space.above v bound
    · rintro rfl
      omega
  · rw [fix] at is
    by_cases same : v = vpn
    · rw [same, update_self] at is
      cases is
    · rw [update_of_ne same] at is
      exact space.supervisor v e is
  · rw [footprint, Set.mem_union, Set.mem_union, or_iff_left (none y)]
  · rw [Set.mem_union, or_iff_left (none y)]
    exact space.apart y inside
  · rintro y (inside | member)
    · exact inside
    · exact absurd member (none y)

theorem fix_spec {pa perm : Nat} (space : AddrSpace m root fixed image)
    (held : Held layout m free (footprint m root image)) (below : (vpn + 1) * pgSize ≤ maxVa)
    (high : trapframeVa ≤ vpn * pgSize) (absent : fixed vpn = none) (aligned : pa % pgSize = 0)
    (inside : pa < physTop) (flags : perm < 1024) (kernel : (perm ||| pteV) &&& pteU = 0) :
    Returns (mappages root (vpn * pgSize) pgSize pa perm) m fun r m' => ∃ free',
      Moves layout m m' free free' (footprint m root image) (footprint m' root image) ∧
        Unchanged (tables m root ∪ { x | x ∈ free }) m m' ∧
        ((r = 0 ∧ AddrSpace m' root (fix fixed vpn (some (leafEntry pa perm))) image) ∨
          (r = -1 ∧ AddrSpace m' root fixed image)) := by
  have inTables : Held layout m free (tables m root) := held.mono fun x => .inl
  obtain ⟨outside, low⟩ := space.outside held below high
  have unmapped : lookup m root (vpn * pgSize) = none := by
    rw [space.map vpn low, List.getElem?_eq_none outside, absent]
    rfl
  have both : Space layout m root free :=
    ⟨held.heap, space.tree, fun x isFree isTable => inTables.apart x isTable isFree⟩
  refine (mapOne_spec both below aligned inside flags unmapped).mono ?_
  rintro r m' ⟨free', grows, result⟩
  have moves := grows.moves inTables
  have apart' : ∀ x ∈ frames image, x ∉ tables m' root := by
    intro x isFrame isTable
    rcases (moves.same x).mp (.inr isTable) with isFree | isOld
    · exact held.apart x (.inr isFrame) isFree
    · exact space.apart x isFrame isOld
  refine ⟨free', moves.frame held (fun x => .rfl) space.apart fun x => .rfl, grows.unchanged, ?_⟩
  rcases result with ⟨rfl, lookups⟩ | ⟨rfl, -, lookups⟩
  · obtain ⟨-, -, kept⟩ := leaf_pte aligned (inside.trans (by decide)) flags
    refine .inl
      ⟨rfl, grows.space.tree, fun v bound => ?_, space.nodup, apart', space.leaves,
      fun v bound => ?_,
      fun v e is => ?_⟩
    · rw [lookups v bound, space.map v bound, fix]
      by_cases same : v = vpn
      · rw [if_pos same, same, update_self, List.getElem?_eq_none outside]
        rfl
      · rw [if_neg same, update_of_ne same]
    · rw [fix, update_of_ne]
      · exact space.above v bound
      · rintro rfl
        omega
    · rw [fix] at is
      by_cases same : v = vpn
      · rw [same, update_self] at is
        obtain rfl := Option.some.inj is
        rw [← flags_and _ (by decide), leafEntry, kept]
        exact kernel
      · rw [update_of_ne same] at is
        exact space.supervisor v e is
  · refine .inr
      ⟨rfl, grows.space.tree, fun v bound => ?_, space.nodup, apart', space.leaves, space.above,
      space.supervisor⟩
    rw [lookups v bound, space.map v bound]

def trampolineVpn : Nat := trampolineVa / pgSize

def trapframeVpn : Nat := trapframeVa / pgSize

theorem trampolineVpn_mul : trampolineVpn * pgSize = trampolineVa := by decide

theorem trapframeVpn_mul : trapframeVpn * pgSize = trapframeVa := by decide

def trampolineEntry (layout : Layout) : Nat := leafEntry layout.trampoline (pteR ||| pteX)

def trapframeEntry (trapframe : Nat) : Nat := leafEntry trapframe (pteR ||| pteW)

def procFixed (layout : Layout) (trapframe : Nat) : Nat → Option Nat :=
  fix (fix (fun _ => none) trampolineVpn (some (trampolineEntry layout))) trapframeVpn
    (some (trapframeEntry trapframe))

theorem unfix_procFixed (layout : Layout) (trapframe : Nat) :
    fix (fix (procFixed layout trapframe) trampolineVpn none) trapframeVpn none = fun _ =>
      none := by
  funext v
  unfold procFixed fix
  by_cases top : v = trapframeVpn
  · rw [top, update_self]
  · rw [update_of_ne top]
    by_cases next : v = trampolineVpn
    · rw [next, update_self]
    · rw [update_of_ne next, update_of_ne top, update_of_ne next]

theorem flags_fixed {pa perm : Nat} (aligned : pa % pgSize = 0) (inside : pa < physTop)
    (flags : perm < 1024) (some' : perm ||| pteV ≠ pteV) : pteFlags (leafEntry pa perm) ≠ pteV := by
  obtain ⟨-, -, kept⟩ := leaf_pte aligned (inside.trans (by decide)) flags
  rw [leafEntry, kept]
  exact some'

theorem trampoline_inside (layout : Layout) : layout.trampoline < physTop := by
  have := layout.trampolineInside
  have := layout.belowTop
  unfold pgSize at *
  omega

theorem procFixed_page {trapframe pte : Nat} (isPage : Page layout trapframe)
    (isFixed : procFixed layout trapframe vpn = some pte) :
    (vpn = trampolineVpn ∧ pte2pa pte = layout.trampoline) ∨
    (vpn = trapframeVpn ∧ pte2pa pte = trapframe) := by
  unfold procFixed fix at isFixed
  by_cases top : vpn = trapframeVpn
  · rw [top, update_self] at isFixed
    obtain rfl := Option.some.inj isFixed
    exact .inr ⟨top, (leaf_pte isPage.aligned (isPage.below.trans (by decide)) (by decide)).2.1⟩
  rw [update_of_ne top] at isFixed
  by_cases next : vpn = trampolineVpn
  · rw [next, update_self] at isFixed
    obtain rfl := Option.some.inj isFixed
    exact .inl
      ⟨next,
      (leaf_pte layout.trampolineAligned ((trampoline_inside layout).trans (by decide))
        (by decide)).2.1⟩
  · rw [update_of_ne next] at isFixed
    cases isFixed

theorem trampoline_not_page (layout : Layout) : ¬Page layout layout.trampoline := by
  intro isPage
  have := isPage.above
  have := layout.trampolineInside
  unfold pgSize at *
  omega

/-- All that the process has is free afterwards, but for its trapframe. -/
theorem procFreepagetable_spec {trapframe sz : Nat}
    (space : AddrSpace m root (procFixed layout trapframe) image)
    (held : Held layout m free (footprint m root image)) (isPage : Page layout trapframe)
    (size : image.length = pageCount sz) :
    Returns (procFreepagetable layout root sz) m fun _ m' =>
      ∃ free', Moves layout m m' free free' (footprint m root image) ∅ := by
  unfold procFreepagetable
  rw [← trampolineVpn_mul, ← trapframeVpn_mul]
  have first : procFixed layout trapframe trampolineVpn = some (trampolineEntry layout) := by
    unfold procFixed fix
    rw [update_of_ne (by decide), update_self]
  refine .seq (unfix_spec space held (by decide) (by decide) first
    (flags_fixed layout.trampolineAligned (trampoline_inside layout) (by decide) (by decide))) ?_
  rintro _ m₁ ⟨space₁, moves₁, -⟩
  have second : fix (procFixed layout trapframe) trampolineVpn none trapframeVpn =
      some (trapframeEntry trapframe) := by
    unfold procFixed fix
    rw [update_of_ne (by decide), update_self]
  refine .seq (unfix_spec space₁ moves₁.held (by decide) (by decide) second
    (flags_fixed isPage.aligned isPage.below (by decide) (by decide))) ?_
  rintro _ m₂ ⟨space₂, moves₂, -⟩
  rw [unfix_procFixed] at space₂
  refine (uvmfree_spec space₂ moves₂.held size).mono ?_
  rintro _ m₃ ⟨free₃, moves₃⟩
  exact ⟨free₃, moves₁.trans (moves₂.trans moves₃)⟩

/-! ## New page tables -/

@[simp] theorem footprint_nil (m : Memory) (root : Nat) : footprint m root [] = tables m root := by
  rw [footprint, frames_nil, Set.union_empty]

theorem uvmcreate_spec (held : Held layout m free ∅) :
    Returns uvmcreate m fun r m' => (r = 0 ∧ free = [] ∧ m' = m) ∨
      (r ≠ 0 ∧ AddrSpace m' r (fun _ => none) [] ∧
        ∃ free', Moves layout m m' free free' ∅ (footprint m' r [])) := by
  refine .seq (kalloc_moves held) ?_
  rintro r m₁ (⟨rfl, none, rfl⟩ | ⟨nonzero, -, isPage, -, free₁, moves⟩)
  · rw [if_pos rfl]
    exact .pure (.inl ⟨rfl, none, rfl⟩)
  rw [if_neg nonzero]
  refine .bind (memset_rule (.pure (.inr ⟨nonzero, ?_⟩)))
  have finish : ∀ m₂ : Memory, Unchanged {r} m₁ m₂ → m₂.freelist = m₁.freelist →
      (∀ i, entryOf m₂ r i = 0) →
        AddrSpace m₂ r (fun _ => none) [] ∧
          ∃ free', Moves layout m m₂ free free' ∅ (footprint m₂ r []) := by
    intro m₂ unchanged freelist bare
    refine ⟨⟨.empty isPage.aligned nonzero bare, fun v _ => ?_, List.nodup_nil, ?_,
      fun _ none => (nomatch none),
      fun _ _ => rfl, fun _ _ none => (nomatch none)⟩, free₁, ?_⟩
    · rw [lookup_empty bare]
      rfl
    · rw [frames_nil]
      exact fun _ none => none.elim
    · rw [footprint_nil, tables_empty bare]
      have single : insert r (∅ : Set Nat) = {r} := by simp
      rw [single] at moves
      exact moves.trans (Moves.write moves.held unchanged freelist subset_rfl)
  refine finish _ (memset_unchanged m₁ isPage.aligned 0) rfl fun i => ?_
  apply load_zero
  intro a low high
  exact if_pos ⟨by omega, by unfold pgSize; omega⟩

theorem procPagetable_spec {trapframe : Nat} (held : Held layout m free ∅)
    (isPage : Page layout trapframe) :
    Returns (procPagetable layout trapframe) m fun r m' => ∃ free',
      (r = 0 ∧ Moves layout m m' free free' ∅ ∅) ∨
      (r ≠ 0 ∧ AddrSpace m' r (procFixed layout trapframe) [] ∧
        Moves layout m m' free free' ∅ (footprint m' r [])) := by
  unfold procPagetable
  refine .seq (uvmcreate_spec held) ?_
  rintro r m₁ (⟨rfl, -, rfl⟩ | ⟨nonzero, space₁, free₁, moves₁⟩)
  · rw [if_pos rfl]
    exact .pure ⟨free, .inl ⟨rfl, Moves.refl held⟩⟩
  rw [if_neg nonzero, ← trampolineVpn_mul, ← trapframeVpn_mul]
  refine .seq (fix_spec space₁ moves₁.held (by decide) (by decide) rfl layout.trampolineAligned
    (trampoline_inside layout) (by decide) (by decide)) ?_
  rintro r₂ m₂ ⟨free₂, moves₂, -, ⟨rfl, space₂⟩ | ⟨rfl, space₂⟩⟩
  swap
  · rw [if_pos (by decide)]
    refine .seq (uvmfree_spec space₂ moves₂.held (by decide)) ?_
    rintro _ m₃ ⟨free₃, moves₃⟩
    exact .pure ⟨free₃, .inl ⟨rfl, moves₁.trans (moves₂.trans moves₃)⟩⟩
  rw [if_neg (by decide)]
  change AddrSpace m₂ r (fix (fun _ => none) trampolineVpn (some (trampolineEntry layout)))
    [] at space₂
  have absent : fix (fun _ => none) trampolineVpn (some (trampolineEntry layout)) trapframeVpn =
      none := by
    unfold fix
    rw [update_of_ne (by decide)]
  refine .seq
    (fix_spec space₂ moves₂.held (by decide) (by decide) absent isPage.aligned isPage.below
      (by decide)
    (by decide)) ?_
  rintro r₃ m₃ ⟨free₃, moves₃, -, ⟨rfl, space₃⟩ | ⟨rfl, space₃⟩⟩
  · rw [if_neg (by decide)]
    exact .pure ⟨free₃, .inr ⟨nonzero, space₃, moves₁.trans (moves₂.trans moves₃)⟩⟩
  rw [if_pos (by decide)]
  have present : fix (fun _ => none) trampolineVpn (some (trampolineEntry layout)) trampolineVpn =
      some (trampolineEntry layout) := update_self ..
  refine .seq (unfix_spec space₃ moves₃.held (by decide) (by decide) present
    (flags_fixed layout.trampolineAligned (trampoline_inside layout) (by decide) (by decide))) ?_
  rintro _ m₄ ⟨space₄, moves₄, -⟩
  have bare : fix (fix (fun _ => none) trampolineVpn (some (trampolineEntry layout))) trampolineVpn
      none =
        fun _ => none := by
    unfold fix
    rw [update_idem, update_eq_self]
  rw [bare] at space₄
  refine .seq (uvmfree_spec space₄ moves₄.held (by decide)) ?_
  rintro _ m₅ ⟨free₅, moves₅⟩
  exact .pure ⟨free₅, .inl ⟨rfl, moves₁.trans (moves₂.trans (moves₃.trans (moves₄.trans moves₅)))⟩⟩

end Xv6.Vm
