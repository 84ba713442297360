import Xv6.Vm.Copy
import Xv6.Vm.Process

/-!
# Address spaces of processes

A process has `sz` bytes of memory at the bottom of its address space and its two fixed
pages at the top. All that is mapped is its own, but for the trampoline.
-/

namespace Xv6.Vm

open List
open Prog (Ensures Returns)

variable {layout : Layout} {m m' m'' : Memory} {free free' : List Nat}
  {root trapframe vpn sz sz' : Nat} {fixed : Nat → Option Nat} {image image' : List Nat}

/-- The address space of a process with `sz` bytes of memory, next to the free list. -/
structure ProcSpace (layout : Layout) (m : Memory) (root trapframe : Nat) (free image : List Nat)
    (sz : Nat) : Prop where
  space : AddrSpace m root (procFixed layout trapframe) image
  held : Held layout m free (footprint m root image)
  size : sz ≤ image.length * pgSize ∧ image.length * pgSize < sz + pgSize
  isPage : Page layout trapframe
  apart : trapframe ∉ footprint m root image ∧ trapframe ∉ free

namespace ProcSpace

section

variable (proc : ProcSpace layout m root trapframe free image sz)

include proc

theorem small : sz + pgSize < trapframeVa := by
  have below := proc.space.below proc.held
  rw [Nat.succ_mul] at below
  exact lt_of_le_of_lt (Nat.add_le_add_right proc.size.1 _) below

theorem count : image.length = pageCount sz :=
  pageCount_unique proc.size.1 proc.size.2 (proc.small.trans (by decide)).le

theorem bytes : image.length * pgSize = pgRoundUp sz := by
  rw [← pageCount_mul, proc.count]

/-- The pages of the image are the ones below the size. -/
theorem inside : vpn < image.length ↔ vpn * pgSize < sz := by
  obtain ⟨above, below⟩ := proc.size
  constructor
  · intro inside
    have : (vpn + 1) * pgSize ≤ image.length * pgSize := Nat.mul_le_mul_right _ inside
    rw [Nat.succ_mul] at this
    omega
  · intro inside
    exact Nat.lt_of_mul_lt_mul_right (lt_of_lt_of_le inside above)

end

end ProcSpace

theorem ProcSpace.bare (space : AddrSpace m root (procFixed layout trapframe) [])
    (held : Held layout m free (footprint m root [])) (isPage : Page layout trapframe)
    (apart : trapframe ∉ footprint m root [] ∧ trapframe ∉ free) :
    ProcSpace layout m root trapframe free [] 0 :=
  ⟨space, held, ⟨Nat.zero_le _, by decide⟩, isPage, apart⟩

/-! ## Mapped pages -/

/-- Leaves that are not in the image are of pages that nobody else has. -/
def Outside (m : Memory) (root : Nat) (free : List Nat) (fixed : Nat → Option Nat) : Prop :=
  ∀ vpn pte, fixed vpn = some pte → pte2pa pte ∉ tables m root ∧ pte2pa pte ∉ free

theorem Outside.leaf {va pte : Nat} (outside : Outside m root free fixed)
    (space : AddrSpace m root fixed image) (held : Held layout m free (footprint m root image))
    (below : va < 2 * maxVa) (found : lookup m root va = some pte) :
    pte2pa pte ∉ tables m root ∪ { x | x ∈ free } := by
  have low : va / pgSize * pgSize < 2 * maxVa :=
    lt_of_le_of_lt (Nat.div_mul_le_self va pgSize) below
  rw [← lookup_page, space.map _ low] at found
  rcases Option.or_eq_some_iff.mp found with inImage | ⟨-, isFixed⟩
  · have isFrame : pte2pa pte ∈ frames image := ⟨pte, mem_of_getElem? inImage, rfl⟩
    rintro (isTable | isFree)
    · exact space.apart _ isFrame isTable
    · exact held.apart _ (.inr isFrame) isFree
  · obtain ⟨notTable, notFree⟩ := outside _ _ isFixed
    rintro (isTable | isFree)
    · exact notTable isTable
    · exact notFree isFree

section

variable (proc : ProcSpace layout m root trapframe free image sz)

include proc

/-- The trampoline is in the kernel, the trapframe belongs to the process. -/
theorem ProcSpace.outside :
    Outside m root free (procFixed layout trapframe) := by
  intro vpn pte isFixed
  rcases procFixed_page proc.isPage isFixed with ⟨-, is⟩ | ⟨-, is⟩
  · rw [is]
    exact ⟨fun isTable => trampoline_not_page layout (proc.held.pages _ (.inl isTable)),
      fun isFree => trampoline_not_page layout (proc.held.heap.pages _ isFree)⟩
  · rw [is]
    exact ⟨fun isTable => proc.apart.1 (.inl isTable), proc.apart.2⟩

theorem ProcSpace.mapped (below : vpn * pgSize < trapframeVa) :
    Vm.lookup m root (vpn * pgSize) = image[vpn]? := by
  rw [proc.space.map vpn (below.trans (by decide)), proc.space.above vpn below, Option.or_none]

theorem ProcSpace.beyond {va : Nat} (high : trapframeVa ≤ va) : image[va / pgSize]? = none := by
  apply getElem?_eq_none
  have below := proc.space.below proc.held
  rw [Nat.le_div_iff_mul_le (by decide)]
  have : image.length * pgSize ≤ (image.length + 1) * pgSize :=
    Nat.mul_le_mul_right _ (Nat.le_succ _)
  omega

/-- Pages that moved between the process and the free list are not its trapframe. -/
theorem ProcSpace.moved (space : AddrSpace m' root (procFixed layout trapframe) image')
    (moves : Moves layout m m' free free' (footprint m root image) (footprint m' root image'))
    (size : sz' ≤ image'.length * pgSize ∧ image'.length * pgSize < sz' + pgSize) :
    ProcSpace layout m' root trapframe free' image' sz' := by
  have outside : ¬(trapframe ∈ free' ∨ trapframe ∈ footprint m' root image') := by
    rw [moves.same]
    rintro (isFree | owned)
    · exact proc.apart.2 isFree
    · exact proc.apart.1 owned
  exact ⟨space, moves.held, size, proc.isPage, fun owned => outside (.inr owned),
    fun isFree => outside (.inl isFree)⟩

theorem ProcSpace.entry {va : Nat} (below : va < sz) :
    ∃ pte, image[va / pgSize]? = some pte ∧ Vm.lookup m root va = some pte := by
  have low : va / pgSize * pgSize < sz := lt_of_le_of_lt (Nat.div_mul_le_self va pgSize) below
  have inside : va / pgSize < image.length := proc.inside.mpr low
  have small : va / pgSize * pgSize < trapframeVa :=
    low.trans ((Nat.lt_add_of_pos_right (by decide)).trans proc.small)
  refine ⟨image.get ⟨_, inside⟩, getElem?_eq_getElem inside, ?_⟩
  rw [← lookup_page, proc.mapped small]
  exact getElem?_eq_getElem inside

theorem ProcSpace.physical {va : Nat} (below : va < sz) :
    ∃ pte ∈ image, Vm.physical m root va = some (pte2pa pte + va % pgSize) := by
  obtain ⟨pte, here, found⟩ := proc.entry below
  have small : va / pgSize * pgSize < maxVa :=
    lt_of_le_of_lt (Nat.div_mul_le_self va pgSize) (below.trans
      ((Nat.lt_add_of_pos_right (by decide)).trans (proc.small.trans (by decide))))
  refine ⟨pte, mem_of_getElem? here, ?_⟩
  rw [Vm.physical, pageMap_eq proc.space.tree, if_pos small, lookup_page, found]
  rfl

theorem ProcSpace.leaf_cases {pte : Nat} (below : vpn * pgSize < 2 * maxVa)
    (found : lookup m root (vpn * pgSize) = some pte) :
    (image[vpn]? = some pte ∧ pte2pa pte ∈ frames image) ∨
      (vpn = trampolineVpn ∧ pte2pa pte = layout.trampoline) ∨
      (vpn = trapframeVpn ∧ pte2pa pte = trapframe) := by
  rw [proc.space.map vpn below] at found
  rcases Option.or_eq_some_iff.mp found with inImage | ⟨-, isFixed⟩
  · exact .inl ⟨inImage, pte, mem_of_getElem? inImage, rfl⟩
  · exact .inr (procFixed_page proc.isPage isFixed)

omit proc in
theorem pageMap_below (tree : Sv39 m root) {vpn pa flags : Nat}
    (mapped : pageMap m root vpn = some (pa, flags)) : vpn * pgSize < maxVa := by
  rw [pageMap_eq tree] at mapped
  split at mapped
  next below => exact below
  next => cases mapped

theorem ProcSpace.userTable : UserTable m root := by
  have tree := proc.space.tree
  have leaf : ∀ {vpn pa flags}, pageMap m root vpn = some (pa, flags) → ∃ pte, pte2pa pte = pa ∧
      vpn * pgSize < 2 * maxVa ∧ lookup m root (vpn * pgSize) = some pte := by
    intro vpn pa flags mapped
    obtain ⟨pte, found, is, -⟩ := lookup_of_pageMap tree mapped
    exact ⟨pte, is, (pageMap_below tree mapped).trans (by decide), found⟩
  have notTrampoline : layout.trampoline ∉ frames image := fun isFrame =>
    trampoline_not_page layout (proc.held.pages _ (.inr isFrame))
  have notTrapframe : trapframe ∉ frames image := fun isFrame => proc.apart.1 (.inr isFrame)
  have different : layout.trampoline ≠ trapframe :=
    fun same => trampoline_not_page layout (same ▸ proc.isPage)
  refine ⟨⟨tree, fun vpn pa flags mapped => ?_⟩, fun vpn vpn' pa flags flags' here there => ?_,
    fun vpn flags here => ?_⟩
  · obtain ⟨pte, rfl, below, found⟩ := leaf mapped
    exact fun isTable => proc.outside.leaf proc.space proc.held below found (.inl isTable)
  · obtain ⟨pte, is, below, found⟩ := leaf here
    obtain ⟨pte', is', below', found'⟩ := leaf there
    rcases proc.leaf_cases below found with ⟨at', isFrame⟩ | ⟨rfl, fixed⟩ | ⟨rfl, fixed⟩
    · rcases proc.leaf_cases below' found' with ⟨at'', -⟩ | ⟨-, fixed⟩ | ⟨-, fixed⟩
      · have pages : (image.map pte2pa)[vpn]? = (image.map pte2pa)[vpn']? := by
          rw [getElem?_map, getElem?_map, at', at'', Option.map_some, Option.map_some, is, is']
        have inside : vpn < (image.map pte2pa).length := by
          rw [length_map]
          exact (List.getElem?_eq_some_iff.mp at').1
        exact (getElem?_inj inside proc.space.nodup).mp pages
      · rw [is, ← is', fixed] at isFrame
        exact absurd isFrame notTrampoline
      · rw [is, ← is', fixed] at isFrame
        exact absurd isFrame notTrapframe
    · rcases proc.leaf_cases below' found' with ⟨-, isFrame⟩ | ⟨rfl, -⟩ | ⟨-, fixed'⟩
      · rw [is', ← is, fixed] at isFrame
        exact absurd isFrame notTrampoline
      · rfl
      · exact absurd (fixed.symm.trans (is.trans (is'.symm.trans fixed'))) different
    · rcases proc.leaf_cases below' found' with ⟨-, isFrame⟩ | ⟨-, fixed'⟩ | ⟨rfl, -⟩
      · rw [is', ← is, fixed] at isFrame
        exact absurd isFrame notTrapframe
      · exact absurd (fixed'.symm.trans (is'.trans (is.symm.trans fixed))) different
      · rfl
  · obtain ⟨pte, zero, below, found⟩ := leaf here
    rcases proc.leaf_cases below found with ⟨-, isFrame⟩ | ⟨-, fixed⟩ | ⟨-, fixed⟩
    · exact (proc.held.pages _ (.inr isFrame)).pos.ne' zero
    · rw [zero] at fixed
      exact absurd (fixed ▸ layout.trampolineInside.1) (by decide)
    · rw [zero] at fixed
      exact proc.isPage.pos.ne fixed

end

/-! ## Growing and writing -/

theorem ProcSpace.grow {newsz xperm : Nat} (proc : ProcSpace layout m root trapframe free image sz)
    (fits : newsz < 2 ^ 64) (flags : xperm < 1024) :
    Returns (uvmalloc layout root sz newsz xperm) m fun r m' => ∃ free' new,
      Moves layout m m' free free' (footprint m root image) (footprint m' root (image ++ new)) ∧
        (∀ pte ∈ new, pteFlags pte = pteR ||| pteU ||| xperm ||| pteV) ∧
        ((r = 0 ∧ new = [] ∧ ProcSpace layout m' root trapframe free' image sz) ∨
          (r = max sz newsz ∧ ProcSpace layout m' root trapframe free' (image ++ new) r)) := by
  by_cases less : newsz < sz
  · unfold uvmalloc
    rw [if_pos less]
    refine .pure ⟨free, [], ?_, fun _ none => (nomatch none), .inr ⟨(max_eq_left less.le).symm, ?_⟩⟩
    · rw [append_nil]
      exact Moves.refl proc.held
    · rw [append_nil]
      exact proc
  · rw [not_lt] at less
    refine (uvmalloc_spec proc.space proc.held proc.bytes less fits flags).mono ?_
    rintro r m' ⟨free', ⟨rfl, below, new, length, grown⟩ | ⟨rfl, restored⟩⟩
    · refine ⟨free', new, grown.moves, grown.flags,
        .inr ⟨(max_eq_right less).symm, proc.moved grown.space grown.moves ?_⟩⟩
      rw [length]
      apply pageCount_bounds
      unfold trapframeVa trampolineVa maxVa pgSize at *
      omega
    · refine ⟨free', [], ?_, fun _ none => (nomatch none),
        .inl ⟨rfl, rfl, proc.moved restored.space restored.moves proc.size⟩⟩
      rw [append_nil]
      exact restored.moves

theorem ProcSpace.write {touched : Set Nat} (proc : ProcSpace layout m root trapframe free image sz)
    (inside : touched ⊆ frames image) (unchanged : Unchanged touched m m')
    (freelist : m'.freelist = m.freelist) :
    ProcSpace layout m' root trapframe free image sz ∧
      Moves layout m m' free free (footprint m root image) (footprint m' root image) := by
  obtain ⟨space', tables⟩ := proc.space.frame unchanged fun x isTable written =>
    proc.space.apart x (inside written) isTable
  have same : footprint m' root image = footprint m root image := by
    rw [footprint, tables, footprint]
  have moves : Moves layout m m' free free (footprint m root image) (footprint m' root image) := by
    rw [same]
    exact .write proc.held unchanged freelist fun x written => .inr (inside written)
  exact ⟨proc.moved space' moves proc.size, moves⟩

end Xv6.Vm
