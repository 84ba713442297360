import Xv6.Vm.Memory

/-!
# The free list

`Heap layout m free` says that the list in memory consists of the pages `free`,
each of them a different page of the allocator. `kalloc` takes the first page
and `kfree` puts one in front; both write no page but that one.
-/

namespace Xv6.Vm

open Prog (Ensures Returns)

variable {layout : Layout} {m m' m'' : Memory} {free : List Nat} {touched more : Set Nat}

/-- From `m` to `m'` only bytes of the touched pages change. -/
def Unchanged (touched : Set Nat) (m m' : Memory) : Prop :=
  ∀ a, pgRoundDown a ∉ touched → m'.bytes a = m.bytes a

namespace Unchanged

theorem refl (m : Memory) : Unchanged touched m m := fun _ _ => rfl

theorem trans (first : Unchanged touched m m') (second : Unchanged touched m' m'') :
    Unchanged touched m m'' :=
  fun a outside => (second a outside).trans (first a outside)

theorem mono (unchanged : Unchanged touched m m') (subset : touched ⊆ more) :
    Unchanged more m m' :=
  fun a outside => unchanged a fun inside => outside (subset inside)

end Unchanged

theorem pgRoundDown_inside {page a : Nat} (aligned : page % pgSize = 0) (low : page ≤ a)
    (high : a < page + pgSize) : pgRoundDown a = page := by
  unfold pgRoundDown pgSize at *
  omega

theorem pgRoundDown_le (a : Nat) : pgRoundDown a ≤ a := Nat.div_mul_le_self a pgSize

theorem lt_pgRoundDown (a : Nat) : a < pgRoundDown a + pgSize := by
  unfold pgRoundDown pgSize
  omega

theorem Unchanged.load {page addr width : Nat} (unchanged : Unchanged touched m m')
    (aligned : page % pgSize = 0) (low : page ≤ addr) (high : addr + width ≤ page + pgSize)
    (outside : page ∉ touched) : m'.bytes.load addr width = m.bytes.load addr width := by
  refine ByteSpace.load_congr fun a above below => unchanged a ?_
  rwa [pgRoundDown_inside aligned (by omega) (by omega)]

structure Page (layout : Layout) (page : Nat) : Prop where
  aligned : page % pgSize = 0
  above : layout.kernelEnd ≤ page
  below : page < physTop

variable {page : Nat}

theorem Page.pos (isPage : Page layout page) : 0 < page := by
  have := isPage.above
  have := layout.aboveBase
  unfold kernBase at this
  omega

theorem Page.inside (isPage : Page layout page) : page + pgSize ≤ physTop := by
  obtain ⟨aligned, _, below⟩ := isPage
  unfold physTop kernBase pgSize at *
  omega

def Chain (bytes : ByteSpace) : Nat → List Nat → Prop
  | head, [] => head = 0
  | head, page :: rest => head = page ∧ Chain bytes (bytes.load page 8) rest

instance Chain.decidable (bytes : ByteSpace) :
    (head : Nat) → (free : List Nat) → Decidable (Chain bytes head free)
  | head, [] => inferInstanceAs (Decidable (head = 0))
  | head, page :: rest =>
    have := Chain.decidable bytes (bytes.load page 8) rest
    inferInstanceAs (Decidable (head = page ∧ _))

theorem Chain.congr {bytes bytes' : ByteSpace} {head : Nat} (chain : Chain bytes head free)
    (same : ∀ page ∈ free, bytes'.load page 8 = bytes.load page 8) : Chain bytes' head free := by
  induction free generalizing head with
  | nil => exact chain
  | cons page rest ih =>
    refine ⟨chain.1, ?_⟩
    rw [same page (by simp)]
    exact ih chain.2 fun other member => same other (by simp [member])

structure Heap (layout : Layout) (m : Memory) (free : List Nat) : Prop where
  chain : Chain m.bytes m.freelist free
  nodup : free.Nodup
  pages : ∀ page ∈ free, Page layout page

theorem Heap.frame (heap : Heap layout m free) (unchanged : Unchanged touched m m')
    (same : m'.freelist = m.freelist) (outside : ∀ page ∈ free, page ∉ touched) :
    Heap layout m' free := by
  refine ⟨?_, heap.nodup, heap.pages⟩
  rw [same]
  refine heap.chain.congr fun page member => ?_
  exact unchanged.load (heap.pages page member).aligned le_rfl (by unfold pgSize; omega)
    (outside page member)

theorem memset_unchanged (m : Memory) (aligned : page % pgSize = 0) (c : UInt8) :
    Unchanged {page} m
      { m with bytes := fun a => if page ≤ a ∧ a < page + pgSize then c else m.bytes a } := by
  intro a outside
  refine if_neg fun inside => outside ?_
  exact pgRoundDown_inside aligned inside.1 inside.2

theorem store_unchanged (m : Memory) {page addr width : Nat} (aligned : page % pgSize = 0)
    (low : page ≤ addr) (high : addr + width ≤ page + pgSize) (value : Nat) :
    Unchanged {page} m { m with bytes := m.bytes.store addr width value } := by
  intro a outside
  refine if_neg fun inside => outside ?_
  exact pgRoundDown_inside aligned (by omega) (by omega)

section primitives

variable {allowed : Panic → Prop} {addr value n : Nat} {c : UInt8}

theorem load64_rule {post : Nat → Memory → Prop} (holds : post (m.bytes.load addr 8) m) :
    Ensures allowed (load64 addr) m post := .of_eq rfl holds

variable {post : Unit → Memory → Prop}

theorem store64_rule (holds : post () { m with bytes := m.bytes.store addr 8 value }) :
    Ensures allowed (store64 addr value) m post := .of_eq rfl holds

theorem memset_rule
    (holds : post ()
      { m with bytes := fun a => if addr ≤ a ∧ a < addr + n then c else m.bytes a }) :
    Ensures allowed (memset addr c n) m post := .of_eq rfl holds

theorem getFreelist_rule {post : Nat → Memory → Prop} (holds : post m.freelist m) :
    Ensures allowed getFreelist m post := .of_eq rfl holds

theorem setFreelist_rule (holds : post () { m with freelist := value }) :
    Ensures allowed (setFreelist value) m post := .of_eq rfl holds

end primitives

theorem kalloc_spec (heap : Heap layout m free) :
    Returns kalloc m fun r m' =>
      (r = 0 ∧ free = [] ∧ m' = m) ∨
      (r ≠ 0 ∧ ∃ rest, free = r :: rest ∧ Heap layout m' rest ∧ Unchanged {r} m m') := by
  obtain ⟨chain, nodup, pages⟩ := heap
  refine .bind (getFreelist_rule (.ite (fun nonzero => ?_) fun zero => ?_))
  · cases free with
    | nil => exact absurd chain nonzero
    | cons page rest =>
      obtain ⟨rfl, chain⟩ := chain
      obtain ⟨absent, restNodup⟩ := List.nodup_cons.mp nodup
      have isPage := pages m.freelist (by simp)
      refine .bind (load64_rule (.bind (setFreelist_rule (.bind (memset_rule (.pure ?_))))))
      refine .inr ⟨nonzero, rest, rfl, ?_, memset_unchanged ⟨m.bytes, _⟩ isPage.aligned 5⟩
      have restHeap : Heap layout ⟨m.bytes, m.bytes.load m.freelist 8⟩ rest :=
        ⟨chain, restNodup, fun page member => pages page (by simp [member])⟩
      refine restHeap.frame (memset_unchanged _ isPage.aligned 5) rfl fun page member => ?_
      rintro rfl
      exact absent member
  · rw [not_not] at zero
    cases free with
    | nil => exact .pure (.inl ⟨zero, rfl, rfl⟩)
    | cons page rest =>
      have := (pages page (by simp)).pos
      have := chain.1
      omega

theorem kfree_unchanged (isPage : Page layout page) :
    Returns (kfree layout page) m fun _ m' =>
      Unchanged {page} m m' ∧ m'.freelist = page ∧ m'.bytes.load page 8 = m.freelist % 256 ^ 8 := by
  have := isPage.aligned
  have := isPage.above
  have := isPage.below
  refine .ite (fun bad => by omega) fun _ => ?_
  refine .bind (memset_rule (.bind (getFreelist_rule (.bind (store64_rule (setFreelist_rule ?_))))))
  refine ⟨(memset_unchanged m isPage.aligned 1).trans ?_, rfl, ByteSpace.load_store_same _ _ _ _⟩
  exact store_unchanged _ isPage.aligned le_rfl (by unfold pgSize; omega) _

theorem kfree_spec (heap : Heap layout m free) (isPage : Page layout page) (owned : page ∉ free) :
    Returns (kfree layout page) m fun _ m' =>
      Heap layout m' (page :: free) ∧ Unchanged {page} m m' := by
  refine (kfree_unchanged isPage).mono fun _ m' ⟨unchanged, head, next⟩ => ⟨?_, unchanged⟩
  have small : m.freelist < 256 ^ 8 := by
    cases free with
    | nil => rw [show m.freelist = 0 from heap.chain]; decide
    | cons first rest =>
      rw [heap.chain.1]
      have := (heap.pages first (by simp)).below
      unfold physTop kernBase at this
      omega
  refine ⟨⟨head, ?_⟩, List.nodup_cons.mpr ⟨owned, heap.nodup⟩, ?_⟩
  · rw [next, Nat.mod_eq_of_lt small]
    refine heap.chain.congr fun other member => ?_
    refine unchanged.load (heap.pages other member).aligned le_rfl (by unfold pgSize; omega) ?_
    rintro rfl
    exact owned member
  · intro other member
    rcases List.mem_cons.mp member with rfl | member
    · exact isPage
    · exact heap.pages other member

theorem pages_length_le {pages : List Nat} (nodup : pages.Nodup)
    (isPage : ∀ page ∈ pages, Page layout page) : pages.length ≤ physTop / pgSize := by
  have inside : pages.toFinset ⊆ (Finset.range (physTop / pgSize)).image (· * pgSize) := by
    intro page member
    obtain ⟨aligned, _, below⟩ := isPage page (by simpa using member)
    refine Finset.mem_image.mpr ⟨page / pgSize, Finset.mem_range.mpr ?_, ?_⟩
    · unfold pgSize physTop kernBase at *
      omega
    · unfold pgSize at *
      omega
  calc pages.length = pages.toFinset.card := (List.toFinset_card_of_nodup nodup).symm
    _ ≤ _ := Finset.card_le_card inside
    _ ≤ physTop / pgSize := Finset.card_image_le.trans_eq (Finset.card_range _)

theorem kfreeMemsize_spec (heap : Heap layout m free) :
    Returns kfreeMemsize m fun size m' => size = pgSize * free.length ∧ m' = m := by
  have bound := pages_length_le heap.nodup heap.pages
  refine .bind (getFreelist_rule ?_)
  -- the pages counted so far, and the rest of the list from `r` on
  refine .loop (fun vars m' => m' = m ∧ ∃ counted rest, free = counted ++ rest ∧
      vars.1 = pgSize * counted.length ∧ Chain m.bytes vars.2 rest)
    (fun vars => pgSize * free.length - vars.1) ?_ ?_ ⟨rfl, [], free, rfl, rfl, heap.chain⟩
  · rintro ⟨freeMem, r⟩ _ ⟨rfl, counted, rest, split, size, chain⟩
    simp only at size chain
    refine .ite (fun nonzero => ?_) fun zero => ?_
    · cases rest with
      | nil => exact absurd chain nonzero
      | cons page rest =>
        have length : free.length = counted.length + (rest.length + 1) := by simp [split]
        obtain ⟨rfl, chain⟩ := chain
        have exact' : u64 (freeMem + pgSize) = freeMem + pgSize := by
          unfold u64 physTop kernBase pgSize at *
          omega
        refine .bind (load64_rule (.pure ⟨⟨rfl, counted ++ [r], rest, ?_, ?_, chain⟩, ?_⟩))
        · simp [split]
        · rw [exact', size]
          simp [Nat.mul_add]
        · change pgSize * free.length - u64 (freeMem + pgSize) < pgSize * free.length - freeMem
          unfold pgSize at *
          omega
    · cases rest with
      | nil => exact .pure ⟨by simp [split, size], rfl⟩
      | cons page rest =>
        have := (heap.pages page (by simp [split])).pos
        have := chain.1
        omega
  · unfold maxIterations physTop kernBase pgSize at *
    omega

theorem pgRoundUp_spec {sz : Nat} (small : sz ≤ physTop) :
    pgRoundUp sz % pgSize = 0 ∧ sz ≤ pgRoundUp sz ∧ pgRoundUp sz < sz + pgSize := by
  unfold pgRoundUp pgRoundDown u64 physTop kernBase pgSize at *
  omega

theorem kinit_spec (empty : m.freelist = 0) :
    Returns (kinit layout) m fun _ m' =>
      ∃ free, Heap layout m' free ∧ ∀ page, page ∈ free ↔ Page layout page := by
  obtain ⟨startAligned, startAbove, startBelow⟩ := pgRoundUp_spec layout.belowTop
  unfold kinit freerange
  refine .loop (fun p m' => p % pgSize = 0 ∧ pgRoundUp layout.kernelEnd ≤ p ∧
      ∃ free, Heap layout m' free ∧ ∀ page, page ∈ free ↔ Page layout page ∧ page < p)
    (fun p => physTop - p) ?_ ?_ ?_
  · intro p m' ⟨aligned, above, free, heap, members⟩
    refine .ite (fun room => ?_) fun full => ?_
    · have isPage : Page layout p := ⟨aligned, by omega, by unfold pgSize at room; omega⟩
      have fresh : p ∉ free := fun member => by have := ((members p).mp member).2; omega
      refine .seq (kfree_spec heap isPage fresh) fun _ m'' ⟨heap', _⟩ => .pure ?_
      refine ⟨⟨by unfold pgSize at *; omega, by omega, p :: free, heap', fun page => ?_⟩, ?_⟩
      · rw [List.mem_cons, members]
        constructor
        · rintro (rfl | ⟨isPage', lower⟩)
          · exact ⟨isPage, by unfold pgSize; omega⟩
          · exact ⟨isPage', by omega⟩
        · rintro ⟨isPage', lower⟩
          have := isPage'.aligned
          by_cases same : page = p
          · exact .inl same
          · exact .inr ⟨isPage', by unfold pgSize at *; omega⟩
      · unfold pgSize at *
        omega
    · refine .pure ⟨free, heap, fun page => ?_⟩
      rw [members]
      refine ⟨And.left, fun isPage => ⟨isPage, ?_⟩⟩
      have := isPage.inside
      have := isPage.aligned
      unfold pgSize at *
      omega
  · unfold maxIterations physTop kernBase
    omega
  · refine ⟨startAligned, le_rfl, [], ⟨empty, .nil, by simp⟩, fun page => ?_⟩
    simp only [List.not_mem_nil, false_iff, not_and, not_lt]
    intro isPage
    have := isPage.above
    have := isPage.aligned
    unfold pgSize at *
    omega

end Xv6.Vm
