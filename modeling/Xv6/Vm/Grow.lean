import Xv6.Vm.AddrSpace

/-!
# Growing and shrinking

`uvmdealloc` takes pages off the end of an address space. `uvmalloc` adds pages of
zeroes at the end, and when it runs out of memory it takes off those that it has
added.
-/

namespace Xv6.Vm

open Set
open List
open Trie
open Prog (Ensures Returns)

variable {layout : Layout} {m m' m'' : Memory} {free free' free'' : List Nat}
  {owned touched : Set Nat} {root vpn x : Nat} {fixed : Nat → Option Nat} {image : List Nat}

def pageCount (sz : Nat) : Nat := pgRoundUp sz / pgSize

theorem pageCount_mul (sz : Nat) : pageCount sz * pgSize = pgRoundUp sz := by
  unfold pageCount pgRoundUp pgRoundDown pgSize
  omega

theorem pageCount_bounds {sz : Nat} (small : sz + pgSize ≤ 2 ^ 64) :
    sz ≤ pageCount sz * pgSize ∧ pageCount sz * pgSize < sz + pgSize := by
  unfold pageCount pgRoundUp pgRoundDown u64 pgSize at *
  omega

theorem pageCount_pages (count : Nat) (small : (count + 1) * pgSize ≤ 2 ^ 64) :
    pageCount (count * pgSize) = count := by
  unfold pageCount pgRoundUp pgRoundDown u64 pgSize at *
  omega

theorem pageCount_mono {sz sz' : Nat} (le : sz ≤ sz') (small : sz' + pgSize ≤ 2 ^ 64) :
    pageCount sz ≤ pageCount sz' := by
  unfold pageCount pgRoundUp pgRoundDown u64 pgSize at *
  omega

theorem pageCount_unique {count sz : Nat} (above : sz ≤ count * pgSize)
    (below : count * pgSize < sz + pgSize) (small : sz + pgSize ≤ 2 ^ 64) :
    count = pageCount sz := by
  have bounds := pageCount_bounds small
  unfold pgSize at *
  omega

/-- A size that fits into the pages of a smaller one. -/
theorem pageCount_between {count sz sz' : Nat} (size : count * pgSize = pgRoundUp sz)
    (le : sz ≤ sz') (above : sz' ≤ count * pgSize) (small : sz' + pgSize ≤ 2 ^ 64) :
    count = pageCount sz' := by
  have bounds : sz ≤ pageCount sz * pgSize ∧ pageCount sz * pgSize < sz + pgSize :=
    pageCount_bounds (by omega)
  rw [pageCount_mul, ← size] at bounds
  exact pageCount_unique above (by omega) small

/-! ## Leaves -/

theorem flags_leaf {pte : Nat} (leaf : pte &&& (pteR ||| pteW ||| pteX) ≠ 0) :
    pteFlags pte ≠ pteV := by
  intro only
  apply leaf
  rw [← flags_and pte (by decide), only]
  rfl

theorem leaf_of_perm {pa perm : Nat} (leaf : perm &&& (pteR ||| pteW ||| pteX) ≠ 0) :
    (pa2pte pa ||| perm ||| pteV) &&& (pteR ||| pteW ||| pteX) ≠ 0 := by
  intro none
  rw [Nat.and_or_distrib_right, Nat.or_eq_zero_iff, Nat.and_or_distrib_right,
    Nat.or_eq_zero_iff] at none
  exact leaf none.1.2

/-! ## Taking pages off -/

/-- The pages from the `count`-th on are gone, and free. -/
structure Shrunk (layout : Layout) (root : Nat) (fixed : Nat → Option Nat) (image : List Nat)
    (count : Nat) (m m' : Memory) (free free' : List Nat) : Prop where
  space : AddrSpace m' root fixed (image.take count)
  moves : Moves layout m m' free free' (footprint m root image)
    (footprint m' root (image.take count))
  nodes : ∀ path, path.length ≤ 2 → node (child m') root path = node (child m) root path
  unchanged : Unchanged (tables m root ∪ frames (image.drop count)) m m'

theorem frames_split (count : Nat) :
    x ∈ frames image ↔ x ∈ frames (image.take count) ∨ x ∈ frames (image.drop count) := by
  rw [← mem_frames_append, take_append_drop]

theorem freedPages_image (count : Nat) :
    freedPages true (fun k => image.getD (count + k) 0) (image.length - count) =
      (image.drop count).map pte2pa := by
  apply ext_getElem
  · simp [freedPages]
  · intro k below below'
    have inside : count + k < image.length := by
      simp only [length_map, length_drop] at below'
      omega
    simp [freedPages, inside]

section

variable (space : AddrSpace m root fixed image) (held : Held layout m free (footprint m root image))

include space

variable {count : Nat}

theorem AddrSpace.frames_disjoint (kept : x ∈ frames (image.take count)) :
    x ∉ frames (image.drop count) := by
  rw [frames_iff_map] at kept ⊢
  have nodup := space.nodup
  rw [← take_append_drop count image, map_append] at nodup
  exact fun dropped => (nodup_append.mp nodup).2.2 x kept x dropped rfl

include held

theorem takeOff_spec (bound : count ≤ image.length) :
    Returns (uvmunmap layout root (count * pgSize) (image.length - count) true) m fun _ m' =>
      ∃ free', Shrunk layout root fixed image count m m' free free' := by
  have below := space.below held
  have total : count * pgSize + (image.length - count) * pgSize = image.length * pgSize := by
    rw [← Nat.add_mul, Nat.add_sub_cancel' bound]
  have top : image.length * pgSize ≤ maxVa := by
    unfold trapframeVa trampolineVa at below
    rw [Nat.add_mul] at below
    omega
  have entry : ∀ k, k < image.length - count →
      image[count + k]? = some (image.getD (count + k) 0) := by
    intro k inside
    have short : count + k < image.length := by omega
    simp [short]
  have mapped : ∀ k, k < image.length - count →
      lookup m root (count * pgSize + k * pgSize) = some (image.getD (count + k) 0) ∧
        pteFlags (image.getD (count + k) 0) ≠ pteV := by
    intro k inside
    have low : (count + k) * pgSize < 2 * maxVa := by
      have := Nat.mul_le_mul_right pgSize (show count + k + 1 ≤ image.length by omega)
      rw [Nat.add_mul] at this
      unfold maxVa at *
      omega
    refine ⟨?_, flags_leaf (space.leaves _ (mem_of_getElem? (entry k inside)))⟩
    rw [← Nat.add_mul, space.map _ low, entry k inside, Option.some_or]
  have freeable : true = true → ∀ k, k < image.length - count →
      Page layout (pte2pa (image.getD (count + k) 0)) ∧
        pte2pa (image.getD (count + k) 0) ∉ tables m root := by
    intro _ k inside
    have member : pte2pa (image.getD (count + k) 0) ∈ frames image :=
      ⟨_, mem_of_getElem? (entry k inside), rfl⟩
    exact ⟨held.pages _ (.inr member), space.apart _ member⟩
  refine (uvmunmap_spec space.tree (Nat.mul_mod_left _ _) (by rwa [total]) mapped freeable).mono ?_
  rintro _ m' ⟨shrinks, lookups⟩
  rw [freedPages_image, total] at *
  have freed : ∀ y, y ∈ (image.drop count).map pte2pa ↔ y ∈ frames (image.drop count) :=
    fun y => frames_iff_map.symm
  have part : Held layout m free (tables m root ∪ { y | y ∈ (image.drop count).map pte2pa }) := by
    apply held.mono
    rintro y (inside | inside)
    · exact .inl inside
    · exact .inr ((frames_split count).mpr (.inr ((freed y).mp inside)))
  have nodup : ((image.drop count).map pte2pa).Nodup := by
    have all := space.nodup
    rw [← take_append_drop count image, map_append] at all
    exact (nodup_append.mp all).2.1
  have moves := shrinks.moves part space.tree nodup
  refine ⟨_, ⟨shrinks.tree, fun vpn low => ?_, ?_, ?_, ?_, space.above, space.supervisor⟩,
    moves.frame held (fun y => ?_) (fun y kept inside => ?_) (fun y => .rfl), shrinks.nodes, ?_⟩
  · rw [lookups _ low, space.map vpn low]
    split
    next gone =>
      have range : count ≤ vpn ∧ vpn < image.length := by
        unfold pgSize at gone
        omega
      have absent : fixed vpn = none :=
        space.above vpn (lt_of_le_of_lt (Nat.mul_le_mul_right pgSize (by omega)) below)
      rw [getElem?_eq_none (by rw [length_take]; omega), absent]
      rfl
    next stays =>
      by_cases low : vpn < count
      · rw [getElem?_take_of_lt low]
      · have high : image.length ≤ vpn := by
          unfold pgSize at stays
          omega
        rw [getElem?_eq_none high, getElem?_eq_none (by rw [length_take]; omega)]
  · exact space.nodup.sublist ((take_sublist _ _).map _)
  · intro y member
    rw [shrinks.tables]
    exact space.apart y ((frames_split count).mpr (.inl member))
  · exact fun pte member => space.leaves pte (mem_of_mem_take member)
  · unfold footprint
    rw [mem_union, mem_union, frames_split count, mem_ofPred_eq, freed, or_left_comm, or_comm]
  · rcases inside with inside | inside
    · exact space.apart y ((frames_split count).mpr (.inl kept)) inside
    · exact space.frames_disjoint kept ((freed y).mp inside)
  · refine shrinks.unchanged.mono ?_
    rintro y (inside | inside)
    · exact .inl inside
    · exact .inr ((freed y).mp inside)

theorem Shrunk.refl (all : image.length ≤ count) :
    Shrunk layout root fixed image count m m free free := by
  have same : image.take count = image := take_of_length_le all
  refine ⟨by rwa [same], ?_, fun _ _ => rfl, Unchanged.refl m⟩
  rw [same]
  exact Moves.refl held

/-- Nothing happens unless the new size is smaller. -/
theorem uvmdealloc_spec {oldsz newsz : Nat} (size : image.length = pageCount oldsz)
    (small : oldsz + pgSize ≤ 2 ^ 64) :
    Returns (uvmdealloc layout root oldsz newsz) m fun r m' =>
      (oldsz ≤ newsz ∧ r = oldsz ∧ m' = m) ∨
      (newsz < oldsz ∧ r = newsz ∧
        ∃ free', Shrunk layout root fixed image (pageCount newsz) m m' free free') := by
  refine .ite (fun more => .pure (.inl ⟨more, rfl, rfl⟩)) fun less => ?_
  rw [not_le] at less
  have fewer : pageCount newsz ≤ image.length := by
    rw [size]
    exact pageCount_mono (le_of_lt less) small
  have pages : sext32 ((pgRoundUp oldsz - pgRoundUp newsz) / pgSize) =
      image.length - pageCount newsz := by
    have few := space.length_le held
    rw [← pageCount_mul, ← pageCount_mul, ← Nat.sub_mul, ← size, Nat.mul_div_cancel _ (by decide),
      sext32,
      Nat.mod_eq_of_lt, if_pos]
    · unfold physTop kernBase pgSize at few
      omega
    · unfold physTop kernBase pgSize at few
      omega
  rw [pages, ← pageCount_mul newsz, ← pageCount_mul oldsz, ← size]
  refine .bind (.ite (fun _ => (takeOff_spec space held fewer).mono ?_) fun same => .pure ?_)
  · rintro _ m' ⟨free', shrunk⟩
    exact .pure (.inr ⟨less, rfl, free', shrunk⟩)
  · have all : image.length ≤ pageCount newsz := by
      unfold pgSize at same
      omega
    exact .pure (.inr ⟨less, rfl, free, Shrunk.refl space held all⟩)

end

/-! ## Adding pages -/

def leafEntry (page perm : Nat) : Nat := pa2pte page ||| perm ||| pteV

/-- What `mappages` did for the first page after the image. -/
structure Mapped (layout : Layout) (root : Nat) (fixed : Nat → Option Nat) (image : List Nat)
    (page : Nat) (m m' : Memory) (free free' : List Nat) (image' : List Nat) (owned : Set Nat) :
    Prop extends Keeps root m m' free where
  space : AddrSpace m' root fixed image'
  moves : Moves layout m m' free free' (insert page (footprint m root image)) owned

theorem mapPage_spec {page perm : Nat} (space : AddrSpace m root fixed image)
    (held : Held layout m free (insert page (footprint m root image)))
    (fresh : page ∉ footprint m root image) (flags : perm < 1024)
    (leaf : perm &&& (pteR ||| pteW ||| pteX) ≠ 0) :
    Returns (mappages root (image.length * pgSize) pgSize page perm) m fun r m' => ∃ free',
      (r = 0 ∧ Mapped layout root fixed image page m m' free free' (image ++ [leafEntry page perm])
        (footprint m' root (image ++ [leafEntry page perm]))) ∨
      (r = -1 ∧ page ∉ footprint m' root image ∧
        Mapped layout root fixed image page m m' free free' image
        (insert page (footprint m' root image))) := by
  have isPage := held.pages page (.inl rfl)
  have part : Held layout m free (footprint m root image) := held.mono (subset_insert _ _)
  have inTables : Held layout m free (tables m root) := part.mono fun x => .inl
  have below := space.below part
  have room : (image.length + 1) * pgSize ≤ maxVa := by
    unfold trapframeVa trampolineVa at below
    omega
  have absent : lookup m root (image.length * pgSize) = none := by
    have low : image.length * pgSize < trapframeVa :=
      lt_of_le_of_lt (Nat.mul_le_mul_right _ (Nat.le_succ _)) below
    rw [space.map _ (by unfold trapframeVa trampolineVa at low; omega), getElem?_eq_none le_rfl,
      space.above _ low]
    rfl
  have both : Space layout m root free :=
    ⟨held.heap, space.tree, fun x isFree inside => inTables.apart x inside isFree⟩
  obtain ⟨-, back, -⟩ := leaf_pte isPage.aligned (isPage.below.trans (by decide)) flags
  refine (mapOne_spec both room isPage.aligned isPage.below flags absent).mono ?_
  rintro r m' ⟨free', grows, result⟩
  have moves := grows.moves inTables
  -- what stays as it is: the pages of the image and the new page
  have before : ∀ x, x ∈ insert page (footprint m root image) ↔ x ∈ tables m root ∨
      x ∈ insert page (frames image) := by
    intro x
    rw [mem_insert_iff, mem_insert_iff, footprint, mem_union, or_left_comm]
  have disjoint : ∀ x ∈ insert page (frames image), x ∉ tables m root := by
    rintro x (rfl | inside) isTable
    · exact fresh (.inl isTable)
    · exact space.apart x inside isTable
  have apart' : ∀ x ∈ insert page (frames image), x ∉ tables m' root := by
    intro x inside isTable
    rcases (moves.same x).mp (.inr isTable) with isFree | isOld
    · exact held.apart x ((before x).mpr (.inr inside)) isFree
    · exact disjoint x inside isOld
  refine ⟨free', ?_⟩
  rcases result with ⟨rfl, lookups⟩ | ⟨rfl, -, lookups⟩
  · refine .inl ⟨rfl, grows.toKeeps, ⟨grows.space.tree, fun vpn low => ?_, ?_, fun x inside => ?_,
      fun pte member => ?_, space.above, space.supervisor⟩,
      moves.frame held before disjoint fun x => ?_⟩
    · rw [lookups vpn low, space.map vpn low]
      split
      next here =>
        rw [here, getElem?_append_right le_rfl, Nat.sub_self]
        rfl
      next other =>
        rcases Nat.lt_or_gt_of_ne other with less | more
        · rw [getElem?_append_left less]
        · rw [getElem?_eq_none (le_of_lt more), getElem?_eq_none (by simp; omega)]
    · rw [map_append, map_singleton, leafEntry, back]
      refine List.Nodup.append space.nodup (nodup_singleton _) fun x inside single => ?_
      rw [mem_singleton.mp single] at inside
      exact fresh (.inr (frames_iff_map.mpr inside))
    · rw [mem_frames_append, mem_frames_singleton, leafEntry, back] at inside
      exact apart' x (inside.symm)
    · rcases mem_append.mp member with old | new
      · exact space.leaves pte old
      · rw [mem_singleton.mp new]
        exact leaf_of_perm leaf
    · rw [footprint, mem_union, mem_frames_append, mem_frames_singleton, leafEntry, back,
        mem_insert_iff,
        or_comm (a := x ∈ frames image)]
  · refine .inr ⟨rfl, ?_, grows.toKeeps, ⟨grows.space.tree, fun vpn low => ?_, space.nodup,
      fun x inside => apart' x (.inr inside), space.leaves, space.above, space.supervisor⟩,
      moves.frame held before disjoint fun x => ?_⟩
    · rintro (isTable | isFrame)
      · exact apart' page (.inl rfl) isTable
      · exact fresh (.inr isFrame)
    · rw [lookups vpn low, space.map vpn low]
    · rw [mem_insert_iff, mem_insert_iff, footprint, mem_union, or_left_comm]

/-- The image has become `image'`. If it is the old one, what was added was taken off again. -/
structure Rebuilt (layout : Layout) (root : Nat) (fixed : Nat → Option Nat)
    (image image' : List Nat) (m m' : Memory) (free free' : List Nat) : Prop
    extends Keeps root m m' free where
  space : AddrSpace m' root fixed image'
  moves : Moves layout m m' free free' (footprint m root image) (footprint m' root image')

section

variable {image' : List Nat} (rebuilt : Rebuilt layout root fixed image image' m m' free free')

include rebuilt

theorem Rebuilt.tables_subset (inside : x ∈ tables m root) : x ∈ tables m' root := by
  obtain ⟨path, short, at'⟩ := inside
  exact ⟨path, short, rebuilt.kept path x short at'⟩

theorem Rebuilt.wasFree (stay : frames image ⊆ frames image') (isFree : x ∈ free') : x ∈ free := by
  refine rebuilt.moves.free_subset ?_ isFree
  rintro x (isTable | isFrame)
  · exact .inl (rebuilt.tables_subset isTable)
  · exact .inr (stay isFrame)

end

/-- Pages of zeroes were added at the end of the image. -/
structure Grown (layout : Layout) (root : Nat) (fixed : Nat → Option Nat) (image : List Nat)
    (perm : Nat) (m m' : Memory) (free free' new : List Nat) : Prop
    extends Rebuilt layout root fixed image (image ++ new) m m' free free' where
  flags : ∀ pte ∈ new, pteFlags pte = perm ||| pteV
  zero : ∀ pte ∈ new, ∀ a, pgRoundDown a = pte2pa pte → m'.bytes a = 0

theorem Grown.refl {perm : Nat} (space : AddrSpace m root fixed image)
    (held : Held layout m free (footprint m root image)) :
    Grown layout root fixed image perm m m free free [] := by
  refine ⟨⟨.refl root m free, by rwa [append_nil], ?_⟩, fun _ none => (nomatch none),
    fun _ none => (nomatch none)⟩
  rw [append_nil]
  exact Moves.refl held

variable {new : List Nat}

section

variable {perm : Nat} (grown : Grown layout root fixed image perm m m' free free' new)

include grown

/-- Nothing of the old image was touched. -/
theorem Grown.taken (inside : x ∈ tables m' root ∨ x ∈ frames new) :
    x ∈ tables m root ∪ { x | x ∈ free } := by
  have member : x ∈ footprint m' root (image ++ new) := by
    rcases inside with isTable | isNew
    · exact .inl isTable
    · exact .inr (mem_frames_append.mpr (.inr isNew))
  rcases (grown.moves.same x).mp (.inr member) with isFree | isTable | isFrame
  · exact .inr isFree
  · exact .inl isTable
  · exfalso
    rcases inside with isTable | isNew
    · exact grown.space.apart x (mem_frames_append.mpr (.inl isFrame)) isTable
    · have nodup := grown.space.nodup
      rw [map_append] at nodup
      exact (nodup_append.mp nodup).2.2 x (frames_iff_map.mp isFrame) x (frames_iff_map.mp isNew)
        rfl

theorem Grown.contents {a : Nat} (space : AddrSpace m root fixed image)
    (held : Held layout m free (footprint m root image)) (isFrame : pgRoundDown a ∈ frames image) :
    m'.bytes a = m.bytes a := by
  apply grown.unchanged
  rintro (isTable | isFree)
  · exact space.apart _ isFrame isTable
  · exact held.apart _ (.inr isFrame) isFree

theorem Grown.restored
    (shrunk : Shrunk layout root fixed (image ++ new) image.length m' m'' free' free'') :
    Rebuilt layout root fixed image image m m'' free free'' := by
  have take : (image ++ new).take image.length = image := by rw [take_left]
  have drop : (image ++ new).drop image.length = new := by rw [drop_left]
  obtain ⟨space, moves, nodes, unchanged⟩ := shrunk
  rw [take] at space moves
  rw [drop] at unchanged
  refine ⟨⟨grown.unchanged.trans (unchanged.mono fun x inside => grown.taken inside),
    fun path x short at' => ?_⟩, space, grown.moves.trans moves⟩
  rw [nodes path short]
  exact grown.kept path x short at'

theorem undo_spec {oldsz : Nat} (size : image.length * pgSize = pgRoundUp oldsz) :
    Returns (uvmdealloc layout root ((image.length + new.length) * pgSize) (pgRoundUp oldsz)) m'
      fun _ m'' =>
      ∃ free'', Rebuilt layout root fixed image image m m'' free free'' := by
  have below := grown.space.below grown.moves.held
  have length : (image ++ new).length = image.length + new.length := length_append
  rw [length] at below
  have room : (image.length + new.length) * pgSize + pgSize ≤ 2 ^ 64 := by
    unfold trapframeVa trampolineVa maxVa at below
    rw [Nat.add_mul] at below
    omega
  have room' : (image.length + 1) * pgSize ≤ 2 ^ 64 := by
    rw [← Nat.succ_mul] at room
    exact le_trans (Nat.mul_le_mul_right _ (by omega)) room
  have total : (image ++ new).length = pageCount ((image.length + new.length) * pgSize) := by
    rw [length, pageCount_pages _ (by rw [Nat.succ_mul]; exact room)]
  refine (uvmdealloc_spec grown.space grown.moves.held total room).mono ?_
  rintro _ m'' (⟨same, -, rfl⟩ | ⟨-, -, free'', shrunk⟩)
  · have none : new = [] := by
      rw [← size] at same
      have := Nat.le_of_mul_le_mul_right same (by decide)
      exact eq_nil_of_length_eq_zero (by omega)
    subst none
    have space := grown.space
    have moves := grown.moves
    rw [append_nil] at space moves
    exact ⟨free', grown.toKeeps, space, moves⟩
  · rw [← size, pageCount_pages _ room'] at shrunk
    exact ⟨free'', grown.restored shrunk⟩

end

/-- A page was allocated, and perhaps written. -/
structure Allocated (layout : Layout) (root : Nat) (fixed : Nat → Option Nat) (image : List Nat)
    (page : Nat) (m m' : Memory) (free free' : List Nat) : Prop where
  space : AddrSpace m' root fixed image
  tables : tables m' root = tables m root
  nodes : ∀ path, path.length ≤ 2 → node (child m') root path = node (child m) root path
  moves : Moves layout m m' free free' (footprint m root image)
    (insert page (footprint m' root image))
  fresh : page ∉ footprint m' root image
  isFree : page ∈ free
  unchanged : Unchanged {page} m m'

theorem AddrSpace.write {page : Nat} (space : AddrSpace m root fixed image)
    (fresh : page ∉ tables m root) (unchanged : Unchanged {page} m m') :
    AddrSpace m' root fixed image ∧ Vm.tables m' root = Vm.tables m root ∧
      ∀ path, path.length ≤ 2 → node (child m') root path = node (child m) root path := by
  have apart : ∀ x ∈ Vm.tables m root, x ∉ ({page} : Set Nat) := by
    rintro x inside rfl
    exact fresh inside
  obtain ⟨space', tables⟩ := space.frame unchanged apart
  refine ⟨space', tables, fun path short => ?_⟩
  exact node_frame (tables_child space.tree unchanged apart) (by omega)

theorem newPage_spec (space : AddrSpace m root fixed image)
    (held : Held layout m free (footprint m root image)) :
    Returns kalloc m fun r m' => (r = 0 ∧ free = [] ∧ m' = m) ∨
      (r ≠ 0 ∧ ∃ free', Allocated layout root fixed image r m m' free free') := by
  refine (kalloc_moves held).mono ?_
  rintro r m' (none | ⟨nonzero, fresh, -, unchanged, free', moves⟩)
  · exact .inl none
  · obtain ⟨space', tables, nodes⟩ := space.write (fun inside => fresh (.inl inside)) unchanged
    have same : footprint m' root image = footprint m root image := by
      unfold footprint
      rw [tables]
    have isFree : r ∈ free := ((moves.same r).mp (.inr (.inl rfl))).resolve_right fresh
    refine .inr ⟨nonzero, free', space', tables, nodes, ?_, ?_, isFree, unchanged⟩
    · rwa [same]
    · rwa [same]

theorem Allocated.write {page : Nat}
    (allocated : Allocated layout root fixed image page m m' free free')
    (unchanged : Unchanged {page} m' m'') (freelist : m''.freelist = m'.freelist) :
    Allocated layout root fixed image page m m'' free free' := by
  obtain ⟨space, tables, nodes⟩ :=
    allocated.space.write (fun inside => allocated.fresh (.inl inside)) unchanged
  have same : footprint m'' root image = footprint m' root image := by
    unfold footprint
    rw [tables]
  have written := Moves.write allocated.moves.held unchanged freelist fun x is => .inl is
  refine ⟨space, tables.trans allocated.tables,
    fun path short => (nodes path short).trans (allocated.nodes path short),
    ?_, ?_, allocated.isFree, allocated.unchanged.trans unchanged⟩
  · rw [same]
    exact allocated.moves.trans written
  · rw [same]
    exact allocated.fresh

theorem Grown.trans {perm : Nat} {new more : List Nat}
    (first : Grown layout root fixed image perm m m' free free' new)
    (second : Grown layout root fixed (image ++ new) perm m' m'' free' free'' more) :
    Grown layout root fixed image perm m m'' free free'' (new ++ more) := by
  refine ⟨⟨first.toKeeps.trans second.toKeeps ?_, ?_, ?_⟩, fun pte member => ?_,
    fun pte member a is => ?_⟩
  · rintro x (isTable | isFree)
    · exact first.taken (.inl isTable)
    · exact .inr (first.wasFree (fun _ old => mem_frames_append.mpr (.inl old)) isFree)
  · rw [← append_assoc]
    exact second.space
  · rw [← append_assoc]
    exact first.moves.trans second.moves
  · rcases mem_append.mp member with old | last
    · exact first.flags pte old
    · exact second.flags pte last
  · rcases mem_append.mp member with old | last
    · rw [second.contents first.space first.moves.held
        (by rw [is]; exact ⟨pte, mem_append_right _ old, rfl⟩)]
      exact first.zero pte old a is
    · exact second.zero pte last a is

section

variable {page perm : Nat} {m₁ m₂ m₃ : Memory} {free₁ free₂ free₃ : List Nat}
  (allocated : Allocated layout root fixed image page m m₁ free free₁)

include allocated

theorem Allocated.footprint : footprint m₁ root image = footprint m root image := by
  unfold Vm.footprint
  rw [allocated.tables]

theorem Allocated.touches :
    Vm.tables m₁ root ∪ { x | x ∈ free₁ } ⊆ Vm.tables m root ∪ { x | x ∈ free } := by
  rintro x (isTable | isFree)
  · rw [allocated.tables] at isTable
    exact .inl isTable
  · refine .inr (allocated.moves.free_subset ?_ isFree)
    rw [allocated.footprint]
    exact subset_insert _ _

theorem Allocated.unchangedTo
    (unchanged : Unchanged (Vm.tables m₁ root ∪ { x | x ∈ free₁ }) m₁ m₂) :
    Unchanged (Vm.tables m root ∪ { x | x ∈ free }) m m₂ := by
  refine (allocated.unchanged.mono ?_).trans (unchanged.mono allocated.touches)
  rintro x rfl
  exact .inr allocated.isFree

theorem Allocated.mapped (flags : perm < 1024) (zero : ∀ a, pgRoundDown a = page → m₁.bytes a = 0)
    (mapped : Mapped layout root fixed image page m₁ m₂ free₁ free₂ (image ++ [leafEntry page perm])
      (Vm.footprint m₂ root (image ++ [leafEntry page perm]))) :
    Grown layout root fixed image perm m m₂ free free₂ [leafEntry page perm] := by
  have isPage : Page layout page := allocated.moves.held.pages page (.inl rfl)
  obtain ⟨-, back, kept⟩ := leaf_pte isPage.aligned (isPage.below.trans (by decide)) flags
  refine ⟨⟨⟨allocated.unchangedTo mapped.unchanged, fun path x short at' => ?_⟩, mapped.space,
    allocated.moves.trans mapped.moves⟩, fun pte member => ?_, fun pte member a is => ?_⟩
  · apply mapped.kept path x short
    rwa [allocated.nodes path short]
  · rw [mem_singleton.mp member]
    exact kept
  · rw [mem_singleton.mp member, leafEntry, back] at is
    rw [mapped.unchanged a, zero a is]
    rw [is]
    rintro (isTable | isFree)
    · exact allocated.fresh (.inl isTable)
    · exact allocated.moves.held.apart page (.inl rfl) isFree

theorem Allocated.unmapped (fresh : page ∉ Vm.footprint m₂ root image)
    (mapped : Mapped layout root fixed image page m₁ m₂ free₁ free₂ image
      (insert page (Vm.footprint m₂ root image)))
    (unchanged : Unchanged {page} m₂ m₃)
    (freed : Moves layout m₂ m₃ free₂ free₃ (insert page (Vm.footprint m₂ root image))
      (insert page (Vm.footprint m₂ root image) \ {page})) :
    Grown layout root fixed image perm m m₃ free free₃ [] := by
  obtain ⟨space, tables, nodes⟩ := mapped.space.write (fun inside => fresh (.inl inside)) unchanged
  have same : insert page (Vm.footprint m₂ root image) \ {page} = Vm.footprint m₃ root image := by
    rw [insert_sdiff_self_of_notMem fresh, Vm.footprint, Vm.footprint, tables]
  rw [same] at freed
  refine ⟨⟨⟨(allocated.unchangedTo mapped.unchanged).trans (unchanged.mono ?_),
    fun path x short at' => ?_⟩, by rwa [append_nil], ?_⟩, fun _ none => (nomatch none),
    fun _ none => (nomatch none)⟩
  · rintro x rfl
    exact .inr allocated.isFree
  · rw [nodes path short]
    apply mapped.kept path x short
    rwa [allocated.nodes path short]
  · rw [append_nil]
    exact allocated.moves.trans (mapped.moves.trans freed)

end

/-- Pages for the new size were added, or memory ran out and all is as before. -/
theorem uvmalloc_spec {oldsz newsz xperm : Nat} (space : AddrSpace m root fixed image)
    (held : Held layout m free (footprint m root image))
    (size : image.length * pgSize = pgRoundUp oldsz) (more : oldsz ≤ newsz) (fits : newsz < 2 ^ 64)
    (flags : xperm < 1024) :
    Returns (uvmalloc layout root oldsz newsz xperm) m fun r m' => ∃ free',
      (r = newsz ∧ newsz < trapframeVa ∧ ∃ new, (image ++ new).length = pageCount newsz ∧
        Grown layout root fixed image (pteR ||| pteU ||| xperm) m m' free free' new) ∨
      (r = 0 ∧ Rebuilt layout root fixed image image m m' free free') := by
  have perm : pteR ||| pteU ||| xperm < 1024 := Nat.or_lt_two_pow (n := 10) (by decide) flags
  have leaf : (pteR ||| pteU ||| xperm) &&& (pteR ||| pteW ||| pteX) ≠ 0 := by
    intro none
    rw [Nat.and_or_distrib_right, Nat.or_eq_zero_iff] at none
    exact absurd none.1 (by decide)
  unfold uvmalloc
  rw [if_neg (not_lt.mpr more)]
  refine .loop (fun a m₁ => ∃ free₁ new, a = (image.length + new.length) * pgSize ∧
      (new = [] ∨ a < newsz + pgSize) ∧
      Grown layout root fixed image (pteR ||| pteU ||| xperm) m m₁ free free₁ new)
        (fun a => newsz - a) ?_ ?_ ?_
  · rintro a m₁ ⟨free₁, new, rfl, needed, grown⟩
    have below := grown.space.below grown.moves.held
    rw [length_append] at below
    have low : (image.length + new.length) * pgSize + pgSize < trapframeVa := by
      rwa [Nat.succ_mul] at below
    refine .ite (fun less => .seq (newPage_spec grown.space grown.moves.held) ?_) fun done =>
      .pure ?_
    swap
    · -- the last page is the first one that reaches the new size
      refine ⟨free₁, .inl ⟨rfl, by omega, new, ?_, grown⟩⟩
      have small : newsz + pgSize ≤ 2 ^ 64 := by
        unfold trapframeVa trampolineVa maxVa at low
        omega
      rw [length_append]
      rcases needed with rfl | needed
      · exact pageCount_between size more (not_lt.mp done) small
      · exact pageCount_unique (not_lt.mp done) needed small
    rintro page m₂ (⟨rfl, -, rfl⟩ | ⟨nonzero, free₂, allocated⟩)
    · rw [if_pos rfl]
      refine .seq (undo_spec grown size) ?_
      rintro _ m₃ ⟨free₃, restored⟩
      exact .pure ⟨free₃, .inr ⟨rfl, restored⟩⟩
    rw [if_neg nonzero]
    have isPage : Page layout page := allocated.moves.held.pages page (.inl rfl)
    have cleared := allocated.write (memset_unchanged m₂ isPage.aligned 0) rfl
    have zero : ∀ a, pgRoundDown a = page →
        (fun a => if page ≤ a ∧ a < page + pgSize then 0 else m₂.bytes a) a = 0 := by
      rintro a rfl
      exact if_pos ⟨pgRoundDown_le a, lt_pgRoundDown a⟩
    refine .bind (memset_rule (.bind ?_))
    rw [← length_append]
    refine (mapPage_spec cleared.space cleared.moves.held cleared.fresh perm leaf).mono ?_
    rintro r m₃ ⟨free₃, ⟨rfl, mapped⟩ | ⟨rfl, fresh, mapped⟩⟩
    · have step := grown.trans (cleared.mapped perm zero mapped)
      have next : u64 ((image ++ new).length * pgSize + pgSize) =
          (image.length + new.length) * pgSize + pgSize := by
        rw [length_append]
        unfold u64 trapframeVa trampolineVa maxVa at *
        omega
      simp only [next]
      refine .pure ⟨⟨free₃, _, ?_, .inr ?_, step⟩, ?_⟩
      · rw [length_append, length_singleton, ← Nat.add_assoc, Nat.succ_mul]
      · omega
      · rw [length_append]
        have : 0 < pgSize := by decide
        omega
    · rw [if_pos (by decide)]
      refine .seq (kfree_moves mapped.moves.held (.inl rfl)) ?_
      rintro _ m₄ ⟨unchanged, free₄, freed⟩
      have step := grown.trans (cleared.unmapped fresh mapped unchanged freed)
      rw [append_nil] at step
      rw [length_append]
      refine .seq (undo_spec step size) ?_
      rintro _ m₅ ⟨free₅, restored⟩
      exact .pure ⟨free₅, .inr ⟨rfl, restored⟩⟩
  · unfold maxIterations
    omega
  · exact ⟨free, [], by simp [size], .inl rfl, .refl space held⟩

end Xv6.Vm
