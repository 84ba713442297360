import Xv6.Vm.Grow

/-!
# Freeing page tables

`freewalk` frees the tables of a tree without leaves, each of them once. `uvmfree`
takes the pages of the image off before.
-/

namespace Xv6.Vm

open Trie
open Prog (Ensures Returns)

variable {layout : Layout} {m m' m'' : Memory} {free free' free'' : List Nat}
  {owned touched : Set Nat} {root x : Nat} {fixed : Nat → Option Nat} {image : List Nat}

/-- The tables from `x` down, `level` levels above the last one, have no leaves. -/
def Leafless (m : Memory) : Nat → Nat → Prop
  | 0, x => ∀ i, child m x i = none
  | level + 1, x => ∀ i next, child m x i = some next →
      entryOf m x i &&& (pteR ||| pteW ||| pteX) = 0 ∧ Leafless m level next

theorem Leafless.congr {level : Nat} (leafless : Leafless m level x)
    (same : ∀ y ∈ nodes (child m) x level, ∀ i, entryOf m' y i = entryOf m y i) :
    Leafless m' level x := by
  induction level generalizing x with
  | zero =>
    intro i
    rw [child_congr (same x root_mem_nodes i)]
    exact leafless i
  | succ level ih =>
    intro i next linked
    have entry := same x root_mem_nodes i
    rw [child_congr entry] at linked
    obtain ⟨interior, below⟩ := leafless i next linked
    rw [entry]
    refine ⟨interior, ih below fun y inside => same y ?_⟩
    exact mem_nodes_succ.mpr (.inr ⟨i, next, linked, inside⟩)

/-! ## The loop over the entries -/

section

variable (below : Nat → Set Nat)

/-- The tables below the entries from the `i`-th on. -/
def rest (m : Memory) (x i : Nat) : Set Nat :=
  { y | ∃ j next, i ≤ j.val ∧ child m x j = some next ∧ y ∈ below next }

variable {below}

/-- What the loop of `freewalk` needs to know about the tables below. -/
structure Subtrees (layout : Layout) (below : Nat → Set Nat) (depth x : Nat) (m : Memory) :
    Prop where
  aligned : x % pgSize = 0
  notBelow : ∀ i next, child m x i = some next → x ∉ below next
  disjoint : ∀ i j next next' y, child m x i = some next → child m x j = some next' →
    y ∈ below next →
    y ∈ below next' → i = j
  interior : ∀ i next, child m x i = some next → entryOf m x i &&& (pteR ||| pteW ||| pteX) = 0
  frees : ∀ i next, child m x i = some next → ∀ m' free, Held layout m' free (below next) →
    (∀ a, pgRoundDown a ∈ below next → m'.bytes a = m.bytes a) →
    Returns (freewalkFrom layout depth next) m' fun _ m'' =>
      Unchanged (below next) m' m'' ∧ ∃ free', Moves layout m' m'' free free' (below next) ∅

theorem rest_last (m : Memory) (x : Nat) : rest below m x 512 = ∅ := by
  ext y
  constructor
  · rintro ⟨j, _, high, -⟩
    omega
  · exact fun none => none.elim

variable {i : Fin 512}

theorem rest_linked {next : Nat} (linked : child m x i = some next) (y : Nat) :
    y ∈ rest below m x i ↔ y ∈ below next ∨ y ∈ rest below m x (i + 1) := by
  constructor
  · rintro ⟨j, next', low, linked', inside⟩
    by_cases here : j = i
    · rw [here, linked] at linked'
      obtain rfl := Option.some.inj linked'
      exact .inl inside
    · have : j.val ≠ i.val := fun same => here (Fin.ext same)
      exact .inr ⟨j, next', by omega, linked', inside⟩
  · rintro (inside | ⟨j, next', low, linked', inside⟩)
    · exact ⟨i, next, le_rfl, linked, inside⟩
    · exact ⟨j, next', by omega, linked', inside⟩

theorem rest_unlinked (unlinked : child m x i = none) :
    rest below m x i = rest below m x (i + 1) := by
  ext y
  constructor
  · rintro ⟨j, next, low, linked, inside⟩
    have other : j.val ≠ i.val := by
      intro same
      rw [Fin.ext same, unlinked] at linked
      cases linked
    exact ⟨j, next, by omega, linked, inside⟩
  · rintro ⟨j, next, low, linked, inside⟩
    exact ⟨j, next, by omega, linked, inside⟩

theorem rest_subset (m : Memory) (x i : Nat) : rest below m x i ⊆ rest below m x 0 := by
  rintro y ⟨j, next, -, linked, inside⟩
  exact ⟨j, next, Nat.zero_le _, linked, inside⟩

/-- The state before the `i`-th entry. -/
structure Freed (layout : Layout) (below : Nat → Set Nat) (x i : Nat) (m m' : Memory)
    (free free' : List Nat) : Prop where
  moves : Moves layout m m' free free' (insert x (rest below m x 0)) (insert x (rest below m x i))
  unchanged : Unchanged { y | y = x ∨ y ∈ rest below m x 0 ∧ y ∉ rest below m x i } m m'
  entries : ∀ j : Fin 512, i ≤ j.val → entryOf m' x j = entryOf m x j

variable {depth : Nat} (subtrees : Subtrees layout below depth x m)

include subtrees

/-- The table below an entry was freed, and the entry is cleared. -/
theorem Freed.linked {next : Nat} {m₁ m₂ : Memory} {free₁ free₂ : List Nat}
    (freed : Freed layout below x i m m₁ free free₁) (linked : child m x i = some next)
    (unchanged : Unchanged (below next) m₁ m₂)
    (moves : Moves layout m₁ m₂ free₁ free₂ (below next) ∅) :
    Freed layout below x (i + 1) m { m₂ with bytes := m₂.bytes.store (x + 8 * i) 8 0 } free
      free₂ := by
  have inside : 8 * i.val + 8 ≤ pgSize := by
    have := i.isLt
    unfold pgSize
    omega
  have apart : ∀ y ∈ insert x (rest below m x (i + 1)), y ∉ below next := by
    rintro y (rfl | ⟨j, next', later, linked', there⟩) here
    · exact subtrees.notBelow i next linked here
    · have := subtrees.disjoint i j next next' y linked linked' here there
      rw [this] at later
      omega
  have store : Unchanged {x} m₂ { m₂ with bytes := m₂.bytes.store (x + 8 * i) 8 0 } :=
    store_unchanged m₂ subtrees.aligned (Nat.le_add_right x (8 * i.val)) (by omega) 0
  have all : Moves layout m₁ m₂ free₁ free₂ (insert x (rest below m x i))
      (insert x (rest below m x (i + 1))) := by
    refine moves.frame freed.moves.held (fun y => ?_) apart fun y => ?_
    · rw [Set.mem_insert_iff, Set.mem_insert_iff, rest_linked linked, or_left_comm]
    · rw [or_iff_right (Set.notMem_empty y)]
  refine ⟨freed.moves.trans (all.trans (Moves.write all.held store rfl ?_)), ?_, fun j later => ?_⟩
  · exact fun y is => .inl is
  · refine (freed.unchanged.mono ?_).trans ((unchanged.mono ?_).trans (store.mono ?_))
    · rintro y (is | ⟨start, done⟩)
      · exact .inl is
      · exact .inr ⟨start, fun still => done ((rest_linked linked y).mpr (.inr still))⟩
    · intro y here
      exact .inr
        ⟨rest_subset m x i ((rest_linked linked y).mpr (.inl here)),
        fun still => apart y (.inr still) here⟩
    · exact fun y is => .inl is
  · rw [← freed.entries j (by omega),
      ← unchanged.entryOf subtrees.aligned (subtrees.notBelow i next linked) j]
    apply ByteSpace.load_store_disjoint
    omega

omit subtrees in
theorem Freed.last (freed : Freed layout below x 512 m m' free free') :
    Returns (kfree layout x) m' fun _ m'' => Unchanged (insert x (rest below m x 0)) m m'' ∧
      ∃ free'', Moves layout m m'' free free'' (insert x (rest below m x 0)) ∅ := by
  obtain ⟨moves, unchanged, -⟩ := freed
  rw [rest_last] at moves unchanged
  refine (kfree_moves moves.held (.inl rfl)).mono ?_
  rintro _ m'' ⟨last, free'', moves'⟩
  refine ⟨(unchanged.mono ?_).trans (last.mono ?_), free'', ?_⟩
  · rintro y (is | ⟨inside, -⟩)
    · exact .inl is
    · exact .inr inside
  · exact fun y is => .inl is
  · have none : insert x (∅ : Set Nat) \ {x} = ∅ := by simp
    rw [none] at moves'
    exact moves.trans moves'

theorem freeEntries_spec (held : Held layout m free (insert x (rest below m x 0))) :
    Returns (freewalkFrom layout (depth + 1) x) m fun _ m' =>
      Unchanged (insert x (rest below m x 0)) m m' ∧
        ∃ free', Moves layout m m' free free' (insert x (rest below m x 0)) ∅ := by
  unfold freewalkFrom
  refine .bind (.loop (fun i m₁ => i ≤ 512 ∧ ∃ free₁, Freed layout below x i m m₁ free free₁)
    (fun i => 512 - i) ?_ ?_ ?_)
  · rintro i m₁ ⟨bound, free₁, freed⟩
    refine .ite (fun more => .bind (load64_rule ?_)) fun done => .pure ?_
    swap
    · obtain rfl : i = 512 := by omega
      exact freed.last
    obtain ⟨i, rfl⟩ : ∃ j : Fin 512, j.val = i := ⟨⟨i, more⟩, rfl⟩
    have entry : m₁.bytes.load (x + 8 * i) 8 = entryOf m x i := freed.entries i le_rfl
    rw [entry]
    refine .ite (fun interior => ?_) fun notInterior => .ite (fun valid => ?_) fun invalid =>
      .pure ⟨⟨more, free₁, ?_⟩, ?_⟩
    · have linked : child m x i = some (pte2pa (entryOf m x i)) := if_pos interior.1
      have part : ∀ y ∈ below (pte2pa (entryOf m x i)), y ∈ rest below m x i := fun y inside =>
        (rest_linked linked y).mpr (.inl inside)
      have same : ∀ a, pgRoundDown a ∈ below (pte2pa (entryOf m x i)) → m₁.bytes a = m.bytes a := by
        intro a inside
        apply freed.unchanged
        rintro (is | ⟨-, gone⟩)
        · rw [is] at inside
          exact subtrees.notBelow i _ linked inside
        · exact gone (part _ inside)
      have held₁ : Held layout m₁ free₁ (below (pte2pa (entryOf m x i))) :=
        freed.moves.held.mono fun y inside => .inr (part y inside)
      refine .seq (subtrees.frees i _ linked m₁ free₁ held₁ same) ?_
      rintro _ m₂ ⟨unchanged, free₂, moves⟩
      exact .bind
        (store64_rule
          (.pure ⟨⟨more, free₂, freed.linked subtrees linked unchanged moves⟩, by omega⟩))
    · have linked : child m x i = some (pte2pa (entryOf m x i)) := if_pos valid
      exact absurd ⟨valid, subtrees.interior i _ linked⟩ notInterior
    · have unlinked : child m x i = none := if_neg invalid
      have same : rest below m x i = rest below m x (i + 1) := rest_unlinked unlinked
      obtain ⟨moves, unchanged, entries⟩ := freed
      rw [same] at moves unchanged
      exact ⟨moves, unchanged, fun j later => entries j (by omega)⟩
    · omega
  · unfold maxIterations
    omega
  · exact ⟨Nat.zero_le _, free, Moves.refl held, Unchanged.refl m, fun _ _ => rfl⟩

end

/-! ## The recursion -/

theorem freewalkFrom_spec {level depth : Nat} (deep : level < depth) (aligned : x % pgSize = 0)
    (distinct : Trie.Distinct (child m) x level) (leafless : Leafless m level x)
    (held : Held layout m free (nodes (child m) x level)) :
    Returns (freewalkFrom layout depth x) m fun _ m' => Unchanged (nodes (child m) x level) m m' ∧
      ∃ free', Moves layout m m' free free' (nodes (child m) x level) ∅ := by
  induction level generalizing m free x depth with
  | zero =>
    obtain ⟨depth, rfl⟩ := Nat.exists_eq_succ_of_ne_zero (Nat.ne_of_gt deep)
    have unlinked : ∀ i next, child m x i ≠ some next := by
      intro i next linked
      rw [leafless i] at linked
      cases linked
    have subtrees : Subtrees layout (fun _ => ∅) depth x m :=
      ⟨aligned, fun _ _ _ => id, fun _ _ _ _ _ _ _ none => none.elim,
        fun i next linked => absurd linked (unlinked i next), fun i next linked =>
          absurd linked (unlinked i next)⟩
    have same : nodes (child m) x 0 = insert x (rest (fun _ => ∅) m x 0) := by
      ext y
      constructor
      · rintro ⟨path, short, at'⟩
        obtain rfl := List.eq_nil_of_length_eq_zero (Nat.le_zero.mp short)
        exact .inl (Option.some.inj at').symm
      · rintro (rfl | ⟨_, _, -, -, none⟩)
        · exact root_mem_nodes
        · exact none.elim
    rw [same] at held ⊢
    exact freeEntries_spec subtrees held
  | succ level ih =>
    obtain ⟨depth, rfl⟩ :=
      Nat.exists_eq_succ_of_ne_zero
        (Nat.ne_of_gt (Nat.lt_of_lt_of_le (Nat.succ_pos _) (le_of_lt deep)))
    have subtrees : Subtrees layout (fun next => nodes (child m) next level) depth x m := by
      refine ⟨aligned, fun i next linked => distinct.root_not_below linked,
        fun i j next next' y linked linked' => distinct.siblings linked linked',
        fun i next linked => (leafless i next linked).1, fun i next linked m₁ free₁ held₁ same =>
          ?_⟩
      have entries : ∀ y ∈ nodes (child m) next level, ∀ j, entryOf m₁ y j = entryOf m y j := by
        rintro y ⟨path, short, at'⟩ j
        have yAligned := node_aligned (child_aligned linked) at'
        apply ByteSpace.load_congr
        intro a low high
        apply same
        rw [pgRoundDown_inside yAligned (by omega) (by unfold pgSize; omega)]
        exact ⟨path, short, at'⟩
      have children : ∀ y ∈ nodes (child m) next level, ∀ j, child m₁ y j = child m y j :=
        fun y inside j => child_congr (entries y inside j)
      have nodes : nodes (child m₁) next level = nodes (child m) next level := nodes_frame children
      have distinct₁ : Trie.Distinct (child m₁) next level := by
        intro path path' y short short' at' there
        rw [node_frame children (by omega)] at at' there
        exact distinct.below linked path path' y short short' at' there
      have leafless₁ := (leafless i next linked).2.congr entries
      have freed :=
        ih (Nat.lt_of_succ_lt_succ deep) (child_aligned linked) distinct₁ leafless₁ (by rwa [nodes])
      rwa [nodes] at freed
    have same : nodes (child m) x (level + 1) =
        insert x (rest (fun next => nodes (child m) next level) m x 0) := by
      ext y
      rw [mem_nodes_succ, Set.mem_insert_iff]
      refine or_congr .rfl ⟨?_, ?_⟩
      · rintro ⟨i, next, linked, inside⟩
        exact ⟨i, next, Nat.zero_le _, linked, inside⟩
      · rintro ⟨i, next, -, linked, inside⟩
        exact ⟨i, next, linked, inside⟩
    rw [same] at held ⊢
    exact freeEntries_spec subtrees held

/-- An address with the given indices. -/
def addressOf (i j k : Fin 512) : Nat := i * 2 ^ 30 + j * 2 ^ 21 + k * 2 ^ 12

theorem addressOf_lt (i j k : Fin 512) : addressOf i j k < 2 * maxVa := by
  have := i.isLt
  have := j.isLt
  have := k.isLt
  unfold addressOf maxVa
  omega

theorem index_addressOf (i j k : Fin 512) :
    index 2 (addressOf i j k) = i ∧ index 1 (addressOf i j k) = j ∧
    index 0 (addressOf i j k) = k := by
  have := i.isLt
  have := j.isLt
  have := k.isLt
  refine ⟨Fin.ext ?_, Fin.ext ?_, Fin.ext ?_⟩
  · change px 2 _ = _
    rw [px_eq]
    unfold addressOf
    omega
  · change px 1 _ = _
    rw [px_eq]
    unfold addressOf
    omega
  · change px 0 _ = _
    rw [px_eq]
    unfold addressOf
    omega

theorem Sv39.leafless (tree : Sv39 m root) (unmapped : ∀ va < 2 * maxVa, lookup m root va = none) :
    Leafless m 2 root := by
  have interior : ∀ path y, path.length ≤ 1 → node (child m) root path = some y → ∀ i next,
      child m y i = some next → entryOf m y i &&& (pteR ||| pteW ||| pteX) = 0 := by
    intro path y short at' i next linked
    apply tree.interior y ⟨path, short, at'⟩
    intro invalid
    rw [child, if_neg (not_not.mpr invalid)] at linked
    cases linked
  intro i next linked
  refine ⟨interior [] root (Nat.zero_le _) rfl i next linked, fun j last linked' => ?_⟩
  have reached : node (child m) root [i] = some next := by simp [linked]
  refine ⟨interior [i] next le_rfl reached j last linked', fun k => ?_⟩
  obtain ⟨atTwo, atOne, atZero⟩ := index_addressOf i j k
  have at' : lastTable m root (addressOf i j k) = some last := by
    rw [lastTable, atTwo, atOne]
    simp [linked, linked']
  have none := unmapped (addressOf i j k) (addressOf_lt i j k)
  rw [lookup_walked at', atZero] at none
  unfold child
  split at none
  next => cases none
  next invalid => rw [if_neg invalid]

theorem freewalk_spec (tree : Sv39 m root) (held : Held layout m free (tables m root))
    (unmapped : ∀ va < 2 * maxVa, lookup m root va = none) :
    Returns (freewalk layout root) m fun _ m' => Unchanged (tables m root) m m' ∧
      ∃ free', Moves layout m m' free free' (tables m root) ∅ := by
  refine freewalkFrom_spec ?_ tree.aligned tree.distinct (tree.leafless unmapped) held
  unfold maxIterations
  decide

/-! ## Freeing an address space -/

theorem AddrSpace.unmapped (space : AddrSpace m root (fun _ => none) []) :
    ∀ va < 2 * maxVa, lookup m root va = none := by
  intro va below
  rw [← lookup_page, space.map _ (lt_of_le_of_lt (Nat.div_mul_le_self va pgSize) below)]
  rfl

theorem uvmfree_spec {sz : Nat} (space : AddrSpace m root (fun _ => none) image)
    (held : Held layout m free (footprint m root image)) (size : image.length = pageCount sz) :
    Returns (uvmfree layout root sz) m fun _ m' =>
      ∃ free', Moves layout m m' free free' (footprint m root image) ∅ := by
  have finish : ∀ m₁ free₁, Shrunk layout root (fun _ => none) image 0 m m₁ free free₁ →
      Returns (freewalk layout root) m₁ fun _ m' =>
        ∃ free', Moves layout m m' free free' (footprint m root image) ∅ := by
    rintro m₁ free₁ ⟨space₁, moves, -, -⟩
    rw [List.take_zero] at space₁ moves
    have only : footprint m₁ root [] = tables m₁ root := by
      rw [footprint, frames_nil, Set.union_empty]
    rw [only] at moves
    refine (freewalk_spec space₁.tree moves.held space₁.unmapped).mono ?_
    rintro _ m₂ ⟨-, free₂, moves'⟩
    exact ⟨free₂, moves.trans moves'⟩
  unfold uvmfree
  refine .bind (.ite (fun _ => ?_) fun none => .pure ?_)
  · have off := takeOff_spec space held (Nat.zero_le image.length)
    rw [Nat.zero_mul, Nat.sub_zero, size] at off
    refine off.mono ?_
    rintro _ m₁ ⟨free₁, shrunk⟩
    exact finish m₁ free₁ shrunk
  · have empty : image.length = 0 := by
      rw [size, Nat.eq_zero_of_not_pos none]
      decide
    exact finish m free (.refl space held (le_of_eq empty))

end Xv6.Vm
