import Mathlib

/-!
# Tries stored as linked nodes

Nodes refer to their children by index, and a path of indices leads from the
root to a node. As long as no node is reached by two paths, changing one link
changes what is found at that link and below it, and nothing else.
-/

namespace Trie

open List

variable {Node Index : Type*}

/-- The node at the end of a path. -/
def node (child : Node → Index → Option Node) : Node → List Index → Option Node
  | root, [] => some root
  | root, i :: path => (child root i).bind (node child · path)

/-- The nodes within a given depth. -/
def nodes (child : Node → Index → Option Node) (root : Node) (depth : Nat) : Set Node :=
  { x | ∃ path, path.length ≤ depth ∧ node child root path = some x }

/-- No node within the given depth is reached by two paths. -/
def Distinct (child : Node → Index → Option Node) (root : Node) (depth : Nat) : Prop :=
  ∀ path path' x, path.length ≤ depth → path'.length ≤ depth →
    node child root path = some x → node child root path' = some x → path = path'

variable {child child' : Node → Index → Option Node} {root x : Node} {path : List Index} {i : Index}
  {depth : Nat}

@[simp] theorem node_nil : node child root [] = some root := rfl

@[simp] theorem node_cons : node child root (i :: path) = (child root i).bind (node child · path) :=
  rfl

theorem node_append (path' : List Index) :
    node child root (path ++ path') = (node child root path).bind (node child · path') := by
  induction path generalizing root with
  | nil => rfl
  | cons i path ih =>
    cases next : child root i with
    | none => simp [next]
    | some y => simp [next, ih]

theorem node_snoc (at' : node child root path = some x) :
    node child root (path ++ [i]) = child x i := by
  rw [node_append, at']
  cases next : child x i <;> simp [next]

theorem mem_nodes (at' : node child root path = some x) (short : path.length ≤ depth) :
    x ∈ nodes child root depth := ⟨path, short, at'⟩

theorem root_mem_nodes : root ∈ nodes child root depth := ⟨[], by simp, rfl⟩

theorem mem_nodes_succ : x ∈ nodes child root (depth + 1) ↔
    x = root ∨ ∃ i next, child root i = some next ∧ x ∈ nodes child next depth := by
  constructor
  · rintro ⟨path, short, at'⟩
    cases path with
    | nil => exact .inl (Option.some.inj at').symm
    | cons i path =>
      obtain ⟨next, linked, at'⟩ := Option.bind_eq_some_iff.mp at'
      exact .inr ⟨i, next, linked, path, by simpa using short, at'⟩
  · rintro (rfl | ⟨i, next, linked, path, short, at'⟩)
    · exact root_mem_nodes
    · exact ⟨i :: path, by simpa using short, by simp [linked, at']⟩

namespace Distinct

variable {next next' : Node} {j : Index}

theorem below (distinct : Distinct child root (depth + 1)) (linked : child root i = some next) :
    Distinct child next depth := by
  intro path path' x short short' at' there
  have whole := distinct (i :: path) (i :: path') x (by simpa using short) (by simpa using short')
    (by simp [linked, at']) (by simp [linked, there])
  exact (cons.inj whole).2

theorem siblings (distinct : Distinct child root (depth + 1)) (linked : child root i = some next)
    (linked' : child root j = some next') (member : x ∈ nodes child next depth)
    (member' : x ∈ nodes child next' depth) : i = j := by
  obtain ⟨path, short, at'⟩ := member
  obtain ⟨path', short', there⟩ := member'
  have whole := distinct (i :: path) (j :: path') x (by simpa using short) (by simpa using short')
    (by simp [linked, at']) (by simp [linked', there])
  exact (cons.inj whole).1

theorem root_not_below (distinct : Distinct child root (depth + 1))
    (linked : child root i = some next) : root ∉ nodes child next depth := by
  rintro ⟨path, short, at'⟩
  have whole := distinct [] (i :: path) root (by simp) (by simpa using short) rfl
    (by simp [linked, at'])
  cases whole

end Distinct

theorem node_congr
    (same : ∀ before i after x, path = before ++ i :: after → node child root before = some x →
      child' x i = child x i) :
    node child' root path = node child root path := by
  induction path generalizing root with
  | nil => rfl
  | cons i path ih =>
    have first := same [] i path root rfl rfl
    simp only [node_cons, first]
    cases next : child root i with
    | none => rfl
    | some y =>
      refine ih fun before j after x split at' => ?_
      refine same (i :: before) j after x (by simp [split]) ?_
      simp [next, at']

theorem node_frame (same : ∀ x ∈ nodes child root depth, ∀ i, child' x i = child x i)
    (short : path.length ≤ depth + 1) : node child' root path = node child root path := by
  refine node_congr fun before i after x split at' => same x ⟨before, ?_, at'⟩ i
  simp only [split, length_append, length_cons] at short
  omega

theorem nodes_frame (same : ∀ x ∈ nodes child root depth, ∀ i, child' x i = child x i) :
    nodes child' root depth = nodes child root depth := by
  ext x
  constructor <;> rintro ⟨path, short, at'⟩
  · exact ⟨path, short, by rwa [node_frame same (by omega)] at at'⟩
  · exact ⟨path, short, by rwa [node_frame same (by omega)]⟩

variable [DecidableEq Index]

/-- One link changes. It is found at one place only. -/
theorem node_relink (distinct : Distinct child root depth) (short : path.length ≤ depth)
    (at' : node child root path = some x)
    (same : ∀ y ∈ nodes child root depth, ∀ j, ¬ (y = x ∧ j = i) → child' y j = child y j)
    {path' : List Index} (short' : path'.length ≤ depth + 1)
    (notBelow : ∀ rest, path' = path ++ i :: rest → rest = []) :
    node child' root path' = if path' = path ++ [i] then child' x i else node child root path' := by
  have through : ∀ {before j after y}, path' = before ++ j :: after →
      node child root before = some y → y = x ∧ j = i → path' = path ++ i :: after := by
    rintro before j after y split there ⟨rfl, rfl⟩
    simp only [split, length_append, length_cons] at short'
    rw [split, distinct before path y (by omega) short there at']
  split
  next here =>
    subst here
    rw [node_snoc]
    rw [← at']
    refine node_congr fun before j after y split there => ?_
    refine same y ⟨before, ?_, there⟩ j fun hit => ?_
    · simp only [split, length_append, length_cons] at short
      omega
    · -- a path does not come back to its own end
      obtain ⟨rfl, rfl⟩ := hit
      have shorter : before.length ≤ depth := by
        simp only [split, length_append, length_cons] at short
        omega
      have := congrArg length (distinct before path y shorter short there at')
      simp only [split, length_append, length_cons] at this
      omega
  next elsewhere =>
    refine node_congr fun front j after y split there => ?_
    refine same y ⟨front, ?_, there⟩ j fun hit => elsewhere ?_
    · simp only [split, length_append, length_cons] at short'
      omega
    · have eq := through split there hit
      rw [eq, notBelow after eq]

/-- A new node without children is linked in at an empty place. -/
theorem node_extend (distinct : Distinct child root depth) (short : path.length ≤ depth)
    (at' : node child root path = some x) (empty : child x i = none) {new : Node}
    (linked : child' x i = some new) (bare : ∀ j, child' new j = none)
    (same : ∀ y ∈ nodes child root depth, ∀ j, ¬ (y = x ∧ j = i) → child' y j = child y j)
    {path' : List Index} (short' : path'.length ≤ depth + 1) :
    node child' root path' = if path' = path ++ [i] then some new else node child root path' := by
  by_cases below : ∃ j rest, path' = path ++ i :: j :: rest
  · obtain ⟨j, rest, rfl⟩ := below
    have reached : (path ++ [i]).length ≤ depth + 1 := by
      simp only [length_append, length_cons, length_nil] at short' ⊢
      omega
    have here : node child' root (path ++ [i]) = some new := by
      rw [node_relink distinct short at' same reached (by simp), if_pos rfl, linked]
    rw [if_neg (by simp), show path ++ i :: j :: rest = (path ++ [i]) ++ j :: rest by simp,
      node_append (j :: rest), node_append (j :: rest), here, node_snoc at', empty]
    simp [bare]
  · rw [node_relink distinct short at' same short' ?_, linked]
    intro rest split
    cases rest with
    | nil => rfl
    | cons j rest => exact absurd ⟨j, rest, split⟩ below

theorem nodes_extend (extend : ∀ path', path'.length ≤ depth →
      node child' root path' = if path' = path ++ [i] then some x else node child root path')
    (fits : path.length + 1 ≤ depth) (empty : node child root (path ++ [i]) = none) :
    nodes child' root depth = insert x (nodes child root depth) := by
  ext y
  constructor
  · rintro ⟨path', short, at'⟩
    rw [extend path' short] at at'
    split at at'
    next => exact .inl (Option.some.inj at').symm
    next => exact .inr ⟨path', short, at'⟩
  · rintro (rfl | ⟨path', short, at'⟩)
    · exact ⟨path ++ [i], by simpa using fits, by rw [extend _ (by simpa using fits), if_pos rfl]⟩
    · refine ⟨path', short, ?_⟩
      rw [extend path' short, if_neg, at']
      rintro rfl
      simp [empty] at at'

theorem Distinct.extend (distinct : Distinct child root depth) {new : Node}
    (fresh : new ∉ nodes child root depth)
    (extend : ∀ path', path'.length ≤ depth →
      node child' root path' = if path' = path ++ [i] then some new else node child root path') :
    Distinct child' root depth := by
  intro left right y leftShort rightShort leftAt rightAt
  rw [extend left leftShort] at leftAt
  rw [extend right rightShort] at rightAt
  split at leftAt <;> split at rightAt
  next hl hr => rw [hl, hr]
  next => cases leftAt; exact absurd (mem_nodes rightAt rightShort) fresh
  next => cases rightAt; exact absurd (mem_nodes leftAt leftShort) fresh
  next => exact distinct left right y leftShort rightShort leftAt rightAt

end Trie
