import Mathlib

/-!
# Doubly linked rings

Nodes are the elements of a type and one distinguished head, written `none`.
`Ring links l` says that following `next` from the head visits exactly the
elements of `l` in order and returns to the head, and that `prev` undoes
`next`. Unlinking an element and pushing one behind the head are the two
pieces of pointer surgery.
-/

universe u

structure Links (Element : Type u) where
  next : Option Element → Option Element
  prev : Option Element → Option Element

namespace Links

open List
open Function

variable {Element : Type u} [DecidableEq Element]

def setNext (links : Links Element) (node target : Option Element) : Links Element :=
  { links with next := update links.next node target }

def setPrev (links : Links Element) (node target : Option Element) : Links Element :=
  { links with prev := update links.prev node target }

/-- Take an element out: its neighbours are linked to each other. -/
def unlink (links : Links Element) (b : Element) : Links Element :=
  let links := links.setPrev (links.next (some b)) (links.prev (some b))
  links.setNext (links.prev (some b)) (links.next (some b))

/-- Put an element right behind the head. -/
def pushFront (links : Links Element) (b : Element) : Links Element :=
  let links := links.setNext (some b) (links.next none)
  let links := links.setPrev (some b) none
  let links := links.setPrev (links.next none) (some b)
  links.setNext none (some b)

/-- Both directions of the chain from `x` through the elements of `l` to `y`. -/
def Segment (links : Links Element) (x : Option Element) : List Element → Option Element → Prop
  | [], y => links.next x = y ∧ links.prev y = x
  | b :: l, y => links.next x = some b ∧ links.prev (some b) = x ∧ Segment links (some b) l y

def Ring (links : Links Element) (l : List Element) : Prop := links.Segment none l none

variable {links : Links Element} {l : List Element} {x y : Option Element} {b : Element}

section

omit [DecidableEq Element]

theorem Segment.append {l m : List Element} :
    links.Segment x (l ++ b :: m) y ↔
      links.Segment x l (some b) ∧ links.Segment (some b) m y := by
  induction l generalizing x with
  | nil => simp [Segment, and_assoc]
  | cons c l ih => simp [Segment, ih, and_assoc]

/-- A segment reads `next` at every node but its last and `prev` at every node
but its first. -/
theorem Segment.congr {links other : Links Element} (segment : links.Segment x l y)
    (next : ∀ node, node = x ∨ (∃ b ∈ l, node = some b) → other.next node = links.next node)
    (prev : ∀ node, (∃ b ∈ l, node = some b) ∨ node = y → other.prev node = links.prev node) :
    other.Segment x l y := by
  induction l generalizing x with
  | nil =>
    simp only [Segment] at segment ⊢
    rw [next x (.inl rfl), prev y (.inr rfl)]
    exact segment
  | cons b l ih =>
    obtain ⟨first, back, rest⟩ := segment
    refine ⟨by rw [next x (.inl rfl), first], by rw [prev _ (.inl ⟨b, by simp, rfl⟩), back],
      ih rest ?_ ?_⟩
    · rintro node (rfl | ⟨c, member, rfl⟩)
      · exact next _ (.inr ⟨b, by simp, rfl⟩)
      · exact next _ (.inr ⟨c, by simp [member], rfl⟩)
    · rintro node (⟨c, member, rfl⟩ | rfl)
      · exact prev _ (.inl ⟨c, by simp [member], rfl⟩)
      · exact prev _ (.inr rfl)

/-- The node before the end of a segment is its start or one of its elements. -/
theorem Segment.prev_end (segment : links.Segment x l y) :
    links.prev y = x ∨ ∃ b ∈ l, links.prev y = some b := by
  induction l generalizing x with
  | nil => exact .inl segment.2
  | cons b l ih =>
    obtain ⟨_, _, rest⟩ := segment
    rcases ih rest with last | ⟨c, member, last⟩
    · exact .inr ⟨b, by simp, last⟩
    · exact .inr ⟨c, by simp [member], last⟩

theorem Segment.next_start (segment : links.Segment x l y) :
    links.next x = y ∨ ∃ b ∈ l, links.next x = some b := by
  cases l with
  | nil => exact .inl segment.1
  | cons b l => exact .inr ⟨b, by simp, segment.1⟩

end

/-- Cutting the element between two segments joins them. -/
theorem Segment.join {l m : List Element} (before : links.Segment x l (some b))
    (after : links.Segment (some b) m y) (nodup : (l ++ b :: m).Nodup)
    (start : ∀ c ∈ l ++ b :: m, x ≠ some c) (finish : ∀ c ∈ l ++ b :: m, y ≠ some c) :
    (links.unlink b).Segment x (l ++ m) y := by
  have different : links.next (some b) ≠ some b := by
    rcases after.next_start with last | ⟨c, member, last⟩
    · rw [last]
      exact finish b (by simp)
    · rw [last]
      rintro ⟨⟩
      exact (nodup_cons.mp (nodup_append.mp nodup).2.1).1 member
  have unlinkNext : (links.unlink b).next =
      update links.next (links.prev (some b)) (links.next (some b)) := by
    simp [unlink, setNext, setPrev, update_of_ne different.symm]
  have unlinkPrev : (links.unlink b).prev =
      update links.prev (links.next (some b)) (links.prev (some b)) := by
    simp [unlink, setNext, setPrev]
  clear different
  induction l generalizing x with
  | nil =>
    obtain ⟨first, back⟩ := before
    simp only [nil_append] at nodup start finish ⊢
    have fresh := (nodup_cons.mp nodup).1
    cases m with
    | nil =>
      obtain ⟨last, lastBack⟩ := after
      refine ⟨?_, ?_⟩
      · rw [unlinkNext, back, update_self, last]
      · rw [unlinkPrev, last, update_self, back]
    | cons c m =>
      obtain ⟨second, secondBack, rest⟩ := after
      refine ⟨?_, ?_, ?_⟩
      · rw [unlinkNext, back, update_self, second]
      · rw [unlinkPrev, second, update_self, back]
      · apply rest.congr
        · rintro node member
          rw [unlinkNext, back, update_of_ne]
          rcases member with rfl | ⟨d, member, rfl⟩
          · exact (start c (by simp)).symm
          · exact (start d (by simp [member])).symm
        · rintro node member
          rw [unlinkPrev, second, update_of_ne]
          have distinct := (nodup_cons.mp (nodup_cons.mp nodup).2).1
          rcases member with ⟨d, member, rfl⟩ | rfl
          · rintro ⟨⟩
            exact distinct member
          · exact finish c (by simp)
  | cons a l ih =>
    obtain ⟨first, back, rest⟩ := before
    rw [cons_append] at nodup
    have tailNodup := (nodup_cons.mp nodup).2
    have fresh := (nodup_cons.mp nodup).1
    refine ⟨?_, ?_, ih rest tailNodup ?_ ?_ ⟩
    · rw [unlinkNext, update_of_ne, first]
      rcases rest.prev_end with last | ⟨c, member, last⟩
      · rw [last]
        exact start a (by simp)
      · rw [last]
        exact start c (by simp [member])
    · rw [unlinkPrev, update_of_ne, back]
      rcases after.next_start with last | ⟨c, member, last⟩
      · rw [last]
        exact (finish a (by simp)).symm
      · rw [last]
        rintro ⟨⟩
        exact fresh (by simp [member])
    · rintro c member ⟨⟩
      exact fresh member
    · intro c member
      exact finish c (mem_cons_of_mem a member)

omit [DecidableEq Element] in
theorem ring_nil : (⟨fun _ => none, fun _ => none⟩ : Links Element).Ring [] := ⟨rfl, rfl⟩

theorem Ring.unlink {l m : List Element}
    (ring : links.Ring (l ++ b :: m)) (nodup : (l ++ b :: m).Nodup) :
    (links.unlink b).Ring (l ++ m) := by
  obtain ⟨before, after⟩ := Segment.append.mp ring
  exact before.join after nodup (by simp) (by simp)

theorem Ring.pushFront (ring : links.Ring l) (nodup : (b :: l).Nodup) :
    (links.pushFront b).Ring (b :: l) := by
  have fresh := (nodup_cons.mp nodup).1
  have start : links.next none ≠ some b := by
    rcases ring.next_start with last | ⟨c, member, last⟩
    · simp [last]
    · rw [last]
      rintro ⟨⟩
      exact fresh member
  have pushNext : (links.pushFront b).next =
      update (update links.next (some b) (links.next none)) none (some b) := by
    simp [Links.pushFront, setNext, setPrev]
  have pushPrev : (links.pushFront b).prev =
      update (update links.prev (some b) none) (links.next none) (some b) := by
    simp [Links.pushFront, setNext, setPrev]
  refine ⟨?_, ?_, ?_⟩
  · simp [pushNext]
  · rw [pushPrev, update_of_ne start.symm, update_self]
  · cases l with
    | nil =>
      obtain ⟨loop, loopBack⟩ := ring
      refine ⟨?_, ?_⟩
      · rw [pushNext, update_of_ne (by simp), update_self, loop]
      · rw [pushPrev, loop, update_self]
    | cons c l =>
      obtain ⟨first, back, rest⟩ := ring
      refine ⟨?_, ?_, rest.congr ?_ ?_⟩
      · rw [pushNext, update_of_ne (by simp), update_self, first]
      · rw [pushPrev, first, update_self]
      · rintro node member
        have elsewhere : node ≠ some b ∧ node ≠ none := by
          rcases member with rfl | ⟨d, member, rfl⟩
          · exact ⟨by rintro ⟨⟩; exact fresh (by simp), by simp⟩
          · exact ⟨by rintro ⟨⟩; exact fresh (by simp [member]), by simp⟩
        rw [pushNext, update_of_ne elsewhere.2, update_of_ne elsewhere.1]
      · rintro node member
        have distinct := (nodup_cons.mp (nodup_cons.mp nodup).2).1
        have elsewhere : node ≠ some b ∧ node ≠ some c := by
          rcases member with ⟨d, member, rfl⟩ | rfl
          · exact ⟨by rintro ⟨⟩; exact fresh (by simp [member]),
              by rintro ⟨⟩; exact distinct member⟩
          · simp
        rw [pushPrev, first, update_of_ne elsewhere.2, update_of_ne elsewhere.1]

theorem Ring.moveToFront (ring : links.Ring l) (nodup : l.Nodup) (member : b ∈ l) :
    ((links.unlink b).pushFront b).Ring (b :: l.erase b) := by
  obtain ⟨before, after, rfl⟩ := append_of_mem member
  have absent : b ∉ before := fun early =>
    (nodup_append.mp nodup).2.2 b early b (by simp) rfl
  have erased : (before ++ b :: after).erase b = before ++ after := by
    rw [erase_append_right _ absent, erase_cons_head]
  rw [erased]
  apply (ring.unlink nodup).pushFront
  exact nodup_middle.mp nodup

omit [DecidableEq Element] in
theorem Segment.inverse (segment : links.Segment x l y) :
    (∀ node, node = x ∨ (∃ b ∈ l, node = some b) → links.prev (links.next node) = node) ∧
      ∀ node, (∃ b ∈ l, node = some b) ∨ node = y → links.next (links.prev node) = node := by
  induction l generalizing x with
  | nil =>
    obtain ⟨first, back⟩ := segment
    constructor
    · rintro node (rfl | ⟨b, member, _⟩)
      · rw [first, back]
      · simp at member
    · rintro node (⟨b, member, _⟩ | rfl)
      · simp at member
      · rw [back, first]
  | cons c l ih =>
    obtain ⟨first, back, rest⟩ := segment
    obtain ⟨forward, backward⟩ := ih rest
    constructor
    · rintro node (rfl | ⟨b, member, rfl⟩)
      · rw [first, back]
      · rcases mem_cons.mp member with rfl | member
        · exact forward _ (.inl rfl)
        · exact forward _ (.inr ⟨b, member, rfl⟩)
    · rintro node (⟨b, member, rfl⟩ | rfl)
      · rcases mem_cons.mp member with rfl | member
        · rw [back, first]
        · exact backward _ (.inl ⟨b, member, rfl⟩)
      · exact backward _ (.inr rfl)

/-! ## Scanning a ring -/

inductive Scan (Element : Type u) where
  | found (b : Element)
  | absent
  | unfinished

/-- Follow `link` from `node` until an element passes the test or the head is
reached, for at most `fuel` nodes. -/
def scan (link : Option Element → Option Element) (test : Element → Bool) :
    Nat → Option Element → Scan Element
  | _, none => .absent
  | 0, some _ => .unfinished
  | fuel + 1, some b => if test b then .found b else scan link test fuel (link (some b))

/-- The outcome of scanning the elements of a list. -/
def scanList (test : Element → Bool) (l : List Element) : Scan Element :=
  match l.find? test with
  | some b => .found b
  | none => .absent

omit [DecidableEq Element] in
theorem Segment.scan_next {x : Option Element} (segment : links.Segment x l none)
    (test : Element → Bool) {fuel : Nat} (enough : l.length ≤ fuel) :
    scan links.next test fuel (links.next x) = scanList test l := by
  induction l generalizing x fuel with
  | nil =>
    rw [segment.1]
    cases fuel <;> rfl
  | cons b l ih =>
    obtain ⟨first, _, rest⟩ := segment
    cases fuel with
    | zero => simp at enough
    | succ fuel =>
      rw [first, scan, ih rest (by simpa using enough)]
      by_cases passes : test b
      · simp [scanList, passes]
      · simp [scanList, passes]

omit [DecidableEq Element] in
theorem Segment.scan_prev {y : Option Element} (segment : links.Segment none l y)
    (test : Element → Bool) {fuel : Nat} (enough : l.length ≤ fuel) :
    scan links.prev test fuel (links.prev y) = scanList test l.reverse := by
  induction l using reverseRecOn generalizing y fuel with
  | nil =>
    rw [segment.2]
    cases fuel <;> rfl
  | append_singleton l b ih =>
    obtain ⟨before, after⟩ := Segment.append.mp segment
    cases fuel with
    | zero => simp at enough
    | succ fuel =>
      rw [after.2, scan, ih before (by simpa using enough)]
      by_cases passes : test b
      · simp [scanList, passes]
      · simp [scanList, passes]

end Links
