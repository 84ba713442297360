import Mathlib

/-!
# Regular expressions of `grep`

The matcher of `user/grep.c`. A pattern is read as a list of items, each a character or
a repeated one, between two anchors; what it matches is the product of the languages of
its items.
-/

namespace Xv6.User

open Computability
open List

/-- A byte of a string, which ends at the first zero. -/
abbrev Byte := { b : UInt8 // b ≠ 0 }

def caret : Byte := ⟨94, by decide⟩
def dollar : Byte := ⟨36, by decide⟩
def dot : Byte := ⟨46, by decide⟩
def asterisk : Byte := ⟨42, by decide⟩

mutual

def matchhere (re text : List Byte) : Bool :=
  match re with
  | [] => true
  | c :: re =>
    if re.head? = some asterisk then
      matchstar c re.tail text
    else if c = dollar ∧ re = [] then
      text = []
    else
      match text with
      | [] => false
      | t :: text => if c = dot ∨ c = t then matchhere re text else false
termination_by (re.length, 0)
decreasing_by all_goals simp_wf; omega

def matchstar (c : Byte) (re text : List Byte) : Bool :=
  if matchhere re text then
    true
  else
    match text with
    | [] => false
    | t :: text => if t = c ∨ c = dot then matchstar c re text else false
termination_by (re.length, text.length + 1)

end

/-- The loop of `match`. -/
def search (re : List Byte) : List Byte → Bool
  | [] => matchhere re []
  | t :: text => if matchhere re (t :: text) then true else search re text

/-- `match` -/
def matchText (re text : List Byte) : Bool :=
  if re.head? = some caret then matchhere re.tail text else search re text

inductive Item where
  | one (c : Byte)
  | star (c : Byte)

/-- The items of a pattern, and whether the end anchor follows. -/
def items : List Byte → List Item × Bool
  | [] => ([], false)
  | [c] => if c = dollar then ([], true) else ([.one c], false)
  | c :: d :: re =>
    if d = asterisk then
      ((.star c :: (items re).1), (items re).2)
    else
      ((.one c :: (items (d :: re)).1), (items (d :: re)).2)

/-- The strings of one character that `c` stands for. -/
def single (c : Byte) : Language Byte := { s | ∃ t, s = [t] ∧ (c = dot ∨ c = t) }

def Item.language : Item → Language Byte
  | .one c => single c
  | .star c => (single c)∗

/-- A string with the items at its beginning, or the items alone if `closed`. -/
def Begins (items : List Item) (closed : Bool) (text : List Byte) : Prop :=
  ∃ s after, text = s ++ after ∧ s ∈ (items.map Item.language).prod ∧ (closed → after = [])

variable {c : Byte} {re text : List Byte} {list : List Item} {closed : Bool}

theorem begins_nil : Begins [] closed text ↔ (closed → text = []) := by
  simp [Begins, Language.mem_one]

theorem begins_cons {item : Item} : Begins (item :: list) closed text ↔
    ∃ s rest, text = s ++ rest ∧ s ∈ item.language ∧ Begins list closed rest := by
  simp only [Begins, map_cons, prod_cons, Language.mem_mul]
  constructor
  · rintro ⟨_, after, rfl, ⟨s, first, s', others, rfl⟩, closes⟩
    exact ⟨s, s' ++ after, append_assoc .., first, s', after, rfl, others, closes⟩
  · rintro ⟨s, _, rfl, first, s', after, rfl, others, closes⟩
    exact ⟨s ++ s', after, (append_assoc ..).symm, ⟨s, first, s', others, rfl⟩, closes⟩

theorem mem_single_star {s : List Byte} : s ∈ (single c)∗ ↔ ∀ t ∈ s, c = dot ∨ c = t := by
  rw [Language.mem_kstar]
  constructor
  · rintro ⟨parts, rfl, each⟩ t member
    obtain ⟨part, inside, here⟩ := mem_flatten.mp member
    obtain ⟨t', rfl, stands⟩ := each part inside
    rwa [mem_singleton.mp here]
  · intro each
    refine ⟨s.map fun t => [t], (flatMap_singleton' s).symm, fun part member => ?_⟩
    obtain ⟨t, inside, rfl⟩ := mem_map.mp member
    exact ⟨t, rfl, each t inside⟩

/-- The loop goes on as long as the character repeats. -/
theorem matchstar_iff (here : ∀ text, matchhere re text ↔ Begins list closed text) :
    matchstar c re text ↔ Begins (.star c :: list) closed text := by
  simp only [begins_cons, Item.language, mem_single_star]
  induction text with
  | nil => simp [matchstar, here]
  | cons t text ih =>
    rw [matchstar]
    split
    next now =>
      exact iff_of_true rfl ⟨[], t :: text, rfl, by simp, (here _).mp now⟩
    next not =>
      split
      next repeats =>
        rw [ih]
        constructor
        · rintro ⟨s, rest, rfl, each, begins⟩
          exact ⟨t :: s, rest, rfl, forall_mem_cons.mpr ⟨by tauto, each⟩, begins⟩
        · rintro ⟨s, rest, is, each, begins⟩
          cases s with
          | nil => exact absurd ((here _).mpr (is ▸ begins)) not
          | cons t' s =>
            obtain ⟨rfl, rfl⟩ := cons.inj is
            exact ⟨s, rest, rfl, (forall_mem_cons.mp each).2, begins⟩
      next other =>
        refine iff_of_false (by decide) ?_
        rintro ⟨s, rest, is, each, begins⟩
        cases s with
        | nil => exact not ((here _).mpr (is ▸ begins))
        | cons t' s =>
          obtain ⟨rfl, rfl⟩ := cons.inj is
          exact other ((forall_mem_cons.mp each).1.symm.imp_left Eq.symm)

theorem begins_one : Begins (.one c :: list) closed text ↔
    ∃ t rest, text = t :: rest ∧ (c = dot ∨ c = t) ∧ Begins list closed rest := by
  rw [begins_cons]
  constructor
  · rintro ⟨_, rest, rfl, ⟨t, rfl, stands⟩, begins⟩
    exact ⟨t, rest, rfl, stands, begins⟩
  · rintro ⟨t, rest, rfl, stands, begins⟩
    exact ⟨[t], rest, rfl, ⟨t, rfl, stands⟩, begins⟩

theorem matchhere_one (plain : re.head? ≠ some asterisk) (goes : ¬ (c = dollar ∧ re = []))
    (here : ∀ text, matchhere re text ↔ Begins list closed text) :
    matchhere (c :: re) text ↔ Begins (.one c :: list) closed text := by
  rw [begins_one, matchhere.eq_def]
  simp only [if_neg plain, if_neg goes]
  cases text with
  | nil => simp
  | cons t text => simp [here]

theorem matchhere_iff (re text : List Byte) :
    matchhere re text ↔ Begins (items re).1 (items re).2 text := by
  induction re using items.induct generalizing text with
  | case1 => simp [matchhere, items, begins_nil]
  | case2 =>
    rw [matchhere.eq_def]
    simp [items, begins_nil]
  | case3 c other =>
    rw [items, if_neg other]
    exact matchhere_one (by simp) (fun ends => other ends.1) fun text => by
      simp [matchhere, begins_nil]
  | case4 c re ih =>
    rw [matchhere.eq_def, items, if_pos rfl]
    exact matchstar_iff ih
  | case5 c d re other ih =>
    rw [items, if_neg other]
    exact matchhere_one (by simpa using other) (by simp) ih

theorem search_iff : search re text ↔ ∃ before rest, text = before ++ rest ∧ matchhere re rest := by
  induction text with
  | nil => simp [search]
  | cons t text ih =>
    rw [search]
    split
    next now => exact iff_of_true rfl ⟨[], t :: text, rfl, now⟩
    next not =>
      rw [ih]
      constructor
      · rintro ⟨before, rest, rfl, now⟩
        exact ⟨t :: before, rest, rfl, now⟩
      · rintro ⟨before, rest, is, now⟩
        cases before with
        | nil => exact absurd (is ▸ now) not
        | cons t' before =>
          obtain ⟨rfl, rfl⟩ := cons.inj is
          exact ⟨before, rest, rfl, now⟩

/-- The pattern without the caret at its beginning. -/
def body (re : List Byte) : List Byte := if re.head? = some caret then re.tail else re

/-- A pattern matches a text if a part of it, at the end that an anchor is for, is in the
product of the languages of the items. -/
theorem matchText_iff (re text : List Byte) :
    matchText re text ↔ ∃ before s after, text = before ++ s ++ after ∧
      s ∈ ((items (body re)).1.map Item.language).prod ∧
      (re.head? = some caret → before = []) ∧ ((items (body re)).2 → after = []) := by
  unfold matchText body
  split
  next anchored =>
    rw [matchhere_iff]
    constructor
    · rintro ⟨s, after, rfl, product, closes⟩
      exact ⟨[], s, after, rfl, product, fun _ => rfl, closes⟩
    · rintro ⟨before, s, after, rfl, product, opens, closes⟩
      exact ⟨s, after, by rw [opens anchored]; rfl, product, closes⟩
  next free =>
    rw [search_iff]
    constructor
    · rintro ⟨before, rest, rfl, now⟩
      obtain ⟨s, after, rfl, product, closes⟩ := (matchhere_iff _ _).mp now
      exact ⟨before, s, after, (append_assoc ..).symm, product, fun is => absurd is free, closes⟩
    · rintro ⟨before, s, after, rfl, product, -, closes⟩
      exact ⟨before, s ++ after, append_assoc ..,
        (matchhere_iff _ _).mpr ⟨s, after, rfl, product, closes⟩⟩

end Xv6.User
