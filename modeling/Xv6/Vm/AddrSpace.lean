import Xv6.Vm.Ownership

/-!
# User address spaces

An address space maps the user pages from zero on, one entry of the image after
the other, and a few fixed pages at the top. It holds its page tables and the
pages of its image.
-/

namespace Xv6.Vm

open Prog (Ensures Returns)

variable {layout : Layout} {m m' m'' : Memory} {free free' : List Nat} {owned touched : Set Nat}
  {root vpn x : Nat} {fixed : Nat → Option Nat} {image : List Nat}

def trampolineVa : Nat := maxVa - pgSize

def trapframeVa : Nat := trampolineVa - pgSize

def frames (image : List Nat) : Set Nat := { x | ∃ pte ∈ image, pte2pa pte = x }

def footprint (m : Memory) (root : Nat) (image : List Nat) : Set Nat := tables m root ∪ frames image

structure AddrSpace (m : Memory) (root : Nat) (fixed : Nat → Option Nat) (image : List Nat) :
    Prop where
  tree : Sv39 m root
  map : ∀ vpn, vpn * pgSize < 2 * maxVa → lookup m root (vpn * pgSize) = image[vpn]?.or (fixed vpn)
  nodup : (image.map pte2pa).Nodup
  apart : ∀ x ∈ frames image, x ∉ tables m root
  leaves : ∀ pte ∈ image, pte &&& (pteR ||| pteW ||| pteX) ≠ 0
  above : ∀ vpn, vpn * pgSize < trapframeVa → fixed vpn = none
  supervisor : ∀ vpn pte, fixed vpn = some pte → pte &&& pteU = 0

@[simp] theorem mem_frames_append {more : List Nat} :
    x ∈ frames (image ++ more) ↔ x ∈ frames image ∨ x ∈ frames more := by
  simp only [frames, Set.mem_ofPred_eq, List.mem_append, or_and_right, exists_or]

@[simp] theorem mem_frames_singleton {pte : Nat} : x ∈ frames [pte] ↔ x = pte2pa pte := by
  simp [frames, eq_comm]

@[simp] theorem frames_nil : frames [] = ∅ := by
  simp [frames]

theorem frames_iff_map : x ∈ frames image ↔ x ∈ image.map pte2pa := by
  simp [frames]

namespace AddrSpace

theorem frame (space : AddrSpace m root fixed image) (unchanged : Unchanged touched m m')
    (apart : ∀ x ∈ tables m root, x ∉ touched) :
    AddrSpace m' root fixed image ∧ tables m' root = tables m root := by
  have tables := tables_frame space.tree unchanged apart
  refine ⟨⟨space.tree.frame unchanged apart, fun vpn below => ?_, space.nodup, ?_, space.leaves,
    space.above, space.supervisor⟩, tables⟩
  · rw [lookup_frame space.tree unchanged apart, space.map vpn below]
  · rw [tables]
    exact space.apart

theorem length_le (space : AddrSpace m root fixed image)
    (held : Held layout m free (footprint m root image)) : image.length ≤ physTop / pgSize := by
  rw [← List.length_map pte2pa]
  refine pages_length_le space.nodup fun x member => held.pages x (.inr ?_)
  exact frames_iff_map.mpr member

theorem below (space : AddrSpace m root fixed image)
    (held : Held layout m free (footprint m root image)) :
    (image.length + 1) * pgSize < trapframeVa := by
  have := space.length_le held
  unfold trapframeVa trampolineVa maxVa physTop kernBase pgSize at *
  omega

end AddrSpace

theorem mapOne_spec {pa perm : Nat} (space : Space layout m root free)
    (below : (vpn + 1) * pgSize ≤ maxVa) (aligned : pa % pgSize = 0) (inside : pa < physTop)
    (flags : perm < 1024) (absent : lookup m root (vpn * pgSize) = none) :
    Returns (mappages root (vpn * pgSize) pgSize pa perm) m fun r m' =>
      ∃ free', Grows layout root m m' free free' ∧
        ((r = 0 ∧ ∀ vpn', vpn' * pgSize < 2 * maxVa → lookup m' root (vpn' * pgSize) =
            if vpn' = vpn then some (pa2pte pa ||| perm ||| pteV) else lookup m root
              (vpn' * pgSize)) ∨
          (r = -1 ∧ free' = [] ∧ ∀ vpn', vpn' * pgSize < 2 * maxVa →
            lookup m' root (vpn' * pgSize) = lookup m root (vpn' * pgSize))) := by
  have range : Range (vpn * pgSize) pgSize pa perm :=
    ⟨Nat.mul_mod_left _ _, Nat.mod_self _, by decide, by rw [← Nat.succ_mul]; exact below, aligned,
      by unfold physTop kernBase pgSize at *; omega, flags⟩
  have samePage : ∀ vpn', vpn' * pgSize / pgSize = vpn' := fun vpn' =>
    Nat.mul_div_cancel _ (by decide)
  have unmapped : ∀ va', vpn * pgSize ≤ va' → va' < vpn * pgSize + pgSize →
      lookup m root va' = none := by
    intro va' low high
    rw [← lookup_page, show va' / pgSize = vpn by unfold pgSize at *; omega]
    exact absent
  refine (mappages_spec space range unmapped).mono
    fun r m' ⟨free', count, grows, result, lookups⟩ => ?_
  refine ⟨free', grows, ?_⟩
  rcases result with ⟨rfl, all⟩ | ⟨rfl, some', rfl⟩
  · obtain rfl : count = 1 := by unfold pgSize at all; omega
    refine .inl ⟨rfl, fun vpn' below' => ?_⟩
    rw [lookups _ below', @mapRange_succ _ _ _ _ 0 _ (Nat.mul_mod_left _ _)]
    simp only [Nat.zero_mul, Nat.add_zero, samePage]
    refine if_congr .rfl rfl ?_
    rw [mapRange, if_neg (by omega)]
  · obtain rfl : count = 0 := by unfold pgSize at some'; omega
    refine .inr ⟨rfl, rfl, fun vpn' below' => ?_⟩
    rw [lookups _ below', mapRange, if_neg (by omega)]

end Xv6.Vm
