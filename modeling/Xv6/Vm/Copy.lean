import Xv6.Vm.Refinement
import Xv6.Vm.User

/-!
# Copying between the kernel and user memory

`copyout`, `copyin` and `copyinstr` go through user memory page by page. They stop
at the first page that the user may not access, and up to there they transfer
every byte.
-/

namespace Xv6.Vm

open List
open Prog (Ensures Returns)

variable {m m' m'' : Memory} {root va k : Nat}

/-- A page table for user memory: each page is mapped once, and none is page zero. -/
structure UserTable (m : Memory) (root : Nat) : Prop extends PageTree m root where
  distinctPages : ∀ vpn vpn' pa flags flags', pageMap m root vpn = some (pa, flags) →
    pageMap m root vpn' = some (pa, flags') → vpn = vpn'
  notZero : ∀ vpn flags, pageMap m root vpn ≠ some (0, flags)

/-- The page is mapped with all of the given flags. -/
def Permits (needed : List Nat) (m : Memory) (root vpn : Nat) : Prop :=
  ∃ pa flags, pageMap m root vpn = some (pa, flags) ∧ ∀ flag ∈ needed, flags &&& flag ≠ 0

def toRead : List Nat := [pteV, pteU]

def toWrite : List Nat := [pteV, pteU, pteW]

/-- Where the byte at a virtual address is. -/
def physical (m : Memory) (root va : Nat) : Option Nat :=
  (pageMap m root (va / pgSize)).map fun (pa, _) => pa + va % pgSize

/-- The byte at a virtual address, zero where nothing is mapped. -/
def userByte (m : Memory) (root va : Nat) : UInt8 := ((physical m root va).map m.bytes).getD 0

/-- The page has a byte of the range. -/
def Overlaps (va len vpn : Nat) : Prop := ∃ i < len, (va + i) / pgSize = vpn

theorem walk_pageMap (tree : Sv39 m root) (below : va < maxVa) :
    Returns (walk root va false) m fun r m' => m' = m ∧
      ((r = 0 ∧ pageMap m root (va / pgSize) = none) ∨
        (r ≠ 0 ∧ pageMap m root (va / pgSize) =
          if m.bytes.load r 8 &&& pteV ≠ 0 then some (decode (m.bytes.load r 8)) else none)) := by
  have below' : va / pgSize * pgSize < maxVa := lt_of_le_of_lt (Nat.div_mul_le_self va pgSize) below
  refine (walk_spec below tree).mono ?_
  rintro r _ ⟨rfl, result⟩
  refine ⟨rfl, ?_⟩
  rw [pageMap_eq tree, if_pos below', lookup_page]
  rcases result with ⟨rfl, absent⟩ | ⟨nonzero, low, at', rfl⟩
  · left
    simp [lookup, absent]
  · right
    refine ⟨nonzero, ?_⟩
    rw [lookup_walked at']
    change Option.map decode (if entryOf _ low (index 0 va) &&& pteV ≠ 0 then _ else none) =
      if entryOf _ low (index 0 va) &&& pteV ≠ 0 then _ else none
    split
    · rfl
    · rfl

theorem pageMap_above (tree : Sv39 m root) (above : maxVa ≤ va) :
    pageMap m root (va / pgSize) = none := by
  rw [pageMap_eq tree, if_neg]
  unfold maxVa pgSize at *
  omega

variable {vpn pa flags : Nat}

theorem pageMap_aligned (tree : Sv39 m root) (mapped : pageMap m root vpn = some (pa, flags)) :
    pa % pgSize = 0 := by
  obtain ⟨pte, -, rfl, -⟩ := lookup_of_pageMap tree mapped
  exact pte2pa_aligned pte

/-! ## Writing to user memory -/

/-- From `m` to `m'` the first `k` bytes of `src` were written at `va`, and
nothing else. -/
structure Stored (root va : Nat) (src : List UInt8) (k : Nat) (m m' : Memory) : Prop where
  freelist : m'.freelist = m.freelist
  inside : ∀ i < k, ∀ a, physical m root (va + i) = some a → m'.bytes a = src.getD i 0
  outside : ∀ a, (∀ i < k, physical m root (va + i) ≠ some a) → m'.bytes a = m.bytes a

theorem physical_inj (table : UserTable m root) {va va' a : Nat}
    (here : physical m root va = some a) (there : physical m root va' = some a) : va = va' := by
  obtain ⟨⟨pa, flags⟩, mapped, rfl⟩ := Option.map_eq_some_iff.mp here
  obtain ⟨⟨pa', flags'⟩, mapped', same⟩ := Option.map_eq_some_iff.mp there
  have aligned := pageMap_aligned table.toSv39 mapped
  have aligned' := pageMap_aligned table.toSv39 mapped'
  have equal : pa' = pa := by
    unfold pgSize at *
    simp only at same
    omega
  subst equal
  have samePage := table.distinctPages _ _ _ _ _ mapped mapped'
  unfold pgSize at *
  simp only at same
  omega

theorem physical_add {pa flags i : Nat} (mapped : pageMap m root (va / pgSize) = some (pa, flags))
    (inside : va % pgSize + i < pgSize) :
    physical m root (va + i) = some (pa + va % pgSize + i) := by
  have samePage : (va + i) / pgSize = va / pgSize := by
    unfold pgSize at *
    omega
  have offset : (va + i) % pgSize = va % pgSize + i := by
    unfold pgSize at *
    omega
  rw [physical, samePage, mapped, offset]
  simp only [Option.map_some, Nat.add_assoc]

/-- The page is not a page table, so the tables are as they were. -/
theorem Stored.unchanged {src : List UInt8} (stored : Stored root va src k m m')
    (table : UserTable m root) : Unchanged { page | page ∉ tables m root } m m' := by
  intro a outside
  simp only [Set.mem_ofPred_eq, not_not] at outside
  apply stored.outside
  intro i _ here
  obtain ⟨⟨pa, flags⟩, mapped, rfl⟩ := Option.map_eq_some_iff.mp here
  have aligned := pageMap_aligned table.toSv39 mapped
  apply table.unmapped _ _ _ mapped
  have page : pgRoundDown (pa + (va + i) % pgSize) = pa :=
    pgRoundDown_inside aligned (Nat.le_add_right _ _)
      (Nat.add_lt_add_left (Nat.mod_lt _ (by decide)) _)
  rwa [page] at outside

theorem pageMap_frame {touched : Set Nat} (tree : Sv39 m root) (unchanged : Unchanged touched m m')
    (apart : ∀ page ∈ tables m root, page ∉ touched) (vpn : Nat) :
    pageMap m' root vpn = pageMap m root vpn := by
  rw [pageMap_eq (tree.frame unchanged apart), pageMap_eq tree, lookup_frame tree unchanged apart]

theorem UserTable.frame {touched : Set Nat} (table : UserTable m root)
    (unchanged : Unchanged touched m m') (apart : ∀ page ∈ tables m root, page ∉ touched) :
    UserTable m' root := by
  have same := pageMap_frame table.toSv39 unchanged apart
  refine ⟨⟨table.toSv39.frame unchanged apart, fun vpn pa flags mapped => ?_⟩,
    fun vpn vpn' pa flags flags' => ?_,
    fun vpn flags => ?_⟩
  · rw [same] at mapped
    rw [tables_frame table.toSv39 unchanged apart]
    exact table.unmapped vpn pa flags mapped
  · rw [same, same]
    exact table.distinctPages vpn vpn' pa flags flags'
  · rw [same]
    exact table.notZero vpn flags

section

variable {src : List UInt8} (table : UserTable m root) (stored : Stored root va src k m m')

include table stored

theorem Stored.tree : Sv39 m' root :=
  table.toSv39.frame (stored.unchanged table) fun _ member outside => outside member

theorem Stored.pageMap (vpn : Nat) : pageMap m' root vpn = pageMap m root vpn :=
  pageMap_frame table.toSv39 (stored.unchanged table) (fun _ member outside => outside member) vpn

theorem Stored.physical (va' : Nat) : physical m' root va' = physical m root va' := by
  rw [Vm.physical, stored.pageMap table, Vm.physical]

theorem Stored.userByte (permitted : ∀ i < k, Permits toWrite m root ((va + i) / pgSize)) {i : Nat}
    (below : i < k) : userByte m' root (va + i) = src.getD i 0 := by
  obtain ⟨pa, flags, mapped, -⟩ := permitted i below
  have here : Vm.physical m root (va + i) = some (pa + (va + i) % pgSize) := by
    rw [Vm.physical, mapped]
    rfl
  rw [Vm.userByte, stored.physical table, here]
  exact stored.inside i below _ here

theorem Stored.userByte_outside {va' : Nat} (outside : ∀ i < k, va + i ≠ va') :
    Vm.userByte m' root va' = Vm.userByte m root va' := by
  rw [Vm.userByte, stored.physical table, Vm.userByte]
  cases here : Vm.physical m root va' with
  | none => rfl
  | some a =>
    exact stored.outside a fun i below there => outside i below (physical_inj table there here)

theorem Stored.chunk {pa flags n : Nat}
    (mapped : Vm.pageMap m root ((va + k) / pgSize) = some (pa, flags))
    (inside : (va + k) % pgSize + n ≤ pgSize) (bound : n ≤ (src.drop k).length) :
    Stored root va src (k + n) m
      { m' with bytes := fun a =>
          if pa + (va + k) % pgSize ≤ a ∧
            a < pa + (va + k) % pgSize + ((src.drop k).take n).length then
            ((src.drop k).take n).getD (a - (pa + (va + k) % pgSize)) 0
          else m'.bytes a } := by
  have length : ((src.drop k).take n).length = n := by
    rw [length_take, Nat.min_eq_left bound]
  rw [length]
  refine ⟨stored.freelist, fun i below a here => ?_, fun a outside => ?_⟩
  · by_cases old : i < k
    · have apart : ¬ (pa + (va + k) % pgSize ≤ a ∧ a < pa + (va + k) % pgSize + n) := by
        rintro ⟨low, high⟩
        have there := physical_add (i := a - (pa + (va + k) % pgSize)) mapped (by omega)
        rw [Nat.add_sub_cancel' low] at there
        have := physical_inj table here there
        omega
      simp only [if_neg apart]
      exact stored.inside i old a here
    · have there := physical_add (i := i - k) mapped (by omega)
      rw [show va + k + (i - k) = va + i by omega, here] at there
      obtain rfl := Option.some.inj there
      simp only []
      rw [if_pos (by omega), Nat.add_sub_cancel_left, getD_eq_getElem?_getD, getD_eq_getElem?_getD,
        getElem?_take_of_lt (by omega), getElem?_drop, Nat.add_sub_cancel' (by omega)]
  · have apart : ¬ (pa + (va + k) % pgSize ≤ a ∧ a < pa + (va + k) % pgSize + n) := by
      rintro ⟨low, high⟩
      have there := physical_add (i := a - (pa + (va + k) % pgSize)) mapped (by omega)
      rw [Nat.add_sub_cancel' low] at there
      apply outside (k + (a - (pa + (va + k) % pgSize))) (by omega)
      rwa [Nat.add_assoc] at there
    simp only [if_neg apart]
    exact stored.outside a fun i below => outside i (by omega)

end

variable {needed : List Nat}

theorem Permits.overlaps (start : ∀ i < k, Permits needed m root ((va + i) / pgSize)) {n : Nat}
    (here : Permits needed m root ((va + k) / pgSize)) (inside : (va + k) % pgSize + n ≤ pgSize) :
    ∀ i < k + n, Permits needed m root ((va + i) / pgSize) := by
  intro i below
  by_cases old : i < k
  · exact start i old
  · rwa [show (va + i) / pgSize = (va + k) / pgSize by unfold pgSize at *; omega]

theorem piece (va len : Nat) : va % pgSize + min (pgSize - va % pgSize) len ≤ pgSize := by
  have := Nat.mod_lt va (show 0 < pgSize by decide)
  omega

theorem sub_pgRoundDown (va : Nat) : va - pgRoundDown va = va % pgSize := by
  unfold pgRoundDown pgSize
  omega

theorem pgRoundDown_div (va : Nat) : pgRoundDown va / pgSize = va / pgSize :=
  Nat.mul_div_cancel _ (by decide)

theorem copyout_spec {src : List UInt8} (table : UserTable m root) (va : Nat)
    (fits : src.length < 2 ^ 64) :
    Returns (copyout root va src) m fun r m' => ∃ k ≤ src.length, Stored root va src k m m' ∧
      (∀ i < k, Permits toWrite m root ((va + i) / pgSize)) ∧
      ((r = 0 ∧ k = src.length) ∨
        (r = -1 ∧ k < src.length ∧ ¬ Permits toWrite m root ((va + k) / pgSize))) := by
  unfold copyout
  refine .loop (fun (vars : Nat × List UInt8) m' => ∃ k ≤ src.length, vars.2 = src.drop k ∧
      (k < src.length → vars.1 = va + k) ∧ Stored root va src k m m' ∧
      ∀ i < k, Permits toWrite m root ((va + i) / pgSize)) (fun vars => vars.2.length) ?_ ?_ ?_
  · rintro ⟨dstva, left⟩ m₁ ⟨k, bound, rfl, place, stored, permitted⟩
    simp only [length_drop] at place ⊢
    refine .ite (fun more => ?_) fun done => .pure ?_
    swap
    · exact ⟨k, bound, stored, permitted, .inl ⟨rfl, by omega⟩⟩
    have short : k < src.length := by omega
    obtain rfl := place short
    have failing : ¬ Permits toWrite m root ((va + k) / pgSize) →
        ∃ k ≤ src.length, Stored root va src k m m₁ ∧
          (∀ i < k, Permits toWrite m root ((va + i) / pgSize)) ∧
          (((-1 : Int) = 0 ∧ k = src.length) ∨
            ((-1 : Int) = -1 ∧ k < src.length ∧ ¬ Permits toWrite m root ((va + k) / pgSize))) :=
      fun denied => ⟨k, bound, stored, permitted, .inr ⟨rfl, short, denied⟩⟩
    refine .ite (fun above => .pure (failing ?_)) fun below => ?_
    · rintro ⟨pa, flags, mapped, -⟩
      have absent := pageMap_above table.toSv39 above
      rw [pgRoundDown_div, mapped] at absent
      cases absent
    refine .seq (walk_pageMap (stored.tree table) (not_le.mp below)) ?_
    rintro pte _ ⟨rfl, result⟩
    rw [pgRoundDown_div, stored.pageMap table] at result
    rcases result with ⟨rfl, absent⟩ | ⟨nonzero, found⟩
    · rw [if_pos rfl]
      refine .pure (failing ?_)
      rintro ⟨pa, flags, mapped, -⟩
      rw [mapped] at absent
      cases absent
    rw [if_neg nonzero]
    refine .bind (load64_rule (.ite (fun denied => .pure (failing ?_)) fun granted => ?_))
    · rintro ⟨pa, flags, mapped, flag⟩
      rw [mapped] at found
      split at found
      next valid =>
        obtain ⟨rfl, rfl⟩ := Prod.mk.inj (Option.some.inj found)
        have u := flag pteU (by simp [toWrite])
        have w := flag pteW (by simp [toWrite])
        rw [flags_and _ (by decide)] at u w
        rcases denied with invalid | user | write
        · exact valid invalid
        · exact u user
        · exact w write
      next => cases found
    · simp only [not_or] at granted
      obtain ⟨valid, user, write⟩ := granted
      rw [if_pos valid] at found
      have here : Permits toWrite m root ((va + k) / pgSize) := by
        refine ⟨_, _, found, ?_⟩
        intro flag member
        simp only [toWrite, mem_cons, not_mem_nil, or_false] at member
        rcases member with rfl | rfl | rfl
        · rwa [flags_and _ (by decide)]
        · rwa [flags_and _ (by decide)]
        · rwa [flags_and _ (by decide)]
      rw [sub_pgRoundDown]
      have length : (src.drop k).length = src.length - k := length_drop
      have positive : 0 < pgSize - (va + k) % pgSize := Nat.sub_pos_of_lt (Nat.mod_lt _ (by decide))
      have inside := piece (va + k) (src.length - k)
      refine .bind
        (.of_eq rfl (.pure ⟨⟨k + min (pgSize - (va + k) % pgSize) (src.length - k), ?_, ?_, ?_,
          stored.chunk table found inside ?_, Permits.overlaps permitted here inside⟩, ?_⟩))
      · omega
      · rw [drop_drop]
      · intro rest
        unfold u64 pgRoundDown maxVa pgSize at *
        omega
      · rw [length]
        exact Nat.min_le_right _ _
      · simp only [length_drop]
        omega
  · unfold maxIterations
    simpa using fits
  · exact ⟨0, Nat.zero_le _, rfl, fun _ => rfl, ⟨rfl, by simp,
      fun a _ => rfl⟩, by simp⟩

/-! ## Reading user memory -/

theorem lookup_valid {pte : Nat} (found : lookup m root va = some pte) : pte &&& pteV ≠ 0 := by
  obtain ⟨low, -, here⟩ := Option.bind_eq_some_iff.mp found
  split at here
  next valid =>
    obtain rfl := Option.some.inj here
    exact valid
  next => cases here

theorem pageMap_valid (tree : Sv39 m root) (mapped : pageMap m root vpn = some (pa, flags)) :
    flags &&& pteV ≠ 0 := by
  obtain ⟨pte, found, -, rfl⟩ := lookup_of_pageMap tree mapped
  rw [flags_and _ (by decide)]
  exact lookup_valid found

theorem permits_toRead (tree : Sv39 m root) (mapped : pageMap m root vpn = some (pa, flags)) :
    Permits toRead m root vpn ↔ flags &&& pteU ≠ 0 := by
  constructor
  · rintro ⟨pa', flags', mapped', flag⟩
    obtain ⟨rfl, rfl⟩ := Prod.mk.inj (Option.some.inj (mapped.symm.trans mapped'))
    exact flag pteU (by simp [toRead])
  · intro user
    refine ⟨pa, flags, mapped, fun flag member => ?_⟩
    simp only [toRead, mem_cons, not_mem_nil, or_false] at member
    rcases member with rfl | rfl
    · exact pageMap_valid tree mapped
    · exact user

theorem walkaddr_permits (table : UserTable m root) (va : Nat) :
    Returns (walkaddr root va) m fun pa m' => m' = m ∧
      ((pa = 0 ∧ ¬ Permits toRead m root (va / pgSize)) ∨
        (pa ≠ 0 ∧ va < maxVa ∧ Permits toRead m root (va / pgSize) ∧
          ∃ flags, pageMap m root (va / pgSize) = some (pa, flags))) := by
  refine .of_eq (walkaddr_refines table.toSv39 va) ⟨rfl, ?_⟩
  cases mapped : pageMap m root (va / pgSize) with
  | none =>
    left
    refine ⟨rfl, ?_⟩
    rintro ⟨pa, flags, mapped', -⟩
    rw [mapped] at mapped'
    cases mapped'
  | some entry =>
    obtain ⟨pa, flags⟩ := entry
    simp only
    split
    next user =>
      right
      refine ⟨?_, lt_of_not_ge fun above => ?_, (permits_toRead table.toSv39 mapped).mpr user,
        flags, rfl⟩
      · rintro rfl
        exact table.notZero _ _ mapped
      · exact nomatch (pageMap_above table.toSv39 above).symm.trans mapped
    next denied =>
      left
      exact ⟨rfl, fun permitted => denied ((permits_toRead table.toSv39 mapped).mp permitted)⟩

theorem userByte_add {pa flags i : Nat} (mapped : pageMap m root (va / pgSize) = some (pa, flags))
    (inside : va % pgSize + i < pgSize) :
    userByte m root (va + i) = m.bytes (pa + va % pgSize + i) := by
  rw [userByte, physical_add mapped inside]
  rfl

/-- The bytes from a virtual address on. -/
def userBytes (m : Memory) (root va n : Nat) : List UInt8 :=
  (range n).map fun i => userByte m root (va + i)

theorem userBytes_add (m : Memory) (root va n more : Nat) :
    userBytes m root va (n + more) = userBytes m root va n ++ userBytes m root (va + n) more := by
  unfold userBytes
  rw [range_add, map_append, map_map]
  refine congrArg _ (map_congr_left fun i _ => ?_)
  rw [Function.comp_apply, Nat.add_assoc]

theorem userBytes_page {pa flags n : Nat} (mapped : pageMap m root (va / pgSize) = some (pa, flags))
    (inside : va % pgSize + n ≤ pgSize) :
    (range n).map (fun i => m.bytes (pa + va % pgSize + i)) = userBytes m root va n := by
  apply map_congr_left
  intro i member
  have := mem_range.mp member
  rw [userByte_add mapped (by omega)]

theorem copyin_spec {len : Nat} (table : UserTable m root) (va : Nat) (fits : len < 2 ^ 64) :
    Returns (copyin root va len) m fun r m' => m' = m ∧ ∃ k ≤ len, r.2 = userBytes m root va k ∧
      (∀ i < k, Permits toRead m root ((va + i) / pgSize)) ∧
      ((r.1 = 0 ∧ k = len) ∨
        (r.1 = -1 ∧ k < len ∧ ¬ Permits toRead m root ((va + k) / pgSize))) := by
  unfold copyin
  refine .loop (fun (vars : Nat × Nat × List UInt8) m' => m' = m ∧ ∃ k ≤ len, vars.2.1 = len - k ∧
      (k < len → vars.1 = va + k) ∧ vars.2.2 = userBytes m root va k ∧
      ∀ i < k, Permits toRead m root ((va + i) / pgSize)) (fun vars => vars.2.1) ?_ ?_ ?_
  · rintro ⟨srcva, left, dst⟩ _ ⟨rfl, k, bound, isLeft, place, isDst, permitted⟩
    simp only at isLeft isDst place ⊢
    subst isLeft isDst
    refine .ite (fun more => ?_) fun done =>
      .pure ⟨rfl, k, bound, rfl, permitted, .inl ⟨rfl, by omega⟩⟩
    have short : k < len := by omega
    obtain rfl := place short
    refine .seq (walkaddr_permits table _) ?_
    rintro pa _ ⟨rfl, result⟩
    rw [pgRoundDown_div] at result
    rcases result with ⟨rfl, denied⟩ | ⟨nonzero, below, here, flags, mapped⟩
    · rw [if_pos rfl]
      exact .pure ⟨rfl, k, bound, rfl, permitted, .inr ⟨rfl, short, denied⟩⟩
    rw [if_neg nonzero, sub_pgRoundDown]
    have positive : 0 < pgSize - (va + k) % pgSize := Nat.sub_pos_of_lt (Nat.mod_lt _ (by decide))
    have inside := piece (va + k) (len - k)
    refine .bind
      (.of_eq rfl (.pure ⟨⟨rfl, k + min (pgSize - (va + k) % pgSize) (len - k), ?_, ?_, ?_, ?_,
        Permits.overlaps permitted here inside⟩, ?_⟩))
    · omega
    · simp only
      omega
    · intro rest
      unfold u64 pgRoundDown maxVa pgSize at *
      omega
    · simp only
      rw [userBytes_page mapped inside, userBytes_add]
    · change len - k - min (pgSize - (va + k) % pgSize) (len - k) < len - k
      omega
  · unfold maxIterations
    exact fits
  · exact ⟨rfl, 0, Nat.zero_le _, rfl, fun _ => rfl, rfl, by simp⟩

/-! ## Strings -/

theorem map_range_cons (f : Nat → UInt8) (n : Nat) :
    (range (n + 1)).map f = f 0 :: (range n).map fun i => f (i + 1) := by
  rw [range_succ_eq_map, map_cons, map_map]
  rfl

theorem copyBytes_spec (p n : Nat) :
    Returns (copyBytes p n) m fun r m' => m' = m ∧ ∃ j ≤ n, (∀ i < j, m.bytes (p + i) ≠ 0) ∧
      ((r = (false, (range n).map fun i => m.bytes (p + i)) ∧ j = n) ∨
        (r = (true, (range (j + 1)).map fun i => m.bytes (p + i)) ∧ j < n ∧
          m.bytes (p + j) = 0)) := by
  induction n generalizing p with
  | zero => exact .pure ⟨rfl, 0, le_rfl, by simp, .inl ⟨rfl, rfl⟩⟩
  | succ n ih =>
    unfold copyBytes
    refine .bind (.of_eq rfl (.ite (fun null => .pure ?_) fun more => .seq (ih (p + 1)) ?_))
    · refine ⟨rfl, 0, Nat.zero_le _, by simp, .inr ⟨?_, Nat.succ_pos n, null⟩⟩
      rfl
    · have shift : ∀ i, p + 1 + i = p + (i + 1) := fun i => by omega
      rintro ⟨got, bytes⟩ _ ⟨rfl, j, bound, nonzero, result⟩
      refine .pure ⟨rfl, j + 1, Nat.succ_le_succ bound, fun i below => ?_, ?_⟩
      · cases i with
        | zero => exact more
        | succ i =>
          rw [← shift]
          exact nonzero i (by omega)
      · rcases result with ⟨is, rfl⟩ | ⟨is, below, null⟩
        · left
          obtain ⟨rfl, rfl⟩ := Prod.mk.inj is
          rw [map_range_cons]
          simp only [shift]
          exact ⟨rfl, trivial⟩
        · right
          obtain ⟨rfl, rfl⟩ := Prod.mk.inj is
          rw [map_range_cons _ (j + 1)]
          simp only [shift] at null ⊢
          exact ⟨rfl, Nat.succ_lt_succ below, null⟩

/-- `copyinstr` copies up to the first zero, as far as the pages permit it. -/
theorem copyinstr_spec {max : Nat} (table : UserTable m root) (va : Nat) (fits : max < 2 ^ 64) :
    Returns (copyinstr root va max) m fun r m' => m' = m ∧
    ∃ k ≤ max, (∀ i < k, userByte m root (va + i) ≠ 0) ∧
      (∀ i < k, Permits toRead m root ((va + i) / pgSize)) ∧
      ((r = (true, userBytes m root va (k + 1)) ∧ k < max ∧ userByte m root (va + k) = 0 ∧
          Permits toRead m root ((va + k) / pgSize)) ∨
        (r = (false, userBytes m root va k) ∧
          (k = max ∨ ¬ Permits toRead m root ((va + k) / pgSize)))) := by
  unfold copyinstr
  refine .loop (fun (vars : Nat × Nat × List UInt8) m' => m' = m ∧ ∃ k ≤ max, vars.2.1 = max - k ∧
      (k < max → vars.1 = va + k) ∧ vars.2.2 = userBytes m root va k ∧
      (∀ i < k, userByte m root (va + i) ≠ 0) ∧ ∀ i < k, Permits toRead m root ((va + i) / pgSize))
    (fun vars => vars.2.1) ?_ ?_ ?_
  · rintro ⟨srcva, left, dst⟩ _ ⟨rfl, k, bound, isLeft, place, isDst, nonzero, permitted⟩
    simp only at isLeft isDst place ⊢
    subst isLeft isDst
    refine .ite (fun more => ?_) fun done => .pure
      ⟨rfl, k, bound, nonzero, permitted, .inr ⟨rfl, .inl (by omega)⟩⟩
    have short : k < max := by omega
    obtain rfl := place short
    refine .seq (walkaddr_permits table _) ?_
    rintro pa _ ⟨rfl, result⟩
    rw [pgRoundDown_div] at result
    rcases result with ⟨rfl, denied⟩ | ⟨notNull, below, here, flags, mapped⟩
    · rw [if_pos rfl]
      exact .pure ⟨rfl, k, bound, nonzero, permitted, .inr ⟨rfl, .inr denied⟩⟩
    rw [if_neg notNull, sub_pgRoundDown]
    have positive : 0 < pgSize - (va + k) % pgSize := Nat.sub_pos_of_lt (Nat.mod_lt _ (by decide))
    have inside := piece (va + k) (max - k)
    refine .seq (copyBytes_spec _ _) ?_
    rintro ⟨got, bytes⟩ m₁ ⟨rfl, j, few, before, result⟩
    have before' : ∀ i < k + j, userByte m₁ root (va + i) ≠ 0 := by
      intro i low
      by_cases old : i < k
      · exact nonzero i old
      · have byte := userByte_add (i := i - k) mapped (by omega)
        rw [show va + k + (i - k) = va + i by omega] at byte
        rw [byte]
        exact before (i - k) (by omega)
    rcases result with ⟨is, rfl⟩ | ⟨is, less, null⟩
    · obtain ⟨rfl, rfl⟩ := Prod.mk.inj is
      rw [if_neg Bool.false_ne_true]
      refine .pure ⟨⟨rfl, k + min (pgSize - (va + k) % pgSize) (max - k), ?_, ?_, ?_, ?_, before',
        Permits.overlaps permitted here inside⟩, ?_⟩
      · omega
      · simp only
        omega
      · intro rest
        unfold u64 pgRoundDown maxVa pgSize at *
        omega
      · simp only
        rw [userBytes_page mapped inside, userBytes_add]
      · change max - k - min (pgSize - (va + k) % pgSize) (max - k) < max - k
        omega
    · obtain ⟨rfl, rfl⟩ := Prod.mk.inj is
      rw [if_pos rfl]
      have upTo : ∀ i < k + (j + 1), Permits toRead m₁ root ((va + i) / pgSize) :=
        Permits.overlaps permitted here (by omega)
      refine .pure
        ⟨rfl, k + j, by omega, before', fun i low => upTo i (by omega), .inl ⟨?_, by omega, ?_, ?_⟩⟩
      · rw [userBytes_page mapped (by omega), ← userBytes_add, Nat.add_assoc]
      · rw [← Nat.add_assoc, userByte_add mapped (by omega)]
        exact null
      · exact upTo (k + j) (by omega)
  · unfold maxIterations
    exact fits
  · exact ⟨rfl, 0, Nat.zero_le _, rfl, fun _ => rfl, rfl, by simp,
      by simp⟩

/-! ## What is accessed -/

def UserPage (m : Memory) (root page : Nat) : Prop :=
  ∃ vpn flags, pageMap m root vpn = some (page, flags) ∧ flags &&& pteU ≠ 0

def SameUser (root : Nat) (m m' : Memory) : Prop :=
  Unchanged { page | page ∉ tables m root ∧ ¬ UserPage m root page } m m'

theorem Permits.below {vpn : Nat} (tree : Sv39 m root) (permitted : Permits needed m root vpn) :
    vpn * pgSize < maxVa := by
  obtain ⟨pa, flags, mapped, -⟩ := permitted
  rw [pageMap_eq tree] at mapped
  split at mapped
  next below => exact below
  next => cases mapped

theorem permits_iff {len : Nat} (tree : Sv39 m root) :
    (∀ i < len, Permits needed m root ((va + i) / pgSize)) ↔
      ∀ vpn, Overlaps va len vpn → vpn * pgSize < maxVa ∧ Permits needed m root vpn := by
  constructor
  · rintro permitted _ ⟨i, below, rfl⟩
    exact ⟨(permitted i below).below tree, permitted i below⟩
  · intro permitted i below
    exact (permitted _ ⟨i, below, rfl⟩).2

/-- A copy goes as far as the pages permit it, and that decides what it returns. -/
theorem result_iff {len k : Nat} {r : Int} (bound : k ≤ len)
    (permitted : ∀ i < k, Permits needed m root ((va + i) / pgSize))
    (result : (r = 0 ∧ k = len) ∨
      (r = -1 ∧ k < len ∧ ¬ Permits needed m root ((va + k) / pgSize))) :
    (r = 0 ∨ r = -1) ∧ (r = 0 ↔ ∀ i < len, Permits needed m root ((va + i) / pgSize)) ∧
    (r = 0 → k = len) := by
  rcases result with ⟨rfl, rfl⟩ | ⟨rfl, short, denied⟩
  · exact ⟨.inl rfl, ⟨fun _ => permitted, fun _ => rfl⟩, fun _ => rfl⟩
  · refine ⟨.inr rfl, ⟨fun zero => absurd zero (by decide), fun all => absurd (all k short) denied⟩,
      fun zero => ?_⟩
    exact absurd zero (by decide)

section

variable (table : UserTable m root) (same : SameUser root m m')

include table same

theorem SameUser.pageMap (vpn : Nat) : pageMap m' root vpn = pageMap m root vpn :=
  pageMap_frame table.toSv39 same (fun _ member outside => outside.1 member) vpn

theorem SameUser.userTable : UserTable m' root :=
  table.frame same fun _ member outside => outside.1 member

theorem SameUser.permits (needed : List Nat) (vpn : Nat) :
    Permits needed m' root vpn ↔ Permits needed m root vpn := by
  unfold Permits
  rw [same.pageMap table]

theorem SameUser.userByte (readable : Permits toRead m root (va / pgSize)) :
    userByte m' root va = userByte m root va := by
  obtain ⟨pa, flags, mapped, flag⟩ := readable
  have page : pgRoundDown (pa + va % pgSize) = pa :=
    pgRoundDown_inside (pageMap_aligned table.toSv39 mapped) (Nat.le_add_right _ _)
      (Nat.add_lt_add_left (Nat.mod_lt _ (by decide)) _)
  unfold Vm.userByte physical
  rw [same.pageMap table, mapped]
  apply same
  rintro ⟨-, notUser⟩
  rw [page] at notUser
  exact notUser ⟨_, flags, mapped, flag pteU (by simp [toRead])⟩

end

/-- How far a copy gets is determined by the pages that are permitted. -/
theorem prefix_unique {len k k' : Nat} (bound : k ≤ len) (bound' : k' ≤ len)
    (permitted : ∀ i < k, Permits needed m root ((va + i) / pgSize))
    (permitted' : ∀ i < k', Permits needed m root ((va + i) / pgSize))
    (stop : k = len ∨ ¬ Permits needed m root ((va + k) / pgSize))
    (stop' : k' = len ∨ ¬ Permits needed m root ((va + k') / pgSize)) : k = k' := by
  rcases Nat.lt_trichotomy k k' with less | equal | greater
  · rcases stop with rfl | denied
    · omega
    · exact absurd (permitted' k less) denied
  · exact equal
  · rcases stop' with rfl | denied
    · omega
    · exact absurd (permitted k' greater) denied

theorem Stored.user {src : List UInt8} (table : UserTable m root)
    (stored : Stored root va src k m m')
    (permitted : ∀ i < k, Permits toWrite m root ((va + i) / pgSize)) {a : Nat}
    (changed : m'.bytes a ≠ m.bytes a) : UserPage m root (pgRoundDown a) := by
  by_contra notUser
  apply changed
  apply stored.outside
  intro i below here
  obtain ⟨pa, flags, mapped, flag⟩ := permitted i below
  have is := physical_add (i := 0) mapped (Nat.mod_lt _ (by decide))
  rw [Nat.add_zero, Nat.add_zero] at is
  rw [is] at here
  obtain rfl := Option.some.inj here
  rw [pgRoundDown_inside (pageMap_aligned table.toSv39 mapped) (Nat.le_add_right _ _)
    (Nat.add_lt_add_left (Nat.mod_lt _ (by decide)) _)] at notUser
  exact notUser ⟨_, flags, mapped, flag pteU (by simp [toWrite])⟩

/-- The copy routines access exactly the user memory that they are allowed to: what
they return and write depends on page tables and user pages only. -/
theorem copy_permitted (table : UserTable m root) :
    (∀ dstva src, src.length < 2 ^ 64 → ∃ r m', copyout root dstva src m = .ok (r, m') ∧
      (r = 0 ∨ r = -1) ∧
      (r = 0 ↔ ∀ vpn, Overlaps dstva src.length vpn → vpn * pgSize < maxVa ∧
        Permits toWrite m root vpn) ∧
      (∃ k ≤ src.length, (r = 0 → k = src.length) ∧ Stored root dstva src k m m' ∧
        ∀ vpn, Overlaps dstva k vpn → vpn * pgSize < maxVa ∧ Permits toWrite m root vpn) ∧
      (∀ a, m'.bytes a ≠ m.bytes a → UserPage m root (pgRoundDown a)) ∧
      ∀ other, SameUser root m other → ∃ other', copyout root dstva src other = .ok (r, other')) ∧
    (∀ srcva len, len < 2 ^ 64 → ∃ r dst, copyin root srcva len m = .ok ((r, dst), m) ∧
      (r = 0 ∨ r = -1) ∧
      (r = 0 ↔ ∀ vpn, Overlaps srcva len vpn → vpn * pgSize < maxVa ∧ Permits toRead m root vpn) ∧
      (∃ k ≤ len, (r = 0 → k = len) ∧ dst = userBytes m root srcva k ∧
        ∀ vpn, Overlaps srcva k vpn → vpn * pgSize < maxVa ∧ Permits toRead m root vpn) ∧
      ∀ other, SameUser root m other → copyin root srcva len other = .ok ((r, dst), other)) := by
  constructor
  · intro dstva src fits
    obtain ⟨r, m', run, k, bound, stored, permitted, result⟩ :=
      (copyout_spec table dstva fits).exists
    obtain ⟨either, iff, whole⟩ := result_iff bound permitted result
    refine ⟨r, m', run, either, by rw [iff, permits_iff table.toSv39],
      ⟨k, bound, whole, stored, (permits_iff table.toSv39).mp permitted⟩,
      fun a => stored.user table permitted, fun other same => ?_⟩
    obtain ⟨r', other', run', k', bound', -, permitted', result'⟩ :=
      (copyout_spec (same.userTable table) dstva fits).exists
    simp only [same.permits table] at permitted' result'
    have iff' := (result_iff bound' permitted' result').2.1
    have either' := (result_iff bound' permitted' result').1
    have equal : r' = r := by
      have : r' = 0 ↔ r = 0 := iff'.trans iff.symm
      omega
    exact ⟨other', equal ▸ run'⟩
  · intro srcva len fits
    obtain ⟨⟨r, dst⟩, m₁, run, rfl, k, bound, rfl, permitted, result⟩ :=
      (copyin_spec table srcva fits).exists
    obtain ⟨either, iff, whole⟩ := result_iff bound permitted result
    refine ⟨r, _, run, either, by rw [iff, permits_iff table.toSv39],
      ⟨k, bound, whole, rfl, (permits_iff table.toSv39).mp permitted⟩, fun other same => ?_⟩
    obtain ⟨⟨r', dst'⟩, m₂, run', rfl, k', bound', isDst, permitted', result'⟩ :=
      (copyin_spec (same.userTable table) srcva fits).exists
    simp only [same.permits table] at permitted' result'
    simp only at isDst result result'
    have equal : k' = k := by
      refine prefix_unique bound' bound permitted' permitted ?_ ?_
      · exact result'.imp And.right fun denied => denied.2.2
      · exact result.imp And.right fun denied => denied.2.2
    subst equal
    have sameResult : r' = r := by
      rcases result with ⟨rfl, _⟩ | ⟨rfl, less, _⟩ <;> rcases result' with ⟨rfl, _⟩ | ⟨rfl, less',
        _⟩
      · rfl
      · omega
      · omega
      · rfl
    rw [run', sameResult, isDst]
    have bytes : userBytes m₂ root srcva k' = userBytes m₁ root srcva k' :=
      map_congr_left fun i member => same.userByte table (permitted i (mem_range.mp member))
    rw [bytes]

theorem oneUserPage : ∃ m, UserTable m 0x80200000 ∧
    pageMap m 0x80200000 =
      extendMap (pageMap sample 0x80200000) 0 0x80300000 (pteR ||| pteW ||| pteU ||| pteV) 1 ∧
      (m.bytes 0x80300000, m.bytes 0x80300001, m.bytes 0x80300002) = (104, 105, 0) := by
  have range : Range 0 0x1000 0x80300000 (pteR ||| pteW ||| pteU) :=
    ⟨by decide, by decide, by decide, by decide, by decide, by decide, by decide⟩
  have run : (mappages 0x80200000 0 0x1000 0x80300000 (pteR ||| pteW ||| pteU) sample).map
      (fun result =>
        (result.1, result.2.bytes 0x80300000, result.2.bytes 0x80300001,
        result.2.bytes 0x80300002)) =
        .ok (0, 104, 105, 0) := by decide +kernel
  obtain ⟨r, m, done, tree, count, result, mapped⟩ :=
    (mappages_refines sample_pageTree sample_reserve range (fun i _ => sample_pageMap _)
      fun i inside => by
      have few : i < 1 := inside
      rw [tables_empty sample_bare]
      obtain rfl : i = 0 := by omega
      exact ⟨by decide, by decide⟩).exists
  rw [done] at run
  obtain ⟨rfl, string⟩ := Prod.mk.inj (Except.ok.inj run)
  obtain rfl : count = 1 := by
    rcases result with ⟨-, all⟩ | ⟨failed, -⟩
    · exact all
    · exact absurd failed (by decide)
  have only : ∀ vpn pa flags, pageMap m 0x80200000 vpn = some (pa, flags) → vpn = 0 ∧
      pa = 0x80300000 := by
    intro vpn pa flags here
    rw [mapped, extendMap] at here
    split at here
    next inside =>
      obtain ⟨rfl, -⟩ := Prod.mk.inj (Option.some.inj here)
      have : vpn = 0 := by
        change 0 ≤ vpn ∧ vpn < 0 + 1 at inside
        omega
      subst this
      exact ⟨rfl, rfl⟩
    next =>
      rw [sample_pageMap] at here
      cases here
  refine ⟨m, ⟨tree, fun vpn vpn' pa flags flags' here there => ?_, fun vpn flags here => ?_⟩,
    mapped, string⟩
  · rw [(only _ _ _ here).1, (only _ _ _ there).1]
  · exact absurd (only _ _ _ here).2 (by decide)

/-- Two bytes at the end of the page are written; a third one would be in the next page. -/
theorem copy_permitted_onePage : ∃ m m' m'', UserTable m 0x80200000 ∧
    copyout 0x80200000 4094 [7, 8] m = .ok (0, m') ∧
    copyout 0x80200000 4094 [7, 8, 9] m = .ok (-1, m'') := by
  obtain ⟨m, table, mapped, -⟩ := oneUserPage
  obtain ⟨r, m', run, -, iff, -⟩ := (copy_permitted table).1 4094 [7, 8] (by decide)
  obtain ⟨r', m'', run', either', iff', -⟩ := (copy_permitted table).1 4094 [7, 8, 9] (by decide)
  have success : r = 0 := by
    rw [iff]
    rintro _ ⟨i, below, rfl⟩
    have page : (4094 + i) / pgSize = 0 :=
      Nat.div_eq_of_lt (by change i < 2 at below; unfold pgSize; omega)
    rw [page]
    refine ⟨by decide, 0x80300000, pteR ||| pteW ||| pteU ||| pteV, by rw [mapped]; rfl, by decide⟩
  have failure : r' = -1 := by
    refine either'.resolve_left fun zero => ?_
    obtain ⟨-, pa, flags, here, -⟩ := iff'.mp zero 1 ⟨2, by decide, by decide⟩
    rw [mapped, extendMap, if_neg (by decide), sample_pageMap] at here
    cases here
  exact ⟨m, m', m'', table, success ▸ run, failure ▸ run'⟩

/-! ## Strings, exactly -/

/-- A string of `k` bytes before its zero, within `max` bytes that can be read. -/
structure StringAt (m : Memory) (root srcva max k : Nat) : Prop where
  within : k < max
  null : userByte m root (srcva + k) = 0
  first : ∀ i < k, userByte m root (srcva + i) ≠ 0
  mapped : ∀ vpn, Overlaps srcva (k + 1) vpn → vpn * pgSize < maxVa ∧ Permits toRead m root vpn

theorem StringAt.unique {srcva max k k' : Nat} (here : StringAt m root srcva max k)
    (there : StringAt m root srcva max k') : k = k' := by
  rcases Nat.lt_trichotomy k k' with less | equal | greater
  · exact absurd here.null (there.first k less)
  · exact equal
  · exact absurd there.null (here.first k' greater)

theorem strlen_userBytes {srcva max k : Nat} (here : StringAt m root srcva max k) :
    strlen (userBytes m root srcva (k + 1)) = k := by
  have before : ∀ c ∈ userBytes m root srcva k, decide (c ≠ 0) = true := by
    intro c member
    obtain ⟨i, below, rfl⟩ := mem_map.mp member
    exact decide_eq_true (here.first i (mem_range.mp below))
  have last : userBytes m root (srcva + k) 1 = [0] := by
    change [userByte m root (srcva + k + 0)] = [0]
    rw [Nat.add_zero, here.null]
  rw [strlen, userBytes_add, last, takeWhile_append_of_pos before]
  simp [userBytes]

/-- `copyinstr` copies a string with its zero and nothing more, or there is none. -/
theorem copyinstr_exact (table : UserTable m root) (srcva max : Nat) (fits : max < 2 ^ 64) :
    ∃ got dst, copyinstr root srcva max m = .ok ((got, dst), m) ∧ dst.length ≤ max ∧
      (got = true ↔ ∃ k, StringAt m root srcva max k) ∧
      (∀ k, StringAt m root srcva max k → dst = userBytes m root srcva (k + 1)) ∧
      ∀ limit : Int, limit % 2 ^ 64 = max → ∀ k, StringAt m root srcva max k →
        fetchstr root srcva limit m = .ok ((k, dst), m) := by
  obtain ⟨⟨got, dst⟩, m₁, run, rfl, k, bound, nonzero, permitted, result⟩ :=
    (copyinstr_spec table srcva fits).exists
  rcases result with ⟨is, short, null, here⟩ | ⟨is, stop⟩
  · obtain ⟨rfl, rfl⟩ := Prod.mk.inj is
    have upTo : ∀ i < k + 1, Permits toRead m₁ root ((srcva + i) / pgSize) := by
      intro i below
      by_cases last : i = k
      · rwa [last]
      · exact permitted i (by omega)
    have string : StringAt m₁ root srcva max k :=
      ⟨short, null, nonzero, (permits_iff table.toSv39).mp upTo⟩
    refine ⟨true, _, run, ?_, ⟨fun _ => ⟨k, string⟩, fun _ => rfl⟩, fun k' string' => ?_, ?_⟩
    · rw [userBytes, length_map, length_range]
      exact short
    · rw [string'.unique string]
    · intro limit is k' string'
      unfold fetchstr
      rw [is, Int.toNat_natCast, Prog.bind_ok run, string'.unique string]
      simp only [if_true, strlen_userBytes string]
      rfl
  · obtain ⟨rfl, rfl⟩ := Prod.mk.inj is
    have noString : ∀ k', ¬ StringAt m₁ root srcva max k' := by
      intro k' string
      have readable := (permits_iff table.toSv39).mpr string.mapped
      rcases Nat.lt_or_ge k' k with less | more
      · exact nonzero k' less string.null
      · rcases stop with rfl | denied
        · exact absurd string.within (by omega)
        · exact denied (readable k (by omega))
    refine ⟨false, _, run, ?_,
      ⟨fun yes => absurd yes Bool.false_ne_true, fun ⟨k', string⟩ => absurd string (noString k')⟩,
      fun k' string => absurd string (noString k'), fun _ _ k' string =>
        absurd string (noString k')⟩
    rwa [userBytes, length_map, length_range]

/-- Two bytes and a zero at the start of the page. -/
theorem copyinstr_exact_onePage : ∃ m, UserTable m 0x80200000 ∧
    copyinstr 0x80200000 0 10 m = .ok ((true, [104, 105, 0]), m) ∧
    fetchstr 0x80200000 0 10 m = .ok ((2, [104, 105, 0]), m) := by
  obtain ⟨m, table, mapped, bytes⟩ := oneUserPage
  simp only [Prod.mk.injEq] at bytes
  obtain ⟨first, second, third⟩ : userByte m 0x80200000 0 = 104 ∧ userByte m 0x80200000 1 = 105 ∧
      userByte m 0x80200000 2 = 0 := by
    simp only [userByte, physical, mapped]
    exact bytes
  obtain ⟨got, dst, run, -, iff, copied, fetch⟩ := copyinstr_exact table 0 10 (by decide)
  have string : StringAt m 0x80200000 0 10 2 := by
    refine ⟨by decide, third, fun i below => ?_, ?_⟩
    · obtain rfl | rfl : i = 0 ∨ i = 1 := by omega
      · exact ne_of_eq_of_ne first (by decide)
      · exact ne_of_eq_of_ne second (by decide)
    · rintro _ ⟨i, below, rfl⟩
      have page : (0 + i) / pgSize = 0 := Nat.div_eq_of_lt (by unfold pgSize; omega)
      rw [page]
      exact ⟨by decide, 0x80300000, pteR ||| pteW ||| pteU ||| pteV, by rw [mapped]; rfl, by decide⟩
  obtain rfl : got = true := iff.mpr ⟨2, string⟩
  have isString : dst = [104, 105, 0] := by
    rw [copied 2 string]
    change [userByte m 0x80200000 0, userByte m 0x80200000 1, userByte m 0x80200000 2] = _
    rw [first, second, third]
  subst isString
  exact ⟨m, table, run, fetch 10 (by decide) 2 string⟩

end Xv6.Vm
