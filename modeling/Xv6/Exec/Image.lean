import Xv6.Exec.Program
import Xv6.Vm.Growproc

/-!
# The new image

The address space that `exec` builds: the segments of the file, and the stack with its
guard page. Every page of it is taken from the free list.
-/

namespace Xv6.Exec

open Vm
open Prog (Ensures Returns)

variable {layout : Layout} {m m' : Memory} {free free' image : List Nat} {root trapframe sz : Nat}

/-! ## Segments -/

theorem writeBytes_unchanged {pa : Nat} (aligned : pa % pgSize = 0) {bytes : List UInt8}
    (fits : bytes.length ≤ pgSize) :
    Returns (writeBytes pa bytes) m fun _ m' => Unchanged {pa} m m' ∧ m'.freelist = m.freelist := by
  refine .of_eq rfl ⟨fun a outside => if_neg ?_, rfl⟩
  rintro ⟨low, high⟩
  exact outside (pgRoundDown_inside aligned low (by omega))

/-- A segment is loaded as far as the file goes. -/
theorem loadseg_spec {va offset n : Nat} {ip : File}
    (proc : ProcSpace layout m root trapframe free image sz)
    (user : ∀ pte ∈ image, pte &&& pteU ≠ 0) (aligned : va % pgSize = 0) (inside : va + n ≤ sz) :
    Returns (loadseg root va ip offset n) m fun _ m' =>
      ProcSpace layout m' root trapframe free image sz ∧
      Moves layout m m' free free (footprint m root image) (footprint m' root image) := by
  have length := proc.space.length_le proc.held
  have top : sz ≤ physTop := by
    have := proc.size.1
    have : image.length * pgSize ≤ physTop / pgSize * pgSize := Nat.mul_le_mul_right _ length
    have : physTop / pgSize * pgSize ≤ physTop := Nat.div_mul_le_self _ _
    omega
  refine .loop
    (fun i m₁ => i % pgSize = 0 ∧ i < n + pgSize ∧
      ProcSpace layout m₁ root trapframe free image sz ∧
    Moves layout m m₁ free free (footprint m root image) (footprint m₁ root image))
      (fun i => n + pgSize - i) ?_ ?_ ?_
  · rintro i m₁ ⟨page, bound, proc₁, moves₁⟩
    refine .ite (fun more => ?_) fun _ => .pure ⟨proc₁, moves₁⟩
    have small : va + i < sz := by omega
    have bound64 : sz < 2 ^ 64 := lt_of_le_of_lt top (by decide)
    rw [u64, Nat.mod_eq_of_lt (small.trans bound64)]
    refine .seq (walkaddr_spec proc₁.space.tree _) ?_
    rintro pa _ ⟨rfl, is⟩
    obtain ⟨pte, here, found⟩ := proc₁.entry small
    rw [if_pos (small.trans (lt_of_le_of_lt top (by decide))), found] at is
    simp only [if_pos (user pte (List.mem_of_getElem? here))] at is
    subst is
    have isFrame : pte2pa pte ∈ frames image := ⟨pte, List.mem_of_getElem? here, rfl⟩
    rw [if_neg (proc₁.held.pages _ (.inr isFrame)).pos.ne']
    have piece : (if n - i < pgSize then n - i else pgSize) ≤ pgSize := by split <;> omega
    refine .seq (writeBytes_unchanged (pte2pa_aligned pte) ((ip.bounded _ _).trans piece)) ?_
    rintro _ m₂ ⟨unchanged, freelist⟩
    obtain ⟨proc₂, moves₂⟩ := proc₁.write (Set.singleton_subset_iff.mpr isFrame) unchanged freelist
    refine .ite (fun _ => .pure ⟨proc₂, moves₁.trans moves₂⟩) fun _ => .pure ?_
    have next : u32 (i + pgSize) = i + pgSize := by
      unfold u32 physTop kernBase pgSize at *
      omega
    simp only [next]
    have positive : 0 < pgSize := by decide
    refine ⟨⟨?_, ?_, proc₂, moves₁.trans moves₂⟩, ?_⟩
    · rw [Nat.add_mod_right, page]
    · omega
    · omega
  · unfold maxIterations physTop kernBase pgSize at *
    omega
  · exact ⟨rfl, Nat.lt_add_left _ (by decide), proc, .refl proc.held⟩

/-- The reasons to give up once the stack is there. -/
def Bad.onStack : Bad → Bool
  | .tooManyArgs => true
  | .stackRoom => true
  | .copyout => true
  | _ => false

structure Accessible (layout : Layout) (m : Memory) (root trapframe : Nat) (free image : List Nat)
    (sz : Nat) : Prop
    extends ProcSpace layout m root trapframe free image sz where
  user : ∀ pte ∈ image, pte &&& pteU ≠ 0

/-- From `m` to `m'` the image changed and has `result.1` bytes now. -/
def Loaded (layout : Layout) (root trapframe : Nat) (free image : List Nat) (m : Memory)
    (result : Nat × Option Bad) (m' : Memory) : Prop :=
  (∀ reason, result.2 = some reason → reason.onStack = false) ∧ ∃ free' image',
    Accessible layout m' root trapframe free' image' result.1 ∧
      Moves layout m m' free free' (footprint m root image) (footprint m' root image')

theorem Loaded.refl (here : Accessible layout m root trapframe free image sz) {bad : Option Bad}
    (reasons : ∀ reason, bad = some reason → reason.onStack = false) :
    Loaded layout root trapframe free image m (sz, bad) m :=
  ⟨reasons, free, image, here, .refl here.held⟩

theorem flags2perm_lt (flags : Nat) : flags2perm flags < 1024 := by
  have execute : (if flags &&& 1 ≠ 0 then pteX else 0) < 2 ^ 10 := by split <;> decide
  change (if flags &&& 2 ≠ 0 then (if flags &&& 1 ≠ 0 then pteX else 0) ||| pteW
    else if flags &&& 1 ≠ 0 then pteX else 0) < 2 ^ 10
  split
  · exact Nat.or_lt_two_pow execute (by decide)
  · exact execute

theorem user_of_flags {pte perm : Nat} (flags : pteFlags pte = pteR ||| pteU ||| perm ||| pteV) :
    pte &&& pteU ≠ 0 := by
  rw [← flags_and _ (by decide), flags, Nat.or_assoc, Nat.or_assoc, Nat.or_left_comm]
  intro none
  rw [Nat.and_or_distrib_right, Nat.or_eq_zero_iff] at none
  exact absurd none.1 (by decide)

theorem field_lt (header : List UInt8) (off : Nat) : field header off 8 < 2 ^ 64 :=
  lt_of_lt_of_le (ByteSpace.load_lt _ off 8) (by norm_num)

theorem loadSegment_spec {ip : File} {off : Nat}
    (here : Accessible layout m root trapframe free image sz) :
    Returns (loadSegment layout root ip off sz) m (Loaded layout root trapframe free image m) := by
  have stop : ∀ {reason : Bad}, reason.onStack = false →
      Loaded layout root trapframe free image m (sz, some reason) m := by
    intro reason notStack
    refine .refl here fun other is => ?_
    obtain rfl := Option.some.inj is
    exact notStack
  refine .ite (fun _ => .pure (stop rfl)) fun _ =>
    .ite (fun _ => .pure (.refl here fun _ none => nomatch none))
    fun _ => .ite (fun _ => .pure (stop rfl)) fun enough =>
      .ite (fun _ => .pure (stop rfl)) fun noOverflow =>
    .ite (fun _ => .pure (stop rfl)) fun aligned => ?_
  obtain ⟨ph, is⟩ : ∃ ph, Proghdr.ofBytes (ip.read (u32 off) proghdrSize) = ph := ⟨_, rfl⟩
  simp only [is] at enough noOverflow aligned ⊢
  have vaddr : ph.vaddr < 2 ^ 64 := by
    rw [← is]
    exact field_lt _ 16
  have memsz : ph.memsz < 2 ^ 64 := by
    rw [← is]
    exact field_lt _ 40
  have noWrap : u64 (ph.vaddr + ph.memsz) = ph.vaddr + ph.memsz := by
    unfold u64 at *
    omega
  have fits : ph.vaddr + ph.memsz < 2 ^ 64 := by
    rw [← noWrap]
    exact Nat.mod_lt _ (by decide)
  rw [noWrap]
  refine .seq (here.grow fits (flags2perm_lt ph.flags)) ?_
  rintro sz₁ m₁ ⟨free₁, new, moves₁, flags, result⟩
  have user : ∀ pte ∈ image ++ new, pte &&& pteU ≠ 0 := by
    intro pte member
    rcases List.mem_append.mp member with old | added
    · exact here.user pte old
    · exact user_of_flags (flags pte added)
  refine .ite (fun zero => .pure ⟨fun reason is => ?_, ?_⟩) fun nonzero => ?_
  · obtain rfl := Option.some.inj is
    rfl
  · rcases result with ⟨-, rfl, proc₁⟩ | ⟨most, proc₁⟩
    · rw [List.append_nil] at moves₁ user
      exact ⟨free₁, image, ⟨proc₁, user⟩, moves₁⟩
    · obtain rfl : sz = sz₁ := by omega
      exact ⟨free₁, _, ⟨proc₁, user⟩, moves₁⟩
  · rcases result with ⟨rfl, -, -⟩ | ⟨most, proc₁⟩
    · exact absurd rfl nonzero
    have inside : ph.vaddr + u32 ph.filesz ≤ sz₁ := by
      have : u32 ph.filesz ≤ ph.filesz := Nat.mod_le _ _
      omega
    refine .seq (loadseg_spec proc₁ user (not_not.mp aligned) inside) ?_
    rintro r m₂ ⟨proc₂, moves₂⟩
    refine .ite (fun _ => .pure ⟨fun reason is => ?_, free₁, _, ⟨proc₂, user⟩, moves₁.trans moves₂⟩)
      fun _ => .pure ⟨fun reason is => (nomatch is), free₁, _, ⟨proc₂, user⟩, moves₁.trans moves₂⟩
    obtain rfl := Option.some.inj is
    rfl

theorem loadSegments_spec {ip : File} (count off : Nat)
    (here : Accessible layout m root trapframe free image sz) :
    Returns (loadSegments layout root ip count off sz) m
      (Loaded layout root trapframe free image m) := by
  induction count generalizing m off sz free image with
  | zero => exact .pure (.refl here fun _ none => nomatch none)
  | succ count ih =>
    refine .seq (loadSegment_spec here) ?_
    rintro ⟨sz₁, bad⟩ m₁ ⟨reasons, free₁, image₁, here₁, moves₁⟩
    cases bad with
    | some reason => exact .pure ⟨reasons, free₁, image₁, here₁, moves₁⟩
    | none =>
      refine (ih _ here₁).mono ?_
      rintro result m₂ ⟨reasons₂, free₂, image₂, here₂, moves₂⟩
      exact ⟨reasons₂, free₂, image₂, here₂, moves₁.trans moves₂⟩

/-! ## The stack -/

def guardEntry (pte : Nat) : Nat := pte &&& (2 ^ 64 - 1 - pteU)

theorem guardEntry_page {pte : Nat} (word : pte < 2 ^ 64) :
    pte2pa (guardEntry pte) = pte2pa pte := by
  have high : guardEntry pte >>> 10 = pte >>> 10 := by
    have mask : (2 ^ 64 - 1 - pteU) >>> 10 = 2 ^ 54 - 1 := by decide
    rw [guardEntry, Nat.shiftRight_and_distrib, mask, Nat.and_two_pow_sub_one_eq_mod,
      Nat.mod_eq_of_lt]
    rw [Nat.shiftRight_eq_div_pow]
    omega
  rw [pte2pa, high, pte2pa]

theorem guardEntry_flag (pte : Nat) {flag : Nat} (other : (2 ^ 64 - 1 - pteU) &&& flag = flag) :
    guardEntry pte &&& flag = pte &&& flag := by
  rw [guardEntry, Nat.and_assoc, other]

section

variable (proc : ProcSpace layout m root trapframe free image sz)

include proc

theorem below_trapframe {vpn pte : Nat} (here : image[vpn]? = some pte) :
    vpn * pgSize < trapframeVa :=
  (proc.inside.mp (List.getElem?_eq_some_iff.mp here).1).trans
    ((Nat.lt_add_of_pos_right (by decide)).trans proc.small)

theorem storeGuard {vpn pte table : Nat} (here : image[vpn]? = some pte) (word : pte < 2 ^ 64)
    (at' : lastTable m root (vpn * pgSize) = some table) :
    ProcSpace layout (storeLeaf m table (vpn * pgSize) (guardEntry pte)) root trapframe free
        (image.set vpn (guardEntry pte)) sz ∧
      Moves layout m (storeLeaf m table (vpn * pgSize) (guardEntry pte)) free free
        (footprint m root image)
        (footprint (storeLeaf m table (vpn * pgSize) (guardEntry pte)) root
          (image.set vpn (guardEntry pte))) := by
  have tree := proc.space.tree
  have inside : vpn < image.length := (List.getElem?_eq_some_iff.mp here).1
  have small := below_trapframe proc here
  have below : vpn * pgSize < 2 * maxVa := small.trans (by decide)
  have unchanged := storeLeaf_unchanged tree at' (guardEntry pte)
  have same := storeLeaf_other tree at' (guardEntry pte)
  have entry : entryOf (storeLeaf m table (vpn * pgSize) (guardEntry pte)) table
    (index 0 (vpn * pgSize)) =
      guardEntry pte := storeLeaf_entry (Nat.and_lt_two_pow _ (by decide))
  have freelist : (storeLeaf m table (vpn * pgSize) (guardEntry pte)).freelist = m.freelist := rfl
  generalize storeLeaf m table (vpn * pgSize) (guardEntry pte) = m₁ at *
  have found : lookup m root (vpn * pgSize) = some pte := by
    rw [proc.mapped small, here]
  have valid : guardEntry pte &&& pteV ≠ 0 := by
    rw [guardEntry_flag pte (by decide)]
    exact lookup_valid found
  have pages : (image.set vpn (guardEntry pte)).map pte2pa = image.map pte2pa := by
    rw [List.map_set, guardEntry_page word]
    apply List.ext_getElem?
    intro j
    by_cases self : vpn = j
    · rw [← self, List.getElem?_set_self (by rwa [List.length_map]), List.getElem?_map, here,
        Option.map_some]
    · rw [List.getElem?_set_ne self]
  have tables := tables_leaf tree at' same
  have isFrame : ∀ x, x ∈ frames (image.set vpn (guardEntry pte)) ↔ x ∈ frames image := by
    intro x
    rw [frames_iff_map, pages, frames_iff_map]
  have sameFootprint : footprint m₁ root (image.set vpn (guardEntry pte)) =
      footprint m root image := by
    ext x
    rw [footprint, tables, Set.mem_union, isFrame, footprint, Set.mem_union]
  have moves : Moves layout m m₁ free free (footprint m root image)
      (footprint m₁ root (image.set vpn (guardEntry pte))) := by
    rw [sameFootprint]
    refine .write proc.held unchanged freelist ?_
    rintro _ rfl
    exact .inl (Sv39.lastTable_mem at')
  refine ⟨proc.moved
    ⟨Sv39.leaf tree at' same, fun v bound => ?_, ?_, ?_, ?_, proc.space.above,
    proc.space.supervisor⟩
    moves ?_, moves⟩
  · rw [lookup_leaf tree at' entry same below bound, Nat.mul_div_cancel _ (by decide),
      Nat.mul_div_cancel _ (by decide),
      if_pos valid, proc.space.map v bound]
    by_cases self : v = vpn
    · rw [if_pos self, self, List.getElem?_set_self inside]
      rfl
    · rw [if_neg self, List.getElem?_set_ne (Ne.symm self)]
  · rw [pages]
    exact proc.space.nodup
  · intro x member
    rw [tables]
    exact proc.space.apart x ((isFrame x).mp member)
  · intro e member
    rcases List.mem_or_eq_of_mem_set member with old | rfl
    · exact proc.space.leaves e old
    · rw [guardEntry_flag pte (by decide)]
      exact proc.space.leaves pte (List.mem_of_getElem? here)
  · rw [List.length_set]
    exact proc.size

theorem uvmclear_spec {vpn pte : Nat} (here : image[vpn]? = some pte) :
    Returns (uvmclear root (vpn * pgSize)) m fun _ m' =>
      ProcSpace layout m' root trapframe free (image.set vpn (guardEntry pte)) sz ∧
        Moves layout m m' free free (footprint m root image)
          (footprint m' root (image.set vpn (guardEntry pte))) := by
  have small := below_trapframe proc here
  have found : lookup m root (vpn * pgSize) = some pte := by
    rw [proc.mapped small, here]
  refine .seq (walk_spec (small.trans (by decide)) proc.space.tree) ?_
  rintro r m₁ ⟨rfl, ⟨rfl, absent⟩ | ⟨nonzero, table, at', rfl⟩⟩
  · simp [lookup, absent] at found
  rw [if_neg nonzero]
  refine .bind (load64_rule (store64_rule ?_))
  -- the entry that was found is the one of the image
  rw [lookup_walked at'] at found
  split at found
  swap
  · cases found
  have entry : m₁.bytes.load (table + 8 * px 0 (vpn * pgSize)) 8 = pte := Option.some.inj found
  have word : pte < 2 ^ 64 := by
    rw [← entry]
    exact lt_of_lt_of_le (ByteSpace.load_lt _ _ 8) (by norm_num)
  rw [entry]
  exact storeGuard proc here word at'

theorem rounded :
    ProcSpace layout m root trapframe free image (pgRoundUp sz) := by
  refine ⟨proc.space, proc.held, ?_, proc.isPage, proc.apart⟩
  rw [proc.bytes]
  exact ⟨le_rfl, Nat.lt_add_of_pos_right (by decide)⟩

theorem permits_of_entry {va pte : Nat} (here : image[va / pgSize]? = some pte)
    (flags : pteFlags pte = pteR ||| pteU ||| pteW ||| pteV) :
    Permits toWrite m root (va / pgSize) := by
  have small := below_trapframe proc here
  refine ⟨pte2pa pte, pteFlags pte, ?_, ?_⟩
  · rw [pageMap_eq proc.space.tree, if_pos (small.trans (by decide)), proc.mapped small, here]
    rfl
  · rw [flags]
    decide

end

/-- The stack is there and a page below it, or there is no memory for them. -/
theorem makeStack_spec (proc : ProcSpace layout m root trapframe free image (pgRoundUp sz)) :
    Returns (makeStack layout root (pgRoundUp sz)) m fun r m' => ∃ free' image',
      Moves layout m m' free free' (footprint m root image) (footprint m' root image') ∧
        ((r = 0 ∧ ProcSpace layout m' root trapframe free' image' (pgRoundUp sz)) ∨
          (r = pgRoundUp sz + (userStack + 1) * pgSize ∧
            ProcSpace layout m' root trapframe free' image' r ∧
            ∀ va, pgRoundUp sz + pgSize ≤ va → va < r →
            Permits toWrite m' root (va / pgSize))) := by
  have small := proc.small
  have noWrap : u64 (pgRoundUp sz + (userStack + 1) * pgSize) =
      pgRoundUp sz + (userStack + 1) * pgSize := by
    refine Nat.mod_eq_of_lt ?_
    unfold trapframeVa trampolineVa maxVa userStack pgSize at *
    omega
  have fits : pgRoundUp sz + (userStack + 1) * pgSize < 2 ^ 64 := by
    rw [← noWrap]
    exact Nat.mod_lt _ (by decide)
  unfold makeStack
  rw [noWrap]
  refine .seq (proc.grow fits (by decide)) ?_
  rintro r m₁ ⟨free₁, new, moves₁, flags, ⟨rfl, rfl, proc₁⟩ | ⟨most, proc₁⟩⟩
  · rw [if_pos rfl]
    rw [List.append_nil] at moves₁
    exact .pure ⟨free₁, image, moves₁, .inl ⟨rfl, proc₁⟩⟩
  · obtain rfl : r = pgRoundUp sz + (userStack + 1) * pgSize := by omega
    have positive : 0 < (userStack + 1) * pgSize := by decide
    have base : image.length * pgSize = pgRoundUp sz := by
      rw [proc.bytes, ← pageCount_mul sz, ← pageCount_mul, pageCount_pages]
      rw [Nat.succ_mul, pageCount_mul]
      exact (small.trans (by decide)).le
    have back : sub64 (pgRoundUp sz + (userStack + 1) * pgSize) ((userStack + 1) * pgSize) =
        image.length * pgSize := by
      rw [base, sub64, u64]
      omega
    rw [if_neg (by omega), back]
    have guarded : image.length < (image ++ new).length := by
      rw [proc₁.inside, base]
      omega
    have here := List.getElem?_eq_getElem guarded
    refine .seq (uvmclear_spec proc₁ here) ?_
    rintro _ m₂ ⟨proc₂, moves₂⟩
    refine .pure ⟨free₁, _, moves₁.trans moves₂, .inr ⟨rfl, proc₂, fun va above below => ?_⟩⟩
    obtain ⟨pte, entry, -⟩ := proc₂.entry below
    have beyond : image.length < va / pgSize := by
      rw [Nat.lt_iff_add_one_le, Nat.le_div_iff_mul_le (by decide), Nat.succ_mul, base]
      exact above
    refine permits_of_entry proc₂ entry (flags pte ?_)
    rw [List.getElem?_set_ne beyond.ne, List.getElem?_append_right beyond.le] at entry
    exact List.mem_of_getElem? entry

end Xv6.Exec
