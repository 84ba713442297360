import Xv6.Library.Runs
import Xv6.Vm.Refinement

/-!
# The allocator at work

`kernel/kalloc.c` from `kinit` on. The kernel asks for pages, writes to those that it was
given and gives them back, in any order.
-/

namespace Xv6.Vm

/-- What the kernel asks for. `i` counts the pages in use. -/
inductive Request where
  | kalloc
  | kfree (i : Nat)
  | write (i offset : Nat) (value : UInt8)

/-- The memory and the pages in use. -/
def serve (layout : Layout) : Memory × List Nat → Request → Except Panic (Memory × List Nat)
  | (m, used), .kalloc => do
    let (page, m) ← kalloc m
    return (m, if page = 0 then used else page :: used)
  | (m, used), .kfree i =>
    match used[i]? with
    | some page => do
      let (_, m) ← kfree layout page m
      return (m, used.erase page)
    | none => return (m, used)
  | (m, used), .write i offset value =>
    match used[i]? with
    | some page =>
      return ({ m with bytes := Function.update m.bytes (page + offset % pgSize) value }, used)
    | none => return (m, used)

/-- Every page is in use or on the free list, and only once. -/
structure Shared (layout : Layout) (m : Memory) (used free : List Nat) : Prop where
  heap : Heap layout m free
  nodup : (used ++ free).Nodup
  all : ∀ page, page ∈ used ++ free ↔ Page layout page

variable {layout : Layout} {m : Memory} {used free : List Nat}

theorem Shared.page (shared : Shared layout m used free) {page : Nat} (isUsed : page ∈ used) :
    Page layout page ∧ page ∉ free :=
  ⟨(shared.all page).mp (List.mem_append_left _ isUsed), fun isFree =>
    (List.nodup_append.mp shared.nodup).2.2 page isUsed page isFree rfl⟩

theorem Shared.serve (shared : Shared layout m used free) (request : Request) :
    ∃ next, serve layout (m, used) request = .ok next ∧
    ∃ free', Shared layout next.1 next.2 free' := by
  cases request with
  | kalloc =>
    obtain ⟨r, m', run, ⟨rfl, rfl, rfl⟩ | ⟨nonzero, rest, rfl, heap, -⟩⟩ :=
      (kalloc_spec shared.heap).exists
    · exact ⟨(m', used), by simp only [Vm.serve, run]; rfl, [], shared⟩
    · have perm : (r :: used ++ rest).Perm (used ++ r :: rest) := List.perm_middle.symm
      refine ⟨(m', r :: used), ?_, rest, heap, perm.nodup_iff.mpr shared.nodup, fun page => ?_⟩
      · simp only [Vm.serve, run]
        exact congrArg (fun used => Except.ok (m', used)) (if_neg nonzero)
      · exact perm.mem_iff.trans (shared.all page)
  | kfree i =>
    cases at' : used[i]? with
    | none => exact ⟨(m, used), by simp only [Vm.serve, at']; rfl, free, shared⟩
    | some page =>
      have isUsed := List.mem_of_getElem? at'
      obtain ⟨isPage, notFree⟩ := shared.page isUsed
      obtain ⟨_, m', run, heap, -⟩ := (kfree_spec shared.heap isPage notFree).exists
      have perm : (used.erase page ++ page :: free).Perm (used ++ free) :=
        List.perm_middle.trans ((List.perm_cons_erase isUsed).symm.append_right free)
      exact ⟨(m', used.erase page), by simp only [Vm.serve, at', run]; rfl, page :: free, heap,
        perm.nodup_iff.mpr shared.nodup, fun other => perm.mem_iff.trans (shared.all other)⟩
  | write i offset value =>
    cases at' : used[i]? with
    | none => exact ⟨(m, used), by simp only [Vm.serve, at']; rfl, free, shared⟩
    | some page =>
      obtain ⟨isPage, notFree⟩ := shared.page (List.mem_of_getElem? at')
      have inside : offset % pgSize < pgSize := Nat.mod_lt _ (by decide)
      have unchanged : Unchanged {page} m
          { m with bytes := Function.update m.bytes (page + offset % pgSize) value } := by
        refine fun a outside => Function.update_of_ne (fun is => outside ?_) _ _
        exact pgRoundDown_inside isPage.aligned (by omega) (by omega)
      refine ⟨(_, used), by simp only [Vm.serve, at']; rfl, free, ?_, shared.nodup, shared.all⟩
      exact shared.heap.frame unchanged rfl fun other isFree is => notFree (is ▸ isFree)

/-- From `kinit` on, whatever the kernel asks for, no page is given out twice, none is
lost, nothing panics, and `kfree_memsize` counts what is left. -/
theorem allocator_exact (empty : m.freelist = 0) (requests : List Request) :
    ∃ m₁ m' used free, kinit layout m = .ok ((), m₁) ∧
    requests.foldlM (serve layout) (m₁, []) = .ok (m', used) ∧
      (used ++ free).Nodup ∧ (∀ page, page ∈ used ++ free ↔ Page layout page) ∧
      kfreeMemsize m' = .ok (pgSize * free.length, m') ∧ ∃ r m'', kalloc m' = .ok (r, m'') ∧
      (r = 0 ↔ free = []) := by
  have spec : Prog.Returns (kinit layout) m _ := kinit_spec empty
  obtain ⟨_, m₁, boot, free₁, heap, all⟩ := spec.exists
  have runs : ∃ final, requests.foldlM (Vm.serve layout) (m₁, []) = .ok final ∧
      ∃ free, Shared layout final.1 final.2 free :=
    Except.foldlM_keeps (by rintro _ ⟨free, shared⟩ request -; exact shared.serve request)
      ⟨free₁, heap, heap.nodup, all⟩
  obtain ⟨⟨m', used⟩, run, free, shared⟩ := runs
  obtain ⟨_, _, count, rfl, back⟩ := (kfreeMemsize_spec shared.heap).exists
  rw [back] at count
  obtain ⟨r, m'', gives, result⟩ := (kalloc_spec shared.heap).exists
  refine ⟨m₁, m', used, free, boot, run, shared.nodup, shared.all, count, r, m'', gives, ?_⟩
  rcases result with ⟨rfl, rfl, -⟩ | ⟨nonzero, rest, rfl, -⟩
  · exact iff_of_true rfl rfl
  · exact iff_of_false nonzero (List.cons_ne_nil _ _)

/-- A kernel that leaves two pages. -/
def twoPages : Layout where
  kernelEnd := physTop - 2 * pgSize
  trampoline := kernBase
  aboveBase := by decide
  belowTop := by decide
  trampolineAligned := by decide
  trampolineInside := by decide

/-- Both pages are given out, the third call gets none, and one page is freed again. -/
theorem allocator_exact_two : ∃ m₁ m', kinit twoPages ⟨0, 0⟩ = .ok ((), m₁) ∧
    [.kalloc, .kalloc, .kalloc, .write 0 8 1, .kfree 0].foldlM (serve twoPages) (m₁, []) =
      .ok (m', [0x87FFF000]) ∧
    kfreeMemsize m' = .ok (pgSize, m') := by
  have seen : ((kinit twoPages ⟨0, 0⟩).toOption.bind fun boot =>
      ([.kalloc, .kalloc, .kalloc, .write 0 8 1, .kfree 0].foldlM (serve twoPages)
        (boot.2, [])).toOption.bind
        fun final => (kfreeMemsize final.1).toOption.map fun count => (final.2, count.1)) =
      some ([0x87FFF000], pgSize) := by decide +kernel
  obtain ⟨m₁, m', used, free, boot, run, -, -, count, -⟩ :=
    allocator_exact (m := ⟨0, 0⟩) rfl [.kalloc, .kalloc, .kalloc, .write 0 8 1, .kfree 0]
  rw [boot] at seen
  change (Except.toOption (List.foldlM (serve twoPages) (m₁, []) _)).bind _ = _ at seen
  rw [run] at seen
  change (kfreeMemsize m').toOption.map _ = _ at seen
  rw [count] at seen
  obtain ⟨rfl, one⟩ := Prod.mk.inj (Option.some.inj seen)
  exact ⟨m₁, m', boot, run, one ▸ count⟩

end Xv6.Vm
