import Xv6.Exec.Image

/-!
# Arguments on the stack

`exec` copies the strings one below the other to the new stack, each at a multiple of
16, and the array of pointers below them. What they take is known beforehand; the
arguments are refused if it is more than the stack has.
-/

namespace Xv6.Exec

open List
open Vm
open Prog (Ensures Returns)

variable {layout : Layout} {m m' : Memory} {free image : List Nat} {root trapframe sz va : Nat}

/-! ## Copies to the image -/

variable {src : List UInt8}

theorem userBytes_stored (table : UserTable m root) (stored : Stored root va src src.length m m')
    (permitted : ∀ i < src.length, Permits toWrite m root ((va + i) / pgSize)) :
    userBytes m' root va src.length = src := by
  apply ext_getElem
  · rw [userBytes, length_map, length_range]
  · intro i below below'
    simp only [userBytes, getElem_map, getElem_range]
    rw [stored.userByte table permitted below', getD_eq_getElem]

theorem copyout_image (proc : ProcSpace layout m root trapframe free image sz)
    (below : va + src.length ≤ sz)
    (permitted : ∀ i < src.length, Permits toWrite m root ((va + i) / pgSize)) :
    Returns (copyout root va src) m fun r m' => r = 0 ∧ Stored root va src src.length m m' ∧
      ProcSpace layout m' root trapframe free image sz ∧
      Moves layout m m' free free (footprint m root image) (footprint m' root image) := by
  have table := proc.userTable
  have small := proc.small
  have word : trapframeVa < 2 ^ 64 := by decide
  refine (copyout_spec table va (by omega)).mono ?_
  rintro r m' ⟨k, bound, stored, -, ⟨rfl, rfl⟩ | ⟨-, short, denied⟩⟩
  swap
  · exact absurd (permitted k short) denied
  have unchanged : Unchanged (frames image) m m' := by
    intro a outside
    apply stored.outside
    rintro i inside here
    obtain ⟨pte, member, there⟩ := proc.physical (show va + i < sz by omega)
    obtain rfl := Option.some.inj (here.symm.trans there)
    rw [pgRoundDown_inside (pte2pa_aligned pte) (Nat.le_add_right _ _)
      (Nat.add_lt_add_left (Nat.mod_lt _ (by decide)) _)] at outside
    exact outside ⟨pte, member, rfl⟩
  obtain ⟨proc', moves⟩ := proc.write subset_rfl unchanged stored.freelist
  exact ⟨rfl, stored, proc', moves⟩

/-! ## The layout -/

def align16 (n : Nat) : Nat := (n + 15) / 16 * 16

def stringsSize (args : List (List UInt8)) : Nat :=
  (args.map fun arg => align16 (arg.length + 1)).sum

def stackNeeded (args : List (List UInt8)) : Nat :=
  stringsSize args + align16 ((args.length + 1) * 8)

theorem stringsSize_snoc (args : List (List UInt8)) (arg : List UInt8) :
    stringsSize (args ++ [arg]) = stringsSize args + align16 (arg.length + 1) := by
  simp [stringsSize]

theorem stringsSize_append (args more : List (List UInt8)) :
    stringsSize (args ++ more) = stringsSize args + stringsSize more := by
  simp [stringsSize]

variable {args : List (List UInt8)} {arg : List UInt8}

theorem stringsSize_take_succ {i : Nat} (here : args[i]? = some arg) :
    stringsSize (args.take (i + 1)) = stringsSize (args.take i) + align16 (arg.length + 1) := by
  rw [take_add_one, here, Option.toList_some, stringsSize_snoc]

theorem stringsSize_mod (args : List (List UInt8)) : stringsSize args % 16 = 0 := by
  induction args with
  | nil => rfl
  | cons arg args ih =>
    have : stringsSize (arg :: args) = align16 (arg.length + 1) + stringsSize args := by
      simp [stringsSize]
    rw [this, Nat.add_mod, ih, align16, Nat.mul_mod_left]

/-- The strings before one more end above it. -/
theorem stringsSize_take (args : List (List UInt8)) {i j : Nat} (le : i ≤ j) :
    stringsSize (args.take i) ≤ stringsSize (args.take j) := by
  rw [← Nat.add_sub_cancel' le, take_add, stringsSize_append]
  exact Nat.le_add_right _ _

theorem stringsSize_take_le (args : List (List UInt8)) (i : Nat) :
    stringsSize (args.take i) ≤ stringsSize args := by
  conv_rhs => rw [← take_append_drop i args]
  rw [stringsSize_append]
  exact Nat.le_add_right _ _

theorem le_align16 (n : Nat) : n ≤ align16 n := by
  unfold align16
  omega

theorem aligned_sub {sp n : Nat} (aligned : sp % 16 = 0) (enough : n ≤ sp) :
    sp - n - (sp - n) % 16 = sp - align16 n ∧ align16 n ≤ sp := by
  unfold align16
  omega

variable {s : State}

theorem decrease_spec {sp n : Nat} (enough : n ≤ sp) (word : sp < 2 ^ 64) :
    decrease sp n s = .ok (sp - n, s) := by
  have same : { s with wrapped := s.wrapped || decide (sp < n) } = s := by
    rw [decide_eq_false (not_lt.mpr enough), Bool.or_false]
  have value : sub64 sp n = sp - n := by
    rw [sub64, u64]
    omega
  change Except.ok (sub64 sp n, { s with wrapped := s.wrapped || decide (sp < n) }) = _
  rw [same, value]

/-- The strings are on the stack below `top`, `ustack` points to them. -/
structure Pushed (m : Memory) (root top : Nat) (args : List (List UInt8)) (ustack : List Nat) :
    Prop where
  length : ustack.length = args.length
  pointer : ∀ (i : Nat) p, ustack[i]? = some p → p = top - stringsSize (args.take (i + 1))
  string : ∀ (i : Nat) p arg, ustack[i]? = some p → args[i]? = some arg →
    userBytes m root p (arg.length + 1) = arg ++ [0]

/-- The new image with its stack, which ends at the size. -/
structure Stack (layout : Layout) (m : Memory) (root trapframe : Nat) (free image : List Nat)
    (top : Nat) : Prop
    extends ProcSpace layout m root trapframe free image top where
  aligned : top % 16 = 0
  room : (userStack + 1) * pgSize ≤ top
  writable : ∀ va, top - userStack * pgSize ≤ va → va < top → Permits toWrite m root (va / pgSize)

variable {top : Nat}

theorem Stack.word (stack : Stack layout m root trapframe free image top) : top < 2 ^ 64 :=
  (Nat.lt_add_of_pos_right (by decide)).trans (stack.small.trans (by decide))

theorem copyout_stack (stack : Stack layout s.memory root trapframe free image top)
    (low : top - userStack * pgSize ≤ va) (high : va + src.length ≤ top) :
    Returns (vm (copyout root va src)) s fun r s' => r = 0 ∧ ∃ m', s' = { s with memory := m' } ∧
      Stack layout m' root trapframe free image top ∧
      Moves layout s.memory m' free free (footprint s.memory root image) (footprint m' root image) ∧
      userBytes m' root va src.length = src ∧
      ∀ va', va' < va ∨ va + src.length ≤ va' →
      userByte m' root va' = userByte s.memory root va' := by
  have permitted : ∀ i < src.length, Permits toWrite s.memory root ((va + i) / pgSize) :=
    fun i below =>
    stack.writable (va + i) (by omega) (by omega)
  refine .onPart ((copyout_image stack.toProcSpace high permitted).mono ?_)
  rintro r m' ⟨rfl, stored, proc, moves⟩
  have table := stack.userTable
  refine ⟨rfl, m', rfl, ⟨proc, stack.aligned, stack.room, fun va' above below => ?_⟩, moves,
    userBytes_stored table stored permitted, fun va' outside =>
      stored.userByte_outside table fun i below => by omega⟩
  obtain ⟨pa, flags, mapped, granted⟩ := stack.writable va' above below
  exact ⟨pa, flags, (stored.pageMap table _).trans mapped, granted⟩

theorem strlen_terminated (nulFree : 0 ∉ arg) : strlen (arg ++ [0]) = arg.length := by
  unfold strlen
  rw [takeWhile_append_of_pos]
  · simp
  · intro c member
    rw [decide_eq_true_iff]
    rintro rfl
    exact nulFree member

variable {ustack : List Nat}

theorem Pushed.push {top sp : Nat} (pushed : Pushed m root top args ustack)
    (is : sp = top - stringsSize (args ++ [arg])) (fits : stringsSize (args ++ [arg]) ≤ top)
    (string : userBytes m' root sp (arg.length + 1) = arg ++ [0])
    (above : ∀ va, sp + (arg.length + 1) ≤ va → userByte m' root va = userByte m root va) :
    Pushed m' root top (args ++ [arg]) (ustack ++ [sp]) := by
  have length := pushed.length
  have room := le_align16 (arg.length + 1)
  rw [stringsSize_snoc] at is fits
  refine ⟨by simp [length], fun i p here => ?_, fun i p other here there => ?_⟩
  · by_cases old : i < ustack.length
    · rw [getElem?_append_left old] at here
      rw [pushed.pointer i p here, take_append_of_le_length (by omega)]
    · rw [getElem?_append_right (by omega)] at here
      rw [mem_singleton.mp (mem_of_getElem? here), is, take_of_length_le (by simp; omega),
        stringsSize_snoc]
  · by_cases old : i < ustack.length
    · rw [getElem?_append_left old] at here
      rw [getElem?_append_left (by omega)] at there
      rw [← pushed.string i p other here there]
      refine map_congr_left fun j _ => above _ ?_
      have := pushed.pointer i p here
      have := stringsSize_take_le args (i + 1)
      omega
    · rw [getElem?_append_right (by omega)] at here there
      obtain rfl := mem_singleton.mp (mem_of_getElem? here)
      obtain rfl := mem_singleton.mp (mem_of_getElem? there)
      exact string

theorem pushStrings_spec {done rest : List (List UInt8)}
    (stack : Stack layout s.memory root trapframe free image top)
    (pushed : Pushed s.memory root top done ustack) (fits : stringsSize done ≤ userStack * pgSize)
    (few : done.length + rest.length < maxArg) (nulFree : ∀ arg ∈ rest, 0 ∉ arg)
    (short : ∀ arg ∈ rest, arg.length < pgSize) :
    Returns
      (pushStrings root (top - userStack * pgSize) (rest.map (· ++ [0])) ustack
        (top - stringsSize done)) s
      fun result s' => ∃ m', s' = { s with memory := m' } ∧
      Stack layout m' root trapframe free image top ∧
        Moves layout s.memory m' free free (footprint s.memory root image)
          (footprint m' root image) ∧
        match result with
        | .error reason => reason = .stackRoom ∧ userStack * pgSize < stringsSize (done ++ rest)
        | .ok (ustack', sp) => sp = top - stringsSize (done ++ rest) ∧
            stringsSize (done ++ rest) ≤ userStack * pgSize ∧
              Pushed m' root top (done ++ rest) ustack' := by
  induction rest generalizing s done ustack with
  | nil =>
    rw [append_nil]
    exact .pure ⟨s.memory, rfl, stack, .refl stack.held, rfl, fits, pushed⟩
  | cons arg rest ih =>
    have word := stack.word
    have room := stack.room
    have base : pgSize ≤ top - userStack * pgSize := by
      rw [Nat.succ_mul] at room
      omega
    have length := short arg (mem_cons_self ..)
    have many := pushed.length
    rw [length_cons] at few
    have sum : done ++ arg :: rest = done ++ [arg] ++ rest := by simp
    have enough : arg.length + 1 ≤ top - stringsSize done := by omega
    have aligned : (top - stringsSize done) % 16 = 0 := by
      have := stack.aligned
      have := stringsSize_mod done
      omega
    obtain ⟨next, fits'⟩ := aligned_sub aligned enough
    rw [Nat.sub_sub top _ (align16 _), ← stringsSize_snoc] at next
    rw [map_cons, pushStrings, strlen_terminated (nulFree arg (mem_cons_self ..))]
    refine .ite (fun tooMany => absurd tooMany (by omega)) fun _ => ?_
    refine .bind
      (.of_eq (decrease_spec enough (by omega))
        (.bind (.of_eq (decrease_spec (Nat.mod_le _ _) (by omega)) ?_)))
    rw [next]
    refine .ite (fun noRoom => .pure ⟨s.memory, rfl, stack, .refl stack.held, rfl, ?_⟩)
      fun inside => ?_
    · rw [sum, stringsSize_append]
      omega
    have whole : (arg ++ [0]).take (arg.length + 1) = arg ++ [0] := take_of_length_le (by simp)
    have size : (arg ++ [0]).length = arg.length + 1 := by simp
    have fits'' : stringsSize (done ++ [arg]) ≤ userStack * pgSize := by omega
    have below : top - stringsSize (done ++ [arg]) + (arg ++ [0]).length ≤ top := by
      have := le_align16 (arg.length + 1)
      rw [stringsSize_snoc]
      omega
    rw [whole]
    refine .seq (copyout_stack stack (not_lt.mp inside) below) ?_
    rintro r s₁ ⟨rfl, m₁, rfl, stack₁, moves₁, copied, others⟩
    rw [if_neg (by decide)]
    have appended : setUstack ustack (top - stringsSize (done ++ [arg])) { s with memory := m₁ } =
        .ok (ustack ++ [top - stringsSize (done ++ [arg])], { s with memory := m₁ }) := by
      rw [setUstack, if_pos (by omega)]
      rfl
    rw [size] at copied others
    have pushed₁ := pushed.push rfl (by omega) copied fun va above => others va (.inr above)
    refine .bind (.of_eq appended ?_)
    refine (ih stack₁ pushed₁ fits'' (by simp; omega)
      (fun other member => nulFree other (mem_cons_of_mem _ member))
      fun other member => short other (mem_cons_of_mem _ member)).mono ?_
    rintro result s₂ ⟨m₂, rfl, stack₂, moves₂, result'⟩
    rw [sum]
    exact ⟨m₂, rfl, stack₂, moves₁.trans moves₂, result'⟩

/-! ## The array of pointers -/

def userWord (m : Memory) (root va : Nat) : Nat := ByteSpace.load (userByte m root) va 8

theorem wordBytes_length (words : List Nat) : (wordBytes words).length = words.length * 8 := by
  induction words with
  | nil => rfl
  | cons word words ih =>
    rw [wordBytes, flatMap_cons, length_append, ← wordBytes, ih]
    simp
    omega

theorem wordBytes_getD {words : List Nat} {i j word : Nat} (here : words[i]? = some word)
    (below : j < 8) : (wordBytes words).getD (8 * i + j) 0 = UInt8.ofNat (word / 256 ^ j) := by
  induction words generalizing i with
  | nil => cases here
  | cons first words ih =>
    rw [wordBytes, flatMap_cons, ← wordBytes]
    cases i with
    | zero =>
      obtain rfl := Option.some.inj here
      rw [getD_append _ _ _ _ (by simp; omega), getD_eq_getElem _ _ (by simp; omega)]
      simp
    | succ i =>
      rw [getD_append_right _ _ _ _ (by simp; omega)]
      have index : 8 * (i + 1) + j - ((range 8).map fun k => UInt8.ofNat (first / 256 ^ k)).length =
          8 * i + j := by
        simp
        omega
      rw [index]
      exact ih here

theorem userWord_copied {words : List Nat} {i word : Nat}
    (copied : userBytes m root va (wordBytes words).length = wordBytes words)
    (here : words[i]? = some word) (small : word < 2 ^ 64) :
    userWord m root (va + 8 * i) = word := by
  have inside : i < words.length := (List.getElem?_eq_some_iff.mp here).1
  have bytes : ∀ j < 8, userByte m root (va + (8 * i + j)) = UInt8.ofNat (word / 256 ^ j) := by
    intro j below
    have bound : 8 * i + j < (wordBytes words).length := by
      rw [wordBytes_length]
      omega
    rw [← wordBytes_getD here below, ← copied, getD_eq_getElem _ _ (by rw [copied]; exact bound)]
    simp [userBytes]
  have stored : userWord m root (va + 8 * i) =
      (ByteSpace.store (fun _ => 0) (va + 8 * i) 8 word).load (va + 8 * i) 8 := by
    refine ByteSpace.load_congr fun a low high => ?_
    obtain ⟨j, rfl⟩ : ∃ j, a = va + 8 * i + j := ⟨a - (va + 8 * i), by omega⟩
    rw [Nat.add_assoc, bytes j (by omega), ← Nat.add_assoc, ByteSpace.store, if_pos ⟨low, high⟩,
      Nat.add_sub_cancel_left]
  rw [stored, ByteSpace.load_store_same, Nat.mod_eq_of_lt (by norm_num; exact small)]

structure Passed (m : Memory) (root sz sp : Nat) (args : List (List UInt8)) : Prop where
  aligned : sp % 16 = 0
  inside : sz - userStack * pgSize ≤ sp ∧ sp < sz
  array : sp + 8 * (args.length + 1) ≤ sz
  null : userWord m root (sp + 8 * args.length) = 0
  string : ∀ (i : Nat) arg, args[i]? = some arg →
    userBytes m root (userWord m root (sp + 8 * i)) (arg.length + 1) = arg ++ [0]
  onStack : ∀ (i : Nat) arg, args[i]? = some arg →
    sz - userStack * pgSize ≤ userWord m root (sp + 8 * i) ∧
      userWord m root (sp + 8 * i) + (arg.length + 1) ≤ sz
  belowStrings : ∀ i < args.length, sp + 8 * (args.length + 1) ≤ userWord m root (sp + 8 * i)
  disjoint : ∀ (i j : Nat) arg, i < j → args[j]? = some arg →
    userWord m root (sp + 8 * j) + (arg.length + 1) ≤ userWord m root (sp + 8 * i)

theorem Passed.congr {sp : Nat} (passed : Passed m root sz sp args)
    (same : ∀ va < sz, userByte m' root va = userByte m root va) : Passed m' root sz sp args := by
  have array := passed.array
  have words : ∀ i ≤ args.length, userWord m' root (sp + 8 * i) = userWord m root (sp + 8 * i) :=
    fun i below =>
    ByteSpace.load_congr fun a _ high => same a (by omega)
  refine ⟨passed.aligned, passed.inside, array, ?_, fun i arg here => ?_, fun i arg here => ?_,
    fun i below => ?_,
    fun i j arg less there => ?_⟩
  · rw [words _ le_rfl]
    exact passed.null
  · have below := (List.getElem?_eq_some_iff.mp here).1
    have onStack := passed.onStack i arg here
    rw [words i below.le, ← passed.string i arg here]
    exact map_congr_left fun k member => same _ (by have := mem_range.mp member; omega)
  · have below := (List.getElem?_eq_some_iff.mp here).1
    rw [words i below.le]
    exact passed.onStack i arg here
  · rw [words i below.le]
    exact passed.belowStrings i below
  · have below := (List.getElem?_eq_some_iff.mp there).1
    rw [words j below.le, words i (less.trans below).le]
    exact passed.disjoint i j arg less there

/-- The pointers above are to the strings. -/
theorem Pushed.passed {top sp : Nat} (pushed : Pushed m root top args ustack)
    (is : sp = top - stackNeeded args) (fits : stackNeeded args ≤ userStack * pgSize)
    (room : userStack * pgSize ≤ top) (aligned : top % 16 = 0) (word : top < 2 ^ 64)
    (array : userBytes m' root sp (wordBytes (ustack ++ [0])).length = wordBytes (ustack ++ [0]))
    (above : ∀ va, sp + 8 * (args.length + 1) ≤ va → userByte m' root va = userByte m root va) :
    Passed m' root top sp args := by
  have length := pushed.length
  have needed : stackNeeded args = stringsSize args + align16 ((args.length + 1) * 8) := rfl
  have mod := stringsSize_mod args
  have least := le_align16 ((args.length + 1) * 8)
  have multiple : align16 ((args.length + 1) * 8) % 16 = 0 := Nat.mul_mod_left _ _
  have word' : ∀ i p, ustack[i]? = some p → userWord m' root (sp + 8 * i) = p := by
    intro i p here
    have inside : i < ustack.length := (List.getElem?_eq_some_iff.mp here).1
    refine userWord_copied array (by rwa [getElem?_append_left inside]) ?_
    have := pushed.pointer i p here
    omega
  -- where the string `i` is
  have place : ∀ (i : Nat) arg, args[i]? = some arg → ∃ p, ustack[i]? = some p ∧
      userWord m' root (sp + 8 * i) = p ∧
        p + (stringsSize (args.take i) + align16 (arg.length + 1)) = top ∧
        stringsSize (args.take i) + align16 (arg.length + 1) ≤ stringsSize args := by
    intro i arg here
    have inside : i < ustack.length := by
      rw [length]
      exact (List.getElem?_eq_some_iff.mp here).1
    have pointer := getElem?_eq_getElem inside
    have most := stringsSize_take_le args (i + 1)
    have at' := pushed.pointer i _ pointer
    rw [stringsSize_take_succ here] at at' most
    exact ⟨_, pointer, word' i _ pointer, by omega, most⟩
  refine ⟨by omega, by omega, by omega, ?_, fun i arg here => ?_, fun i arg here => ?_,
    fun i below => ?_, fun i j arg less there => ?_⟩
  · rw [← length]
    exact userWord_copied array (by simp) (by decide)
  · obtain ⟨p, pointer, is', total, most⟩ := place i arg here
    rw [is', ← pushed.string i p arg pointer here]
    exact map_congr_left fun k _ => above _ (by omega)
  · obtain ⟨p, -, is', total, most⟩ := place i arg here
    have := le_align16 (arg.length + 1)
    rw [is']
    omega
  · obtain ⟨p, -, is', total, most⟩ := place i _ (getElem?_eq_getElem below)
    rw [is']
    omega
  · have earlier : i < args.length := less.trans (List.getElem?_eq_some_iff.mp there).1
    have here := getElem?_eq_getElem earlier
    obtain ⟨p, -, is', total, most⟩ := place i _ here
    obtain ⟨q, -, is'', total', most'⟩ := place j arg there
    have order := stringsSize_take args (Nat.succ_le_of_lt less)
    rw [Nat.succ_eq_add_one, stringsSize_take_succ here] at order
    have := le_align16 (arg.length + 1)
    rw [is', is'']
    omega

/-- The arguments are passed if there is room for them. -/
theorem pushArguments_spec (stack : Stack layout s.memory root trapframe free image top)
    (few : args.length < maxArg) (nulFree : ∀ arg ∈ args, 0 ∉ arg)
    (short : ∀ arg ∈ args, arg.length < pgSize) :
    Returns (pushArguments root (top - userStack * pgSize) top (args.map (· ++ [0]))) s
      fun result s' => ∃ m', s' = { s with memory := m' } ∧
      Stack layout m' root trapframe free image top ∧
        Moves layout s.memory m' free free (footprint s.memory root image)
          (footprint m' root image) ∧
        match result with
        | .error reason => reason = .stackRoom ∧ userStack * pgSize < stackNeeded args
        | .ok (argc, sp) => argc = args.length ∧ Passed m' root top sp args := by
  have none : Pushed s.memory root top [] [] :=
    ⟨rfl, fun i p here => (nomatch here), fun i p arg here => (nomatch here)⟩
  have strings := pushStrings_spec stack none (Nat.zero_le _) (by simpa using few) nulFree short
  rw [show top - stringsSize [] = top from rfl, nil_append] at strings
  have word := stack.word
  have room := stack.room
  have page : 0 < pgSize := by decide
  rw [Nat.succ_mul] at room
  refine .seq strings ?_
  rintro (reason | ⟨ustack, sp⟩) s₁ ⟨m₁, rfl, stack₁, moves₁, result⟩
  · obtain ⟨rfl, most⟩ := result
    refine .pure ⟨m₁, rfl, stack₁, moves₁, rfl, lt_of_lt_of_le most (Nat.le_add_right _ _)⟩
  obtain ⟨rfl, fits, pushed⟩ := result
  have length := pushed.length
  have appended : setUstack ustack 0 { s with memory := m₁ } =
    .ok (ustack ++ [0], { s with memory := m₁ }) := by
    rw [setUstack, if_pos (by omega)]
    rfl
  have enough : (ustack.length + 1) * 8 ≤ top - stringsSize args := by
    unfold maxArg userStack pgSize at *
    omega
  have aligned : (top - stringsSize args) % 16 = 0 := by
    have := stack.aligned
    have := stringsSize_mod args
    omega
  obtain ⟨next, fits'⟩ := aligned_sub aligned enough
  refine .bind (.of_eq appended (.bind (.of_eq (decrease_spec enough (by omega))
    (.bind (.of_eq (decrease_spec (Nat.mod_le _ _) (by omega)) ?_)))))
  rw [next, length, Nat.sub_sub, ← stackNeeded]
  refine .ite (fun noRoom => .pure ⟨m₁, rfl, stack₁, moves₁, rfl, by omega⟩) fun inside => ?_
  have needed : stackNeeded args = stringsSize args + align16 ((args.length + 1) * 8) := rfl
  have size : (wordBytes (ustack ++ [0])).length = 8 * (args.length + 1) := by
    rw [wordBytes_length, length_append, length, length_singleton, Nat.mul_comm]
  have below : top - stackNeeded args + (wordBytes (ustack ++ [0])).length ≤ top := by
    have := le_align16 ((args.length + 1) * 8)
    omega
  refine .seq (copyout_stack stack₁ (not_lt.mp inside) below) ?_
  rintro r s₂ ⟨rfl, m₂, rfl, stack₂, moves₂, copied, others⟩
  rw [if_neg (by decide)]
  refine .pure ⟨m₂, rfl, stack₂, moves₁.trans moves₂, rfl, ?_⟩
  refine pushed.passed rfl (by omega) (by omega) stack.aligned word copied fun va above =>
    others va (.inr ?_)
  rw [size]
  exact above

end Xv6.Exec
