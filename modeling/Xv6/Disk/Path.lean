import Xv6.Disk.Directory

/-!
# Path resolution

`namex` of `kernel/fs.c` looks the elements of a path up, one in the directory that
was found for the one before. On the way it holds a reference to one inode, and to
two while it goes on from a directory to an inode in it.
-/

namespace Xv6.Disk

open List
open OneFile
open Function
open SlotMap
open Prog (Ensures Returns)

/-- The parts of a path between slashes that are not empty. -/
def components (path : List UInt8) : List (List UInt8) :=
  ((path.splitOn 47).filter (· ≠ [])).map (take dirsiz)

/-- What a name stands for in a directory. In other inodes there is nothing. -/
noncomputable def lookup (sb : Superblock) (s : Store) (dir : Nat) (name : List UInt8) :
    Option Nat :=
  if (dinodeAt sb s.disk dir).type = typeDir then toMap (entriesOf sb dir s)
    (nameKey name) else none

noncomputable def resolve (sb : Superblock) (s : Store) (start : Nat) (names : List (List UInt8)) :
    Option Nat :=
  names.foldlM (lookup sb s) start

/-- The inode of a path, or of the directory in which its last element is looked up. -/
noncomputable def target (sb : Superblock) (s : Store) (nameiparent : Bool) (start : Nat)
    (names : List (List UInt8)) : Option Nat :=
  if nameiparent = false then
    resolve sb s start names
  else if names = [] then
    none
  else
    (resolve sb s start names.dropLast).filter fun dir => (dinodeAt sb s.disk dir).type = typeDir

/-- Every directory is sound, and its entries are for inodes that are in use. -/
structure Tree (sb : Superblock) (s : Store) : Prop where
  root : rootIno < sb.ninodes ∧ (dinodeAt sb s.disk rootIno).type = typeDir
  directory : ∀ i < sb.ninodes, (dinodeAt sb s.disk i).type = typeDir → Directory sb i s
  inUse : ∀ i < sb.ninodes, (dinodeAt sb s.disk i).type = typeDir → ∀ j name k,
    entriesOf sb i s j = some (name, k) → k < sb.ninodes ∧ (dinodeAt sb s.disk k).type ≠ 0

/-- There is one more reference to inode `i`. -/
def oneMore (refs : Nat → Nat) (i j : Nat) : Nat := refs j + if j = i then 1 else 0

/-- The inode table with the references `refs` and at most one lock, on the disk of `s₀`. -/
structure Holds (sb : Superblock) (s₀ : Store) (refs : Nat → Nat) (lock : Option Nat) (s : Store) :
    Prop where
  disk : s.disk = s₀.disk
  counts : ∀ i, (s.table i).ref = refs i
  locks : ∀ i, (s.table i).locked = true ↔ lock = some i
  copies : ∀ i, 0 < refs i → (s.table i).valid = true → (s.table i).inode = dinodeAt sb s₀.disk i
  finite : {i | 0 < refs i}.Finite
  cached : s.cached = {i | 0 < refs i}.ncard

variable {sb : Superblock} {s s₀ : Store} {refs : Nat → Nat} {lock : Option Nat} {i ip : Nat}
  {path : List UInt8} {nameiparent : Bool}

/-! ## Elements of a path -/

theorem components_slash : components (47 :: path) = components path := by
  simp [components, splitOn, splitOnP_cons_eq_if_modifyHead]

theorem components_dropWhile : components (path.dropWhile (· = 47)) = components path := by
  induction path with
  | nil => rfl
  | cons c rest ih =>
    by_cases slash : c = 47
    · rw [slash, components_slash, dropWhile_cons_of_pos (by simp), ih]
    · rw [dropWhile_cons_of_neg (by simpa using slash)]

theorem components_word (nonempty : path ≠ []) (word : path.head? ≠ some 47) :
    components path =
      (path.takeWhile (· ≠ 47)).take dirsiz :: components (path.dropWhile (· ≠ 47)) := by
  have first : path.takeWhile (· ≠ 47) ≠ [] := by
    cases path with
    | nil => exact absurd rfl nonempty
    | cons c rest =>
      rw [takeWhile_cons_of_pos (by simpa using word)]
      exact cons_ne_nil _ _
  have plain : ∀ c ∈ path.takeWhile (· ≠ 47), (c == 47) = false := fun c inside => by
    simpa using mem_takeWhile_imp inside
  have ends := head?_dropWhile_not (· ≠ 47) path
  nth_rewrite 1 [components, ← takeWhile_append_dropWhile (p := (· ≠ 47)) (l := path)]
  cases rest : path.dropWhile (· ≠ 47) with
  | nil =>
    rw [append_nil, splitOn, splitOnP_eq_singleton plain, filter_cons_of_pos (by simpa using first)]
    rfl
  | cons c more =>
    rw [rest] at ends
    obtain rfl : c = 47 := by simpa using ends
    rw [splitOn, splitOnP_append_cons_of_forall_mem plain _ rfl, components_slash,
      filter_cons_of_pos (by simpa using first)]
    rfl

theorem head_dropWhile (path : List UInt8) : (path.dropWhile (· = 47)).head? ≠ some 47 := by
  have ends := head?_dropWhile_not (· = 47) path
  intro slash
  rw [slash] at ends
  simp at ends

theorem skipelem_none (skips : skipelem path = none) : components path = [] := by
  simp only [skipelem] at skips
  split at skips
  next empty => rw [← components_dropWhile, empty]; rfl
  next => cases skips

theorem skipelem_some {name rest : List UInt8} (skips : skipelem path = some (name, rest)) :
    components path = name :: components rest ∧ (components rest = [] ↔ rest = []) ∧
    rest.length < path.length := by
  simp only [skipelem] at skips
  split at skips
  next => cases skips
  next more =>
    cases skips
    have word := components_word more (head_dropWhile path)
    rw [components_dropWhile] at word
    refine ⟨by rw [word, components_dropWhile], ⟨fun none => ?_, fun empty => by rw [empty]; rfl⟩,
      ?_⟩
    · by_contra more'
      rw [components_word more' (head_dropWhile _)] at none
      cases none
    · obtain ⟨c, tail, isPath⟩ := exists_cons_of_ne_nil more
      have notSlash : c ≠ 47 := by simpa [isPath] using head_dropWhile path
      have first := length_dropWhile_le (· = 47) path
      have second := length_dropWhile_le (· ≠ 47) tail
      rw [isPath, dropWhile_cons_of_pos (by simpa using notSlash)]
      refine (length_dropWhile_le ..).trans_lt ?_
      rw [isPath, length_cons] at first
      omega

/-! ## The table -/

theorem oneMore_self (refs : Nat → Nat) (i : Nat) : oneMore refs i i = refs i + 1 := by
  simp [oneMore]

theorem oneMore_of_ne {j : Nat} (other : j ≠ i) : oneMore refs i j = refs j := by
  simp [oneMore, other]

theorem oneMore_comm (refs : Nat → Nat) (i j : Nat) :
    oneMore (oneMore refs i) j = oneMore (oneMore refs j) i :=
  funext fun _ => Nat.add_right_comm ..

theorem support_oneMore (refs : Nat → Nat) (i : Nat) :
    {j | 0 < oneMore refs i j} = insert i {j | 0 < refs j} := by
  ext j
  by_cases here : j = i
  · simp [here, oneMore_self]
  · simp [here, oneMore_of_ne]

section

variable (holds : Holds sb s₀ refs lock s)

include holds

theorem Holds.setEntry {e : Entry} {refs' : Nat → Nat} {lock' : Option Nat} {count : Nat}
    (ref : e.ref = refs' i) (others : ∀ j ≠ i, refs' j = refs j)
    (locked : e.locked = true ↔ lock' = some i) (locks : ∀ j ≠ i, lock' = some j ↔ lock = some j)
    (copy : 0 < refs' i → e.valid = true → e.inode = dinodeAt sb s₀.disk i)
    (finite : {j | 0 < refs' j}.Finite) (cached : count = {j | 0 < refs' j}.ncard) :
    Holds sb s₀ refs' lock' { s with table := update s.table i e, cached := count } where
  disk := holds.disk
  counts j := by
    by_cases here : j = i
    · subst here
      simpa using ref
    · simpa [here, others j here] using holds.counts j
  locks j := by
    by_cases here : j = i
    · subst here
      simpa using locked
    · simpa [here, locks j here] using holds.locks j
  copies j := by
    by_cases here : j = i
    · subst here
      simpa using copy
    · simpa [here, others j here] using holds.copies j
  finite := finite
  cached := cached

theorem Holds.idup (present : 0 < refs i) :
    Returns (idup i) s fun _ => Holds sb s₀ (oneMore refs i) lock := by
  refine .of_modify (holds.setEntry ?_ (fun j => oneMore_of_ne) (holds.locks i) (fun _ _ => Iff.rfl)
    (fun _ => holds.copies i present) (support_oneMore refs i ▸ holds.finite.insert i) ?_)
  · rw [oneMore_self, ← holds.counts]
  · rw [support_oneMore, Set.insert_eq_of_mem (show i ∈ {j | 0 < refs j} from present),
      holds.cached]

theorem Holds.iget (free : lock = some i → 0 < refs i) :
    Ensures (fun stop => stop.panic = .igetNoInodes ∧ ninode ≤ s.cached) (iget i) s fun _ =>
      Holds sb s₀ (oneMore refs i) lock := by
  unfold Disk.iget Disk.setEntry
  refine .bind
    (.get (.ite (fun present => .of_returns (holds.idup (holds.counts i ▸ present))) fun absent =>
    .ite (fun full => .bind (.get (.throw ⟨rfl, full⟩))) fun _ =>
      .bind (.of_modify (.of_modify ?_))))
  rw [holds.counts] at absent
  have zero : refs i = 0 := by omega
  refine holds.setEntry ?_ (fun j => oneMore_of_ne) ?_ (fun _ _ => Iff.rfl) (fun _ => nofun)
    (support_oneMore refs i ▸ holds.finite.insert i) ?_
  · rw [oneMore_self, zero]
  · exact iff_of_false nofun fun isLock => absent (free isLock)
  · rw [support_oneMore, Set.ncard_insert_of_notMem (by simpa using zero) holds.finite,
      holds.cached]

theorem Holds.ilock (unlocked : lock = none) (ref : 0 < refs i)
    (inUse : (dinodeAt sb s₀.disk i).type ≠ 0) :
    Returns (ilock sb i) s fun inode s' => inode = dinodeAt sb s₀.disk i ∧
    Holds sb s₀ refs (some i) s' := by
  subst unlocked
  unfold Disk.ilock Disk.setEntry
  have locked : ∀ e : Entry, e.ref = refs i → (e.valid = true → e.inode = dinodeAt sb s₀.disk i) →
      Holds sb s₀ refs (some i) { s with table := update s.table i { e with locked := true } } :=
    fun e same copy =>
      holds.setEntry same (fun _ _ => rfl) (by simp) (fun j other => by simp [Ne.symm other])
      (fun _ => copy) holds.finite holds.cached
  refine .bind (.get (.ite (fun none => ?_) fun _ => .ite (fun taken => ?_) fun _ =>
    .ite (fun valid => .bind (.of_modify (.pure ⟨holds.copies i ref valid, ?_⟩))) fun _ =>
      .bind (.of_modify ?_)))
  · rw [holds.counts] at none
    omega
  · exact nomatch (holds.locks i).mp taken
  · exact locked _ (holds.counts i) (holds.copies i ref)
  · have same : dinodeAt sb s.disk i = dinodeAt sb s₀.disk i := by rw [holds.disk]
    exact .ite (fun free => absurd (same ▸ free) inUse) fun _ =>
      .pure
        ⟨same, locked ⟨(s.table i).ref, true, true, dinodeAt sb s.disk i⟩ (holds.counts i) fun _ =>
          same⟩

theorem Holds.iunlock (isLock : lock = some i) (ref : 0 < refs i) :
    Returns (iunlock i (dinodeAt sb s₀.disk i)) s fun _ => Holds sb s₀ refs none := by
  subst isLock
  unfold Disk.iunlock Disk.setEntry
  refine .bind (.get (.ite (fun wrong => ?_) fun _ => .of_modify ?_))
  · have locked := (holds.locks i).mpr rfl
    rw [locked, holds.counts] at wrong
    simp at wrong
    omega
  · exact holds.setEntry (holds.counts i) (fun _ _ => rfl) (by simp)
      (fun j other => by simp [Ne.symm other])
      (fun _ _ => rfl) holds.finite holds.cached

end

theorem Holds.iput (holds : Holds sb s₀ (oneMore refs i) lock s)
    (linked : (dinodeAt sb s₀.disk i).nlink ≠ 0) :
    Returns (iput sb i) s fun _ => Holds sb s₀ refs lock := by
  have count : (s.table i).ref = refs i + 1 := by rw [holds.counts, oneMore_self]
  have copy := holds.copies i (by rw [oneMore_self]; omega)
  have cached := holds.cached
  have finite := holds.finite
  rw [support_oneMore] at cached finite
  replace finite := finite.subset (Set.subset_insert ..)
  unfold Disk.iput dropRef Disk.setEntry
  refine .bind (.get (.ite (fun last => ?_) fun _ => .bind (.of_modify (.of_modify ?_))))
  · have none := last.2.2
    rw [copy last.2.1] at none
    exact absurd none linked
  · have dropped : ∀ cached', cached' = {j | 0 < refs j}.ncard → Holds sb s₀ refs lock { s with
        table := update s.table i { s.table i with ref := (s.table i).ref - 1 }, cached :=
          cached' } :=
      fun _ =>
        holds.setEntry (by simp [count]) (fun j other => (oneMore_of_ne other).symm) (holds.locks i)
        (fun _ _ => Iff.rfl) (fun _ => copy) finite
    simp only [update_self, count, Nat.add_sub_cancel] at dropped ⊢
    split_ifs with none
    · refine dropped _ ?_
      rw [Set.ncard_insert_of_notMem (by simp [none]) finite] at cached
      omega
    · refine dropped _ ?_
      rwa [Set.insert_eq_of_mem (show i ∈ {j | 0 < refs j} from Nat.pos_of_ne_zero none)] at cached

theorem Holds.iunlockput (holds : Holds sb s₀ (oneMore refs i) (some i) s)
    (linked : (dinodeAt sb s₀.disk i).nlink ≠ 0) :
    Returns (iunlockput sb i (dinodeAt sb s₀.disk i)) s fun _ => Holds sb s₀ refs none := by
  have ref : 0 < oneMore refs i i := by rw [oneMore_self]; omega
  exact .seq (holds.iunlock rfl ref) fun _ s' unlocked => unlocked.iput linked

/-! ## The walk -/

variable {name : List UInt8}

theorem Tree.lookup (tree : Tree sb s) {k : Nat} (inside : ip < sb.ninodes)
    (found : lookup sb s ip name = some k) : k < sb.ninodes ∧ (dinodeAt sb s.disk k).type ≠ 0 := by
  unfold Disk.lookup at found
  split at found
  next isDir =>
    obtain ⟨j, here⟩ := (toMap_eq_some_iff (tree.directory ip inside isDir).distinct).mp found
    exact tree.inUse ip inside isDir j _ k here
  next => cases found

theorem Holds.dirlookup (holds : Holds sb s₀ refs lock s) (directory : Directory sb ip s₀)
    (free : ∀ i, lock = some i → 0 < refs i) :
    Ensures (fun stop => stop.panic = .igetNoInodes ∧ ninode ≤ s.cached)
      (dirlookup sb (dinodeAt sb s₀.disk ip) name) s fun r s' =>
      r.2 = dinodeAt sb s₀.disk ip ∧ r.1.map Prod.fst = lookup sb s₀ ip name ∧
        Holds sb s₀ ((r.1.map Prod.fst).elim refs (oneMore refs)) lock s' := by
  obtain ⟨found, run, finds⟩ := (directory.congr holds.disk).findDirent name
  have value := (directory.congr holds.disk).found_eq finds
  rw [entriesOf_congr holds.disk] at value
  rw [holds.disk] at run
  rw [lookup, if_pos directory.isDir, ← value]
  unfold Disk.dirlookup
  refine .bind (.of_eq run ?_)
  cases found with
  | none => exact .pure ⟨rfl, rfl, holds⟩
  | some entry => exact .seq (holds.iget (free entry.1)) fun _ s' got => .pure ⟨rfl, rfl, got⟩

variable {names : List (List UInt8)}

theorem target_cons (more : nameiparent = false ∨ names ≠ []) :
    target sb s nameiparent ip (name :: names) =
      (lookup sb s ip name).bind fun k => target sb s nameiparent k names := by
  unfold target resolve
  cases nameiparent with
  | false => rfl
  | true =>
    have nonempty : names ≠ [] := by simpa using more
    simp only [dropLast_cons_of_ne_nil nonempty, nonempty, foldlM_cons]
    cases lookup sb s ip name <;> rfl

theorem target_notDir (notDir : (dinodeAt sb s.disk ip).type ≠ typeDir) :
    target sb s nameiparent ip (name :: names) = none := by
  by_cases more : nameiparent = false ∨ names ≠ []
  · rw [target_cons more, lookup, if_neg notDir]
    rfl
  · obtain ⟨parent, rfl⟩ : nameiparent = true ∧ names = [] := by simpa using more
    simp [target, parent, resolve, notDir]

/-- What is returned, and the reference that goes with it. -/
structure Reached (sb : Superblock) (s₀ : Store) (refs : Nat → Nat) (nameiparent : Bool) (ip : Nat)
    (names : List (List UInt8)) (r : Option (Nat × List UInt8)) (s' : Store) : Prop where
  value : r.map Prod.fst = target sb s₀ nameiparent ip names
  name : nameiparent = true → ∀ k last, r = some (k, last) → names.getLast? = some last
  holds : Holds sb s₀ ((r.map Prod.fst).elim refs (oneMore refs)) none s'

theorem walk_spec (tree : Tree sb s₀) {fuel : Nat} (enough : path.length < fuel)
    (inside : ip < sb.ninodes) (inUse : (dinodeAt sb s₀.disk ip).type ≠ 0)
    (linked : ∀ names, names <+: components path → ∀ k, resolve sb s₀ ip names = some k →
      (dinodeAt sb s₀.disk k).nlink ≠ 0)
    (holds : Holds sb s₀ (oneMore refs ip) none s) :
    Ensures (fun stop => stop.panic = .igetNoInodes ∧ ninode ≤ {i | 0 < refs i}.ncard + 1)
      (walk sb nameiparent fuel ip name path) s
        (Reached sb s₀ refs nameiparent ip (components path)) := by
  induction fuel generalizing s ip name path with
  | zero => omega
  | succ fuel ih =>
    have here : (dinodeAt sb s₀.disk ip).nlink ≠ 0 := linked [] nil_prefix ip rfl
    have ref : 0 < oneMore refs ip ip := by rw [oneMore_self]; omega
    unfold walk
    cases skips : skipelem path with
    | none =>
      rw [skipelem_none skips]
      refine .ite (fun parent => .bind ?_) fun other =>
        .pure ⟨?_, fun parent => absurd parent other, holds⟩
      · refine .of_returns ((holds.iput here).mono fun _ s' put => .pure ⟨?_, nofun, put⟩)
        simp [target, parent]
      · simp [target, other, resolve]
    | some skipped =>
      obtain ⟨name, rest⟩ := skipped
      obtain ⟨isPath, ends, shorter⟩ := skipelem_some skips
      rw [isPath] at linked ⊢
      refine .seq (.of_returns (holds.ilock rfl ref inUse)) ?_
      rintro _ s₁ ⟨rfl, held⟩
      refine .ite (fun notDir => ?_) fun isDir => .ite (fun last => ?_) fun notLast => ?_
      · refine .seq (.of_returns (held.iunlockput here)) fun _ s' put => .pure ⟨?_, nofun, put⟩
        exact (target_notDir notDir).symm
      · refine .seq (.of_returns (held.iunlock rfl ref)) fun _ s' unlocked =>
          .pure ⟨?_, ?_, unlocked⟩
        · simp [target, last.1, ends.mpr last.2, resolve, Option.filter, not_not.mp isDir]
        · rintro - _ _ ⟨⟩
          rw [ends.mpr last.2]
          rfl
      · have more : nameiparent = false ∨ components rest ≠ [] := by
          rw [ne_eq, ends]
          simpa [imp_iff_not_or] using notLast
        have room : s₁.cached ≤ {i | 0 < refs i}.ncard + 1 := by
          rw [held.cached, support_oneMore]
          exact Set.ncard_insert_le ..
        have free : ∀ i, some ip = some i → 0 < oneMore refs ip i := by
          rintro _ ⟨⟩
          exact ref
        have looks : Ensures _ (dirlookup sb (dinodeAt sb s₀.disk ip) name) s₁ _ :=
          held.dirlookup (tree.directory ip inside (not_not.mp isDir)) free
        refine .seq (looks.imp fun stop full => ⟨full.1, full.2.trans room⟩) ?_
        rintro ⟨found, _⟩ s₂ ⟨rfl, value, held₂⟩
        cases found with
        | none =>
          refine .seq (.of_returns (held₂.iunlockput here)) fun _ s' put => .pure ⟨?_, nofun, put⟩
          rw [target_cons more, ← value]
          rfl
        | some entry =>
          obtain ⟨next, off⟩ := entry
          have found : lookup sb s₀ ip name = some next := value.symm
          have both : Holds sb s₀ (oneMore (oneMore refs next) ip) (some ip) s₂ :=
            oneMore_comm refs ip next ▸ held₂
          refine .seq (.of_returns (both.iunlockput here)) fun _ s₃ put => ?_
          obtain ⟨low, used⟩ := tree.lookup inside found
          refine (ih (by omega) low used (fun names begins k isInode => ?_) put).mono ?_
          · refine linked (name :: names) (cons_prefix_cons.mpr ⟨rfl, begins⟩) k ?_
            rw [resolve, foldlM_cons, found]
            exact isInode
          · rintro r s' ⟨value, isName, holds'⟩
            refine ⟨?_, fun parent k last isResult => ?_, holds'⟩
            · rw [target_cons more, found, value]
              rfl
            · have tail := isName parent k last isResult
              rw [getLast?_cons, tail]
              rfl

end Xv6.Disk
