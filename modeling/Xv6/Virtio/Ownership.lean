import Xv6.Virtio.Effect

/-!
# The lock and the owners of descriptors

Who holds `vdisk_lock` follows from the places of the processes and of the
handlers, and a descriptor that is not free belongs to one process.
-/

namespace Xv6.Virtio

open Function

variable {Proc Cpu Buf : Type}

/-- Inside the critical section. -/
def Pc.critical : Pc Buf → Bool
  | .idle | .acquire _ | .sleepFree _ | .sleepBuf _ _ => false
  | .alloc _ _ | .undo _ _ | .format _ _ _ | .wait _ _ | .forget _ _ | .freeChain _ _ _
  | .release _ _ => true

@[inherit_doc Pc.critical]
def Intr.critical : Intr → Bool
  | .idle | .acquire => false
  | .loop | .read | .finish _ | .release => true

def Triple.list (idx : Triple) : List Nat := [idx.head, idx.data, idx.status]

/-- The descriptors that `free_chain` has not freed when it gets to `i`. -/
def Triple.rest (idx : Triple) (i : Nat) : List Nat :=
  if i = idx.head then idx.list
  else if i = idx.data then [idx.data, idx.status]
  else if i = idx.status then [idx.status]
  else []

/-- The descriptors that a process has allocated and not freed. -/
def Pc.owned : Pc Buf → List Nat
  | .alloc _ idx | .undo _ idx => idx
  | .format _ _ idx | .wait _ idx | .sleepBuf _ idx | .forget _ idx => idx.list
  | .freeChain _ idx i => idx.rest i
  | .idle | .acquire _ | .sleepFree _ | .release _ _ => []

theorem Pc.owned_allocated (call : Call Buf) (idx : List Nat) :
    (Pc.allocated call idx).owned = idx := by
  unfold Pc.allocated
  split <;> rfl

theorem Pc.critical_allocated (call : Call Buf) (idx : List Nat) :
    (Pc.allocated call idx).critical = true := by
  unfold Pc.allocated
  split <;> rfl

theorem Pc.buf_allocated (call : Call Buf) (idx : List Nat) :
    (Pc.allocated call idx).buf = some call.b := by
  unfold Pc.allocated
  split <;> rfl

structure LockInv (s : State Proc Cpu Buf) : Prop where
  proc : ∀ p, (s.pc p).critical = true ↔ s.lock = some (.inl p)
  cpu : ∀ c, (s.intr c).critical = true ↔ s.lock = some (.inr c)

structure OwnInv (s : State Proc Cpu Buf) : Prop where
  bufs : ∀ p q b, (s.pc p).buf = some b → (s.pc q).buf = some b → p = q
  bound : ∀ p i, i ∈ (s.pc p).owned → i < num
  nodup : ∀ p, (s.pc p).owned.Nodup
  alone : ∀ p q i, i ∈ (s.pc p).owned → i ∈ (s.pc q).owned → p = q
  taken : ∀ i, i < num → (s.free i = false ↔ ∃ p, i ∈ (s.pc p).owned)

section locks

variable {s s' : State Proc Cpu Buf} {p q : Proc} {c : Cpu} {pc : Pc Buf} {intr : Intr}

namespace LockInv

theorem proc_alone (inv : LockInv s) (inside : (s.pc p).critical = true)
    (inside' : (s.pc q).critical = true) : p = q :=
  Sum.inl.inj (Option.some.inj (((inv.proc p).mp inside).symm.trans ((inv.proc q).mp inside')))

theorem cpu_alone {d : Cpu} (inv : LockInv s) (inside : (s.intr c).critical = true)
    (inside' : (s.intr d).critical = true) : c = d :=
  Sum.inr.inj (Option.some.inj (((inv.cpu c).mp inside).symm.trans ((inv.cpu d).mp inside')))

section processes

variable [DecidableEq Proc]

theorem setPc (inv : LockInv s) (same : pc.critical = (s.pc p).critical)
    (pcs : s'.pc = update s.pc p pc) (intrs : s'.intr = s.intr) (lock : s'.lock = s.lock) :
    LockInv s' := by
  constructor
  · intro q
    rw [lock, pcs]
    by_cases is : q = p
    · rw [is, update_self, same]
      exact inv.proc p
    · rw [update_of_ne is]
      exact inv.proc q
  · rw [lock, intrs]
    exact inv.cpu

theorem acquire (inv : LockInv s) (unlocked : s.lock = none) (inside : pc.critical = true)
    (pcs : s'.pc = update s.pc p pc) (intrs : s'.intr = s.intr) (lock : s'.lock = some (.inl p)) :
    LockInv s' := by
  constructor
  · intro q
    rw [lock, pcs]
    by_cases is : q = p
    · simp [is, inside]
    · rw [update_of_ne is, inv.proc q, unlocked]
      simp [Ne.symm is]
  · intro c
    rw [lock, intrs, inv.cpu c, unlocked]
    simp

theorem release (inv : LockInv s) (inside : (s.pc p).critical = true)
    (outside : pc.critical = false) (pcs : s'.pc = update s.pc p pc) (intrs : s'.intr = s.intr)
    (lock : s'.lock = none) : LockInv s' := by
  have held := (inv.proc p).mp inside
  constructor
  · intro q
    rw [lock, pcs]
    by_cases is : q = p
    · simp [is, outside]
    · rw [update_of_ne is, inv.proc q, held]
      simp [Ne.symm is]
  · intro c
    rw [lock, intrs, inv.cpu c, held]
    simp

end processes

section handlers

variable [DecidableEq Cpu]

theorem setIntr (inv : LockInv s) (same : intr.critical = (s.intr c).critical)
    (intrs : s'.intr = update s.intr c intr) (pcs : s'.pc = s.pc) (lock : s'.lock = s.lock) :
    LockInv s' := by
  constructor
  · rw [lock, pcs]
    exact inv.proc
  · intro d
    rw [lock, intrs]
    by_cases is : d = c
    · rw [is, update_self, same]
      exact inv.cpu c
    · rw [update_of_ne is]
      exact inv.cpu d

theorem acquireIntr (inv : LockInv s) (unlocked : s.lock = none) (inside : intr.critical = true)
    (intrs : s'.intr = update s.intr c intr) (pcs : s'.pc = s.pc) (lock : s'.lock = some (.inr c)) :
    LockInv s' := by
  constructor
  · intro p
    rw [lock, pcs, inv.proc p, unlocked]
    simp
  · intro d
    rw [lock, intrs]
    by_cases is : d = c
    · simp [is, inside]
    · rw [update_of_ne is, inv.cpu d, unlocked]
      simp [Ne.symm is]

theorem releaseIntr (inv : LockInv s) (held : s.lock = some (.inr c))
    (outside : intr.critical = false) (intrs : s'.intr = update s.intr c intr) (pcs : s'.pc = s.pc)
    (lock : s'.lock = none) : LockInv s' := by
  constructor
  · intro p
    rw [lock, pcs, inv.proc p, held]
    simp
  · intro d
    rw [lock, intrs]
    by_cases is : d = c
    · simp [is, outside]
    · rw [update_of_ne is, inv.cpu d, held]
      simp [Ne.symm is]

end handlers

end LockInv

variable [DecidableEq Proc] [DecidableEq Cpu] [DecidableEq Buf]

omit [DecidableEq Proc] [DecidableEq Cpu] in
theorem format_critical (s : State Proc Cpu Buf) (call : Call Buf) (idx : Triple) (stage : Stage) :
    (s.format call idx stage).2.critical = true := by
  cases stage <;> rfl

omit [DecidableEq Cpu] in
theorem LockInv.of_procEffect (inv : LockInv s) (does : ProcEffect s p s') : LockInv s' := by
  cases does with
  | acquire at' unlocked | retry at' _ unlocked | recheck at' _ unlocked =>
    exact inv.acquire unlocked rfl rfl rfl rfl
  | alloc at' =>
    exact inv.setPc (by rw [at', Pc.critical_allocated]; rfl) rfl rfl rfl
  | noDesc at' | undo at' | pass at' | forget at' | freeNext at' | freeLast at' =>
    exact inv.setPc (by rw [at']; rfl) rfl rfl rfl
  | @format stage call idx at' =>
    have pcs : ((s.format call idx stage).1.setPc p (s.format call idx stage).2).pc =
        update s.pc p (s.format call idx stage).2 := by cases stage <;> rfl
    have inside : (s.format call idx stage).2.critical = (s.pc p).critical := by
      rw [at', format_critical]
      rfl
    exact inv.setPc inside pcs (by cases stage <;> rfl) (by cases stage <;> rfl)
  | sleepFree at' | sleepBuf at' | release at' =>
    exact inv.release (by rw [at']; rfl) rfl rfl rfl rfl

omit [DecidableEq Proc] in
theorem LockInv.of_intrEffect (inv : LockInv s) (does : IntrEffect s c s') : LockInv s' := by
  cases does with
  | acquire at' unlocked => exact inv.acquireIntr unlocked rfl rfl rfl rfl
  | more at' | empty at' | read at' | finish at' => exact inv.setIntr (by rw [at']; rfl) rfl rfl rfl
  | release at' held => exact inv.releaseIntr held rfl rfl rfl rfl

theorem LockInv.of_effect {label : Label Proc Cpu Buf} (inv : LockInv s)
    (effect : Effect s label s') : LockInv s' := by
  cases effect with
  | call idle => exact inv.setPc (by rw [idle]; rfl) rfl rfl rfl
  | run does => exact inv.of_procEffect does
  | wake => exact ⟨inv.proc, inv.cpu⟩
  | interrupt idle => exact inv.setIntr (by rw [idle]; rfl) rfl rfl rfl
  | intr does => exact inv.of_intrEffect does
  | device does => cases does <;> exact ⟨inv.proc, inv.cpu⟩

end locks

section owners

variable {s s' : State Proc Cpu Buf} {p q : Proc} {i : Nat} {pc : Pc Buf}

namespace OwnInv

theorem of_same (inv : OwnInv s) (pcs : s'.pc = s.pc) (free : s'.free = s.free) : OwnInv s' := by
  obtain ⟨bufs, bound, nodup, alone, taken⟩ := inv
  constructor
  all_goals rw [pcs]
  · exact bufs
  · exact bound
  · exact nodup
  · exact alone
  · rw [free]
    exact taken

variable [DecidableEq Proc]

theorem bufs_step (inv : OwnInv s) (pcs : s'.pc = update s.pc p pc)
    (buf : ∀ b, pc.buf = some b → (s.pc p).buf = some b ∨ ∀ q, (s.pc q).buf ≠ some b) (q r : Proc)
    (b : Buf) (first : (s'.pc q).buf = some b) (second : (s'.pc r).buf = some b) : q = r := by
  rw [pcs] at first second
  by_cases isQ : q = p <;> by_cases isR : r = p
  · rw [isQ, isR]
  · rw [isQ, update_self] at first
    rw [update_of_ne isR] at second
    rcases buf b first with before | none
    · exact isQ.trans (inv.bufs p r b before second)
    · exact absurd second (none r)
  · rw [update_of_ne isQ] at first
    rw [isR, update_self] at second
    rcases buf b second with before | none
    · exact (inv.bufs q p b first before).trans isR.symm
    · exact absurd first (none q)
  · rw [update_of_ne isQ] at first
    rw [update_of_ne isR] at second
    exact inv.bufs q r b first second

theorem setPc (inv : OwnInv s) (owned : pc.owned = (s.pc p).owned)
    (buf : ∀ b, pc.buf = some b → (s.pc p).buf = some b ∨ ∀ q, (s.pc q).buf ≠ some b)
    (pcs : s'.pc = update s.pc p pc) (free : s'.free = s.free) : OwnInv s' := by
  have same : ∀ q, (s'.pc q).owned = (s.pc q).owned := fun q => by
    rw [pcs]
    by_cases is : q = p
    · rw [is, update_self, owned]
    · rw [update_of_ne is]
  refine ⟨inv.bufs_step pcs buf, ?_, ?_, ?_, ?_⟩
  · exact fun q i mine => inv.bound q i (same q ▸ mine)
  · exact fun q => same q ▸ inv.nodup q
  · exact fun q r i first second => inv.alone q r i (same q ▸ first) (same r ▸ second)
  · intro i small
    rw [free, inv.taken i small]
    simp only [same]

theorem gain (inv : OwnInv s) (small : i < num) (isFree : s.free i = true)
    (owned : pc.owned = (s.pc p).owned ++ [i]) (buf : pc.buf = (s.pc p).buf)
    (pcs : s'.pc = update s.pc p pc) (free : s'.free = update s.free i false) :
    OwnInv s' := by
  have nobody : ∀ q, i ∉ (s.pc q).owned := fun q mine => by
    have taken := (inv.taken i small).mpr ⟨q, mine⟩
    rw [isFree] at taken
    cases taken
  have mem : ∀ q j, j ∈ (s'.pc q).owned ↔ j ∈ (s.pc q).owned ∨ q = p ∧ j = i := fun q j => by
    rw [pcs]
    by_cases is : q = p
    · rw [is, update_self, owned]
      simp
    · rw [update_of_ne is]
      simp [is]
  refine ⟨inv.bufs_step pcs fun b mine => .inl (buf ▸ mine), ?_, ?_, ?_, ?_⟩
  · intro q j mine
    rcases (mem q j).mp mine with before | ⟨_, rfl⟩
    · exact inv.bound q j before
    · exact small
  · intro q
    rw [pcs]
    by_cases is : q = p
    · rw [is, update_self, owned]
      refine List.nodup_append.mpr ⟨inv.nodup p, List.nodup_singleton i, ?_⟩
      intro j mine k last same
      rw [List.mem_singleton.mp last] at same
      exact nobody p (same ▸ mine)
    · rw [update_of_ne is]
      exact inv.nodup q
  · intro q r j first second
    rcases (mem q j).mp first with mine | ⟨isQ, rfl⟩ <;> rcases (mem r j).mp
      second with yours | ⟨isR, same⟩
    · exact inv.alone q r j mine yours
    · exact absurd (same ▸ mine) (nobody q)
    · exact absurd yours (nobody r)
    · exact isQ.trans isR.symm
  · intro j bound
    rw [free]
    by_cases is : j = i
    · rw [is, update_self]
      exact ⟨fun _ => ⟨p, (mem p i).mpr (.inr ⟨rfl, rfl⟩)⟩, fun _ => rfl⟩
    · rw [update_of_ne is, inv.taken j bound]
      simp [mem, is]

theorem lose (inv : OwnInv s) (owned : (s.pc p).owned = i :: pc.owned) (buf : pc.buf = (s.pc p).buf)
    (pcs : s'.pc = update s.pc p pc) (free : s'.free = update s.free i true) :
    OwnInv s' := by
  have mine : i ∈ (s.pc p).owned := owned ▸ List.mem_cons_self
  have nodup := inv.nodup p
  rw [owned, List.nodup_cons] at nodup
  have mem : ∀ q j, j ∈ (s'.pc q).owned ↔ j ∈ (s.pc q).owned ∧ j ≠ i := fun q j => by
    rw [pcs]
    by_cases is : q = p
    · rw [is, update_self, owned, List.mem_cons]
      constructor
      · exact fun kept => ⟨.inr kept, fun same => nodup.1 (same ▸ kept)⟩
      · exact fun kept => kept.1.resolve_left kept.2
    · rw [update_of_ne is]
      exact ⟨fun yours => ⟨yours, fun same => is (inv.alone q p i (same ▸ yours) mine)⟩, And.left⟩
  refine ⟨inv.bufs_step pcs fun b was => .inl (buf ▸ was), ?_, ?_, ?_, ?_⟩
  · exact fun q j kept => inv.bound q j ((mem q j).mp kept).1
  · intro q
    rw [pcs]
    by_cases is : q = p
    · rw [is, update_self]
      exact nodup.2
    · rw [update_of_ne is]
      exact inv.nodup q
  · exact fun q r j first second => inv.alone q r j ((mem q j).mp first).1 ((mem r j).mp second).1
  · intro j bound
    rw [free]
    by_cases is : j = i
    · rw [is, update_self]
      simp [mem]
    · rw [update_of_ne is, inv.taken j bound]
      simp [mem, is]

end OwnInv

end owners

end Xv6.Virtio
