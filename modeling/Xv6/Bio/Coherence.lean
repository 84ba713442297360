import Xv6.Bio.Frame

/-!
# Contents of cached blocks

On a single device the cache behaves like one cell per block: `bread` returns
what a holder last stored, or what the disk has. The driver addresses the disk
by block number alone, so two device numbers would name the same disk blocks.
-/

namespace Xv6.Bio

open State
open Function (update update_of_ne update_self)

variable {Pid Data : Type} [Fintype Pid] [DecidableEq Pid]

/-- The contents of every valid buffer of device `d` are current, and a block
without a valid buffer is current on the disk. -/
structure DataInv (d : Nat) (s : State Pid Data) : Prop where
  device : ∀ b, (s.buf b).dev ≠ 0 → (s.buf b).dev = d
  filled : ∀ p b dev blockno, s.pc p = .filled b dev blockno →
    (s.buf b).data = s.disk (s.buf b).blockno
  clean : ∀ b, (s.buf b).valid → s.changed b = false →
    (s.buf b).data = s.disk (s.buf b).blockno
  cached : ∀ b, (s.buf b).valid → (s.buf b).data = s.current d (s.buf b).blockno
  uncached : ∀ blockno, (∀ b, (s.buf b).valid → (s.buf b).blockno ≠ blockno) →
    s.current d blockno = s.disk blockno

def SameContents (s s' : State Pid Data) : Prop :=
  ∀ b, (s'.buf b).valid = (s.buf b).valid ∧ (s'.buf b).dev = (s.buf b).dev ∧
    (s'.buf b).blockno = (s.buf b).blockno ∧ (s'.buf b).data = (s.buf b).data

section steps

variable {s s' : State Pid Data} {p : Pid} {b : Fin nbuf} {d dev blockno : Nat}

attribute [local simp] setPc buf current

omit [Fintype Pid] [DecidableEq Pid] in
theorem DataInv.initial (start : Initial s) : DataInv d s := by
  obtain ⟨⟨zeroes, cache⟩, _, idle, _, _, stored⟩ := start
  constructor <;> simp [cache, Bcache.binit, idle, stored]

section

variable (data : DataInv d s)

include data

omit [Fintype Pid] [DecidableEq Pid] in
theorem DataInv.of_same (same : SameContents s s')
    (disk : s'.disk = s.disk) (stored : s'.stored = s.stored) (changed : s'.changed = s.changed)
    (filled : ∀ p b dev blockno, s'.pc p = .filled b dev blockno → s.pc p = .filled b dev blockno) :
    DataInv d s' := by
  have current : s'.current = s.current := by
    funext dev blockno
    simp [current, disk, stored]
  constructor
  · intro c nonzero
    rw [(same c).2.1] at nonzero ⊢
    exact data.device c nonzero
  · intro q c dev blockno at'
    rw [(same c).2.2.2, (same c).2.2.1, disk]
    exact data.filled q c dev blockno (filled q c dev blockno at')
  · intro c valid
    rw [(same c).1] at valid
    rw [(same c).2.2.2, (same c).2.2.1, disk, changed]
    exact data.clean c valid
  · intro c valid
    rw [(same c).1] at valid
    rw [(same c).2.2.2, (same c).2.2.1, current]
    exact data.cached c valid
  · intro blockno absent
    rw [current, disk]
    apply data.uncached
    intro c valid
    rw [← (same c).2.2.1]
    exact absent c (by rwa [(same c).1])

omit [Fintype Pid] in
/-- A step that rewrites the buffer `b` and moves one process is checked at `b`. If it takes a
block out of the cache, the disk has what was stored in the block. -/
theorem DataInv.rewrite {change : Buf Data → Buf Data} {pc : Pc}
    (device : (change (s.buf b)).dev ≠ 0 → (change (s.buf b)).dev = d)
    (loaded : ∀ c dev blockno, pc = .filled c dev blockno → c = b)
    (filled : ∀ q dev blockno, update s.pc p pc q = .filled b dev blockno →
      (change (s.buf b)).data = s.disk (change (s.buf b)).blockno)
    (clean : (change (s.buf b)).valid → s.changed b = false →
      (change (s.buf b)).data = s.disk (change (s.buf b)).blockno)
    (cached : (change (s.buf b)).valid →
      (change (s.buf b)).data = s.current d (change (s.buf b)).blockno)
    (evicted : (s.buf b).valid → s.current d (s.buf b).blockno = s.disk (s.buf b).blockno) :
    DataInv d ({ s with cache := s.cache.modify b change }.setPc p pc) := by
  constructor
  · intro c
    by_cases here : c = b
    · simpa [here] using device
    · simpa [here] using data.device c
  · intro q c dev' blockno' at'
    by_cases here : c = b
    · subst here
      simpa using filled q dev' blockno' at'
    · by_cases self : q = p
      · subst self
        simp only [setPc, update_self] at at'
        exact absurd (loaded c dev' blockno' at') here
      · simp only [setPc, update_of_ne self] at at'
        simpa [here] using data.filled q c dev' blockno' at'
  · intro c
    by_cases here : c = b
    · simpa [here] using clean
    · simpa [here] using data.clean c
  · intro c
    by_cases here : c = b
    · simpa [here] using cached
    · simpa [here] using data.cached c
  · intro other absent
    by_cases held : (s.buf b).valid ∧ (s.buf b).blockno = other
    · obtain ⟨valid, rfl⟩ := held
      simpa using evicted valid
    · have old := data.uncached other fun c valid => ?_
      · simpa using old
      · by_cases here : c = b
        · subst here
          exact fun same => held ⟨valid, same⟩
        · have := absent c
          simp only [setPc, buf, Bcache.modify_buf, if_neg here] at this
          exact this valid

omit [Fintype Pid] in
theorem DataInv.virtioRead (invalid : (s.buf b).valid = false) :
    DataInv d ({ s with cache := s.cache.modify b fun buf =>
      { buf with data := s.disk buf.blockno } }.setPc p (.filled b dev blockno)) := by
  have not : ¬ (s.buf b).valid := by simp [invalid]
  refine data.rewrite (data.device b) (fun c dev' blockno' at' => ?_) (fun _ _ _ _ => rfl)
    (fun _ _ => rfl) (fun valid => absurd valid not) fun valid => absurd valid not
  simp only [Pc.filled.injEq] at at'
  exact at'.1.symm

variable (inv : Inv s)

include inv

theorem DataInv.blockno_ne {c : Fin nbuf}
    (nonzero : (s.buf b).dev ≠ 0) (other : (s.buf c).dev ≠ 0) (different : c ≠ b) :
    (s.buf c).blockno ≠ (s.buf b).blockno := by
  intro same
  exact different (inv.unique c b other (by rw [data.device b nonzero, data.device c other]) same)

theorem DataInv.bgetRecycle (onDevice : dev = d) (zero : (s.buf b).refcnt = 0) :
    DataInv d ({ s with cache := s.cache.modify b fun buf =>
      { buf with dev := dev, blockno := blockno, valid := false, refcnt := 1 } }.setPc p
        (.waiting b dev blockno)) := by
  obtain ⟨_, _, _, loads, unchanged⟩ := inv.unused zero
  refine data.rewrite (fun _ => onDevice) (by simp) (fun q dev' blockno' at' => ?_) (by simp)
    (by simp) fun valid => ?_
  · by_cases self : q = p
    · simp [self] at at'
    · rw [update_of_ne self] at at'
      have := loads q
      simp [at', Pc.loads] at this
  · -- the block that `b` gives up was clean, so the disk has it
    rw [← data.cached b valid]
    exact data.clean b valid unchanged

/-- A block just read from the disk was cached nowhere else. -/
theorem DataInv.filled_current (filled : s.pc p = .filled b dev blockno) :
    (s.buf b).data = s.current d (s.buf b).blockno := by
  have key := inv.keyed p b dev blockno (by simp [filled, Pc.request])
  rw [data.filled p b dev blockno filled]
  symm
  apply data.uncached
  intro c valid same
  have here : c ≠ b := by
    rintro rfl
    have := inv.unfilled p c dev blockno filled
    simp [this] at valid
  exact data.blockno_ne inv (by rw [key.2.1]; exact key.1) (inv.named c valid) here same

theorem DataInv.breadFilled (filled : s.pc p = .filled b dev blockno) :
    DataInv d ({ s with cache := s.cache.modify b fun buf => { buf with valid := true } }.setPc p
      .idle) := by
  have onDisk := data.filled p b dev blockno filled
  have fresh := data.filled_current inv filled
  exact data.rewrite (data.device b) (by simp) (fun _ _ _ _ => onDisk) (fun _ _ => onDisk)
    (fun _ => fresh) fun _ => fresh.symm.trans onDisk

theorem DataInv.store (idle : s.pc p = .idle) (held : s.holder b = some p) (contents : Data) :
    DataInv d { s with
      cache := s.cache.modify b fun buf => { buf with data := contents }
      changed := update s.changed b true
      stored := update s.stored (s.buf b).dev
        (update (s.stored (s.buf b).dev) (s.buf b).blockno (some contents)) } := by
  have valid := inv.valid_of_held idle held
  have nonzero := inv.named b valid
  have onDevice := data.device b nonzero
  constructor
  · intro c
    by_cases here : c = b
    · subst here
      simpa using data.device c
    · simpa [here] using data.device c
  · intro q c dev' blockno' at'
    have elsewhere : c ≠ b := by
      rintro rfl
      have := inv.locked q c (by simp only at at'; simp [at', Pc.loads])
      simp only [held, Option.some.injEq] at this
      simp only [← this, idle] at at'
      cases at'
    simpa [elsewhere] using data.filled q c dev' blockno' at'
  · intro c
    by_cases here : c = b
    · simp [here]
    · simpa [here] using data.clean c
  · intro c
    by_cases here : c = b
    · simp_all
    · intro stays
      simp only [buf, Bcache.modify_buf, if_neg here] at stays ⊢
      have := data.blockno_ne inv nonzero (inv.named c stays) here
      simp only [current, onDevice, update_self, update_of_ne this]
      exact data.cached c stays
  · intro other absent
    have different : other ≠ (s.buf b).blockno := by
      rintro rfl
      exact absent b (by simpa using valid) (by simp)
    simp only [current, onDevice, update_self, update_of_ne different]
    apply data.uncached
    intro c stays
    have := absent c
    by_cases here : c = b
    · simp_all
    · simp only [buf, Bcache.modify_buf, if_neg here] at this
      exact this stays

theorem DataInv.bwrite (idle : s.pc p = .idle) (held : s.holder b = some p) :
    DataInv d { s with
      disk := update s.disk (s.buf b).blockno (s.buf b).data
      changed := update s.changed b false } := by
  have valid := inv.valid_of_held idle held
  have nonzero := inv.named b valid
  have others : ∀ c, (s.buf c).dev ≠ 0 → c ≠ b → (s.buf c).blockno ≠ (s.buf b).blockno :=
    fun c other here => data.blockno_ne inv nonzero other here
  constructor
  · exact data.device
  · intro q c dev' blockno' at'
    have key := inv.keyed q c dev' blockno' (by simp only at at'; simp [at', Pc.request])
    have elsewhere : c ≠ b := by
      rintro rfl
      have := inv.locked q c (by simp only at at'; simp [at', Pc.loads])
      simp only [held, Option.some.injEq] at this
      simp only [← this, idle] at at'
      cases at'
    simp only [update_of_ne (others c (by rw [key.2.1]; exact key.1) elsewhere)]
    exact data.filled q c dev' blockno' at'
  · intro c stays
    by_cases here : c = b
    · simp [here]
    · simp only [update_of_ne here, update_of_ne (others c (inv.named c stays) here)]
      exact data.clean c stays
  · intro c stays
    by_cases here : c = b
    · subst here
      have current := data.cached c stays
      simp only [State.current] at current ⊢
      cases written : s.stored d (s.buf c).blockno with
      | none => simp
      | some contents => simpa [written] using current
    · simp only [State.current, update_of_ne (others c (inv.named c stays) here)]
      exact data.cached c stays
  · intro other absent
    have different : other ≠ (s.buf b).blockno := by
      rintro rfl
      exact absent b valid rfl
    simp only [State.current, update_of_ne different]
    exact data.uncached other absent

end

end steps

def OnDevice (d : Nat) {Data : Type} : Action Data → Prop
  | .bget dev _ => dev = d
  | _ => True

instance (d : Nat) {Data : Type} : DecidablePred (@OnDevice d Data)
  | .bget dev _ => inferInstanceAs (Decidable (dev = d))
  | .acquiresleep | .virtioRead | .breadReturn | .store _ _ | .bwrite _ | .brelse _ | .brelseDrop
  | .bpin _ | .bunpin _ => isTrue trivial

def systemOn (d : Nat) (Pid Data : Type) [DecidableEq Pid] :
    TransitionSystem (State Pid Data) (Pid × Action Data) Panic where
  initial := Initial
  allowed s label := Disciplined s label.1 label.2 ∧ OnDevice d label.2
  step s label := s.step label.1 label.2

instance (d : Nat) {Pid Data : Type} [DecidableEq Pid] (s : State Pid Data)
    (label : Pid × Action Data) : Decidable ((systemOn d Pid Data).allowed s label) :=
  inferInstanceAs (Decidable (Disciplined s label.1 label.2 ∧ OnDevice d label.2))

theorem DataInv.step {d : Nat} {s s' : State Pid Data} {p : Pid} {action : Action Data}
    (data : DataInv d s) (inv : Inv s) (disciplined : Disciplined s p action)
    (onDevice : OnDevice d action) (moved : s.step p action = .next s') : DataInv d s' := by
  -- no step but `virtioRead` leaves a process newly at `filled`
  have settle : ∀ {t : State Pid Data} {pc : Pc}, t.pc = s.pc →
      (∀ b dev blockno, pc ≠ .filled b dev blockno) → ∀ q b dev blockno,
      (t.setPc p pc).pc q = .filled b dev blockno → s.pc q = .filled b dev blockno := by
    intro t pc same other q b dev blockno at'
    by_cases self : q = p
    · simp [setPc, self, other] at at'
    · simpa [setPc, self, same] using at'
  have refcntOnly : ∀ {t : State Pid Data} {b : Fin nbuf} {f : Int → Int},
      t.cache.buf = (s.cache.modify b fun buf => { buf with refcnt := f buf.refcnt }).buf →
      SameContents s t := by
    intro t b f buffers c
    by_cases here : c = b <;> simp [buf, buffers, here]
  cases inv.effect moved with
  | bgetHit idle key =>
    exact data.of_same (refcntOnly (f := (· + 1)) rfl) rfl rfl rfl (settle rfl (by simp))
  | bgetRecycle idle absent zero => exact data.bgetRecycle inv onDevice zero
  | virtioRead _ invalid => exact data.virtioRead invalid
  | breadFilled filled => exact data.breadFilled inv filled
  | store idle held => exact data.store inv idle held _
  | bwrite idle held => exact data.bwrite inv idle held
  | acquiresleep | breadCached | brelse =>
    exact data.of_same (fun _ => ⟨rfl, rfl, rfl, rfl⟩) rfl rfl rfl (settle rfl (by simp))
  | brelseDrop releases =>
    exact data.of_same (refcntOnly (f := (· - 1)) (Bcache.brelse_buf _ _)) rfl rfl rfl
      (settle rfl (by simp))
  | bpin idle =>
    exact data.of_same (refcntOnly (f := (· + 1)) rfl) rfl rfl rfl fun _ _ _ _ at' => at'
  | bunpin idle =>
    exact data.of_same (refcntOnly (f := (· - 1)) rfl) rfl rfl rfl fun _ _ _ _ at' => at'

/-! ## Every interleaving -/

theorem reachable_inv {s : State Pid Data} (reachable : (system Pid Data).Reachable s) :
    Inv s :=
  reachable.invariant (fun _ start => .initial start)
    fun _ _ _ _ inv disciplined moved => inv.step disciplined moved

theorem reachableOn_inv {d : Nat} {s : State Pid Data}
    (reachable : (systemOn d Pid Data).Reachable s) : Inv s ∧ DataInv d s := by
  apply reachable.invariant (motive := fun s => Inv s ∧ DataInv d s)
  · exact fun _ start => ⟨.initial start, .initial start⟩
  · exact fun _ _ _ _ inv allowed moved =>
      ⟨inv.1.step allowed.1 moved, inv.2.step inv.1 allowed.1 allowed.2 moved⟩

theorem DataInv.breadReturn {d : Nat} {s s' : State Pid Data} {p : Pid} {b : Fin nbuf}
    {dev blockno : Nat} (data : DataInv d s) (inv : Inv s)
    (asked : (s.pc p).request = some (b, dev, blockno))
    (returned : s.step p .breadReturn = .next s') :
    (s'.buf b).data = s.current dev blockno := by
  obtain ⟨nonzero, sameDev, sameBlock⟩ := inv.keyed p b dev blockno asked
  have onDevice : dev = d := by rw [← sameDev]; exact data.device b (sameDev ▸ nonzero)
  subst onDevice sameBlock
  cases inv.effect returned with
  | @breadCached c _ _ reads valid =>
    obtain rfl : c = b := by simp [reads, Pc.request] at asked; exact asked.1
    exact data.cached c valid
  | @breadFilled c _ _ filled =>
    obtain rfl : c = b := by simp [filled, Pc.request] at asked; exact asked.1
    have invalid := inv.unfilled p c _ _ filled
    have uncached := data.uncached (s.buf c).blockno fun e valid same => by
      have here : e = c := inv.unique e c (inv.named e valid)
        (by rw [sameDev]; exact data.device e (inv.named e valid)) same
      simp [here, invalid] at valid
    simpa [setPc, buf, uncached] using data.filled p c _ _ filled

structure Consistent (s : State Pid Data) : Prop where
  ring : ∃ order : List (Fin nbuf), order.Nodup ∧ (∀ b, b ∈ order) ∧ s.cache.links.Ring order
  inverse : ∀ node, s.cache.links.prev (s.cache.links.next node) = node ∧
    s.cache.links.next (s.cache.links.prev node) = node
  unique : ∀ b c, (s.buf b).dev ≠ 0 → (s.buf b).dev = (s.buf c).dev →
    (s.buf b).blockno = (s.buf c).blockno → b = c
  count : ∀ b, (s.buf b).refcnt = s.users b + s.pins b

theorem Inv.consistent {s : State Pid Data} (inv : Inv s) : Consistent s := by
  refine ⟨inv.ring, ?_, inv.unique, inv.count⟩
  obtain ⟨order, _, complete, ring⟩ := inv.ring
  obtain ⟨forward, backward⟩ := ring.inverse
  intro node
  cases node with
  | none => exact ⟨forward none (.inl rfl), backward none (.inr rfl)⟩
  | some b =>
    exact ⟨forward _ (.inr ⟨b, complete b, rfl⟩), backward _ (.inl ⟨b, complete b, rfl⟩)⟩

/-- In every interleaving the list is a ring of all buffers, no block is cached
twice, every reference is counted and a buffer in use keeps its block; when one
device is used, `bread` returns the current contents. -/
theorem bread_current :
    (∀ s : State Pid Data, (system Pid Data).Reachable s →
      Consistent s ∧
        ∀ p action s' b, s.step p action = .next s' → 0 < (s.buf b).refcnt →
          (s'.buf b).dev = (s.buf b).dev ∧ (s'.buf b).blockno = (s.buf b).blockno) ∧
    ∀ (d : Nat) (s s' : State Pid Data) (p : Pid) (b : Fin nbuf) (dev blockno : Nat),
      (systemOn d Pid Data).Reachable s → (s.pc p).request = some (b, dev, blockno) →
      s.step p .breadReturn = .next s' → (s'.buf b).data = s.current dev blockno := by
  constructor
  · intro s reachable
    have inv := reachable_inv reachable
    exact ⟨inv.consistent, fun _ _ _ _ moved used => (inv.effect moved).keeps_key used⟩
  · intro d s s' p b dev blockno reachable asked returned
    obtain ⟨inv, data⟩ := reachableOn_inv reachable
    exact data.breadReturn inv asked returned

def booted : State (Fin 1) Bool where
  cache := .binit false
  holder _ := none
  disk _ := false
  pc _ := .idle
  pins _ := 0
  changed _ := false
  stored _ _ := none

theorem booted_initial : Initial booted :=
  ⟨⟨false, rfl⟩, fun _ => rfl, fun _ => rfl, fun _ => rfl, fun _ => rfl, fun _ _ => rfl⟩

/-- `bread` of a block that is not cached. -/
def missSteps (dev blockno : Nat) : List (Fin 1 × Action Bool) :=
  [(0, .bget dev blockno), (0, .acquiresleep), (0, .virtioRead), (0, .breadReturn)]

/-- `bread` of a cached block, short of its return. -/
def hitSteps (dev blockno : Nat) : List (Fin 1 × Action Bool) :=
  [(0, .bget dev blockno), (0, .acquiresleep)]

def writeSteps (b : Fin nbuf) : List (Fin 1 × Action Bool) := [(0, .store b true), (0, .bwrite b)]

def releaseSteps (b : Fin nbuf) : List (Fin 1 × Action Bool) := [(0, .brelse b), (0, .brelseDrop)]

/-- A block that was written and released is found again by the next `bread`. -/
theorem bread_current_reread :
    ∃ s s' : State (Fin 1) Bool, (systemOn 1 (Fin 1) Bool).Reachable s ∧
      s.step 0 .breadReturn = .next s' ∧ s.current 1 5 = true ∧ (s'.buf 0).data = true := by
  obtain ⟨s, reachable, asked, last, current⟩ := (systemOn 1 (Fin 1) Bool).exists_reachable
    booted_initial (missSteps 1 5 ++ writeSteps 0 ++ releaseSteps 0 ++ hitSteps 1 5)
    (motive := fun s => (s.pc 0).request = some (0, 1, 5) ∧
      (s.step 0 .breadReturn).next?.isSome ∧ s.current 1 5 = true) (by decide +kernel)
  simp only [Option.isSome_iff_exists, Outcome.next?_eq_some] at last
  obtain ⟨s', returned⟩ := last
  refine ⟨s, s', reachable, returned, current, ?_⟩
  rw [bread_current.2 1 s s' 0 0 1 5 reachable asked returned, current]

/-- Block 5 of device 2 is read and released, then written through device 1.
The driver writes the same disk block, but the buffer of device 2 is stale. -/
theorem bread_stale_of_two_devices :
    ∃ s s' : State (Fin 1) Bool, (system (Fin 1) Bool).Reachable s ∧
      (s.pc 0).request = some (0, 2, 5) ∧ s.step 0 .breadReturn = .next s' ∧
      (s'.buf 0).data ≠ s.current 2 5 := by
  obtain ⟨s, reachable, asked, last⟩ := (system (Fin 1) Bool).exists_reachable booted_initial
    (missSteps 2 5 ++ releaseSteps 0 ++ missSteps 1 5 ++ writeSteps 1 ++ releaseSteps 1 ++
      hitSteps 2 5) (motive := fun s => (s.pc 0).request = some (0, 2, 5) ∧
      (s.step 0 .breadReturn).next?.map (fun s' => ((s'.buf 0).data, s.current 2 5)) =
        some (false, true)) (by decide +kernel)
  simp only [Prod.mk.injEq, Option.map_eq_some_iff, Outcome.next?_eq_some] at last
  obtain ⟨s', returned, stale, current⟩ := last
  refine ⟨s, s', reachable, asked, returned, ?_⟩
  rw [stale, current]
  decide

end Xv6.Bio
