import Xv6.Proc.Machine

/-!
# The process tree

The protocol that `fork`, `exit` and `wait` follow under `wait_lock`, without the
code around it: who is whose parent, who has exited, and what each process is
about to do to the tree. The steps of the process table are steps of this
protocol.
-/

namespace Xv6.Proc

open Function

/-- What a process does to the tree. -/
inductive Phase (n : Nat) where
  | idle
  /-- In `exit`, before `acquire(&wait_lock)`. -/
  | departing
  /-- With `wait_lock`, about to release it. -/
  | locked
  /-- With `wait_lock`, about to set the parent of a new process. -/
  | parenting (np : Fin n)
  /-- In `reparent`. -/
  | exiting (todo : List (Fin n))
  /-- In the `wakeup` of `reparent`. -/
  | adopting (chan : Chan n) (todo rest : List (Fin n))
  /-- In the `wakeup` of `exit`. -/
  | warning (chan : Chan n) (rest : List (Fin n))
  /-- After the `wakeup` of `exit`. -/
  | warned
  /-- In the loop of `wait`, or after it and about to sleep. -/
  | looking (rest : List (Fin n))
  /-- In `wait`, put to sleep or about to be. -/
  | asleep
  deriving DecidableEq

namespace Phase

variable {n : Nat}

/-- With `wait_lock`. -/
def Owns : Phase n → Prop
  | .idle | .departing | .asleep => False
  | _ => True

def Exits : Phase n → Prop
  | .departing | .exiting _ | .adopting _ _ _ | .warning _ _ | .warned => True
  | _ => False

/-- The processes that can still be children of an exiting one. -/
def children : Phase n → Option (List (Fin n))
  | .exiting todo | .adopting _ todo _ => some todo
  | .warning _ _ | .warned => some []
  | _ => none

end Phase

structure Tree (n : Nat) where
  state : Fin n → ProcState
  parent : Fin n → Option (Fin n)
  phase : Fin n → Phase n
  /-- The process that has `wait_lock`. -/
  owner : Option (Fin n)

namespace Tree

variable {n : Nat}

/-- Nobody exits or is freed, and no parent changes. -/
structure Quiet (t t' : Tree n) : Prop where
  parent : t'.parent = t.parent
  zombie : ∀ q, t'.state q = .zombie → t.state q = .zombie
  unused : ∀ q, t'.state q = .unused → t.state q = .unused

/-- A process without `wait_lock` can wake up or begin to exit. -/
inductive Drifts (initproc : Fin n) (t t' : Tree n) (q : Fin n) : Prop where
  | stay : t'.phase q = t.phase q → Drifts initproc t t' q
  | wake : t.phase q = .asleep → t'.phase q = .idle → Drifts initproc t t' q
  | depart : t.phase q = .idle → t'.phase q = .departing → q ≠ initproc → Drifts initproc t t' q

variable (t t' : Tree n) (p : Fin n) in
/-- What a process with `wait_lock` does without changing the tree. -/
inductive Advance : Phase n → Phase n → Prop where
  | stranger {q todo} : t.parent q ≠ some p → Advance (.exiting (q :: todo)) (.exiting todo)
  | warn {parent} : t.parent p = some parent →
      Advance (.exiting []) (.warning (.proc parent) (table n))
  | orphan : t.parent p = none → Advance (.exiting []) .warned
  | adopted {chan todo q rest} : (chan = .proc q → t'.phase q ≠ .asleep) →
      Advance (.adopting chan todo (q :: rest)) (.adopting chan todo rest)
  | resume {chan todo} : Advance (.adopting chan todo []) (.exiting todo)
  | warning {chan q rest} : (chan = .proc q → t'.phase q ≠ .asleep) →
      Advance (.warning chan (q :: rest)) (.warning chan rest)
  | warned {chan} : Advance (.warning chan []) .warned
  | look {q rest} : (t.parent q = some p → t.state q ≠ .zombie) →
      Advance (.looking (q :: rest)) (.looking rest)
  | stop {rest} : Advance (.looking rest) .locked

inductive Enters : Phase n → Phase n → Prop where
  | fork {np} : Enters .idle (.parenting np)
  | exit : Enters .departing (.exiting (table n))
  | wait : Enters .idle (.looking (table n))

inductive Leaves : Phase n → Phase n → Prop where
  | done : Leaves .locked .idle
  | sleep : Leaves (.looking []) .asleep

variable (initproc : Fin n) (t t' : Tree n) (p : Fin n) in
inductive Act : Prop where
  | advance : Quiet t t' → t'.owner = t.owner → Advance t t' p (t.phase p) (t'.phase p) → Act
  | lock : Quiet t t' → t.owner = none → t'.owner = some p → Enters (t.phase p) (t'.phase p) → Act
  | unlock : Quiet t t' → t.owner = some p → t'.owner = none → Leaves (t.phase p) (t'.phase p) → Act
  | parent {np} : t.phase p = .parenting np → t'.phase p = .locked →
      t'.parent = update t.parent np (some p) → t'.state = t.state →
      t.state p = .running → t.state np = .used → t'.owner = t.owner → Act
  | adopt {q todo} : t.phase p = .exiting (q :: todo) → t.parent q = some p →
      t'.phase p = .adopting (.proc initproc) todo (table n) →
      t'.parent = update t.parent q (some initproc) → t'.state = t.state → t'.owner = t.owner → Act
  | die : t.phase p = .warned → t'.phase p = .locked → t'.parent = t.parent →
      t'.state = update t.state p .zombie → t'.owner = t.owner → Act
  | reap {q rest} : t.phase p = .looking (q :: rest) → t'.phase p = .locked →
      t.state q = .zombie → t'.parent = update t.parent q none →
      t'.state = update t.state q .unused → t'.owner = t.owner → Act

inductive Step (initproc : Fin n) (t t' : Tree n) : Prop where
  | act {p} : Act initproc t t' p → (∀ q, q ≠ p → Drifts initproc t t' q) → Step initproc t t'
  | drift : Quiet t t' → t'.owner = t.owner → (∀ q, Drifts initproc t t' q) → Step initproc t t'

structure Local (initproc : Fin n) (t : Tree n) (p : Fin n) : Prop where
  exits : (t.phase p).Exits → p ≠ initproc
  owner : (t.phase p).Owns → t.owner = some p
  orphans : ∀ q todo, (t.phase p).children = some todo → t.parent q = some p → q ∈ todo
  adopts : ∀ chan todo rest, t.phase p = .adopting chan todo rest → chan = .proc initproc
  warns : ∀ chan rest, t.phase p = .warning chan rest → ∃ parent, chan = .proc parent ∧
    t.parent p = some parent ∧ (t.phase parent = .asleep → parent ∈ rest)
  warned : ∀ parent, t.phase p = .warned → t.parent p = some parent → t.phase parent ≠ .asleep
  looks : ∀ q rest, t.phase p = .looking rest → t.parent q = some p → t.state q = .zombie → q ∈ rest

structure Kinship (initproc : Fin n) (t : Tree n) : Prop where
  freed : ∀ q, t.state q = .unused → t.parent q = none
  init : t.state initproc ≠ .unused ∧ t.state initproc ≠ .zombie
  alive : ∀ p q, t.parent q = some p → t.state p ≠ .unused ∧ t.state p ≠ .zombie

structure Inv (initproc : Fin n) (t : Tree n) : Prop extends Kinship initproc t where
  knows : ∀ p, Local initproc t p
  /-- A process is asleep in `wait` with a zombie for a child only while `reparent` is
  about to wake it up. -/
  settled : ∀ p q, t.parent q = some p → t.state q = .zombie → t.phase p = .asleep →
    ∃ x todo rest, t.phase x = .adopting (.proc p) todo rest ∧ p ∈ rest

variable {initproc : Fin n} {t t' : Tree n} {p q : Fin n}

theorem Drifts.asleep (drifts : Drifts initproc t t' q) (asleep : t'.phase q = .asleep) :
    t.phase q = .asleep := by
  cases drifts with
  | stay same => rw [← same, asleep]
  | wake _ now | depart _ now => rw [now] at asleep; cases asleep

theorem Drifts.owns (drifts : Drifts initproc t t' q) (owns : (t'.phase q).Owns) :
    t'.phase q = t.phase q := by
  cases drifts with
  | stay same => exact same
  | wake _ now | depart _ now => rw [now] at owns; exact owns.elim

theorem Drifts.exits (drifts : Drifts initproc t t' q)
    (known : (t.phase q).Exits → q ≠ initproc) (exits : (t'.phase q).Exits) : q ≠ initproc := by
  cases drifts with
  | stay same => exact known (same ▸ exits)
  | wake _ awake => rw [awake] at exits; exact exits.elim
  | depart _ _ other => exact other

theorem Local.of_not_owns (exits : (t.phase p).Exits → p ≠ initproc) (free : ¬ (t.phase p).Owns) :
    Local initproc t p := by
  refine ⟨exits, fun owns => absurd owns free, fun q todo isChildren => ?_, fun _ _ _ is => ?_,
    fun _ _ is => ?_, fun _ is => ?_, fun _ _ is => ?_⟩
  · cases at' : t.phase p with
    | exiting | adopting | warning | warned => exact absurd (at' ▸ trivial) free
    | _ => rw [at'] at isChildren; cases isChildren
  all_goals exact absurd (is ▸ trivial) free

theorem Local.exiting {todo : List (Fin n)} (now : t.phase p = .exiting todo)
    (owner : t.owner = some p) (other : p ≠ initproc)
    (orphans : ∀ q, t.parent q = some p → q ∈ todo) : Local initproc t p := by
  refine ⟨fun _ => other, fun _ => owner, fun q todo' isChildren => ?_, ?_, ?_, ?_, ?_⟩
  · rw [now] at isChildren
    cases isChildren
    exact orphans q
  all_goals simp [now]

theorem Local.adopting {todo rest : List (Fin n)}
    (now : t.phase p = .adopting (.proc initproc) todo rest) (owner : t.owner = some p)
    (other : p ≠ initproc) (orphans : ∀ q, t.parent q = some p → q ∈ todo) :
    Local initproc t p := by
  refine ⟨fun _ => other, fun _ => owner, fun q todo' isChildren => ?_, fun _ _ _ is => ?_, ?_, ?_,
    ?_⟩
  · rw [now] at isChildren
    cases isChildren
    exact orphans q
  · rw [now] at is
    cases is
    rfl
  all_goals simp [now]

variable {rest : List (Fin n)}

theorem Local.warning {parent : Fin n} (now : t.phase p = .warning (.proc parent) rest)
    (owner : t.owner = some p) (other : p ≠ initproc) (childless : ∀ q, t.parent q ≠ some p)
    (isParent : t.parent p = some parent) (warns : t.phase parent = .asleep → parent ∈ rest) :
    Local initproc t p := by
  refine ⟨fun _ => other, fun _ => owner, fun q _ _ isChild => absurd isChild (childless q), ?_,
    fun _ _ is => ?_, ?_, ?_⟩
  · simp [now]
  · rw [now] at is
    cases is
    exact ⟨parent, rfl, isParent, warns⟩
  all_goals simp [now]

theorem Local.dying (now : t.phase p = .warned) (owner : t.owner = some p) (other : p ≠ initproc)
    (childless : ∀ q, t.parent q ≠ some p)
    (warned : ∀ parent, t.parent p = some parent → t.phase parent ≠ .asleep) :
    Local initproc t p := by
  refine ⟨fun _ => other, fun _ => owner, fun q _ _ isChild => absurd isChild (childless q), ?_, ?_,
    fun parent _ => warned parent, ?_⟩
  all_goals simp [now]

theorem Local.looking (now : t.phase p = .looking rest) (owner : t.owner = some p)
    (looks : ∀ q, t.parent q = some p → t.state q = .zombie → q ∈ rest) : Local initproc t p := by
  refine ⟨?_, fun _ => owner, ?_, ?_, ?_, ?_, fun q rest' is => ?_⟩
  case refine_6 =>
    rw [now] at is
    cases is
    exact looks q
  all_goals simp [now, Phase.Exits, Phase.children]

theorem Local.locked (now : t.phase p = .locked ∨ ∃ np, t.phase p = .parenting np)
    (owner : t.owner = some p) : Local initproc t p := by
  rcases now with now | ⟨np, now⟩ <;> refine ⟨?_, fun _ => owner, ?_, ?_, ?_, ?_, ?_⟩ <;>
    simp [now, Phase.Exits, Phase.children]

theorem Kinship.quiet (kin : Kinship initproc t) (quiet : Quiet t t') : Kinship initproc t' := by
  refine ⟨fun q unused => ?_, ⟨fun unused => ?_, fun zombie => ?_⟩, fun p q isParent => ?_⟩
  · rw [quiet.parent]
    exact kin.freed q (quiet.unused q unused)
  · exact kin.init.1 (quiet.unused _ unused)
  · exact kin.init.2 (quiet.zombie _ zombie)
  · rw [quiet.parent] at isParent
    obtain ⟨inUse, living⟩ := kin.alive p q isParent
    exact ⟨fun is => inUse (quiet.unused p is), fun is => living (quiet.zombie p is)⟩

theorem Kinship.setParent (kin : Kinship initproc t) (inUse : t.state q ≠ .unused)
    (living : t.state p ≠ .unused ∧ t.state p ≠ .zombie)
    (parents : t'.parent = update t.parent q (some p)) (states : t'.state = t.state) :
    Kinship initproc t' := by
  refine ⟨fun r unused => ?_, states ▸ kin.init, fun r r' isParent => ?_⟩
  · rw [states] at unused
    rw [parents, update_of_ne (by rintro rfl; exact inUse unused)]
    exact kin.freed r unused
  · rw [parents] at isParent
    rw [states]
    by_cases same : r' = q
    · rw [same, update_self] at isParent
      cases isParent
      exact living
    · rw [update_of_ne same] at isParent
      exact kin.alive r r' isParent

theorem Inv.drift (inv : Inv initproc t) (quiet : Quiet t t') (owner : t'.owner = t.owner)
    (drifts : ∀ q, Drifts initproc t t' q) : Inv initproc t' := by
  refine ⟨inv.quiet quiet, fun p => ?_, fun p q isParent zombie asleep => ?_⟩
  · have known := inv.knows p
    have exits := (drifts p).exits known.exits
    by_cases owns : (t'.phase p).Owns
    · have same := (drifts p).owns owns
      refine ⟨exits, fun _ => ?_, ?_, ?_, fun chan rest is => ?_, fun parent is isParent => ?_,
        fun q rest is isParent zombie => ?_⟩
      · rw [owner]
        exact known.owner (same ▸ owns)
      · rw [same, quiet.parent]
        exact known.orphans
      · rw [same]
        exact known.adopts
      · rw [same] at is
        obtain ⟨parent, isChan, isParent, awake⟩ := known.warns chan rest is
        rw [quiet.parent]
        exact ⟨parent, isChan, isParent, fun asleep => awake ((drifts parent).asleep asleep)⟩
      · rw [same] at is
        rw [quiet.parent] at isParent
        exact fun asleep => known.warned parent is isParent ((drifts parent).asleep asleep)
      · rw [same] at is
        rw [quiet.parent] at isParent
        exact known.looks q rest is isParent (quiet.zombie q zombie)
    · exact .of_not_owns exits owns
  · rw [quiet.parent] at isParent
    obtain ⟨x, todo, rest, is, mem⟩ :=
      inv.settled p q isParent (quiet.zombie q zombie) ((drifts p).asleep asleep)
    have stays : t'.phase x = t.phase x := by
      cases drifts x with
      | stay same => exact same
      | wake before | depart before => rw [is] at before; cases before
    exact ⟨x, todo, rest, stays.trans is, mem⟩

theorem Inv.alone (inv : Inv initproc t) (owns : t.owner = some p) (other : q ≠ p) :
    ¬ (t.phase q).Owns := fun owns' =>
  other (Option.some.inj (((inv.knows q).owner owns').symm.trans owns))

/-- A step of the process that has `wait_lock`, or gets it. -/
theorem Inv.of_owner (inv : Inv initproc t) (alone : ∀ q, q ≠ p → ¬ (t.phase q).Owns)
    (drifts : ∀ q, q ≠ p → Drifts initproc t t' q)
    (kin : Kinship initproc t') (knows : Local initproc t' p)
    (settled : ∀ r q, t'.parent q = some r → t'.state q = .zombie → t'.phase r = .asleep →
      ∃ x todo rest, t'.phase x = .adopting (.proc r) todo rest ∧ r ∈ rest) :
    Inv initproc t' := by
  refine ⟨kin, fun q => ?_, settled⟩
  by_cases same : q = p
  · exact same ▸ knows
  · refine .of_not_owns ((drifts q same).exits (inv.knows q).exits) fun owns => ?_
    exact alone q same ((drifts q same).owns owns ▸ owns)

/-- Outside `reparent`, nobody else is asleep in `wait` with a zombie for a child. -/
theorem Inv.settled_of_owner (inv : Inv initproc t) (alone : ∀ q, q ≠ p → ¬ (t.phase q).Owns)
    {r : Fin n} (notAdopting : ∀ todo rest, t.phase p = .adopting (.proc r) todo rest → r ∉ rest)
    (isParent : t.parent q = some r) (zombie : t.state q = .zombie) : t.phase r ≠ .asleep := by
  intro asleep
  obtain ⟨x, todo, rest, is, mem⟩ := inv.settled r q isParent zombie asleep
  obtain rfl : x = p := by
    by_contra other
    exact alone x other (is ▸ trivial)
  exact notAdopting todo rest is mem

theorem Inv.of_quiet (inv : Inv initproc t) (quiet : Quiet t t')
    (alone : ∀ q, q ≠ p → ¬ (t.phase q).Owns) (drifts : ∀ q, q ≠ p → Drifts initproc t t' q)
    (knows : Local initproc t' p)
    (settled : ∀ r q, t.parent q = some r → t.state q = .zombie → t'.phase r = .asleep →
      ∃ x todo rest, t'.phase x = .adopting (.proc r) todo rest ∧ r ∈ rest) :
    Inv initproc t' := by
  refine inv.of_owner alone drifts (inv.quiet quiet) knows fun r q isParent zombie => ?_
  rw [quiet.parent] at isParent
  exact settled r q isParent (quiet.zombie q zombie)

section advance

variable (inv : Inv initproc t) (quiet : Quiet t t') (owner : t'.owner = t.owner)
  (drifts : ∀ q, q ≠ p → Drifts initproc t t' q)

include inv quiet owner drifts

theorem Inv.knows_advance (advance : Advance t t' p (t.phase p) (t'.phase p)) :
    Local initproc t' p := by
  have known := inv.knows p
  -- A process other than `p` that is asleep afterwards was asleep before.
  have slept : ∀ r, t'.phase p ≠ .asleep → t'.phase r = .asleep → t.phase r = .asleep := by
    intro r awake asleep
    have other : r ≠ p := by
      rintro rfl
      exact awake asleep
    exact (drifts r other).asleep asleep
  generalize before : t.phase p = phase at advance
  generalize now : t'.phase p = phase' at advance slept
  have owned : phase.Owns → t'.owner = some p :=
    fun owns => owner.trans (known.owner (before ▸ owns))
  have exits : phase.Exits → p ≠ initproc := fun exits => known.exits (before ▸ exits)
  have orphans : ∀ q todo, phase.children = some todo → t'.parent q = some p → q ∈ todo := by
    rw [quiet.parent, ← before]
    exact known.orphans
  cases advance with
  | stranger stranger =>
    refine .exiting now (owned trivial) (exits trivial) fun q isParent => ?_
    rcases List.mem_cons.mp (orphans q _ rfl isParent) with rfl | later
    · rw [quiet.parent] at isParent
      exact absurd isParent stranger
    · exact later
  | warn isParent =>
    refine .warning now (owned trivial) (exits trivial) (fun q isChild => ?_)
      (quiet.parent ▸ isParent) fun _ => List.mem_finRange _
    cases orphans q _ rfl isChild
  | orphan isOrphan =>
    refine .dying now (owned trivial) (exits trivial) (fun q isChild => ?_) fun parent isParent =>
      ?_
    · cases orphans q _ rfl isChild
    · rw [quiet.parent, isOrphan] at isParent
      cases isParent
  | @adopted chan todo q rest woken =>
    obtain rfl := known.adopts chan todo _ before
    exact .adopting now (owned trivial) (exits trivial) fun q => orphans q todo rfl
  | @resume chan todo =>
    exact .exiting now (owned trivial) (exits trivial) fun q => orphans q todo rfl
  | @warning chan q rest woken =>
    obtain ⟨parent, rfl, isParent, asleep⟩ := known.warns chan _ before
    refine .warning now (owned trivial) (exits trivial) (fun q isChild => ?_)
      (quiet.parent ▸ isParent) fun asleep' => ?_
    · cases orphans q _ rfl isChild
    · rcases List.mem_cons.mp (asleep (slept parent nofun asleep')) with rfl | later
      · exact absurd asleep' (woken rfl)
      · exact later
  | @warned chan =>
    obtain ⟨parent, rfl, isParent, asleep⟩ := known.warns chan _ before
    refine .dying now (owned trivial) (exits trivial) (fun q isChild => ?_)
      fun parent' isParent' asleep' => ?_
    · cases orphans q _ rfl isChild
    · rw [quiet.parent, isParent] at isParent'
      cases isParent'
      cases asleep (slept parent nofun asleep')
  | @look q rest found =>
    refine .looking now (owned trivial) fun r isParent zombie => ?_
    rw [quiet.parent] at isParent
    have zombie := quiet.zombie r zombie
    rcases List.mem_cons.mp (known.looks r _ before isParent zombie) with rfl | later
    · exact absurd zombie (found isParent)
    · exact later
  | stop => exact .locked (.inl now) (owned trivial)

theorem Inv.advance (advance : Advance t t' p (t.phase p) (t'.phase p)) : Inv initproc t' := by
  have knows := inv.knows_advance quiet owner drifts advance
  have alone : ∀ q, q ≠ p → ¬ (t.phase q).Owns := by
    refine fun q => inv.alone ((inv.knows p).owner ?_)
    generalize t.phase p = phase, t'.phase p = phase' at advance
    cases advance <;> trivial
  refine inv.of_quiet quiet alone drifts knows fun r q isParent zombie asleep => ?_
  have other : r ≠ p := by
    rintro rfl
    rw [asleep] at advance
    generalize t.phase r = phase at advance
    cases advance
  have slept : t.phase r = .asleep := (drifts r other).asleep asleep
  obtain ⟨x, todo, rest, is, mem⟩ := inv.settled r q isParent zombie slept
  obtain rfl : x = p := by
    by_contra different
    exact alone x different (is ▸ trivial)
  rw [is] at advance
  generalize now : t'.phase x = phase' at advance
  cases advance with
  | @adopted _ _ q' rest woken =>
    rcases List.mem_cons.mp mem with rfl | later
    · exact absurd asleep (woken rfl)
    · exact ⟨x, todo, rest, now, later⟩
  | resume => cases mem

end advance

theorem Inv.lock (inv : Inv initproc t) (quiet : Quiet t t') (free : t.owner = none)
    (owner : t'.owner = some p) (drifts : ∀ q, q ≠ p → Drifts initproc t t' q)
    (enters : Enters (t.phase p) (t'.phase p)) : Inv initproc t' := by
  have alone : ∀ q, ¬ (t.phase q).Owns := fun q owns => by
    rw [(inv.knows q).owner owns] at free
    cases free
  have known := inv.knows p
  generalize before : t.phase p = phase at enters
  generalize now : t'.phase p = phase' at enters
  have knows : Local initproc t' p := by
    cases enters with
    | fork => exact .locked (.inr ⟨_, now⟩) owner
    | exit =>
      exact .exiting now owner (known.exits (before ▸ trivial)) fun q _ => List.mem_finRange q
    | wait => exact .looking now owner fun q _ _ => List.mem_finRange q
  refine inv.of_quiet quiet (fun q _ => alone q) drifts knows fun r q isParent zombie asleep => ?_
  have other : r ≠ p := by
    rintro rfl
    rw [asleep] at now
    subst now
    cases enters
  obtain ⟨x, _, _, is, _⟩ := inv.settled r q isParent zombie ((drifts r other).asleep asleep)
  exact absurd (is ▸ trivial) (alone x)

theorem Inv.unlock (inv : Inv initproc t) (quiet : Quiet t t') (owns : t.owner = some p)
    (drifts : ∀ q, q ≠ p → Drifts initproc t t' q) (leaves : Leaves (t.phase p) (t'.phase p)) :
    Inv initproc t' := by
  have alone : ∀ q, q ≠ p → ¬ (t.phase q).Owns := fun q => inv.alone owns
  have known := inv.knows p
  generalize before : t.phase p = phase at leaves
  generalize now : t'.phase p = phase' at leaves
  have notAdopting : ∀ r todo rest, t.phase p = .adopting (.proc r) todo rest → r ∉ rest := by
    intro r todo rest is
    rw [before] at is
    subst is
    cases leaves
  refine inv.of_quiet quiet alone drifts (.of_not_owns ?_ ?_) fun r q isParent zombie asleep => ?_
  · rw [now]
    cases leaves <;> exact nofun
  · rw [now]
    cases leaves <;> exact id
  · by_cases same : r = p
    · subst same
      rw [asleep] at now
      subst now
      cases leaves
      cases known.looks q _ before isParent zombie
    · exact absurd ((drifts r same).asleep asleep)
        (inv.settled_of_owner alone (notAdopting r) isParent zombie)

section changes

variable (inv : Inv initproc t) (owner : t'.owner = t.owner)
  (drifts : ∀ q, q ≠ p → Drifts initproc t t' q)

include inv drifts

/-- Nobody but the process that has `wait_lock` is asleep with a zombie for a child. -/
theorem Inv.awake {phase : Phase n} {r : Fin n} (before : t.phase p = phase) (owns : phase.Owns)
    (notAdopting : ∀ todo rest, phase ≠ .adopting (.proc r) todo rest)
    (awake : t'.phase p ≠ .asleep) (isParent : t.parent q = some r) (zombie : t.state q = .zombie) :
    t'.phase r ≠ .asleep := by
  intro asleep
  have other : r ≠ p := by
    rintro rfl
    exact awake asleep
  have alone : ∀ q, q ≠ p → ¬ (t.phase q).Owns :=
    fun q => inv.alone ((inv.knows p).owner (before ▸ owns))
  exact inv.settled_of_owner alone (fun todo rest is => absurd (before.symm.trans is)
    (notAdopting todo rest)) isParent zombie ((drifts r other).asleep asleep)

include owner

theorem Inv.parent {np : Fin n} (before : t.phase p = .parenting np) (now : t'.phase p = .locked)
    (parents : t'.parent = update t.parent np (some p)) (states : t'.state = t.state)
    (running : t.state p = .running) (used : t.state np = .used) : Inv initproc t' := by
  have owns : t.owner = some p := (inv.knows p).owner (before ▸ trivial)
  refine inv.of_owner (fun q => inv.alone owns) drifts
    (inv.setParent (by simp [used]) (by simp [running]) parents states)
    (.locked (.inl now) (owner.trans owns)) fun r q isParent zombie asleep => ?_
  rw [states] at zombie
  have other : q ≠ np := by
    rintro rfl
    rw [used] at zombie
    cases zombie
  rw [parents, update_of_ne other] at isParent
  exact absurd asleep (inv.awake drifts before trivial nofun (by simp [now]) isParent zombie)

theorem Inv.adopt {q : Fin n} {todo : List (Fin n)} (before : t.phase p = .exiting (q :: todo))
    (isChild : t.parent q = some p) (now : t'.phase p = .adopting (.proc initproc) todo (table n))
    (parents : t'.parent = update t.parent q (some initproc)) (states : t'.state = t.state) :
    Inv initproc t' := by
  have known := inv.knows p
  have owns : t.owner = some p := known.owner (before ▸ trivial)
  have other : p ≠ initproc := known.exits (before ▸ trivial)
  have inUse : t.state q ≠ .unused := fun unused => by
    rw [inv.freed q unused] at isChild
    cases isChild
  refine inv.of_owner (fun q => inv.alone owns) drifts
    (inv.setParent inUse inv.init parents states)
    (.adopting now (owner.trans owns) other fun r isParent => ?_)
    fun r r' isParent zombie asleep => ?_
  · rw [parents] at isParent
    by_cases same : r = q
    · rw [same, update_self] at isParent
      exact absurd (Option.some.inj isParent).symm other
    · rw [update_of_ne same] at isParent
      exact (List.mem_cons.mp (known.orphans r _ (before ▸ rfl) isParent)).resolve_left same
  · rw [states] at zombie
    rw [parents] at isParent
    by_cases same : r' = q
    · rw [same, update_self] at isParent
      cases isParent
      exact ⟨p, todo, table n, now, List.mem_finRange _⟩
    · rw [update_of_ne same] at isParent
      exact absurd asleep (inv.awake drifts before trivial nofun (by simp [now]) isParent zombie)

theorem Inv.die (before : t.phase p = .warned) (now : t'.phase p = .locked)
    (parents : t'.parent = t.parent) (states : t'.state = update t.state p .zombie) :
    Inv initproc t' := by
  have known := inv.knows p
  have owns : t.owner = some p := known.owner (before ▸ trivial)
  have other : initproc ≠ p := (known.exits (before ▸ trivial)).symm
  refine inv.of_owner (fun q => inv.alone owns) drifts
    ⟨fun q unused => ?_, ?_, fun r q isParent => ?_⟩ (.locked (.inl now) (owner.trans owns))
    fun r q isParent zombie asleep => ?_
  · rw [states] at unused
    have different : q ≠ p := by
      rintro rfl
      rw [update_self] at unused
      cases unused
    rw [update_of_ne different] at unused
    rw [parents]
    exact inv.freed q unused
  · rw [states, update_of_ne other]
    exact inv.init
  · rw [parents] at isParent
    have different : r ≠ p := by
      rintro rfl
      cases known.orphans q [] (before ▸ rfl) isParent
    rw [states, update_of_ne different]
    exact inv.alive r q isParent
  · rw [parents] at isParent
    by_cases same : q = p
    · subst same
      have different : r ≠ q := by
        rintro rfl
        rw [now] at asleep
        cases asleep
      exact absurd ((drifts r different).asleep asleep) (known.warned r before isParent)
    · rw [states, update_of_ne same] at zombie
      exact absurd asleep (inv.awake drifts before trivial nofun (by simp [now]) isParent zombie)

theorem Inv.reap {q : Fin n} (before : t.phase p = .looking (q :: rest))
    (now : t'.phase p = .locked) (zombie : t.state q = .zombie)
    (parents : t'.parent = update t.parent q none) (states : t'.state = update t.state q .unused) :
    Inv initproc t' := by
  have owns : t.owner = some p := (inv.knows p).owner (before ▸ trivial)
  -- Whoever has a parent afterwards is another process.
  have parentOf : ∀ {r r' : Fin n}, t'.parent r = some r' → r ≠ q ∧ t.parent r = some r' := by
    intro r r' isParent
    rw [parents] at isParent
    have different : r ≠ q := by
      rintro rfl
      rw [update_self] at isParent
      cases isParent
    rw [update_of_ne different] at isParent
    exact ⟨different, isParent⟩
  refine inv.of_owner (fun q => inv.alone owns) drifts
    ⟨fun r unused => ?_, ?_, fun r r' isParent => ?_⟩ (.locked (.inl now) (owner.trans owns))
    fun r r' isParent zombie' asleep => ?_
  · rw [parents]
    by_cases same : r = q
    · rw [same, update_self]
    · rw [states, update_of_ne same] at unused
      rw [update_of_ne same]
      exact inv.freed r unused
  · have different : initproc ≠ q := by
      rintro rfl
      exact inv.init.2 zombie
    rw [states, update_of_ne different]
    exact inv.init
  · have isParent := (parentOf isParent).2
    have different : r ≠ q := by
      rintro rfl
      exact (inv.alive r r' isParent).2 zombie
    rw [states, update_of_ne different]
    exact inv.alive r r' isParent
  · obtain ⟨different, isParent⟩ := parentOf isParent
    rw [states, update_of_ne different] at zombie'
    exact absurd asleep (inv.awake drifts before trivial nofun (by simp [now]) isParent zombie')

end changes

theorem Inv.step (inv : Inv initproc t) (step : Step initproc t t') : Inv initproc t' := by
  cases step with
  | drift quiet owner drifts => exact inv.drift quiet owner drifts
  | act acts drifts =>
    cases acts with
    | advance quiet owner advance => exact inv.advance quiet owner drifts advance
    | lock quiet free owner enters => exact inv.lock quiet free owner drifts enters
    | unlock quiet owns _ leaves => exact inv.unlock quiet owns drifts leaves
    | parent before now parents states running used owner =>
      exact inv.parent owner drifts before now parents states running used
    | adopt before isChild now parents states owner =>
      exact inv.adopt owner drifts before isChild now parents states
    | die before now parents states owner => exact inv.die owner drifts before now parents states
    | reap before now zombie parents states owner =>
      exact inv.reap owner drifts before now zombie parents states

end Tree

end Xv6.Proc
