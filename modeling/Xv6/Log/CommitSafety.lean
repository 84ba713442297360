import Xv6.Log.Pins

/-!
# Group commit over the buffer cache

The invariant of the log and the cache together, kept by every step of every
process, and what it means for a commit.
-/

namespace Xv6.LogCache

open CommitPc
open State
open Function

variable {Pid : Type} [Fintype Pid] [DecidableEq Pid]

structure Inv (cfg : Config) (s : State Pid) : Prop where
  bio : Bio.Inv s.bio
  data : Bio.DataInv cfg.dev s.bio
  log : GroupCommit.Inv s.log
  room : s.log.block = [] ∨ s.log.block.length < cfg.size
  home : ∀ blockno ∈ s.log.block, ¬ cfg.Region blockno
  loadsClean : LoadsClean s.bio
  settled : s.log.committing = false → Pinned cfg.dev s.bio s.log.block
  position : ∀ p, s.log.phase p = .committing → At cfg s.bio s.log.block p (s.pc p)

section steps

variable {cfg : Config} {s s' : State Pid} {p q : Pid}

theorem Inv.apart (inv : Inv cfg s) : CommitPc.Apart cfg s.log.block := by
  intro i j inRange inRange' same
  have member : s.log.block.getD i 0 ∈ s.log.block := by
    rw [List.getD_eq_getElem _ _ inRange]
    exact List.getElem_mem inRange
  have outside := inv.home _ member
  rcases inv.room with empty | room
  · simp [empty] at inRange
  · unfold Config.Region at outside
    omega

variable {action : Bio.Action Block} {pc : CommitPc}

omit [Fintype Pid] in
theorem stepIo_next (moved : s.stepIo p action pc = .next s') :
    ∃ bio, s.bio.step p action = .next bio ∧
      s' = { s with bio, pc := update s.pc p pc } := by
  unfold stepIo at moved
  split at moved
  next bio stepped => cases moved; exact ⟨bio, stepped, rfl⟩
  all_goals cases moved

omit [Fintype Pid] in
theorem stepLog_next {size : Nat} {action : GroupCommit.Action}
    {pc : GroupCommit.State Pid → CommitPc} (moved : s.stepLog size p action pc = .next s') :
    ∃ log, s.log.step size p action = .next log ∧
      s' = { s with log, pc := update s.pc p (pc log) } := by
  unfold stepLog at moved
  split at moved
  next log stepped => cases moved; exact ⟨log, stepped, rfl⟩
  all_goals cases moved

section

variable (inv : Inv cfg s)

include inv

variable {bio : Bio.State Pid Block}

theorem Inv.of_io {pc : Pid → CommitPc} (disciplined : Bio.Disciplined s.bio p action)
    (onDevice : Bio.OnDevice cfg.dev action) (owned : Owned s.bio p action)
    (moved : s.bio.step p action = .next bio)
    (settled : s.log.committing = false → Pinned cfg.dev bio s.log.block)
    (position : ∀ q, s.log.phase q = .committing → At cfg bio s.log.block q (pc q)) :
    Inv cfg { s with bio, pc } where
  bio := inv.bio.step disciplined moved
  data := inv.data.step inv.bio disciplined onDevice moved
  log := inv.log
  room := inv.room
  home := inv.home
  loadsClean := inv.loadsClean.step inv.bio (inv.bio.effect moved) owned
  settled := settled
  position := position

omit inv in
omit [Fintype Pid] in
theorem FileAccess.owned (access : FileAccess cfg s p action)
    (effect : Bio.Effect s.bio p action bio) :
    Owned s.bio p action ∧ action.Unpinning := by
  cases effect with
  | store _ held | brelse _ held =>
    refine ⟨fun b named => ?_, trivial⟩
    obtain rfl := Option.some.inj named
    exact held
  | bwrite | bpin | bunpin => exact access.elim
  | _ => exact ⟨fun b named => by simp [Bio.Action.target] at named, trivial⟩

theorem Inv.io
    (allowed : Disciplined cfg s p (.io action)) (moved : s.step cfg p (.io action) = .next s') :
    Inv cfg s' := by
  obtain ⟨phase, access, disciplined, onDevice⟩ := allowed
  obtain ⟨bio, stepped, rfl⟩ := stepIo_next moved
  have effect := inv.bio.effect stepped
  obtain ⟨owned, unpinning⟩ := access.owned effect
  refine inv.of_io disciplined onDevice owned stepped
    (fun free => (inv.settled free).io inv.bio effect unpinning) ?_
  intro q committing
  have other : q ≠ p := by
    rintro rfl
    rcases phase with outside | inOp <;> simp_all
  rw [update_of_ne other]
  exact (inv.position q committing).other inv.bio effect other unpinning owned

theorem Inv.commitIo (committing : s.log.phase p = .committing)
    (moved : s.stepIo p action pc = .next s') (disciplined : Bio.Disciplined s.bio p action)
    (onDevice : Bio.OnDevice cfg.dev action) (owned : Owned s.bio p action)
    (position : ∀ bio, Bio.Effect s.bio p action bio → At cfg bio s.log.block p pc) :
    Inv cfg s' := by
  obtain ⟨bio, stepped, rfl⟩ := stepIo_next moved
  have effect := inv.bio.effect stepped
  have busy : s.log.committing := inv.log.committer.mpr ⟨p, committing⟩
  refine inv.of_io disciplined onDevice owned stepped (fun free => by simp [free] at busy) ?_
  intro q committing'
  obtain rfl := inv.log.single p q committing committing'
  rw [update_self]
  exact position bio effect

omit inv in
omit [Fintype Pid] [DecidableEq Pid] in
theorem Owned.of_target (untargeted : action.target = none) :
    Owned s.bio p action := by
  intro b named
  simp [untargeted] at named

theorem Inv.commitBread (nonzero : cfg.dev ≠ 0) (committing : s.log.phase p = .committing)
    {blockno : Nat} (called : (s.pc p).call cfg s.log.block = .bread blockno)
    (moved : s.stepCommit cfg p = .next s') : Inv cfg s' := by
  have at' := inv.position p committing
  have asked : s.bio.pc p = .idle ∨
      ∃ b, (s.bio.pc p).request = some (b, cfg.dev, blockno) := by
    rcases at'.inside with idle | ⟨_, b, called', request⟩ | ⟨b, called', _⟩
    · exact .inl idle
    · obtain rfl := Call.bread.inj (called.symm.trans called')
      exact .inr ⟨b, request⟩
    · simp [called] at called'
  have busy : s.bio.pc p ≠ .idle → ∃ b, (s.bio.pc p).request = some (b, cfg.dev, blockno) :=
    asked.resolve_left
  simp only [stepCommit, called] at moved
  split at moved
  next idle =>
    refine inv.commitIo committing moved nonzero rfl (.of_target rfl) fun bio effect => ?_
    have request : ∃ b, (bio.pc p).request = some (b, cfg.dev, blockno) := by
      cases effect <;> simp [Bio.State.setPc, Bio.Pc.request]
    obtain ⟨b, request⟩ := request
    exact at'.breadStep inv.bio effect called rfl trivial request
  next b dev blockno' waits =>
    obtain ⟨c, request⟩ := busy (by simp [waits])
    refine inv.commitIo committing moved trivial trivial (.of_target rfl) fun bio effect => ?_
    refine at'.breadStep inv.bio effect called rfl trivial (b := c) ?_
    cases effect with
    | acquiresleep waits' => simpa [waits', Bio.State.setPc, Bio.Pc.request] using request
  next b dev blockno' reads =>
    obtain ⟨c, request⟩ := busy (by simp [reads])
    obtain rfl : b = c := by simp [reads, Bio.Pc.request] at request; exact request.1
    split at moved
    next valid =>
      refine inv.commitIo committing moved trivial trivial (.of_target rfl) fun bio effect => ?_
      exact at'.breadReturn inv.bio inv.loadsClean effect called
        (by simp [reads, Bio.Pc.loads]) request
    next invalid =>
      refine inv.commitIo committing moved trivial trivial (.of_target rfl) fun bio effect => ?_
      refine at'.breadStep inv.bio effect called rfl trivial (b := b) ?_
      cases effect with
      | virtioRead reads' => simpa [reads', Bio.State.setPc, Bio.Pc.request] using request
  next b dev blockno' filled =>
    obtain ⟨c, request⟩ := busy (by simp [filled])
    obtain rfl : b = c := by simp [filled, Bio.Pc.request] at request; exact request.1
    refine inv.commitIo committing moved trivial trivial (.of_target rfl) fun bio effect => ?_
    exact at'.breadReturn inv.bio inv.loadsClean effect called
      (by simp [filled, Bio.Pc.loads]) request
  next => cases moved

theorem Inv.commitCall (nonzero : cfg.dev ≠ 0) (committing : s.log.phase p = .committing)
    (notBread : ∀ blockno, (s.pc p).call cfg s.log.block ≠ .bread blockno)
    (notClear : (s.pc p).call cfg s.log.block ≠ .clear)
    (notFinish : (s.pc p).call cfg s.log.block ≠ .finish) (moved : s.stepCommit cfg p = .next s') :
    Inv cfg s' := by
  have at' := inv.position p committing
  have owned : ∀ {b : Fin nbuf} {blockno : Nat}, (b, blockno) ∈ (s.pc p).held cfg s.log.block →
      s.bio.pc p ≠ .releasing b → s.bio.holder b = some p :=
    fun member still => (at'.held _ member still).1.holder
  have named : ∀ {b : Fin nbuf} {action : Bio.Action Block}, action.target = some b →
      s.bio.holder b = some p → Owned s.bio p action := by
    intro b action target held c named
    rw [target] at named
    exact Option.some.inj named ▸ held
  cases called : (s.pc p).call cfg s.log.block with
  | bread blockno => exact absurd called (notBread blockno)
  | clear => exact absurd called notClear
  | finish => exact absurd called notFinish
  | memmove dst src =>
    obtain ⟨_, _, _, _, _, _, blockno, member⟩ := store_spec (.inl ⟨src, called⟩) at'.bound
    have held := owned member (at'.not_releasing (by simp [called]) _)
    simp only [stepCommit, called] at moved
    exact inv.commitIo committing moved trivial trivial (named rfl held)
      fun bio effect => at'.store inv.bio effect (.inl ⟨src, called⟩)
  | head buf =>
    obtain ⟨_, _, _, _, _, _, blockno, member⟩ := store_spec (.inr called) at'.bound
    have held := owned member (at'.not_releasing (by simp [called]) _)
    simp only [stepCommit, called] at moved
    exact inv.commitIo committing moved trivial trivial (named rfl held)
      fun bio effect => at'.store inv.bio effect (.inr called)
  | bwrite b =>
    obtain ⟨_, _, _, _, _, _, blockno, member⟩ := bwrite_spec called at'.bound
    have held := owned member (at'.not_releasing (by simp [called]) _)
    simp only [stepCommit, called] at moved
    exact inv.commitIo committing moved held trivial (named rfl held)
      fun bio effect => at'.bwrite inv.bio effect called
  | bunpin b =>
    obtain ⟨blockno, member, first, _⟩ := bunpin_spec called at'.bound
    have holds := (at'.held _ member (at'.not_releasing (by simp [called]) _)).1
    have one : s.bio.pins b = 1 :=
      at'.pinned.one holds.dev (by rw [first, holds.blockno]; exact List.mem_cons_self)
    have held : s.bio.holder b = some p := holds.holder
    simp only [stepCommit, called] at moved
    exact inv.commitIo committing moved ⟨by omega, .inr (.inr (by simp [held]))⟩ trivial
      (named rfl held)
      fun bio effect => at'.bunpin inv.bio nonzero inv.log.nodup effect called
  | brelse b =>
    obtain ⟨_, _, _, _, notDirty, blockno, member, _⟩ := brelse_spec called at'.bound inv.apart
    simp only [stepCommit, called] at moved
    split at moved
    next c releasing =>
      obtain rfl : c = b := by
        rcases at'.inside with idle | ⟨_, _, called', _⟩ | ⟨d, called', releasing'⟩
        · simp [idle] at releasing
        · simp [called] at called'
        · rw [called, Call.brelse.injEq] at called'
          rw [releasing, Bio.Pc.releasing.injEq] at releasing'
          rw [called', releasing']
      exact inv.commitIo committing moved trivial trivial (.of_target rfl)
        fun bio effect => at'.brelseDrop inv.bio inv.apart effect called releasing
    next idle =>
      obtain ⟨holds, clean⟩ := at'.held _ member (idle b)
      have clean := clean.resolve_left (by simp [notDirty])
      exact inv.commitIo committing moved ⟨holds.holder, clean⟩ trivial
        (named rfl holds.holder) fun bio effect => at'.brelse inv.bio effect called

variable {log : GroupCommit.State Pid}

theorem Inv.beginning {action : GroupCommit.Action} (begins : action = .call ∨ action = .beginOp)
    (effect : GroupCommit.Effect s.log p action log) :
    Inv cfg { s with log, pc := update s.pc p (s.pc p) } := by
  have same : log.block = s.log.block ∧ log.committing = s.log.committing ∧
      ∀ q, log.phase q = .committing → s.log.phase q = .committing := by
    cases effect <;> simp only [reduceCtorEq, or_self] at begins
    all_goals
      refine ⟨rfl, rfl, fun q committing => ?_⟩
      by_cases self : q = p
      · simp [self] at committing
      · simpa [self] using committing
  obtain ⟨block, committing, phases⟩ := same
  refine ⟨inv.bio, inv.data, inv.log.step effect, ?_, ?_, inv.loadsClean, ?_, ?_⟩
  · simpa only [block] using inv.room
  · simpa only [block] using inv.home
  · simpa only [block, committing] using inv.settled
  · intro q committing
    rw [update_eq_self, block]
    exact inv.position q (phases q committing)

theorem Inv.endOp (idle : s.bio.pc p = .idle) (effect : GroupCommit.Effect s.log p .endOp log) :
    Inv cfg { s with log, pc := update s.pc p (.enter log.block) } := by
  have log' := inv.log.step effect
  have free := inv.log.nobody_committing
  cases effect with
  | endCommit inside notCommitting last =>
    have pinned := inv.settled notCommitting
    refine ⟨inv.bio, inv.data, log', inv.room, inv.home, inv.loadsClean, ?_, ?_⟩
    · intro settled
      simp [GroupCommit.State.setPhase] at settled
    · intro q committing
      obtain rfl : q = p := by
        by_contra other
        exact free notCommitting q (by simpa [other] using committing)
      obtain ⟨pins, bound, none, unflushed⟩ := @enter_spec cfg s.log.block
      change At cfg s.bio s.log.block q (update s.pc q (.enter s.log.block) q)
      rw [update_self]
      exact ⟨pins.symm ▸ pinned, bound, by simp [none], by simp [none], by simp [unflushed],
        .inl idle⟩
  | endWake inside notCommitting others =>
    refine ⟨inv.bio, inv.data, log', inv.room, inv.home, inv.loadsClean,
      fun _ => inv.settled notCommitting, ?_⟩
    intro q committing
    exact absurd committing (log'.nobody_committing notCommitting q)

/-- `log.lh.n = 0`: all pins are gone by then. -/
theorem Inv.clear (called : (s.pc p).call cfg s.log.block = .clear)
    (effect : GroupCommit.Effect s.log p .clear log) :
    Inv cfg { s with log, pc := update s.pc p ((s.pc p).next log.block 0) } := by
  have log' := inv.log.step effect
  cases effect with
  | clear committing =>
    have at' := inv.position p committing
    have busy := inv.log.committer.mpr ⟨p, committing⟩
    have idle := at'.idle (by simp [called]) (by simp [called])
    have here : s.pc p = .clear := by
      cases pc : s.pc p <;> simp [pc, call] at called
      rfl
    refine ⟨inv.bio, inv.data, log', .inl rfl, by simp, inv.loadsClean, ?_, ?_⟩
    · intro settled
      simp [busy] at settled
    · intro q committing'
      obtain rfl := inv.log.single p q committing committing'
      change At cfg s.bio [] p (update s.pc p ((s.pc p).next [] 0) p)
      rw [update_self, here]
      have pinned := at'.pinned
      rw [here] at pinned
      exact ⟨pinned, fun _ => rfl, by simp [next, held],
        by simp [next, held], by simp [next, flushed],
        .inl idle⟩

theorem Inv.finish (called : (s.pc p).call cfg s.log.block = .finish)
    (committing : s.log.phase p = .committing)
    (effect : GroupCommit.Effect s.log p .commitDone log) :
    Inv cfg { s with log, pc := update s.pc p pc } := by
  have log' := inv.log.step effect
  have at' := inv.position p committing
  have here : s.pc p = .finish := by
    cases pc : s.pc p <;> simp [pc, call] at called
    rfl
  cases effect with
  | done _ empty =>
    refine ⟨inv.bio, inv.data, log', inv.room, inv.home, inv.loadsClean, ?_, ?_⟩
    · intro _
      change Pinned cfg.dev s.bio s.log.block
      have pinned := at'.pinned
      rw [here] at pinned
      rw [empty]
      exact pinned
    · intro q committing'
      exact absurd committing' (log'.nobody_committing rfl q)

theorem Inv.logWrite (nonzero : cfg.dev ≠ 0) {b : Fin nbuf}
    (allowed : Disciplined cfg s p (.logWrite b)) (moved : s.step cfg p (.logWrite b) = .next s') :
    Inv cfg s' := by
  obtain ⟨inside, idle, held, home⟩ := allowed
  have notCommitting := inv.log.not_committing inside
  have nobody := inv.log.nobody_committing notCommitting
  have pinned := inv.settled notCommitting
  have sameDev : (s.bio.buf b).dev = cfg.dev :=
    inv.data.device b (inv.bio.named b (inv.bio.valid_of_held idle held))
  have mayLog : GroupCommit.Disciplined s.log p (.logWrite (s.bio.buf b).blockno) := inside
  have mayPin : Bio.Disciplined s.bio p (.bpin b) := held
  simp only [step] at moved
  split at moved
  next logged stepped =>
    obtain ⟨log, logStep, rfl⟩ := stepLog_next stepped
    have effect := GroupCommit.step_effect mayLog logStep
    have log' := inv.log.step effect
    have size : s.log.block.length + 1 < cfg.size := by
      by_contra full
      simp only [GroupCommit.State.step] at logStep
      rw [if_pos (by omega)] at logStep
      cases logStep
    split at moved
    next absorbed =>
      cases moved
      cases effect with
      | absorb _ member =>
        exact ⟨inv.bio, inv.data, log', inv.room, inv.home, inv.loadsClean,
          fun _ => pinned, fun q committing => absurd committing (nobody q)⟩
      | append _ fresh => exact absurd absorbed fresh
    next new =>
      obtain ⟨bio, bioStep, rfl⟩ := stepIo_next moved
      have pins := inv.bio.effect bioStep
      cases effect with
      | absorb _ member => exact absurd member new
      | append _ fresh room =>
        have owned : Owned s.bio p (.bpin b) := by
          intro c named
          exact Option.some.inj named ▸ held
        refine ⟨inv.bio.step mayPin bioStep, inv.data.step inv.bio mayPin trivial bioStep, log',
          .inr ?_, ?_, inv.loadsClean.step inv.bio pins owned,
          fun _ => pinned.bpin inv.bio nonzero sameDev fresh pins,
          fun q committing => absurd committing (nobody q)⟩
        · change (s.log.block ++ [_]).length < _
          simpa using size
        · intro blockno member
          rcases List.mem_append.mp member with member | member
          · exact inv.home blockno member
          · rw [List.mem_singleton.mp member]
            exact home
  next stuck => exact (stuck s' moved).elim

theorem Inv.empty_of_finish (committing : s.log.phase p = .committing)
    (called : (s.pc p).call cfg s.log.block = .finish) : s.log.block = [] := by
  have bound := (inv.position p committing).bound
  cases pc : s.pc p <;> simp only [pc, call, reduceCtorEq] at called bound
  exact bound

theorem Inv.step (nonzero : cfg.dev ≠ 0) {action : Action}
    (allowed : Disciplined cfg s p action) (moved : s.step cfg p action = .next s') :
    Inv cfg s' := by
  cases action with
  | io action => exact inv.io allowed moved
  | beginCall =>
    simp only [State.step] at moved
    obtain ⟨log, stepped, rfl⟩ := stepLog_next moved
    have mayCall : GroupCommit.Disciplined s.log p .call := allowed.1
    exact inv.beginning (.inl rfl) (GroupCommit.step_effect mayCall stepped)
  | beginOp =>
    simp only [State.step] at moved
    obtain ⟨log, stepped, rfl⟩ := stepLog_next moved
    have mayBegin : GroupCommit.Disciplined s.log p .beginOp := allowed
    exact inv.beginning (.inr rfl) (GroupCommit.step_effect mayBegin stepped)
  | logWrite b => exact inv.logWrite nonzero allowed moved
  | endOp =>
    simp only [State.step] at moved
    obtain ⟨log, stepped, rfl⟩ := stepLog_next moved
    have mayEnd : GroupCommit.Disciplined s.log p .endOp := allowed.1
    exact inv.endOp allowed.2 (GroupCommit.step_effect mayEnd stepped)
  | commit =>
    have committing : s.log.phase p = .committing := allowed
    by_cases bread : ∃ blockno, (s.pc p).call cfg s.log.block = .bread blockno
    · obtain ⟨blockno, called⟩ := bread
      exact inv.commitBread nonzero committing called moved
    by_cases clear : (s.pc p).call cfg s.log.block = .clear
    · simp only [State.step, State.stepCommit, clear] at moved
      obtain ⟨log, stepped, rfl⟩ := stepLog_next moved
      have mayClear : GroupCommit.Disciplined s.log p .clear := committing
      exact inv.clear clear (GroupCommit.step_effect mayClear stepped)
    by_cases finish : (s.pc p).call cfg s.log.block = .finish
    · have empty := inv.empty_of_finish committing finish
      simp only [State.step, State.stepCommit, finish] at moved
      obtain ⟨log, stepped, rfl⟩ := stepLog_next moved
      have mayFinish : GroupCommit.Disciplined s.log p .commitDone := ⟨committing, empty⟩
      exact inv.finish finish committing (GroupCommit.step_effect mayFinish stepped)
    · exact inv.commitCall nonzero committing (by simpa using bread) clear finish moved

end

theorem Inv.initial (start : Initial cfg s) : Inv cfg s := by
  obtain ⟨bio, data⟩ := Bio.reachableOn_inv start.cache
  refine ⟨bio, data, .initial start.log, .inl start.log.block, ?_, ?_, ?_, ?_⟩
  · simp [start.log.block]
  · intro q b loads
    simp [start.idle, Bio.Pc.loads] at loads
  · exact fun _ => ⟨by simp [start.pins, start.log.block], by simp [start.log.block]⟩
  · intro q committing
    simp [start.log.phase] at committing

theorem reachable_inv (reachable : (system cfg Pid).Reachable s) : Inv cfg s :=
  reachable.invariant (fun _ start => .initial start)
    fun _ _ _ _ inv allowed moved => inv.step cfg.dev_ne_zero allowed moved

/-! ## Steps of the whole are steps of the parts -/

omit [Fintype Pid] in
/-- A step of `commit` is one of the cache, never a pin, or it erases the log,
or it finishes. -/
theorem stepCommit_cases (moved : s.stepCommit cfg p = .next s') :
    (∃ action pc, (∀ b, action ≠ .bpin b) ∧ s.stepIo p action pc = .next s') ∨
      (∃ pc, s.stepLog cfg.size p .clear pc = .next s') ∨
      ((s.pc p).call cfg s.log.block = .finish ∧
        ∃ pc, s.stepLog cfg.size p .commitDone pc = .next s') := by
  unfold stepCommit at moved
  cases called : (s.pc p).call cfg s.log.block with
  | clear => simp only [called] at moved; exact .inr (.inl ⟨_, moved⟩)
  | finish => simp only [called] at moved; exact .inr (.inr ⟨rfl, _, moved⟩)
  | bread blockno =>
    simp only [called] at moved
    left
    cases at' : s.bio.pc p with
    | reading b dev blockno' =>
      simp only [at'] at moved
      split at moved
      all_goals exact ⟨_, _, by simp, moved⟩
    | releasing b => simp [at'] at moved
    | _ => simp only [at'] at moved; exact ⟨_, _, by simp, moved⟩
  | brelse b =>
    simp only [called] at moved
    left
    split at moved
    all_goals exact ⟨_, _, by simp, moved⟩
  | _ => simp only [called] at moved; exact .inl ⟨_, _, by simp, moved⟩

theorem step_log (inv : Inv cfg s) {action : Action} (allowed : Disciplined cfg s p action)
    (moved : s.step cfg p action = .next s') :
    s'.log = s.log ∨ ∃ part, GroupCommit.Effect s.log p part s'.log := by
  cases action with
  | io action =>
    obtain ⟨bio, stepped, rfl⟩ := stepIo_next moved
    exact .inl rfl
  | beginCall =>
    simp only [step] at moved
    obtain ⟨log, stepped, rfl⟩ := stepLog_next moved
    exact .inr ⟨.call, GroupCommit.step_effect allowed.1 stepped⟩
  | beginOp =>
    simp only [step] at moved
    obtain ⟨log, stepped, rfl⟩ := stepLog_next moved
    exact .inr ⟨.beginOp, GroupCommit.step_effect allowed stepped⟩
  | logWrite b =>
    simp only [step] at moved
    split at moved
    next logged stepped =>
      obtain ⟨log, logStep, rfl⟩ := stepLog_next stepped
      refine .inr ⟨.logWrite (s.bio.buf b).blockno, ?_⟩
      split at moved
      next => cases moved; exact GroupCommit.step_effect allowed.1 logStep
      next =>
        obtain ⟨bio, _, rfl⟩ := stepIo_next moved
        exact GroupCommit.step_effect allowed.1 logStep
    next stuck => exact (stuck s' moved).elim
  | endOp =>
    simp only [step] at moved
    obtain ⟨log, stepped, rfl⟩ := stepLog_next moved
    exact .inr ⟨.endOp, GroupCommit.step_effect allowed.1 stepped⟩
  | commit =>
    have committing : s.log.phase p = .committing := allowed
    rcases stepCommit_cases moved with ⟨_, _, _, moved⟩ | ⟨_, moved⟩ | ⟨called, _, moved⟩
    · obtain ⟨bio, _, rfl⟩ := stepIo_next moved
      exact .inl rfl
    · obtain ⟨log, stepped, rfl⟩ := stepLog_next moved
      have mayClear : GroupCommit.Disciplined s.log p .clear := committing
      exact .inr ⟨.clear, GroupCommit.step_effect mayClear stepped⟩
    · obtain ⟨log, stepped, rfl⟩ := stepLog_next moved
      have mayFinish : GroupCommit.Disciplined s.log p .commitDone :=
        ⟨committing, inv.empty_of_finish committing called⟩
      exact .inr ⟨.commitDone, GroupCommit.step_effect mayFinish stepped⟩

theorem step_pins (inv : Inv cfg s) {action : Action} (allowed : Disciplined cfg s p action)
    (committing : s.log.committing) (moved : s.step cfg p action = .next s') (b : Fin nbuf) :
    s'.bio.pins b ≤ s.bio.pins b := by
  have notInside := inv.log.nobody_inOp committing p
  cases action with
  | io action =>
    obtain ⟨bio, stepped, rfl⟩ := stepIo_next moved
    refine (inv.bio.effect stepped).pins_le b ?_
    rintro c rfl
    exact allowed.2.1.elim
  | beginCall | beginOp =>
    simp only [step] at moved
    obtain ⟨log, stepped, rfl⟩ := stepLog_next moved
    exact le_rfl
  | logWrite c | endOp => exact absurd allowed.1 notInside
  | commit =>
    rcases stepCommit_cases moved with ⟨_, _, notPin, moved⟩ | ⟨_, moved⟩ | ⟨_, _, moved⟩
    · obtain ⟨bio, stepped, rfl⟩ := stepIo_next moved
      exact (inv.bio.effect stepped).pins_le b notPin
    all_goals
      obtain ⟨log, _, rfl⟩ := stepLog_next moved
      exact le_rfl

section

omit [Fintype Pid]

variable {reason : GroupCommit.Panic}

theorem stepIo_fault :
    s.stepIo p action pc ≠ .fault (.log reason) := by
  unfold stepIo
  split <;> simp

theorem stepLog_fault {size : Nat} {action : GroupCommit.Action}
    {pc : GroupCommit.State Pid → CommitPc}
    (faulted : s.stepLog size p action pc = .fault (.log reason)) :
    s.log.step size p action = .fault reason := by
  unfold stepLog at faulted
  split at faulted
  next => cases faulted
  next => cases faulted
  next reason' stepped => cases faulted; exact stepped

theorem stepCommit_fault :
    s.stepCommit cfg p ≠ .fault (.log reason) := by
  unfold stepCommit
  cases called : (s.pc p).call cfg s.log.block with
  | clear | finish => simp [called, stepLog, GroupCommit.State.step]
  | bread blockno =>
    cases s.bio.pc p with
    | reading => simp only [called]; split <;> exact stepIo_fault
    | releasing => simp [called]
    | _ => simp only [called]; exact stepIo_fault
  | brelse b => simp only [called]; split <;> exact stepIo_fault
  | _ => simp only [called]; exact stepIo_fault

theorem step_fault {action : Action} (allowed : Disciplined cfg s p action)
    (faulted : s.step cfg p action = .fault (.log reason)) :
    ∃ part, GroupCommit.Disciplined s.log p part ∧
      s.log.step cfg.size p part = .fault reason := by
  cases action with
  | io action => exact absurd faulted stepIo_fault
  | beginCall => exact ⟨.call, allowed.1, stepLog_fault (by simpa only [step] using faulted)⟩
  | beginOp => exact ⟨.beginOp, allowed, stepLog_fault faulted⟩
  | logWrite b =>
    simp only [step] at faulted
    refine ⟨.logWrite (s.bio.buf b).blockno, allowed.1, ?_⟩
    split at faulted
    next => split at faulted; cases faulted; exact absurd faulted stepIo_fault
    next => exact stepLog_fault faulted
  | endOp => exact ⟨.endOp, allowed.1, stepLog_fault faulted⟩
  | commit => exact absurd faulted stepCommit_fault

end

end steps

/-! ## What a commit finds and leaves -/

/-- The logged blocks that are not yet unpinned: all of them before a commit,
and during it those that `install_trans` has still to write home. -/
def Awaiting (s : State Pid) (blocks : List Nat) : Prop :=
  (s.log.committing = false ∧ blocks = s.log.block) ∨
    ∃ p, s.log.phase p = .committing ∧ blocks = (s.pc p).pinned s.log.block

/-- The block is in the cache, pinned once, with its latest contents. -/
def CachedOnce (cfg : Config) (s : State Pid) (blockno : Nat) : Prop :=
  ∃ b, (s.bio.buf b).dev = cfg.dev ∧ (s.bio.buf b).blockno = blockno ∧ (s.bio.buf b).valid ∧
    1 ≤ (s.bio.buf b).refcnt ∧ s.bio.pins b = 1 ∧
    (s.bio.buf b).data = s.bio.current cfg.dev blockno

structure Correct (cfg : Config) (s : State Pid) : Prop where
  exclusive : s.log.committing → s.log.outstanding = 0 ∧ ∀ p, s.log.phase p ≠ .inOp
  /-- A transaction has all log writes of an operation or none. -/
  allOrNone : ∀ op, (∀ w ∈ s.log.writes, w.op = op → w.transaction = s.log.transaction) ∨
    ∀ w ∈ s.log.writes, w.op = op → w.transaction ≠ s.log.transaction
  nodup : s.log.block.Nodup
  logged : ∀ blockno, blockno ∈ s.log.block ↔ blockno ∈ s.log.logged
  cached : ∀ blocks, Awaiting s blocks → ∀ blockno ∈ blocks, CachedOnce cfg s blockno
  pins : ∀ blocks, Awaiting s blocks → ∀ b, s.bio.pins b =
    if (s.bio.buf b).dev = cfg.dev ∧ (s.bio.buf b).blockno ∈ blocks then 1 else 0
  /-- `write_log` finds a logged block in the cache and copies its latest contents. -/
  hits : ∀ p tail dst b dev blockno, s.log.phase p = .committing → s.pc p = .logFrom tail dst →
    s.bio.pc p = .reading b dev blockno → (s.bio.buf b).valid
  copies : ∀ p tail dst src, s.log.phase p = .committing → s.pc p = .logMove tail dst src →
    (s.bio.buf src).data = s.bio.current cfg.dev (s.log.block.getD tail 0)
  asleep : ∀ p, s.log.phase p = .asleep →
    s.log.committing ∨ s.log.block.length + (s.log.outstanding + 1) * maxOpBlocks > logSize

section results

variable {cfg : Config} {s s' : State Pid} {p : Pid}

theorem Inv.awaiting (inv : Inv cfg s) {blocks : List Nat} (awaiting : Awaiting s blocks) :
    Pinned cfg.dev s.bio blocks := by
  rcases awaiting with ⟨free, rfl⟩ | ⟨p, committing, rfl⟩
  · exact inv.settled free
  · exact (inv.position p committing).pinned

theorem Inv.cachedOnce (inv : Inv cfg s) {blocks : List Nat} (awaiting : Awaiting s blocks)
    {blockno : Nat} (member : blockno ∈ blocks) : CachedOnce cfg s blockno := by
  have pinned := inv.awaiting awaiting
  obtain ⟨b, sameDev, rfl⟩ := pinned.cached blockno member
  have one := pinned.one sameDev member
  have valid := inv.bio.pinned b (by omega)
  have count := inv.bio.count b
  exact ⟨b, sameDev, rfl, valid, by omega, one, inv.data.cached b valid⟩

theorem Inv.correct (inv : Inv cfg s) : Correct cfg s where
  exclusive committing := ⟨inv.log.quiet committing, inv.log.nobody_inOp committing⟩
  allOrNone op := by
    by_cases some : ∃ w ∈ s.log.writes, w.op = op ∧ w.transaction = s.log.transaction
    · obtain ⟨w, member, same, now⟩ := some
      refine .inl fun v member' same' => ?_
      rw [inv.log.atomic v member' w member (same'.trans same.symm), now]
    · push Not at some
      exact .inr some
  nodup := inv.log.nodup
  logged := inv.log.logged
  cached _ awaiting _ member := inv.cachedOnce awaiting member
  pins _ awaiting := (inv.awaiting awaiting).pins
  hits p tail dst b dev blockno committing here reads := by
    have at' := inv.position p committing
    obtain ⟨rfl, rfl⟩ : dev = cfg.dev ∧ blockno = s.log.block.getD tail 0 := by
      rcases at'.inside with idle | ⟨_, _, called, request⟩ | ⟨_, called, _⟩
      · simp [idle] at reads
      · simp only [reads, Bio.Pc.request, Option.some.injEq, Prod.mk.injEq] at request
        simp only [here, call, Call.bread.injEq] at called
        exact ⟨request.2.1, request.2.2.trans called.symm⟩
      · simp [here, call] at called
    obtain ⟨_, sameDev, sameBlock⟩ := inv.bio.keyed p b _ _ (by rw [reads]; rfl)
    have inRange : tail < s.log.block.length := by
      have bound := at'.bound
      rwa [here] at bound
    have one := at'.pinned.one sameDev (by
      rw [sameBlock, here, List.getD_eq_getElem _ _ inRange]
      exact List.getElem_mem inRange)
    exact inv.bio.pinned b (by omega)
  copies p tail dst src committing here := by
    have at' := inv.position p committing
    have idle := at'.idle (by simp [here, call]) (by simp [here, call])
    have holds := (at'.held (src, s.log.block.getD tail 0) (by simp [here, held])
      (by simp [idle])).1
    have sameBlock : (s.bio.buf src).blockno = s.log.block.getD tail 0 := holds.blockno
    rw [← sameBlock]
    exact inv.data.cached src (inv.bio.valid_of_held idle holds.holder)
  asleep := inv.log.asleep

/-- Group commit, over any interleaving. -/
theorem commit_complete (reachable : (system cfg Pid).Reachable s) :
    Correct cfg s ∧
      ∀ p action, Disciplined cfg s p action →
        s.step cfg p action ≠ .fault (.log .logCommitting) ∧
        s.step cfg p action ≠ .fault (.log .outsideTrans) ∧
        ∀ s', s.step cfg p action = .next s' → s.log.committing →
          (∀ q, s'.log.phase q ≠ .inOp) ∧ (∀ b, s'.bio.pins b ≤ s.bio.pins b) ∧
          (s'.log.committing = false → ∀ b, s'.bio.pins b = 0) := by
  have inv := reachable_inv reachable
  refine ⟨inv.correct, fun p action allowed => ⟨?_, ?_, ?_⟩⟩
  · intro faulted
    obtain ⟨part, disciplined, faulted⟩ := step_fault allowed faulted
    exact (inv.log.no_misuse disciplined).1 faulted
  · intro faulted
    obtain ⟨part, disciplined, faulted⟩ := step_fault allowed faulted
    exact (inv.log.no_misuse disciplined).2 faulted
  · intro s' moved committing
    have nobody := inv.log.nobody_inOp committing
    have inv' := inv.step cfg.dev_ne_zero allowed moved
    refine ⟨?_, step_pins inv allowed committing moved, ?_⟩
    · rcases step_log inv allowed moved with same | ⟨part, effect⟩
      · rwa [same]
      · exact (effect.of_committing committing nobody).1
    · intro done b
      have empty : s'.log.block = [] := by
        rcases step_log inv allowed moved with same | ⟨part, effect⟩
        · simp [same, committing] at done
        · exact (effect.of_committing committing nobody).2 done
      rw [(inv'.settled done).pins b, empty]
      simp

end results

/-! ## Runs -/

def mkfsLog : Config := ⟨2, logSize, 1, by decide⟩

def booted (count : Nat) : State (Fin count) where
  bio := ⟨.binit fun _ => 0, fun _ => none, fun _ _ => 0, fun _ => .idle, fun _ => 0,
    fun _ => false, fun _ _ => none⟩
  log := ⟨0, false, [], fun _ => .outside, fun _ => 0, 0, 0, []⟩
  pc _ := .finish

theorem booted_initial (count : Nat) : Initial mkfsLog (booted count) where
  cache := .initial
    ⟨⟨_, rfl⟩, fun _ => rfl, fun _ => rfl, fun _ => rfl, fun _ => rfl, fun _ _ => rfl⟩
  idle _ := rfl
  pins _ := rfl
  log := ⟨rfl, rfl, rfl, fun _ => rfl, rfl⟩

def writeOp : List (Fin 1 × Action) :=
  [.beginCall, .beginOp, .io (.bget 1 100), .io .acquiresleep, .io .virtioRead, .io .breadReturn,
    .io (.store 0 fun _ => 1), .logWrite 0, .io (.brelse 0), .io .brelseDrop, .endOp].map
      fun action => (⟨0, Nat.one_pos⟩, action)

def commitSteps (count : Nat) : List (Fin 1 × Action) :=
  List.replicate count (⟨0, Nat.one_pos⟩, .commit)

/-- Half way through its copy to the log, block 100 is pinned. -/
theorem commit_complete_writeOp :
    ∃ s : State (Fin 1), (system mkfsLog (Fin 1)).Reachable s ∧ s.log.committing ∧
      CachedOnce mkfsLog s 100 := by
  obtain ⟨s, reachable, committing, phase, pinned⟩ := (system mkfsLog (Fin 1)).exists_reachable
    (booted_initial 1) (writeOp ++ commitSteps 5) (motive := fun s => s.log.committing = true ∧
      s.log.phase 0 = .committing ∧ (s.pc 0).pinned s.log.block = [100]) (by decide +kernel)
  have correct := (commit_complete reachable).1
  exact ⟨s, reachable, committing,
    correct.cached [100] (.inr ⟨0, phase, pinned.symm⟩) 100 (by simp)⟩

/-- A process sleeps in `begin_op` for want of space while nobody commits, and
during `install_trans` a block is listed that has no pin any more. -/
theorem asleep_while_not_committing :
    (∃ s : State (Fin 4), (system mkfsLog (Fin 4)).Reachable s ∧ s.log.phase 3 = .asleep ∧
      s.log.committing = false) ∧
    ∃ s : State (Fin 1), (system mkfsLog (Fin 1)).Reachable s ∧ 100 ∈ s.log.block ∧
      ∀ b, s.bio.pins b = 0 := by
  constructor
  · exact (system mkfsLog (Fin 4)).exists_reachable (booted_initial 4)
      ((List.finRange 4).flatMap fun p => [(p, .beginCall), (p, .beginOp)]) (by decide +kernel)
  · exact (system mkfsLog (Fin 1)).exists_reachable (booted_initial 1) (writeOp ++ commitSteps 30)
      (by decide +kernel)

end Xv6.LogCache
