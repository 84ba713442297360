import Xv6.Bio.Invariant

/-!
# What a step leaves alone

A step of the cache names at most one buffer. The buffers that others hold, the
blocks of the buffers in use and the positions of the other processes stay.
-/

namespace Xv6.Bio

variable {Pid Data : Type} [DecidableEq Pid] {s s' : State Pid Data} {p q : Pid}
  {action : Action Data} {b : Fin nbuf}

def Action.target : Action Data → Option (Fin nbuf)
  | .store b _ | .bwrite b | .brelse b | .bpin b | .bunpin b => some b
  | _ => none

def Action.Unpinning : Action Data → Prop
  | .bpin _ | .bunpin _ => False
  | _ => True

section

variable (effect : Effect s q action s')

include effect

theorem Effect.pc_other (other : p ≠ q) : s'.pc p = s.pc p := by
  cases effect <;> simp [State.setPc, other]

theorem Effect.pins_eq (unpinning : action.Unpinning) :
    s'.pins = s.pins := by
  cases effect <;> first | rfl | exact unpinning.elim

theorem Effect.pins_le (b : Fin nbuf) (notPin : ∀ c, action ≠ .bpin c) : s'.pins b ≤ s.pins b := by
  cases effect with
  | @bpin c => exact absurd rfl (notPin c)
  | @bunpin c => by_cases here : b = c <;> simp [here]
  | _ => exact le_rfl

/-- A buffer gets another block only when nobody refers to it and no buffer has
that block. -/
theorem Effect.key_cases (b : Fin nbuf) :
    ((s'.buf b).dev = (s.buf b).dev ∧ (s'.buf b).blockno = (s.buf b).blockno) ∨
      ((s.buf b).refcnt = 0 ∧ action = .bget (s'.buf b).dev (s'.buf b).blockno ∧
        ∀ c, ¬ ((s.buf c).dev = (s'.buf b).dev ∧ (s.buf c).blockno = (s'.buf b).blockno)) := by
  cases effect with
  | @bgetRecycle c dev blockno idle absent zero =>
    by_cases here : b = c
    · subst here
      right
      simpa [State.setPc, State.buf, zero] using absent
    · left
      simp [State.setPc, State.buf, here]
  | acquiresleep | breadCached | bwrite | brelse => exact .inl ⟨rfl, rfl⟩
  | @bgetHit c | @virtioRead c | @breadFilled c | @store c | @brelseDrop c | @bpin c | @bunpin c =>
    left
    by_cases here : b = c <;>
      simp [State.setPc, State.buf, Bcache.bpin, Bcache.bunpin, here]

theorem Effect.keeps_key (used : 0 < (s.buf b).refcnt) :
    (s'.buf b).dev = (s.buf b).dev ∧ (s'.buf b).blockno = (s.buf b).blockno := by
  rcases effect.key_cases b with same | ⟨zero, _⟩
  · exact same
  · omega

end

structure Untouched (s s' : State Pid Data) (b : Fin nbuf) : Prop where
  holder : s'.holder b = s.holder b
  dev : (s'.buf b).dev = (s.buf b).dev
  blockno : (s'.buf b).blockno = (s.buf b).blockno
  changed : s'.changed b = s.changed b
  pins : s'.pins b = s.pins b

variable [Fintype Pid]

/-- A buffer whose lock is taken is changed only by a step that names it. -/
theorem Effect.untouched (effect : Effect s q action s') (inv : Inv s)
    (held : s.holder b = some p) (elsewhere : action.target ≠ some b) : Untouched s s' b := by
  have counted : (s.buf b).refcnt ≠ 0 := by
    intro zero
    have := (inv.unused zero).2.1
    simp [held] at this
  obtain ⟨dev, blockno⟩ := effect.keeps_key (b := b) (by have := inv.count b; omega)
  refine ⟨?_, dev, blockno, ?_, ?_⟩
  · cases effect with
    | @acquiresleep c _ _ _ free =>
      have here : b ≠ c := by rintro rfl; simp [held] at free
      simp [State.setPc, here]
    | @brelse c =>
      have here : b ≠ c := by rintro rfl; exact elsewhere rfl
      simp [State.setPc, here]
    | _ => rfl
  · cases effect with
    | @store c | @bwrite c =>
      have here : b ≠ c := by rintro rfl; exact elsewhere rfl
      simp [here]
    | _ => rfl
  · cases effect with
    | @bpin c | @bunpin c =>
      have here : b ≠ c := by rintro rfl; exact elsewhere rfl
      simp [here]
    | _ => rfl

end Xv6.Bio
