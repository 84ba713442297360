import Xv6.Disk.Contents
import Xv6.Disk.Table
import Xv6.Library.Transition

/-!
# Writing through a shared offset

`filewrite` of `kernel/file.c` on an inode. Processes that share a `struct file`
write to it in sections, each between `begin_op` and `end_op` and under the lock of
the inode, and between two sections of one call those of other calls may run. The
offset is read and moved on in the same section, so each section begins where the
one before it has ended, whoever ran it.
-/

namespace Xv6.Disk

open List
open OneFile
open Function
open Volume Overlay
open Prog (Ensures Returns)

variable {sb : Superblock} {s s' : Store} {inum : Nat}

/-- `((MAXOPBLOCKS-1-1-2) / 2) * BSIZE` -/
def maxWrite : Nat := (maxOpBlocks - 1 - 1 - 2) / 2 * bsize

/-- The log has room. -/
def beginOp : StoreM Unit := modify fun s => { s with outstanding := s.outstanding + 1 }

/-- The last operation commits the transaction. -/
def endOp : StoreM Unit :=
  modify fun s =>
    { s with outstanding := s.outstanding - 1, lh := if s.outstanding = 1 then [] else s.lh }

section

variable (sb : Superblock) (inum : Nat)

/-- One round of the loop: the result of `writei` and the new `f->off`. -/
def writeSection (source : Nat → Option UInt8) (off n1 : Nat) : StoreM (Int × Nat) := do
  beginOp
  let ip ← ilock sb inum
  let (r, ip) ← writei sb inum ip source off n1
  let off := if 0 < r then (off + r.toNat) % 2 ^ 32 else off
  iunlock inum ip
  endOp
  return (r, off)

end

structure Call where
  number : Nat
  /-- The bytes of the buffer that can be read. -/
  buffer : Nat → Option UInt8
  n : Int
  i : Nat
  /-- `writei` has returned less than it was asked for. -/
  broken : Bool

/-- `n1` -/
def Call.length (call : Call) : Nat := min (call.n - call.i).toNat maxWrite

def Call.Running (call : Call) : Prop := call.broken = false ∧ (call.i : Int) < call.n
  deriving Decidable

def Call.result (call : Call) : Int := if (call.i : Int) = call.n then call.n else -1

theorem Call.Running.length_pos {call : Call} (running : call.Running) : 0 < call.length := by
  have more := running.2
  have positive : 0 < maxWrite := by decide
  unfold Call.length
  omega

/-! ## One section -/

/-- The file can be written: its inode is in the table and in use. -/
structure Writable (sb : Superblock) (inum : Nat) (s : Store) : Prop where
  inside : inum < sb.ninodes
  ref : 0 < (s.table inum).ref
  unlocked : (s.table inum).locked = false
  copy : (s.table inum).valid = true → (s.table inum).inode = dinodeAt sb s.disk inum
  inUse : (dinodeAt sb s.disk inum).type ≠ 0
  owned : (volumeOf sb s.disk).Owned sb.first sb.size (Used sb s.disk)
  holeFree : (volumeOf sb s.disk).HoleFree inum

def fileContents (sb : Superblock) (inum : Nat) (s : Store) : List UInt8 :=
  (volumeOf sb s.disk).contents inum

theorem ilock_writable (writable : Writable sb inum s) :
    Returns (ilock sb inum) s fun inode s' => inode = dinodeAt sb s.disk inum ∧ s'.disk = s.disk ∧
      s'.lh = s.lh ∧ s'.outstanding = s.outstanding ∧ 0 < (s'.table inum).ref ∧
      (s'.table inum).locked = true := by
  unfold ilock setEntry
  have ref := writable.ref
  refine .bind (.get (.ite (fun none => absurd none (by omega)) fun _ => ?_))
  refine .ite (fun locked => absurd (locked.symm.trans writable.unlocked) (by decide)) fun _ => ?_
  refine .ite (fun valid => .bind (.of_modify (.pure ⟨writable.copy valid, rfl, rfl, rfl, ?_⟩)))
    fun _ =>
    .bind (.of_modify ?_)
  · simpa using ref
  · refine .ite (fun free => absurd free writable.inUse) fun _ => .pure ⟨rfl, rfl, rfl, rfl, ?_⟩
    simpa using ref

/-- What one section does to the disk: `writei` has refused it, or has written up to
`e`. -/
inductive Ran (sb : Superblock) (inum : Nat) (source : Nat → Option UInt8) (off n1 : Nat)
    (s s' : Store) : Int × Nat → Prop where
  | refused (refused : Refused (dinodeAt sb s.disk inum).size off n1) (disk : s'.disk = s.disk) :
      Ran sb inum source off n1 s s' (-1, off)
  | wrote {e : Nat} {s₁ s₂ : Store} {inode : Dinode}
      (accepted : ¬ Refused (dinodeAt sb s.disk inum).size off n1)
      (before : s₁.disk = s.disk) (after : s₂.disk = s'.disk)
      (written : Written sb inum source off n1 e s₁ (dinodeAt sb s₁.disk inum) s₂ inode)
      (advanced : Advanced sb inum source off n1 (volumeOf sb s₁.disk) s₁ (e - off) e
        (volumeOf sb s₂.disk) s₂) :
      Ran sb inum source off n1 s s' (((e - off : Nat) : Int), e)

variable {source : Nat → Option UInt8}

theorem writei_ran (sound : sb.Sound) {allowed : Stop → Prop} {off n1 : Nat} {s₀ : Store}
    (writable : Writable sb inum s₀) (disk : s.disk = s₀.disk)
    (stops : Ensures allowed (writei sb inum (dinodeAt sb s.disk inum) source off n1) s fun _ _ =>
      True) :
    Ensures allowed (writei sb inum (dinodeAt sb s.disk inum) source off n1) s fun r s' =>
      SameTable s s' ∧ r.2 = dinodeAt sb s'.disk inum ∧ r.2.type = (dinodeAt sb s.disk inum).type ∧
        (volumeOf sb s'.disk).Owned sb.first sb.size (Used sb s'.disk) ∧
        (volumeOf sb s'.disk).HoleFree inum ∧
        Ran sb inum source off n1 s₀ s' (r.1, off + r.1.toNat) := by
  have inUse := writable.inUse
  have owned := writable.owned
  have holeFree := writable.holeFree
  rw [← disk] at inUse owned holeFree
  have pays : Pays (fun _ => True) s Set.univ (2 * spanned off n1 + 0) :=
    .unlimited (fun _ _ => trivial) Set.mem_univ
  have spec := stops.and
    (writei_advanced sound writable.inside owned inUse holeFree (fun _ _ => Set.mem_univ _)
      (Set.mem_univ _) pays)
  refine (spec.imp fun _ => And.left).mono ?_
  rintro ⟨r, inode⟩ s' ⟨-, ⟨refused, is, rfl⟩ | ⟨accepted, e, is, -, written, advanced⟩, -⟩
  · obtain ⟨rfl, rfl⟩ := Prod.mk.inj is
    rw [disk] at refused
    exact ⟨.refl s', rfl, rfl, owned, holeFree, .refused refused disk⟩
  · have reached := written.reached
    have moved : off + r.toNat = e := by
      simp only at is
      omega
    have type := congrArg Dinode.type written.fields
    refine ⟨written.same, written.synced, type, written.owned,
      written.hole_free writable.inside holeFree, ?_⟩
    rw [moved, is]
    exact .wrote (by rwa [← disk]) disk (show s'.disk = _ from rfl) written advanced

theorem Ran.disk {off n1 : Nat} {r : Int × Nat} {s'' : Store}
    (ran : Ran sb inum source off n1 s s' r) (same : s''.disk = s'.disk) :
    Ran sb inum source off n1 s s'' r := by
  cases ran with
  | refused refused disk => exact .refused refused (same.trans disk)
  | wrote accepted before after written advanced =>
    exact .wrote accepted before (after.trans same.symm) written advanced

theorem Ran.moved {off n1 : Nat} {r : Int × Nat} (writable : Writable sb inum s)
    (ran : Ran sb inum source off n1 s s' r) :
    r.2 = off + r.1.toNat ∧ r.1 ≤ (n1 : Int) ∧
      (0 ≤ r.1 → off ≤ (fileContents sb inum s).length ∧ off + n1 ≤ maxFile * bsize) := by
  cases ran with
  | refused => exact ⟨rfl, by omega, fun positive => by simp at positive⟩
  | @wrote e s₁ s₂ inode accepted before after written advanced =>
    have reached := written.reached
    rw [fileContents, length_contents, volumeOf_inode writable.inside]
    unfold Refused at accepted
    exact ⟨by simp only [Int.toNat_natCast]; omega, by simp only; omega, fun _ => by omega⟩

/-- What a section has written is in the file. Only the bytes that it was asked for
have changed, and no other bytes if the whole source can be read. -/
theorem Ran.contents {off n1 : Nat} {r : Int × Nat} (writable : Writable sb inum s)
    (ran : Ran sb inum source off n1 s s' r) (exact : r.1 = (n1 : Int) ∨ ∀ j, (source j).isSome) :
    fileContents sb inum s' =
      overlay (fileContents sb inum s) off (sourceBytes source r.1.toNat) := by
  have within := (ran.moved writable).2.2
  cases ran with
  | refused _ disk =>
    rw [fileContents, disk]
    exact (overlay_nil _ _).symm
  | @wrote e s₁ s₂ inode accepted before after written advanced =>
    have inside := writable.inside
    have holeFree := writable.holeFree
    have reached := written.reached
    replace within := (within (Int.natCast_nonneg _)).1
    rw [fileContents, ← before, length_contents] at within
    rw [← before] at holeFree
    rw [fileContents, fileContents, ← before, ← after]
    refine written.contents inside holeFree within fun p low present outside => ?_
    rcases exact with all | all
    · exact written.kept inum p low present fun _ => by simp only at all; omega
    · exact written.precise all p low present outside

/-- The file can be written again after a section, and the transaction is at its end
if it was the only operation. A section stops only where `writei` does. -/
theorem writeSection_ran (sound : sb.Sound) {allowed : Stop → Prop} {off n1 : Nat}
    (writable : Writable sb inum s)
    (stops : ∀ s₁ : Store, s₁.disk = s.disk → s₁.lh = s.lh → s₁.outstanding = s.outstanding + 1 →
      Ensures allowed (writei sb inum (dinodeAt sb s₁.disk inum) source off n1) s₁ fun _ _ =>
        True) :
    Ensures allowed (writeSection sb inum source off n1) s fun r s' =>
      Writable sb inum s' ∧ s'.outstanding = s.outstanding ∧ (s.outstanding = 0 → s'.lh = []) ∧
        Ran sb inum source off n1 s s' r := by
  unfold writeSection beginOp endOp iunlock setEntry
  refine .bind (.of_modify (.bind ?_))
  have begun : Writable sb inum { s with outstanding := s.outstanding + 1 } := { writable with }
  refine .of_returns ((ilock_writable begun).mono ?_)
  rintro inode s₁ ⟨rfl, disk, log, count, ref, locked⟩
  change s₁.disk = s.disk at disk
  change Ensures _ (do
    let (r, ip) ← writei sb inum (dinodeAt sb s.disk inum) source off n1
    _) s₁ _
  rw [← disk]
  refine .seq (writei_ran sound writable disk (stops s₁ disk log count)) ?_
  rintro ⟨r, inode⟩ s₂ ⟨⟨table, -, count₂⟩, synced, type, owned₂, holeFree₂, ran⟩
  refine .bind
    (.bind
      (.get
        (.ite (fun wrong => ?_) fun _ => .of_modify (.bind (.of_modify (.pure ⟨?_, ?_, ?_, ?_⟩))))))
  · rw [table] at wrong
    rcases wrong with unlocked | none
    · exact absurd (unlocked.symm.trans locked) (by decide)
    · omega
  · exact {
      inside := writable.inside
      ref := by simpa [table] using ref
      unlocked := by simp
      copy := by simpa using fun _ => synced
      inUse := by
        have inUse := writable.inUse
        rw [synced, disk] at type
        rwa [← type] at inUse
      owned := owned₂
      holeFree := holeFree₂ }
  · simp only [count₂, count]
    omega
  · intro alone
    simp only [count₂, count, alone]
    rfl
  · obtain ⟨-, most, limits⟩ := ran.moved writable
    have limit : maxFile * bsize < 2 ^ 32 := by decide
    have moved : (if 0 < r then (off + r.toNat) % 2 ^ 32 else off) = off + r.toNat := by
      split <;> omega
    simp only [moved]
    exact ran.disk rfl

theorem writeSection_spec (sound : sb.Sound) {off n1 : Nat} (positive : 0 < n1)
    (writable : Writable sb inum s) :
    Ensures (fun _ => True) (writeSection sb inum source off n1) s fun r s' =>
      Writable sb inum s' ∧ (r.1 = (n1 : Int) →
        off ≤ (fileContents sb inum s).length ∧ r.2 = off + n1 ∧
          fileContents sb inum s' =
            overlay (fileContents sb inum s) off (sourceBytes source n1)) := by
  refine (writeSection_ran sound writable fun s₁ _ _ count =>
    (writei_stops (by omega)).imp fun _ _ => trivial).mono ?_
  rintro r s' ⟨writable', -, -, ran⟩
  refine ⟨writable', fun all => ?_⟩
  obtain ⟨moved, -, within⟩ := ran.moved writable
  have contents := ran.contents writable (.inl all)
  rw [all, Int.toNat_natCast] at moved contents
  exact ⟨(within (by omega)).1, moved, contents⟩

structure Section where
  /-- The call, before the section. -/
  call : Call
  off : Nat
  r : Int

def Section.data (sec : Section) : List UInt8 :=
  sourceBytes (fun j => sec.call.buffer (sec.call.i + j)) sec.call.length

def Section.Complete (sec : Section) : Prop := sec.r = sec.call.length
  deriving Decidable

namespace SharedOffset

/-- A `struct file`, the calls of the processes on it, and the file system. -/
structure State where
  store : Store
  off : Nat
  calls : Nat → Option Call
  /-- The number of calls so far. -/
  started : Nat
  /-- The sections that have run, the oldest first. -/
  history : List Section

inductive Event where
  | call (pid : Nat) (buffer : Nat → Option UInt8) (n : Int)
  | write (pid : Nat)
  | ret (pid : Nat) (result : Int)

def write (sb : Superblock) (inum : Nat) (s : State) (pid : Nat) (call : Call) :
    Outcome State Stop :=
  match writeSection sb inum (fun j => call.buffer (call.i + j)) s.off call.length s.store with
  | .error stop => .fault stop
  | .ok ((r, off), store) =>
    let call' :=
      if r = call.length then { call with i := call.i + call.length } else { call with broken :=
        true }
    .next { s with
      store := store
      off := off
      calls := update s.calls pid (some call')
      history := s.history ++ [⟨call, s.off, r⟩] }

def step (sb : Superblock) (inum : Nat) (s : State) : Event → Outcome State Stop
  | .call pid buffer n =>
    if s.calls pid = none then
      .next { s with
        calls := update s.calls pid (some ⟨s.started, buffer, n, 0, false⟩)
        started := s.started + 1 }
    else .blocked
  | .write pid =>
    match s.calls pid with
    | none => .blocked
    | some call => if call.Running then write sb inum s pid call else .blocked
  | .ret pid result =>
    match s.calls pid with
    | none => .blocked
    | some call =>
      if call.Running ∨ result ≠ call.result then .blocked
      else .next { s with calls := update s.calls pid none }

/-- The processes begin with `f->off` and no call. -/
def system (sb : Superblock) (inum : Nat) (store : Store) (off : Nat) :
    TransitionSystem State Event Stop where
  initial s := s = ⟨store, off, fun _ => none, 0, []⟩
  allowed _ _ := True
  step := step sb inum

instance {sb : Superblock} {inum : Nat} {store : Store} {off : Nat} (s : State) (event : Event) :
    Decidable ((system sb inum store off).allowed s event) := inferInstanceAs (Decidable True)

/-! ## All sections -/

def total (history : List Section) : Nat := (history.map fun sec => sec.call.length).sum

def ofCall (number : Nat) (history : List Section) : List Section :=
  history.filter fun sec => sec.call.number = number

@[simp] theorem total_append (before after : List Section) :
    total (before ++ after) = total before + total after := by
  simp [total]

@[simp] theorem total_singleton (sec : Section) : total [sec] = sec.call.length := by
  simp [total]

theorem length_flatMap_data (history : List Section) :
    (history.flatMap Section.data).length = total history := by
  induction history with
  | nil => rfl
  | cons sec history ih =>
    rw [flatMap_cons, length_append, ih, Section.data, length_sourceBytes]
    simp [total]

/-- Each section begins where the one before it has ended, and each section of a
call with the first byte of the buffer that is not written yet. -/
def Ordered (off : Nat) (history : List Section) : Prop :=
  ∀ before sec after, history = before ++ sec :: after →
    sec.off = off + total before ∧ sec.call.i = total (ofCall sec.call.number before) ∧
      ∀ earlier ∈ before, earlier.call.number = sec.call.number →
        earlier.call.buffer = sec.call.buffer

variable {history : List Section}

theorem Ordered.snoc {off : Nat} {sec : Section} (ordered : Ordered off history)
    (offset : sec.off = off + total history)
    (index : sec.call.i = total (ofCall sec.call.number history))
    (buffer : ∀ earlier ∈ history, earlier.call.number = sec.call.number →
      earlier.call.buffer = sec.call.buffer) :
    Ordered off (history ++ [sec]) := by
  intro before sec' after same
  rcases eq_nil_or_concat after with rfl | ⟨after', last, rfl⟩
  · obtain ⟨rfl, isLast⟩ := append_inj' same rfl
    obtain rfl : sec = sec' := singleton_inj.mp isLast
    exact ⟨offset, index, buffer⟩
  · rw [concat_eq_append, ← cons_append, ← append_assoc] at same
    exact ordered before sec' after' (append_inj' same rfl).1

theorem Ordered.ends {off : Nat} {sec : Section} (ordered : Ordered off history)
    (member : sec ∈ history) : sec.off + sec.call.length ≤ off + total history := by
  obtain ⟨before, after, rfl⟩ := append_of_mem member
  have := (ordered before sec after rfl).1
  have split : before ++ sec :: after = (before ++ [sec]) ++ after := by simp
  rw [split, total_append, total_append, total_singleton]
  omega

structure Consistent (sb : Superblock) (inum : Nat) (store : Store) (off : Nat) (s : State) :
    Prop where
  writable : Writable sb inum s.store
  offset : s.off = off + total s.history
  within : s.history ≠ [] → off ≤ (fileContents sb inum store).length
  contents : fileContents sb inum s.store =
    overlay (fileContents sb inum store) off (s.history.flatMap Section.data)
  ordered : Ordered off s.history
  disjoint : s.history.Pairwise fun sec sec' => sec.off + sec.call.length ≤ sec'.off
  sections : ∀ sec ∈ s.history, sec.call.number < s.started
  running : ∀ pid call, s.calls pid = some call → call.number < s.started ∧
    call.i = total (ofCall call.number s.history) ∧
    ∀ sec ∈ s.history, sec.call.number = call.number → sec.call.buffer = call.buffer
  apart : ∀ pid pid' call call', s.calls pid = some call → s.calls pid' = some call' →
    call.number = call'.number → pid = pid'

theorem ofCall_append (number : Nat) (history : List Section) (sec : Section) :
    ofCall number (history ++ [sec]) = ofCall number history ++
      if sec.call.number = number then [sec] else [] := by
  rw [ofCall, filter_append, filter_singleton]
  simp [ofCall]

theorem ofCall_eq_nil {number : Nat} (none : ∀ sec ∈ history, sec.call.number ≠ number) :
    ofCall number history = [] := by
  simpa [ofCall] using none

theorem update_eq_some {calls : Nat → Option Call} {pid pid' : Nat} {new : Option Call}
    {call : Call} (isCall : update calls pid new pid' = some call) :
    (pid' = pid ∧ new = some call) ∨ (pid' ≠ pid ∧ calls pid' = some call) := by
  by_cases here : pid' = pid
  · rw [here, update_self] at isCall
    exact .inl ⟨here, isCall⟩
  · rw [update_of_ne here] at isCall
    exact .inr ⟨here, isCall⟩

theorem write_history {st st' : State} {pid : Nat} {call : Call}
    (moved : write sb inum st pid call = .next st') :
    ∃ r, st'.history = st.history ++ [⟨call, st.off, r⟩] := by
  unfold write at moved
  split at moved
  next => cases moved
  next r off' store' run =>
    cases moved
    exact ⟨r, rfl⟩

section Step

variable {store : Store} {off : Nat} {st st' : State} (consistent : Consistent sb inum store off st)

include consistent

theorem Consistent.call {pid : Nat} {buffer : Nat → Option UInt8} {n : Int} :
    Consistent sb inum store off { st with
      calls := update st.calls pid (some ⟨st.started, buffer, n, 0, false⟩)
      started := st.started + 1 } where
  writable := consistent.writable
  offset := consistent.offset
  within := consistent.within
  contents := consistent.contents
  ordered := consistent.ordered
  disjoint := consistent.disjoint
  sections sec member := Nat.lt_succ_of_lt (consistent.sections sec member)
  running pid' call isCall := by
    rcases update_eq_some isCall with ⟨-, ⟨⟩⟩ | ⟨-, old⟩
    · have none : ∀ sec ∈ st.history, sec.call.number ≠ st.started :=
        fun sec member => Nat.ne_of_lt (consistent.sections sec member)
      refine ⟨Nat.lt_succ_self _, ?_, fun sec member same => absurd same (none sec member)⟩
      change 0 = total (ofCall st.started st.history)
      rw [ofCall_eq_nil none]
      rfl
    · obtain ⟨number, rest⟩ := consistent.running pid' call old
      exact ⟨Nat.lt_succ_of_lt number, rest⟩
  apart pid₁ pid₂ call₁ call₂ isCall₁ isCall₂ same := by
    rcases update_eq_some isCall₁ with ⟨rfl, ⟨⟩⟩ | ⟨-, old₁⟩ <;>
      rcases update_eq_some isCall₂ with ⟨rfl, ⟨⟩⟩ | ⟨-, old₂⟩
    · rfl
    · have := (consistent.running pid₂ call₂ old₂).1
      change st.started = _ at same
      omega
    · have := (consistent.running pid₁ call₁ old₁).1
      change _ = st.started at same
      omega
    · exact consistent.apart pid₁ pid₂ call₁ call₂ old₁ old₂ same

theorem Consistent.ret {pid : Nat} :
    Consistent sb inum store off { st with calls := update st.calls pid none } := by
  have kept : ∀ pid' call, update st.calls pid none pid' = some call →
      st.calls pid' = some call := by
    intro pid' call isCall
    rcases update_eq_some isCall with ⟨-, ⟨⟩⟩ | ⟨-, old⟩
    exact old
  exact { consistent with
    running := fun pid' call isCall => consistent.running pid' call (kept pid' call isCall)
    apart := fun pid₁ pid₂ call₁ call₂ isCall₁ isCall₂ =>
      consistent.apart pid₁ pid₂ call₁ call₂ (kept _ _ isCall₁) (kept _ _ isCall₂) }

theorem Consistent.wrote (sound : sb.Sound) {call : Call} (running : call.Running) (sec : Section)
    {store' : Store} {off' : Nat} (isCall : sec.call = call) (complete : sec.r = call.length)
    (run : writeSection sb inum (fun j => call.buffer (call.i + j)) st.off call.length st.store =
      .ok ((sec.r, off'), store')) :
    Writable sb inum store' ∧ off' = off + total (st.history ++ [sec]) ∧
    off ≤ (fileContents sb inum store).length ∧
      fileContents sb inum store' =
        overlay (fileContents sb inum store) off ((st.history ++ [sec]).flatMap Section.data) := by
  obtain ⟨writable, whole⟩ :=
    (writeSection_spec sound running.length_pos consistent.writable).of_ok run
  obtain ⟨within, moved, overlaid⟩ := whole complete
  have start : off ≤ (fileContents sb inum store).length := by
    by_cases none : st.history = []
    · have contents := consistent.contents
      rw [none, flatMap_nil, overlay_nil] at contents
      have offset := consistent.offset
      rw [none] at offset
      rw [← contents]
      exact le_trans (Nat.le_of_eq offset.symm) within
    · exact consistent.within none
  refine ⟨writable, ?_, start, ?_⟩
  · change off' = _ at moved
    rw [moved, consistent.offset, total_append, total_singleton, isCall]
    omega
  · have here : st.off = off + (st.history.flatMap Section.data).length := by
      rw [length_flatMap_data, consistent.offset]
    have data : sec.data = sourceBytes (fun j => call.buffer (call.i + j)) call.length := by
      rw [Section.data, isCall]
    rw [overlaid, consistent.contents, here, overlay_overlay start, flatMap_append, ← data]
    simp

theorem Consistent.write (sound : sb.Sound) {pid : Nat} {call : Call}
    (isCall : st.calls pid = some call) (running : call.Running)
    (moved : write sb inum st pid call = .next st') (complete : ∀ sec ∈ st'.history, sec.Complete) :
    Consistent sb inum store off st' := by
  unfold SharedOffset.write at moved
  split at moved
  next => cases moved
  next r off' store' run =>
    cases moved
    have all : r = call.length :=
      complete ⟨call, st.off, r⟩ (mem_append_right _ (mem_singleton_self _))
    obtain ⟨number, index, buffer⟩ := consistent.running pid call isCall
    obtain ⟨writable, offset, within, contents⟩ :=
      consistent.wrote sound running ⟨call, st.off, r⟩ rfl all run
    rw [if_pos all]
    refine ⟨writable, offset, fun _ => within, contents,
      consistent.ordered.snoc consistent.offset index buffer, ?_, ?_, ?_, ?_⟩
    · refine pairwise_append.mpr
        ⟨consistent.disjoint, pairwise_singleton _ _, fun sec member sec' last => ?_⟩
      rw [mem_singleton.mp last]
      exact le_trans (consistent.ordered.ends member) (Nat.le_of_eq consistent.offset.symm)
    · intro sec member
      rcases mem_append.mp member with old | last
      · exact consistent.sections sec old
      · rw [mem_singleton.mp last]
        exact number
    · intro pid' call' isCall'
      rcases update_eq_some isCall' with ⟨-, ⟨⟩⟩ | ⟨other, old⟩
      · refine ⟨number, ?_, fun sec member same => ?_⟩
        · change call.i + call.length = _
          rw [ofCall_append, if_pos rfl, total_append, total_singleton, index]
        · rcases mem_append.mp member with old | last
          · exact buffer sec old same
          · rw [mem_singleton.mp last]
      · obtain ⟨number', index', buffer'⟩ := consistent.running pid' call' old
        have apart : call.number ≠ call'.number :=
          fun same => other (consistent.apart pid' pid call' call old isCall same.symm)
        refine ⟨number', ?_, fun sec member same => ?_⟩
        · rw [ofCall_append, if_neg apart, append_nil]
          exact index'
        · rcases mem_append.mp member with old | last
          · exact buffer' sec old same
          · rw [mem_singleton.mp last] at same
            exact absurd same apart
    · intro pid₁ pid₂ call₁ call₂ isCall₁ isCall₂ same
      rcases update_eq_some isCall₁ with ⟨rfl, ⟨⟩⟩ | ⟨-, old₁⟩ <;>
        rcases update_eq_some isCall₂ with ⟨rfl, ⟨⟩⟩ | ⟨-, old₂⟩
      · rfl
      · exact consistent.apart _ _ _ _ isCall old₂ same
      · exact consistent.apart _ _ _ _ old₁ isCall same
      · exact consistent.apart _ _ _ _ old₁ old₂ same

end Step

/-- Whatever the processes do, no section overwrites another. -/
theorem sharedOffset (sound : sb.Sound) {store : Store} {off : Nat}
    (writable : Writable sb inum store) {s : State}
    (reachable : (system sb inum store off).Reachable s)
    (complete : ∀ sec ∈ s.history, sec.Complete) :
    s.history.Pairwise (fun sec sec' => sec.off + sec.call.length ≤ sec'.off) ∧
    Ordered off s.history ∧
      fileContents sb inum s.store =
        overlay (fileContents sb inum store) off (s.history.flatMap Section.data) ∧
      s.off = off + total s.history := by
  have consistent : Consistent sb inum store off s := by
    revert complete
    refine reachable.invariant
      (motive := fun s => (∀ sec ∈ s.history, sec.Complete) → Consistent sb inum store off s) ?_ ?_
    · rintro _ rfl _
      exact {
        writable := writable
        offset := rfl
        within := fun some => absurd rfl some
        contents := by simp
        ordered := by
          intro before sec after none
          simp at none
        disjoint := .nil
        sections := by simp
        running := by simp
        apart := by simp }
    · intro st event st' _ ih _ moved complete
      change step sb inum st event = .next st' at moved
      unfold step at moved
      split at moved
      next pid buffer n =>
        split at moved
        next =>
          cases moved
          exact (ih complete).call
        next => cases moved
      next pid =>
        split at moved
        next => cases moved
        next call isCall =>
          split at moved
          next running =>
            refine (ih fun sec member => complete sec ?_).write sound isCall running moved complete
            obtain ⟨r, longer⟩ := write_history moved
            rw [longer]
            exact mem_append_left _ member
          next => cases moved
      next pid result =>
        split at moved
        next => cases moved
        next call isCall =>
          split at moved
          next => cases moved
          next =>
            cases moved
            exact (ih complete).ret
  exact ⟨consistent.disjoint, consistent.ordered, consistent.contents, consistent.offset⟩

def opened : Store :=
  { store 1 5 with table := fun _ => ⟨1, false, false, Dinode.zero⟩ }

theorem opened_writable : Writable layout 1 opened where
  inside := by decide
  ref := by decide
  unlocked := rfl
  copy valid := absurd valid (by decide)
  inUse := by decide +kernel
  owned := owned (by decide) (by decide)
  holeFree := hole_free_fiveBytes

/-- Two processes write three and two bytes from the fourth byte on. -/
theorem sharedOffset_twoWriters :
    ∃ s, (system layout 1 opened 4).Reachable s ∧ s.history.length = 2 ∧
    s.off = 4 + total s.history ∧ s.history.Pairwise fun sec sec' =>
      sec.off + sec.call.length ≤ sec'.off := by
  obtain ⟨s, reachable, two, all⟩ := (system layout 1 opened 4).exists_reachable rfl
    [.call 1 (fun _ => some 65) 3, .call 2 (fun _ => some 66) 2, .write 2, .write 1]
    (motive := fun s => s.history.length = 2 ∧ ∀ sec ∈ s.history, sec.Complete) (by decide +kernel)
  obtain ⟨disjoint, -, -, offset⟩ := sharedOffset layout_sound opened_writable reachable all
  exact ⟨s, reachable, two, offset, disjoint⟩

end SharedOffset

end Xv6.Disk
