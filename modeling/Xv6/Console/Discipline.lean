import Xv6.Console.Driver

/-!
# The line discipline

What the console is for: there is a queue of committed bytes and a line that is still
edited. The driver with its three wrapping counters answers every sequence of input
characters and reads as this machine does.
-/

namespace Xv6.Console

open List
open Window
open Function

/-! ## The machine -/

structure Line where
  committed : List UInt8
  edit : List UInt8

def Line.type (line : Line) (c : UInt8) : Line × List UInt8 :=
  if c = ctrl 'P' then
    (line, [])
  else if c = ctrl 'U' then
    ({ line with edit := [] }, (replicate line.edit.length backspace).flatten)
  else if c = ctrl 'H' ∨ c = delete then
    ({ line with edit := line.edit.dropLast }, if line.edit = [] then [] else backspace)
  else if c ≠ 0 ∧ line.committed.length + line.edit.length < inputBufSize then
    let c := if c = carriageReturn then newline else c
    let edit := line.edit ++ [c]
    if c = newline ∨ c = ctrl 'D' ∨ line.committed.length + edit.length = inputBufSize then
      (⟨line.committed ++ edit, []⟩, [c])
    else
      (⟨line.committed, edit⟩, [c])
  else
    (line, [])

/-- A read that waits: how many bytes it may still take, and those that it has. -/
structure Call where
  left : Nat
  copied : List UInt8

inductive Answer where
  | waits (call : Call)
  | returns (value : Int) (copied : List UInt8)

def Answer.output : Answer → Output
  | .waits _ => .waits
  | .returns value copied => .returns value copied

/-- Take bytes from the queue: up to a newline, or to an end of file, which only the
first byte of a call takes. -/
def take (killed : Bool) : Nat → List UInt8 → List UInt8 → List UInt8 × Answer
  | 0, copied, queue => (queue, .returns copied.length copied)
  | left + 1, copied, [] => ([], if killed then .returns (-1) copied else .waits ⟨left + 1, copied⟩)
  | left + 1, copied, c :: queue =>
    if c = ctrl 'D' then
      (if copied = [] then queue else c :: queue, .returns copied.length copied)
    else if c = newline then
      (queue, .returns (copied ++ [c]).length (copied ++ [c]))
    else
      take killed left (copied ++ [c]) queue

structure Terminal where
  line : Line
  calls : Nat → Option Call

def Answer.waiting : Answer → Option Call
  | .waits call => some call
  | .returns _ _ => none

def discipline : Machine Terminal Event Output where
  start := ⟨⟨[], []⟩, fun _ => none⟩
  step t event :=
    match event with
    | .typed c =>
      let (line, echo) := t.line.type c
      ({ t with line := line }, .echo echo)
    | .read pid n killed =>
      match t.calls pid with
      | some _ => (t, .impossible)
      | none =>
        let (queue, answer) := take killed n.toInt.toNat [] t.line.committed
        (⟨{ t.line with committed := queue }, update t.calls pid answer.waiting⟩, answer.output)
    | .woken pid killed =>
      match t.calls pid with
      | none => (t, .impossible)
      | some call =>
        let (queue, answer) := take killed call.left call.copied t.line.committed
        (⟨{ t.line with committed := queue }, update t.calls pid answer.waiting⟩, answer.output)

/-! ## The ring -/

/-- The ring of the driver holds the queue and the line. -/
structure Represents (cons : Cons) (line : Line) : Prop where
  committed : line.committed = window cons.buf inputBufSize cons.r cons.w
  edit : line.edit = window cons.buf inputBufSize cons.w cons.e
  fits : line.committed.length + line.edit.length ≤ inputBufSize
  open' : newline ∉ line.edit

namespace Represents

variable {cons cons' : Cons} {line : Line} (represents : Represents cons line)

include represents

theorem small : line.committed.length + line.edit.length < 2 ^ 32 :=
  lt_of_le_of_lt represents.fits (by decide)

theorem windows : (window cons.buf inputBufSize cons.r cons.w).length +
    (window cons.buf inputBufSize cons.w cons.e).length < 2 ^ 32 := by
  rw [← represents.committed, ← represents.edit]
  exact represents.small

theorem length : (cons.e - cons.r).toNat = line.committed.length + line.edit.length := by
  rw [toNat_between represents.windows, represents.committed, represents.edit, length_window,
    length_window]

theorem edit_length : line.edit.length = (cons.e - cons.w).toNat := by
  rw [represents.edit, length_window]

theorem edit_eq_nil : line.edit = [] ↔ cons.e = cons.w := by
  rw [represents.edit, window_eq_nil, eq_comm]

theorem edit_snoc (other : cons.e ≠ cons.w) :
    line.edit = line.edit.dropLast ++ [cons.buf (slot (cons.e - 1))] := by
  rw [represents.edit, ← window_pred other.symm]
  exact window_last other.symm

theorem erase (other : cons.e ≠ cons.w) :
    Represents { cons with e := cons.e - 1 } { line with edit := line.edit.dropLast } := by
  refine ⟨represents.committed, ?_, ?_, fun inside => represents.open' (mem_of_mem_dropLast inside)⟩
  · rw [represents.edit, window_pred other.symm]
  · have := represents.fits
    simp only [length_dropLast]
    omega

/-- `^U` takes the line back to where it starts. -/
theorem killLine :
    Represents (Console.killLine (cons.e - cons.w).toNat cons).1 { line with edit := [] } ∧
    (Console.killLine (cons.e - cons.w).toNat cons).2 =
      (replicate line.edit.length backspace).flatten := by
  rw [← represents.edit_length]
  generalize count : line.edit.length = rounds
  induction rounds generalizing cons line with
  | zero =>
    have empty : line.edit = [] := length_eq_zero_iff.mp count
    refine ⟨?_, rfl⟩
    rw [← empty]
    exact represents
  | succ rounds ih =>
    have other : cons.e ≠ cons.w := by
      intro same
      rw [represents.edit_eq_nil.mpr same] at count
      cases count
    have notNewline : cons.buf (slot (cons.e - 1)) ≠ newline := by
      intro is
      apply represents.open'
      rw [represents.edit_snoc other, is]
      simp
    have fewer : line.edit.dropLast.length = rounds := by
      rw [length_dropLast, count]
      rfl
    obtain ⟨erased, echo⟩ := ih (represents.erase other) fewer
    simp only [Console.killLine, if_pos (And.intro other notNewline)]
    exact ⟨erased, by rw [echo, replicate_succ, flatten_cons]⟩

section

variable (room : line.committed.length + line.edit.length < inputBufSize) (c : UInt8)

include room

theorem slot_free :
    slot cons.e ∉ window id inputBufSize cons.r cons.w ++ window id inputBufSize cons.w cons.e := by
  have windows := represents.windows
  simp only [length_window] at windows
  rw [window_append (by simpa only [length_window] using windows)]
  have unused : (window id inputBufSize cons.r cons.e).length < inputBufSize := by
    rw [length_window, represents.length]
    exact room
  exact Window.slot_free (by decide) unused

theorem write_committed :
    window (update cons.buf (slot cons.e) c) inputBufSize cons.r cons.w = line.committed := by
  rw [represents.committed]
  refine window_congr fun other taken => update_of_ne ?_ _ _
  rintro rfl
  exact represents.slot_free room (mem_append_left _ taken)

theorem write_edit :
    window (update cons.buf (slot cons.e) c) inputBufSize cons.w (cons.e + 1) = line.edit ++
      [c] := by
  have kept : window (update cons.buf (slot cons.e) c) inputBufSize cons.w cons.e = line.edit := by
    rw [represents.edit]
    refine window_congr fun other taken => update_of_ne ?_ _ _
    rintro rfl
    exact represents.slot_free room (mem_append_right _ taken)
  have small : inputBufSize < 2 ^ 32 := by decide
  rw [window_snoc (by rw [kept]; omega), kept]
  exact congrArg (fun x => line.edit ++ [x]) (update_self ..)

theorem append (other : c ≠ newline) :
    Represents { cons with buf := update cons.buf (slot cons.e) c, e := cons.e + 1 }
      { line with edit := line.edit ++ [c] } := by
  refine ⟨(represents.write_committed room c).symm, (represents.write_edit room c).symm, ?_, ?_⟩
  · simp only [length_append, length_singleton]
    omega
  · rw [mem_append, mem_singleton]
    rintro (inside | is)
    · exact represents.open' inside
    · exact other is.symm

theorem commit :
    Represents ⟨update cons.buf (slot cons.e) c, cons.r, cons.e + 1, cons.e + 1⟩
      ⟨line.committed ++ (line.edit ++ [c]), []⟩ := by
  have small : inputBufSize < 2 ^ 32 := by decide
  refine ⟨?_, ?_, ?_, not_mem_nil⟩
  · rw [← represents.write_committed room c, ← represents.write_edit room c]
    refine window_append ?_
    rw [represents.write_committed room, represents.write_edit room, length_append,
      length_singleton]
    omega
  · exact (window_eq_nil.mpr rfl).symm
  · simp only [length_append, length_singleton, length_nil]
    omega

end

theorem typed (c : UInt8) : Represents (consoleintr cons c).1 (line.type c).1 ∧
    (consoleintr cons c).2 = (line.type c).2 := by
  unfold consoleintr Line.type
  split
  · exact ⟨represents, rfl⟩
  split
  · exact represents.killLine
  split
  · by_cases same : cons.e = cons.w
    · have empty := represents.edit_eq_nil.mpr same
      rw [if_neg (not_not.mpr same), if_pos empty]
      refine ⟨?_, rfl⟩
      rw [show line.edit.dropLast = line.edit by rw [empty]; rfl]
      exact represents
    · rw [if_pos same, if_neg (mt represents.edit_eq_nil.mp same)]
      exact ⟨represents.erase same, rfl⟩
  rw [represents.length]
  split
  next accepted =>
    simp only
    generalize (if c = carriageReturn then newline else c) = c'
    have moved : (cons.e + 1 - cons.r).toNat =
        line.committed.length + (line.edit ++ [c']).length := by
      have next : cons.e + 1 - cons.r = cons.e - cons.r + 1 := by ring
      have small : inputBufSize < 2 ^ 32 := by decide
      rw [next, toNat_succ, represents.length, length_append, length_singleton,
        Nat.mod_eq_of_lt (by omega)]
      omega
    rw [moved]
    split
    · exact ⟨represents.commit accepted.2 c', rfl⟩
    next open' => exact ⟨represents.append accepted.2 c' fun is => open' (.inl is), rfl⟩
  next => exact ⟨represents, rfl⟩

theorem committed_cons (other : cons.r ≠ cons.w) :
    ∃ queue, line.committed = cons.buf (slot cons.r) :: queue ∧
      Represents { cons with r := cons.r + 1 } { line with committed := queue } := by
  have first : window cons.buf inputBufSize cons.r cons.w = _ := window_cons other
  rw [← represents.committed] at first
  refine ⟨_, first, rfl, represents.edit, ?_, represents.open'⟩
  have := represents.fits
  rw [first, length_cons] at this
  simp only
  omega

end Represents

/-! ## Reads -/

def Waits (reader : Reader) (call : Call) : Prop :=
  reader.n = call.left ∧ reader.copied = call.copied ∧
    reader.target = reader.n + reader.copied.length ∧
    reader.target < 2 ^ 31

def Matches : Result → Answer → Prop
  | .sleeps reader, .waits call => Waits reader call
  | .returns value copied, .returns value' copied' => value = value' ∧ copied = copied'
  | _, _ => False

variable {answer : Answer}

variable {result : Result}

theorem Matches.output (same : Matches result answer) :
    result.output = answer.output := by
  cases result <;> cases answer
  · rfl
  · exact same.elim
  · exact same.elim
  · obtain ⟨rfl, rfl⟩ := same
    rfl

theorem matches_returns {target n : Nat} {copied : List UInt8} (total : target = n + copied.length)
    (small : target < 2 ^ 31) :
    Matches (Reader.returns ⟨target, n, copied⟩) (.returns copied.length copied) := by
  refine ⟨?_, rfl⟩
  have difference : ((target : Int) - n) = copied.length := by omega
  simp only [difference]
  exact Int.bmod_eq_of_le (by omega) (by omega)

theorem Represents.readLoop {cons : Cons} {line : Line} (represents : Represents cons line)
    (killed : Bool) {target n : Nat} {copied : List UInt8} (total : target = n + copied.length)
    (small : target < 2 ^ 31) :
    Represents (Console.readLoop killed target n copied cons).1
        { line with committed := (take killed n copied line.committed).1 } ∧
      Matches (Console.readLoop killed target n copied cons).2
        (take killed n copied line.committed).2 := by
  induction n generalizing cons line copied with
  | zero => exact ⟨represents, matches_returns total small⟩
  | succ n ih =>
    by_cases empty : cons.r = cons.w
    · have none : line.committed = [] := by
        rw [represents.committed]
        exact window_eq_nil.mpr empty
      simp only [Console.readLoop, if_pos empty]
      rw [none, take]
      refine ⟨by rw [← none]; exact represents, ?_⟩
      cases killed
      · exact ⟨rfl, rfl, total, small⟩
      · exact ⟨rfl, rfl⟩
    obtain ⟨queue, first, popped⟩ := represents.committed_cons empty
    simp only [Console.readLoop, if_neg empty]
    rw [first, take]
    split
    next endOfFile =>
      refine ⟨?_, matches_returns total small⟩
      by_cases start : copied = []
      · have all : ¬n + 1 < target := by
          rw [total, start]
          simp
        rw [if_neg all, if_pos start]
        exact popped
      · -- the end of file stays for the next call
        have more : n + 1 < target := by
          have := length_pos_iff.mpr start
          omega
        have back : cons.r + 1 - 1 = cons.r := by ring
        rw [if_pos more, if_neg start, back, ← first]
        exact represents
    next =>
      have total' : target = n + (copied ++ [cons.buf (slot cons.r)]).length := by
        rw [length_append, length_singleton]
        omega
      split
      · exact ⟨popped, matches_returns total' small⟩
      · exact ih popped total'

theorem Represents.consoleread {cons : Cons} {line : Line} (represents : Represents cons line)
    (killed : Bool) (n : BitVec 32) :
    Represents (Console.consoleread killed n cons).1
        { line with committed := (take killed n.toInt.toNat [] line.committed).1 } ∧
      Matches (Console.consoleread killed n cons).2
        (take killed n.toInt.toNat [] line.committed).2 := by
  unfold Console.consoleread
  have bound := n.isLt
  split
  next positive =>
    have same : n.toInt = n.toNat := by
      rw [BitVec.toInt_eq_toNat_cond] at positive ⊢
      split at positive
      · rw [if_pos ‹_›]
      · omega
    refine represents.readLoop killed ?_ ?_
    · rw [same]
      rfl
    · have := BitVec.toInt_lt (x := n)
      omega
  next none =>
    have zero : n.toInt.toNat = 0 := by omega
    rw [zero]
    refine ⟨represents, ?_, rfl⟩
    rw [sub_self]
    rfl

structure Related (s : State) (t : Terminal) : Prop where
  line : Represents s.cons t.line
  calls : ∀ pid, Option.Rel Waits (s.readers pid) (t.calls pid)

theorem Matches.waiting (same : Matches result answer) :
    Option.Rel Waits result.waiting answer.waiting := by
  cases result <;> cases answer
  · exact .some same
  · exact same.elim
  · exact same.elim
  · exact .none

theorem Related.settle {s : State} {t : Terminal} (related : Related s t)
    (same : Matches result answer) (pid other : Nat) :
    Option.Rel Waits (update s.readers pid result.waiting other)
      (update t.calls pid answer.waiting other) := by
  by_cases self : other = pid
  · rw [self, update_self, update_self]
    exact same.waiting
  · rw [update_of_ne self, update_of_ne self]
    exact related.calls other

theorem related_step {s : State} {t : Terminal} (related : Related s t) (event : Event) :
    Related (system.step s event).1 (discipline.step t event).1 ∧
      (system.step s event).2 = (discipline.step t event).2 := by
  cases event with
  | typed c =>
    obtain ⟨line, echo⟩ := related.line.typed c
    exact ⟨⟨line, related.calls⟩, congrArg Output.echo echo⟩
  | read pid n killed =>
    have here := related.calls pid
    simp only [system, discipline]
    cases reader : s.readers pid <;> cases call :
      t.calls pid <;> rw [reader, call] at here <;> cases here
    · obtain ⟨line, same⟩ := related.line.consoleread killed n
      exact ⟨⟨line, related.settle same pid⟩, same.output⟩
    · exact ⟨related, rfl⟩
  | woken pid killed =>
    have here := related.calls pid
    simp only [system, discipline]
    cases reader : s.readers pid <;> cases call :
      t.calls pid <;> rw [reader, call] at here <;> cases here
    · exact ⟨related, rfl⟩
    next reader call waits =>
      obtain ⟨left, copied, total, small⟩ := waits
      obtain ⟨line, same⟩ := related.line.readLoop killed total small
      simp only [← left, ← copied]
      exact ⟨⟨line, related.settle same pid⟩, same.output⟩

theorem simulates : system.Simulates discipline Related where
  start := ⟨⟨rfl, rfl, Nat.zero_le _, not_mem_nil⟩, fun _ => .none⟩
  step related event := (related_step related event).1
  output related event := (related_step related event).2

/-! ## What reads return -/

def Plain (bytes : List UInt8) : Prop := newline ∉ bytes ∧ ctrl 'D' ∉ bytes

variable (killed : Bool) (left : Nat) (copied queue : List UInt8) in
/-- Where a call stops that has copied some bytes and may take `left` more of the queue:
the rest of the queue, and its answer. -/
inductive Stops : List UInt8 → Answer → Prop where
  | full {bytes rest} : queue = bytes ++ rest → Plain bytes → bytes.length = left →
      Stops rest (.returns (copied ++ bytes).length (copied ++ bytes))
  | line {bytes rest} : queue = bytes ++ newline :: rest → Plain bytes → bytes.length < left →
      Stops rest (.returns (copied ++ bytes ++ [newline]).length (copied ++ bytes ++ [newline]))
  /-- The end of file is taken by a call that has nothing. -/
  | endOfFile {rest} : queue = ctrl 'D' :: rest → copied = [] → 0 < left →
      Stops rest (.returns 0 [])
  /-- It is left for the next call otherwise. -/
  | beforeEnd {bytes rest} : queue = bytes ++ ctrl 'D' :: rest → Plain bytes →
      copied ++ bytes ≠ [] →
      bytes.length < left → Stops (ctrl 'D' :: rest)
        (.returns (copied ++ bytes).length (copied ++ bytes))
  | waits : Plain queue → queue.length < left → killed = false →
      Stops [] (.waits ⟨left - queue.length, copied ++ queue⟩)
  | killed : Plain queue → queue.length < left → killed = true →
      Stops [] (.returns (-1) (copied ++ queue))

theorem Plain.cons {c : UInt8} {bytes : List UInt8} (plain : Plain bytes) (notEnd : c ≠ ctrl 'D')
    (notNewline : c ≠ newline) : Plain (c :: bytes) := by
  simp only [Plain, mem_cons, not_or]
  exact ⟨⟨notNewline.symm, plain.1⟩, notEnd.symm, plain.2⟩

theorem Stops.cons {killed : Bool} {left : Nat} {c : UInt8} {copied queue rest : List UInt8}
    (stops : Stops killed left (copied ++ [c]) queue rest answer) (notEnd : c ≠ ctrl 'D')
    (notNewline : c ≠ newline) : Stops killed (left + 1) copied (c :: queue) rest answer := by
  have joined : ∀ bytes, copied ++ [c] ++ bytes = copied ++ (c :: bytes) := fun bytes => by simp
  cases stops with
  | full is plain all =>
    rw [joined]
    exact .full (by rw [is]; rfl) (plain.cons notEnd notNewline) (congrArg Nat.succ all)
  | line is plain fewer =>
    rw [joined]
    exact .line (by rw [is]; rfl) (plain.cons notEnd notNewline) (Nat.succ_lt_succ fewer)
  | endOfFile is none more => exact absurd none (by simp)
  | beforeEnd is plain some' fewer =>
    rw [joined]
    exact .beforeEnd (by rw [is]; rfl) (plain.cons notEnd notNewline) (by simp)
      (Nat.succ_lt_succ fewer)
  | waits plain fewer alive =>
    rw [joined]
    have stops : Stops killed (left + 1) copied (c :: queue) []
      (.waits ⟨left + 1 - (queue.length + 1), _⟩) :=
      .waits (plain.cons notEnd notNewline) (Nat.succ_lt_succ fewer) alive
    rwa [Nat.add_sub_add_right] at stops
  | killed plain fewer dead =>
    rw [joined]
    exact .killed (plain.cons notEnd notNewline) (Nat.succ_lt_succ fewer) dead

theorem take_stops (killed : Bool) (left : Nat) (copied queue : List UInt8) :
    Stops killed left copied queue (take killed left copied queue).1
      (take killed left copied queue).2 := by
  have plain : Plain [] := ⟨not_mem_nil, not_mem_nil⟩
  have none : copied ++ [] = copied := append_nil copied
  induction left generalizing copied queue with
  | zero =>
    have full : Stops killed 0 copied queue queue (.returns (copied ++ []).length (copied ++ [])) :=
      .full rfl plain rfl
    rwa [none] at full
  | succ left ih =>
    cases queue with
    | nil =>
      cases killed
      · have waits : Stops false (left + 1) copied [] [] (.waits ⟨left + 1 - 0, copied ++ []⟩) :=
          .waits plain (Nat.succ_pos left) rfl
        rwa [none] at waits
      · have killed : Stops true (left + 1) copied [] [] (.returns (-1) (copied ++ [])) :=
          .killed plain (Nat.succ_pos left) rfl
        rwa [none] at killed
    | cons c queue =>
      simp only [take]
      split
      next is =>
        subst is
        by_cases start : copied = []
        · rw [if_pos start, start]
          exact .endOfFile rfl rfl (Nat.succ_pos left)
        · rw [if_neg start]
          have before : Stops killed (left + 1) copied (ctrl 'D' :: queue) (ctrl 'D' :: queue)
              (.returns (copied ++ []).length (copied ++ [])) :=
            .beforeEnd rfl plain (by rwa [none]) (Nat.succ_pos left)
          rwa [none] at before
      next notEnd =>
        split
        next is =>
          subst is
          have stops : Stops killed (left + 1) copied (newline :: queue) queue
              (.returns (copied ++ [] ++ [newline]).length (copied ++ [] ++ [newline])) :=
            .line rfl plain (Nat.succ_pos left)
          rwa [none] at stops
        next notNewline => exact (ih _ _ (append_nil _)).cons notEnd notNewline

theorem type_committed (line : Line) (c : UInt8) :
    ∃ added, (line.type c).1.committed = line.committed ++ added := by
  have same : ∃ added, line.committed = line.committed ++ added := ⟨[], (append_nil _).symm⟩
  unfold Line.type
  split
  · exact same
  split
  · exact same
  split
  · exact same
  split
  · simp only
    generalize (if c = carriageReturn then newline else c) = c'
    split
    · exact ⟨_, rfl⟩
    · exact same
  · exact same

/-- The driver refines the line discipline, for all characters and reads in any order. -/
theorem console_refines (events : List Event) :
    system.outputs system.start events = discipline.outputs discipline.start events ∧
      Represents (system.after system.start events).cons
        (discipline.after discipline.start events).line ∧
      ((system.after system.start events).cons.e - (system.after system.start
        events).cons.r).toNat ≤ inputBufSize ∧
      (∀ (line : Line) c, ∃ added, (line.type c).1.committed = line.committed ++ added) ∧
      (∀ killed left copied queue,
        Stops killed left copied queue (take killed left copied queue).1
          (take killed left copied queue).2) := by
  have related := simulates.after simulates.start events
  refine ⟨simulates.outputs simulates.start events, related.line, ?_, type_committed, take_stops⟩
  rw [related.line.length]
  exact related.line.fits

/-- `ab`, an end of file after it, and two reads: the second one returns nothing. -/
example :
    (system.outputs system.start
      [.typed 97, .typed 98, .typed 4, .read 1 10 false, .read 1 10 false]).map
    (fun output => match output with
      | .returns value copied => some (value, copied)
      | _ => none) = [none, none, none, some (2, [97, 98]), some (0, [])] := by decide

end Xv6.Console
