import Peg.Match.Error

/-!
# Steps of a match

A step looks at the text ahead of the reader and at the texts saved so far. It
succeeds with an output or fails with an error, and reports the state it leaves
behind and what is to be noted of it. Here are the ways in which steps are
combined.

Two disciplines bring a failed attempt back to where it began. `Step.guarded`
makes a save point before its step and takes it back after it. `Report.backTo`
jumps to the location that was noted before the attempt.
-/

namespace Peg

/-- What a successful match yields: the pieces of text, and the values made by
rules. -/
structure Output (τ : Type) where
  fragments : List Text
  values : List τ
deriving DecidableEq, Repr

namespace Output

variable {τ : Type}

def empty : Output τ := ⟨[], []⟩

def fragment (t : Text) : Output τ := ⟨[t], []⟩

def append (a b : Output τ) : Output τ := ⟨a.fragments ++ b.fragments, a.values ++ b.values⟩

end Output

/-- A match of a marked matcher. -/
structure Mark where
  span : Span
  fragments : List Text
deriving DecidableEq, Repr

/-- What is noted of the applications of rules. -/
inductive TraceEvent where
  | entered (rule : String) (location : Location) (depth : Nat)
  | matched (rule : String) (first last : Location)
  | failed (rule : String) (location : Location) (error : MatchError)
deriving DecidableEq, Repr

namespace TraceEvent

def level : TraceEvent → String
  | entered _ _ _ | matched _ _ _ | failed _ _ _ => "TRACE"

def message : TraceEvent → String
  | entered _ _ _ => "enter rule"
  | matched _ _ _ => "rule matched"
  | failed _ _ _ => "rule failed"

end TraceEvent

/-- Everything noted during a step, in order. -/
structure Log where
  marks : List Mark
  trace : List TraceEvent
deriving DecidableEq, Repr

namespace Log

def empty : Log := ⟨[], []⟩

def append (a b : Log) : Log := ⟨a.marks ++ b.marks, a.trace ++ b.trace⟩

end Log

/-- What a step depends on and may change. -/
structure State where
  reader : Reader
  /-- The texts saved under names, latest first. -/
  saved : List (String × Text)
  /-- The number of rules open. -/
  depth : Nat
deriving DecidableEq, Repr

/-- What a step has come to. -/
structure Report (τ : Type) where
  outcome : Except MatchError (Output τ)
  state : State
  log : Log

abbrev Step (τ : Type) := State → Report τ

namespace Report

variable {τ : Type}

/-- The report of a step with `log` noted before it. -/
def after (log : Log) (r : Report τ) : Report τ :=
  { r with log := log.append r.log }

/-- Goes on with another step if this one has succeeded, and joins their outputs. -/
def andThen (r : Report τ) (next : Step τ) : Report τ :=
  match r.outcome with
  | .error _ => r
  | .ok output =>
    let rest := (next r.state).after r.log
    match rest.outcome with
    | .error _ => rest
    | .ok more => { rest with outcome := .ok (output.append more) }

/-- Changes the output of a success. -/
def mapOutput (f : Output τ → Output τ) (r : Report τ) : Report τ :=
  match r.outcome with
  | .error _ => r
  | .ok output => { r with outcome := .ok (f output) }

/-- Takes over what an operation of the reader has done; a fault of the reader
becomes the outcome. The saved texts are set to `saved`, unless there is a fault. -/
def settle {α : Type} (r : Report τ) (saved : List (String × Text)) :
    Except ReaderFault α × Reader → Report τ
  | (.ok _, reader) => { r with state := { r.state with reader, saved } }
  | (.error fault, reader) =>
    { r with
      outcome := .error (.ofFault fault r.state.reader.location)
      state := { r.state with reader } }

/-- Jumps back to `origin`, whatever the outcome. -/
def backTo (origin : State) (r : Report τ) : Report τ :=
  r.settle origin.saved (r.state.reader.rewind origin.reader.location)

end Report

namespace Step

variable {τ : Type}

def succeed (output : Output τ) : Step τ := fun s => ⟨.ok output, s, .empty⟩

def fail (error : MatchError) : Step τ := fun s => ⟨.error error, s, .empty⟩

/-- Fails here. -/
def failHere (kind : FailureKind) : Step τ := fun s => fail (.of kind s.reader.location) s

/-! ## Single steps -/

/-- One character that `accepts` holds of. -/
def char (accepts : Char → Bool) (expected : String) : Step τ := fun s =>
  match s.reader.peek 0 with
  | some c =>
    if accepts c then succeed (.fragment [c]) { s with reader := s.reader.advance 1 }
    else failHere (.mismatch expected) s
  | none => failHere (.mismatch expected) s

/-- The text `t`, or else a failure of the given kind. -/
def text (t : Text) (otherwise : FailureKind) : Step τ := fun s =>
  if s.reader.isNext t then
    succeed (.fragment t) { s with reader := s.reader.advanceBytes t.byteSize }
  else failHere otherwise s

def endOfInput : Step τ := fun s =>
  if s.reader.atEnd then succeed .empty s else failHere (.mismatch "end of input") s

/-- The text saved under a name. -/
def load (name : String) : Step τ := fun s =>
  match s.saved.lookup name with
  | some t => text t (.saveMismatch name t) s
  | none => failHere (.unknownSave name) s

/-! ## Combined steps -/

/-- Makes a save point and takes it back afterwards: after a success the reader
stays where it is, after a failure it returns and the saved texts are as before. -/
def guarded (step : Step τ) : Step τ := fun s =>
  let r := step { s with reader := s.reader.save }
  match r.outcome with
  | .ok _ => r.settle r.state.saved r.state.reader.discard
  | .error _ => r.settle s.saved r.state.reader.load

/-- Turns a failure that is not fatal into an empty success. -/
def absorb (step : Step τ) : Step τ := fun s =>
  let r := step s
  match r.outcome with
  | .ok _ => r
  | .error e => if e.isFatal then r else { r with outcome := .ok .empty }

def optional (step : Step τ) : Step τ := absorb (guarded step)

/-- Succeeds where the step fails, and leaves no change behind either way. -/
def absent (step : Step τ) : Step τ := fun s =>
  let r := (step s).backTo s
  match r.outcome with
  | .ok _ => { r with outcome := .error (.of .unexpected s.reader.location) }
  | .error e => if e.isFatal then r else { r with outcome := .ok .empty }

/-- The failure that goes further; of two that go equally far the earlier. -/
def further : Option MatchError → MatchError → MatchError
  | some best, e => if e.reach ≤ best.reach then best else e
  | none, e => e

/-- No alternative has matched; `best` is the failure that went furthest. -/
def exhausted (origin : State) : Option MatchError → Step τ
  | some best => fail ((MatchError.of .exhausted origin.reader.location).causedBy best)
  | none => fail (.of .exhausted origin.reader.location)

/-- Tries an alternative from `origin`. If it fails and the failure is not fatal,
`next` goes on from there, knowing the failure that went furthest so far. -/
def orElse (origin : State) (best : Option MatchError) (step : Step τ)
    (next : Option MatchError → Step τ) : Step τ := fun s =>
  let r := step s
  match r.outcome with
  | .ok _ => r
  | .error _ =>
    let back := r.backTo origin
    match back.outcome with
    | .ok _ => back
    | .error e =>
      if e.isFatal then back else (next (some (further best e)) back.state).after back.log

/-- The repetition is over after `count` times; `cause` is what ended it. -/
def enough (start : Location) (min count : Nat) (cause : Option MatchError) : Step τ :=
  if count < min then
    match cause with
    | some e => fail ((MatchError.of (.underflow min count) start).causedBy e)
    | none => fail (.of (.underflow min count) start)
  else succeed .empty

/-- Repeats a step that has succeeded `count` times. It ends at the maximum, at a
failure, or with a success that has consumed nothing, which stands for as many as
are wanted. The first argument bounds the number of further successes. -/
def repeatFrom (step : Step τ) (start : Location) (min : Nat) (max : Option Nat) :
    Nat → (count : Nat) → Step τ
  | 0, count => enough start min count none
  | bound + 1, count => fun s =>
    if max.any (· ≤ count) then enough start min count none s
    else
      let r := step s
      match r.outcome with
      | .ok _ =>
        if r.state.reader.position = s.reader.position then r
        else r.andThen (repeatFrom step start min max bound (count + 1))
      | .error e =>
        if e.isFatal then r
        else
          let back := r.backTo s
          match back.outcome with
          | .ok _ => back
          | .error e =>
            if e.isFatal then back
            else (enough start min count (some e) back.state).after back.log

/-- Each success but the last consumes a character, so there are at most as many
as characters ahead and one more.

A refused jump back behind a failure would end the repetition as a fault, and the
save point would be taken back even then. No jump back is refused here: it leads to
where the attempt began (`Step.backTo_eq_of_follows`). -/
def repetition (step : Step τ) (min : Nat) (max : Option Nat) : Step τ := fun s =>
  guarded (repeatFrom step s.reader.location min max (s.reader.remaining.length + 1) 0) s

/-- Opens a rule for a step and closes it again, whatever the outcome. -/
def opened (step : Step τ) : Step τ := fun s =>
  let r := step { s with depth := s.depth + 1 }
  { r with state := { r.state with depth := r.state.depth - 1 } }

/-! ## Outputs -/

def ignore (step : Step τ) : Step τ := fun s =>
  (step s).mapOutput fun output => { output with fragments := [] }

def join (step : Step τ) : Step τ := fun s =>
  (step s).mapOutput fun output => { output with fragments := [output.fragments.flatten] }

/-- Notes where the step has succeeded. -/
def mark (step : Step τ) : Step τ := fun s =>
  let r := step s
  match r.outcome with
  | .ok output =>
    let mark : Mark := ⟨⟨s.reader.location, r.state.reader.location⟩, output.fragments⟩
    { r with log := r.log.append ⟨[mark], []⟩ }
  | .error _ => r

/-- Keeps the text of the fragments under a name. -/
def save (name : String) (step : Step τ) : Step τ := fun s =>
  let r := step s
  match r.outcome with
  | .ok output =>
    let saved := (name, output.fragments.flatten) :: r.state.saved
    { r with state := { r.state with saved } }
  | .error _ => r

end Step

end Peg
