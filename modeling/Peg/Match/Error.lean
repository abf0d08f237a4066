import Peg.Source.Reader

/-!
# Failures of a match

A failure says what went wrong and where. Where several failures lead to one, as
in a choice, the error tells the one that it stands for and the chain of causes
below it, outermost first.
-/

namespace Peg

inductive FailureKind where
  /-- The text does not go on with what the matcher wants. -/
  | mismatch (expected : String)
  /-- No alternative of a choice matched. -/
  | exhausted
  /-- Fewer repetitions than wanted. -/
  | underflow (min matched : Nat)
  /-- What must not follow does follow. -/
  | unexpected
  /-- Nothing is saved under the name. -/
  | unknownSave (name : String)
  /-- The text does not go on with what is saved under the name. -/
  | saveMismatch (name : String) (expected : Text)
  /-- More rules open than allowed. -/
  | depthLimit (depth : Nat)
  /-- The matching itself went wrong. -/
  | internal (reason : String)
deriving DecidableEq, Repr

namespace FailureKind

/-- A fatal failure ends the run; no matcher goes on after it. -/
def isFatal : FailureKind → Bool
  | depthLimit _ | internal _ => true
  | _ => false

/-- A fixed identifier for the kind of failure. -/
def code : FailureKind → String
  | mismatch _ => "syntax_mismatch"
  | exhausted => "alternation_exhausted"
  | underflow _ _ => "repetition_underflow"
  | unexpected => "unexpected_match"
  | unknownSave _ => "unknown_backreference"
  | saveMismatch _ _ => "backreference_mismatch"
  | depthLimit _ => "recursion_limit"
  | internal _ => "internal"

def message : FailureKind → String
  | mismatch expected => s!"expected {expected}"
  | exhausted => "no alternative matched"
  | underflow min matched => s!"expected at least {min} repetitions, found {matched}"
  | unexpected => "unexpected match"
  | unknownSave name => s!"unknown backreference '{name}'"
  | saveMismatch name expected => s!"expected '{String.ofList expected}' saved as '{name}'"
  | depthLimit depth => s!"rule nesting exceeded the limit of {depth}"
  | internal reason => s!"internal engine error: {reason}"

end FailureKind

/-- What went wrong at which point of the text. -/
structure Failure where
  kind : FailureKind
  location : Location
deriving DecidableEq, Repr

namespace Failure

def message (f : Failure) : String := f.kind.message

def render (f : Failure) : String := s!"{f.message} at {f.location.render}"

end Failure

/-- A failure with the chain of its causes. -/
structure MatchError where
  top : Failure
  causes : List Failure
deriving DecidableEq, Repr

namespace MatchError

/-- A failure without a cause. -/
def of (kind : FailureKind) (location : Location) : MatchError := ⟨⟨kind, location⟩, []⟩

/-- The failure and its causes, outermost first. -/
def chain (e : MatchError) : List Failure := e.top :: e.causes

/-- The same failure, caused by `cause` and by what caused that. -/
def causedBy (e cause : MatchError) : MatchError := { e with causes := cause.chain }

def isFatal (e : MatchError) : Bool := e.top.kind.isFatal

/-- The innermost failure of the chain. -/
def rootCause (e : MatchError) : Failure := e.causes.getLastD e.top

/-- The location furthest into the text in the chain, of several the outermost. -/
def furthest (e : MatchError) : Location :=
  e.causes.foldl
    (fun best f => if best.offset < f.location.offset then f.location else best) e.top.location

/-- How far into the text the failure goes. -/
def reach (e : MatchError) : Nat := e.furthest.offset

/-- What a fault of the reader becomes when it happens during a match. -/
def ofFault (fault : ReaderFault) (location : Location) : MatchError :=
  of (.internal fault.render) location

def message (e : MatchError) : String := e.top.message

def render (e : MatchError) : String := e.top.render

end MatchError

end Peg
