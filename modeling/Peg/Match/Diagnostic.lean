import Peg.Match.Error

/-!
# Diagnostics

An error together with the text it arose in, told with the places to point at.
-/

namespace Peg

structure Diagnostic where
  error : MatchError
  text : Text

/-- A remark on a stretch of a text, which is given in bytes. -/
structure Label where
  remark : String
  offset : Nat
  width : Nat
deriving DecidableEq, Repr

namespace Diagnostic

def message (d : Diagnostic) : String := s!"Match error: {d.error.message}"

/-- Names the innermost failure, if it is another than the error itself. -/
def help (d : Diagnostic) : Option String :=
  if d.error.causes.isEmpty then none
  else some s!"furthest failure: {d.error.rootCause.render}"

/-- The failure that led directly to the error. -/
def cause? (d : Diagnostic) : Option Failure := d.error.causes.head?

/-- Points at where a failure happened: at one byte, or at the end of the text. -/
def label (d : Diagnostic) (f : Failure) : Label :=
  let offset := min f.location.offset d.text.byteSize
  ⟨f.message, offset, if offset < d.text.byteSize then 1 else 0⟩

/-- The labels of the error and, if it lies elsewhere, of its innermost cause. -/
def labels (d : Diagnostic) : List Label :=
  let here := d.label d.error.top
  let root := d.error.rootCause
  if d.error.causes.isEmpty || root.location.offset == here.offset then [here]
  else [here, d.label root]

end Diagnostic

end Peg
