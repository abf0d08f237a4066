import Peg.Grammar.Error
import Peg.Matcher.Printer
import Peg.Text.Ascending

/-!
# Checked construction

Constructors that refuse a node that could never be part of a grammar: an empty
text, set, sequence or choice, a range or repetition whose bounds are out of
order. They also bring their contents into the form that a grammar wants: a text
of one character becomes a character, and a set becomes ascending.
-/

namespace Peg.Matcher

variable {π : Type}

/-- A defect that is not yet known to stand in a rule. -/
abbrev refuse {α : Type} (defect : Defect) : Except GrammarError α :=
  .error (.malformed none defect)

def text? : Text → Except GrammarError (Matcher π)
  | [] => refuse .emptyText
  | [c] => .ok (.char (.only c))
  | t => .ok (.text t)

def range? (lo hi : Char) : Except GrammarError (Matcher π) :=
  if hi < lo then refuse (.invertedRange lo hi) else .ok (.char (.range lo hi))

def oneOf? (cs : List Char) : Except GrammarError (Matcher π) :=
  if cs.isEmpty then refuse .emptySet else .ok (.char (.oneOf (Text.ascending cs)))

def sequence? (children : List (Matcher π)) : Except GrammarError (Matcher π) :=
  if children.isEmpty then refuse .emptySequence else .ok (.sequence children)

def choice? (children : List (Matcher π)) : Except GrammarError (Matcher π) :=
  if children.isEmpty then refuse .emptyChoice else .ok (.choice children)

def repetition? (inner : Matcher π) (min : Nat) (max : Option Nat) :
    Except GrammarError (Matcher π) :=
  match max with
  | some most =>
    if most < min then refuse (.invertedBounds min most) else .ok (.repetition inner min max)
  | none => .ok (.repetition inner min max)

end Peg.Matcher
