import Peg.Text.Quoted

/-!
# Errors of a grammar

What can be wrong with a set of rules, or with a matcher that is to run beside
them. These errors are found before anything is matched. A defect of a single
matcher carries the name of the rule it stands in, once that is known.
-/

namespace Peg

/-- What is malformed about a matcher or a rule. Matchers are given by their
printed form. -/
inductive Defect where
  | emptyText
  | invertedRange (lo hi : Char)
  | emptySet
  | disorderedSet (shown : String)
  | emptySequence
  | emptyChoice
  | invertedBounds (min max : Nat)
  | endlessLoop (shown : String)
  | nestedOptional (shown : String)
  | emptyName
  | emptyRuleName
  /-- Rules that reach each other without consuming anything; the first is also
  the last. -/
  | leftRecursion (path : List String)
  /-- A defect in the words of whoever reports it. -/
  | other (reason : String)
deriving DecidableEq, Repr

def Defect.reason : Defect → String
  | emptyText => "literal string must not be empty"
  | invertedRange lo hi =>
    s!"range {Text.quoteChar lo}..{Text.quoteChar hi} has its lower bound above its upper bound"
  | emptySet => "character set must not be empty"
  | disorderedSet shown => s!"character set {shown} is not sorted and duplicate-free"
  | emptySequence => "sequence needs at least one child"
  | emptyChoice => "alternation needs at least one child"
  | invertedBounds min max => s!"repetition minimum {min} exceeds maximum {max}"
  | endlessLoop shown => s!"unbounded repetition {shown} can loop forever on an empty match"
  | nestedOptional shown => s!"optional directly inside an optional: {shown}"
  | emptyName => "names must not be empty"
  | emptyRuleName => "rule name must not be empty"
  | leftRecursion path => "left recursion: " ++ " -> ".intercalate path
  | other reason => reason

inductive GrammarError where
  | undefinedRule (name : String) (referencedFrom : Option String)
  | duplicateRule (name : String)
  | missingRoot (name : String)
  | noRoot
  | malformed (rule : Option String) (defect : Defect)
deriving DecidableEq, Repr

namespace GrammarError

/-- Names the rule of a malformed matcher, unless it is named already. -/
def inRule (name : String) : GrammarError → GrammarError
  | malformed none defect => malformed (some name) defect
  | e => e

def message : GrammarError → String
  | undefinedRule name none => s!"undefined rule '{name}'"
  | undefinedRule name (some rule) => s!"undefined rule '{name}' referenced from '{rule}'"
  | duplicateRule name => s!"rule '{name}' is defined more than once"
  | missingRoot name => s!"root rule '{name}' is not defined"
  | noRoot => "the rule table has no root rule"
  | malformed none defect => s!"malformed grammar: {defect.reason}"
  | malformed (some rule) defect => s!"malformed grammar in rule '{rule}': {defect.reason}"

/-- A fixed identifier for the kind of error. -/
def code : GrammarError → String
  | undefinedRule _ _ => "undefined_rule"
  | duplicateRule _ => "duplicate_rule"
  | missingRoot _ => "missing_root"
  | noRoot => "no_root"
  | malformed _ _ => "malformed"

/-- How to mend the error, where that can be said. -/
def help : GrammarError → Option String
  | undefinedRule _ _ => some "define the rule in the table or fix the reference"
  | _ => none

end GrammarError

end Peg
