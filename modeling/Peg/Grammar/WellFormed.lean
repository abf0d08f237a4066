import Peg.Grammar.Error
import Peg.Grammar.Nullable
import Peg.Matcher.Printer
import Peg.Text.Ascending

/-!
# Well-formed matchers

What is asked of every node of a matcher in a grammar, and which rules a matcher
mentions. The first defect of a matcher is the one that is met first when each
node is looked at before those below it, from left to right.
-/

namespace Peg.Matcher

variable {π : Type}

/-- The rule that the topmost node names. -/
def ruleName? : Matcher π → Option String
  | ref name | rule name _ => some name
  | _ => none

/-- The rules that the matcher names, in the order in which it does so. -/
def ruleNames (m : Matcher π) : List String :=
  m.subtrees.filterMap ruleName?

/-- What is wrong with the topmost node. -/
def nodeDefect? [CharTest π] (known : String → Bool) : Matcher π → Option Defect
  | text [] => some .emptyText
  | char (.range lo hi) => if hi < lo then some (.invertedRange lo hi) else none
  | char (.oneOf cs) =>
    if cs.isEmpty then some .emptySet
    else if Text.isAscending cs then none
    else some (.disorderedSet (char (.oneOf cs) : Matcher π).render)
  | sequence [] => some .emptySequence
  | choice [] => some .emptyChoice
  | repetition _ min (some max) => if max < min then some (.invertedBounds min max) else none
  | repetition m min none =>
    if m.isNullable known then some (.endlessLoop (repetition m min none).render) else none
  | optional (optional m) => some (.nestedOptional (optional (optional m)).render)
  | ref name | rule name _ | save name _ | load name => if name = "" then some .emptyName else none
  | _ => none

/-- The first defect of the matcher. -/
def defect? [CharTest π] (known : String → Bool) (m : Matcher π) : Option Defect :=
  m.subtrees.findSome? (nodeDefect? known)

end Peg.Matcher
