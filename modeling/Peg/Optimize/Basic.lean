import Peg.Matcher.Basic
import Peg.Optimize.CharRun

/-!
# Optimized matchers

Choices are reduced from the inside out: a choice among the alternatives of a
choice is spliced into it, and each maximal run of alternatives that take one
character is merged. A choice that is left with one alternative is that
alternative, and an optional matcher that has become doubly optional is optional
once. Everything else is kept.
-/

namespace Peg

/-- A piece of a list: a maximal run of members of some kind, or one member of
another kind. -/
inductive Segment (α : Type) where
  | run (members : List α)
  | other (member : α)
deriving Repr

/-- The segments of a list in order. -/
def segments {α : Type} (inRun : α → Bool) : List α → List (Segment α)
  | [] => []
  | a :: as =>
    if inRun a then
      match segments inRun as with
      | .run members :: rest => .run (a :: members) :: rest
      | rest => .run [a] :: rest
    else
      .other a :: segments inRun as

namespace Matcher

variable {π : Type}

def charClass? : Matcher π → Option (CharClass π)
  | char cls => some cls
  | _ => none

/-- The alternatives of a choice; any other matcher is its only alternative. -/
def alternatives : Matcher π → List (Matcher π)
  | choice ms => ms
  | m => [m]

/-- A run of single characters is merged, anything else is kept. -/
def mergeSegment : Segment (Matcher π) → List (Matcher π)
  | .run members => (CharRun.merge (members.filterMap charClass?)).map char
  | .other m => [m]

/-- The alternatives of a choice whose children are optimized. -/
def reduceChoice (children : List (Matcher π)) : List (Matcher π) :=
  (segments isSingleChar (children.flatMap alternatives)).flatMap mergeSegment

/-- A choice of one is no choice. -/
def choiceOf : List (Matcher π) → Matcher π
  | [m] => m
  | ms => choice ms

/-- A matcher that is optional already stays as it is. -/
def optionalOf : Matcher π → Matcher π
  | optional m => optional m
  | m => optional m

mutual

def optimize : Matcher π → Matcher π
  | choice ms => choiceOf (reduceChoice (optimizeAll ms))
  | optional m => optionalOf (optimize m)
  | sequence ms => sequence (optimizeAll ms)
  | repetition m min max => repetition (optimize m) min max
  | absent m => absent (optimize m)
  | rule name m => rule name (optimize m)
  | ignore m => ignore (optimize m)
  | join m => join (optimize m)
  | mark m => mark (optimize m)
  | save name m => save name (optimize m)
  | char cls => char cls
  | text t => text t
  | endOfInput => endOfInput
  | ref name => ref name
  | load name => load name

def optimizeAll : List (Matcher π) → List (Matcher π)
  | [] => []
  | m :: ms => optimize m :: optimizeAll ms

end

theorem optimizeAll_eq_map (ms : List (Matcher π)) : optimizeAll ms = ms.map optimize := by
  induction ms with
  | nil => rfl
  | cons m ms ih => simp [optimizeAll, ih]

end Matcher

end Peg
