import Peg.Matcher.Basic

/-!
# Nullable matchers

A matcher is nullable if it may match without consuming anything. What a
reference may do is taken from what is known of the rules. A saved text may be
empty, so demanding one counts as nullable.
-/

namespace Peg.Matcher

variable {π : Type}

mutual

/-- Whether the matcher may match nothing, if `known` tells so of the rules. -/
def isNullable (known : String → Bool) : Matcher π → Bool
  | char _ | text _ => false
  | endOfInput | optional _ | absent _ | load _ => true
  | sequence ms => allNullable known ms
  | choice ms => anyNullable known ms
  | repetition m min _ => min == 0 || isNullable known m
  | ref name => known name
  | rule _ m | ignore m | join m | mark m | save _ m => isNullable known m

def allNullable (known : String → Bool) : List (Matcher π) → Bool
  | [] => true
  | m :: ms => isNullable known m && allNullable known ms

def anyNullable (known : String → Bool) : List (Matcher π) → Bool
  | [] => false
  | m :: ms => isNullable known m || anyNullable known ms

end

theorem allNullable_eq_all (known : String → Bool) (ms : List (Matcher π)) :
    allNullable known ms = ms.all (isNullable known) := by
  induction ms with
  | nil => rfl
  | cons m ms ih => simp [allNullable, ih]

theorem anyNullable_eq_any (known : String → Bool) (ms : List (Matcher π)) :
    anyNullable known ms = ms.any (isNullable known) := by
  induction ms with
  | nil => rfl
  | cons m ms ih => simp [anyNullable, ih]

mutual

/-- The rules that the matcher may apply before it has consumed anything, in the
order in which it comes to them. -/
def leadingRefs (known : String → Bool) : Matcher π → List String
  | ref name => [name]
  | sequence ms => leadingOfSequence known ms
  | choice ms => leadingOfChoice known ms
  | repetition m _ _ | optional m | absent m | rule _ m | ignore m | join m | mark m
  | save _ m => leadingRefs known m
  | char _ | text _ | endOfInput | load _ => []

/-- A child of a sequence comes to be matched at the start if all children before
it are nullable. -/
def leadingOfSequence (known : String → Bool) : List (Matcher π) → List String
  | [] => []
  | m :: ms =>
    leadingRefs known m ++ if isNullable known m then leadingOfSequence known ms else []

def leadingOfChoice (known : String → Bool) : List (Matcher π) → List String
  | [] => []
  | m :: ms => leadingRefs known m ++ leadingOfChoice known ms

end

end Peg.Matcher
