import Peg.Matcher.CharClass
import Peg.Text.Ascending

/-!
# Runs of character classes

Neighbouring alternatives that each take one character can be merged, since it
does not matter which of them takes it. The characters given one by one are
pooled; neighbouring code points become ranges; ranges that overlap or touch
become one; and a character inside a range needs no mention of its own. Named
tests say nothing about their characters and stay as they are.
-/

namespace Peg.CharRun

variable {π : Type}

/-- A range of characters, both ends included. -/
abbrev Range := Char × Char

def covers (r : Range) (c : Char) : Bool := r.1 ≤ c && c ≤ r.2

/-- The characters that a class gives one by one. -/
def listed : CharClass π → List Char
  | .only c => [c]
  | .oneOf cs => cs
  | .range _ _ | .satisfying _ => []

def ranges : CharClass π → List Range
  | .range lo hi => [(lo, hi)]
  | .only _ | .oneOf _ | .satisfying _ => []

def isTest : CharClass π → Bool
  | .satisfying _ => true
  | .only _ | .range _ _ | .oneOf _ => false

/-- Ascending characters as stretches of neighbouring code points. -/
def stretches : List Char → List Range
  | [] => []
  | c :: cs =>
    match stretches cs with
    | [] => [(c, c)]
    | (lo, hi) :: rest =>
      if c.toNat + 1 = lo.toNat then (c, hi) :: rest else (c, c) :: (lo, hi) :: rest

/-- Puts a range in its place, by its lower end and then by its upper end. -/
def insertRange (r : Range) : List Range → List Range
  | [] => [r]
  | s :: rest =>
    if r.1 < s.1 || (r.1 = s.1 && r.2 ≤ s.2) then r :: s :: rest else s :: insertRange r rest

/-- Lets `r` take in the ranges behind it as long as they overlap or touch it. -/
def joinOnto (r : Range) : List Range → List Range
  | [] => [r]
  | s :: rest =>
    if s.1.toNat ≤ r.2.toNat + 1 then joinOnto (r.1, if r.2 < s.2 then s.2 else r.2) rest
    else r :: joinOnto s rest

/-- Ranges in order, with those that overlap or touch made one. -/
def joinRanges (rs : List Range) : List Range :=
  match rs.foldr insertRange [] with
  | [] => []
  | r :: rest => joinOnto r rest

/-- Characters as one class, if there are any. -/
def classOf : List Char → List (CharClass π)
  | [] => []
  | [c] => [.only c]
  | cs => [.oneOf cs]

/-- The classes of a run that are no tests, merged: the ranges in order, then the
characters outside of them. -/
def mergeChars (run : List (CharClass π)) : List (CharClass π) :=
  let pooled := stretches (Text.ascending (run.flatMap listed))
  let joined := joinRanges (run.flatMap ranges ++ pooled.filter fun r => r.1 ≠ r.2)
  let single := (pooled.filter fun r => r.1 = r.2).map (·.1)
  joined.map (fun r => .range r.1 r.2) ++
    classOf (single.filter fun c => !joined.any (covers · c))

/-- A run with its tests behind everything else. -/
def merge (run : List (CharClass π)) : List (CharClass π) :=
  mergeChars run ++ run.filter isTest

end Peg.CharRun
