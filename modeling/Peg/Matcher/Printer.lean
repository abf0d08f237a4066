import Peg.Matcher.Basic

/-!
# Expressions in print

A matcher is printed as a grammar expression. Repetition and lookahead bind
tighter than sequence, and sequence tighter than choice; an operand that binds
looser than its place allows is put in parentheses. A sequence or choice of fewer
than two children shows no operator, so it never needs parentheses.
-/

namespace Peg

/-- A character inside a literal or a set. Line breaks, tabs, backslashes and the
closing delimiter are written with a backslash. -/
def printChar (delimiter c : Char) : Text :=
  if c = '\n' then ['\\', 'n']
  else if c = '\r' then ['\\', 'r']
  else if c = '\t' then ['\\', 't']
  else if c = '\\' then ['\\', '\\']
  else if c = delimiter then ['\\', c]
  else [c]

def printChars (delimiter : Char) (t : Text) : Text :=
  t.flatMap (printChar delimiter)

/-- A number in decimal. -/
def printNat (n : Nat) : Text := Nat.toDigits 10 n

def CharClass.print {π : Type} [CharTest π] : CharClass π → Text
  | only c => '\'' :: printChar '\'' c ++ ['\'']
  | range lo hi => '[' :: printChar ']' lo ++ '-' :: printChar ']' hi ++ [']']
  | oneOf cs => '[' :: printChars ']' cs ++ [']']
  | satisfying p => '<' :: (CharTest.name p).toList ++ ['>']

namespace Matcher

variable {π : Type}

/-- How tight an operator binds, loosest first. -/
inductive Binding where
  | choice
  | sequence
  | unary
deriving DecidableEq, Repr

def Binding.rank : Binding → Nat
  | choice => 0
  | sequence => 1
  | unary => 2

def binding : Matcher π → Binding
  | .choice (_ :: _ :: _) => .choice
  | .sequence (_ :: _ :: _) => .sequence
  | _ => .unary

/-- Puts the printed form `shown` of `m` into parentheses where the place wants a
tighter binding. -/
def enclose (place : Binding) (m : Matcher π) (shown : Text) : Text :=
  if m.binding.rank < place.rank then '(' :: shown ++ [')'] else shown

/-- The bounds of a repetition. -/
def printBounds (min : Nat) : Option Nat → Text
  | none =>
    if min = 0 then ['*']
    else if min = 1 then ['+']
    else '{' :: printNat min ++ [',', '}']
  | some max =>
    if min = max then '{' :: printNat min ++ ['}']
    else '{' :: printNat min ++ ',' :: printNat max ++ ['}']

mutual

def print [CharTest π] : Matcher π → Text
  | char cls => cls.print
  | text t => '\'' :: printChars '\'' t ++ ['\'']
  | endOfInput => ['$']
  | sequence ms => printAll .unary [' '] ms
  | choice ms => printAll .sequence [' ', '|', ' '] ms
  | repetition m min max => enclose .unary m (print m) ++ printBounds min max
  | optional m => enclose .unary m (print m) ++ ['?']
  | absent m => '!' :: enclose .unary m (print m)
  | ref name => name.toList
  | rule name m => name.toList ++ ':' :: '(' :: print m ++ [')']
  | ignore m => "ignore(".toList ++ print m ++ [')']
  | join m => "join(".toList ++ print m ++ [')']
  | mark m => "mark(".toList ++ print m ++ [')']
  | save name m => "save:".toList ++ name.toList ++ '(' :: print m ++ [')']
  | load name => "load:".toList ++ name.toList

/-- The operands of one operator with the operator between them. -/
def printAll [CharTest π] (place : Binding) (operator : Text) : List (Matcher π) → Text
  | [] => []
  | [m] => enclose place m (print m)
  | m :: ms => enclose place m (print m) ++ operator ++ printAll place operator ms

end

/-- The printed expression. -/
def render [CharTest π] (m : Matcher π) : String := String.ofList m.print

end Matcher

end Peg
