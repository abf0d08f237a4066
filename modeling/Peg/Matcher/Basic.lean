import Peg.Matcher.CharClass

/-!
# Matchers

A matcher is an expression over texts: a parsing expression with ordered choice,
greedy repetition and negative lookahead, extended by references to named rules,
by operations on the fragments that a match yields, and by saving a matched text
under a name to demand it again later.

Matchers are plain trees. `Matcher.induct` is their induction principle, with one
hypothesis for each child of a sequence or choice, and equality of trees is
decidable (`Matcher.same_iff`).
-/

namespace Peg

/-- An expression that matches a text from some point on. `π` is the type of
named character tests. -/
inductive Matcher (π : Type) where
  /-- One character of the class. -/
  | char (cls : CharClass π)
  /-- Exactly this text. -/
  | text (t : Text)
  /-- Nothing, and only where the text ends. -/
  | endOfInput
  /-- Every child in order. -/
  | sequence (children : List (Matcher π))
  /-- The first child that matches. -/
  | choice (children : List (Matcher π))
  /-- `inner` as often as possible, at least `min` and at most `max` times. -/
  | repetition (inner : Matcher π) (min : Nat) (max : Option Nat)
  /-- `inner` or nothing. -/
  | optional (inner : Matcher π)
  /-- Nothing, and only where `inner` does not match. -/
  | absent (inner : Matcher π)
  /-- The rule of this name. -/
  | ref (name : String)
  /-- `inner` as an application of the rule `name`. -/
  | rule (name : String) (inner : Matcher π)
  /-- `inner` without its fragments. -/
  | ignore (inner : Matcher π)
  /-- `inner` with its fragments joined into one. -/
  | join (inner : Matcher π)
  /-- `inner`, noting where it matched. -/
  | mark (inner : Matcher π)
  /-- `inner`, keeping its text under `name`. -/
  | save (name : String) (inner : Matcher π)
  /-- The text kept under `name`. -/
  | load (name : String)
deriving Repr

namespace Matcher

variable {π : Type}

instance : Inhabited (Matcher π) := ⟨endOfInput⟩

/-- Zero or more times. -/
abbrev many (inner : Matcher π) : Matcher π := repetition inner 0 none

/-- One or more times. -/
abbrev many1 (inner : Matcher π) : Matcher π := repetition inner 1 none

/-- A property holds of every matcher if it holds of a matcher whenever it holds
of the matchers directly below it. -/
@[elab_as_elim, induction_eliminator]
theorem induct {motive : Matcher π → Prop}
    (char : ∀ cls, motive (.char cls))
    (text : ∀ t, motive (.text t))
    (endOfInput : motive .endOfInput)
    (sequence : ∀ children, (∀ m ∈ children, motive m) → motive (.sequence children))
    (choice : ∀ children, (∀ m ∈ children, motive m) → motive (.choice children))
    (repetition : ∀ inner min max, motive inner → motive (.repetition inner min max))
    (optional : ∀ inner, motive inner → motive (.optional inner))
    (absent : ∀ inner, motive inner → motive (.absent inner))
    (ref : ∀ name, motive (.ref name))
    (rule : ∀ name inner, motive inner → motive (.rule name inner))
    (ignore : ∀ inner, motive inner → motive (.ignore inner))
    (join : ∀ inner, motive inner → motive (.join inner))
    (mark : ∀ inner, motive inner → motive (.mark inner))
    (save : ∀ name inner, motive inner → motive (.save name inner))
    (load : ∀ name, motive (.load name)) (m : Matcher π) : motive m :=
  @Matcher.rec π motive (fun ms => ∀ m ∈ ms, motive m)
    char text endOfInput sequence choice repetition optional absent ref rule ignore join mark
    save load (by simp) (fun m ms first rest => by simpa using ⟨first, rest⟩) m

/-! ## Structure -/

/-- The matchers directly below, in order. -/
def children : Matcher π → List (Matcher π)
  | sequence ms | choice ms => ms
  | repetition m _ _ | optional m | absent m | rule _ m | ignore m | join m | mark m
  | save _ m => [m]
  | char _ | text _ | endOfInput | ref _ | load _ => []

/-- The matcher consumes exactly one character whenever it matches. -/
def isSingleChar : Matcher π → Bool
  | char _ => true
  | _ => false

mutual

/-- The matcher and all matchers below it, each before those below it and from
left to right. -/
def subtrees : Matcher π → List (Matcher π)
  | sequence ms => sequence ms :: subtreesAll ms
  | choice ms => choice ms :: subtreesAll ms
  | repetition m min max => repetition m min max :: subtrees m
  | optional m => optional m :: subtrees m
  | absent m => absent m :: subtrees m
  | rule name m => rule name m :: subtrees m
  | ignore m => ignore m :: subtrees m
  | join m => join m :: subtrees m
  | mark m => mark m :: subtrees m
  | save name m => save name m :: subtrees m
  | char cls => [char cls]
  | text t => [text t]
  | endOfInput => [endOfInput]
  | ref name => [ref name]
  | load name => [load name]

def subtreesAll : List (Matcher π) → List (Matcher π)
  | [] => []
  | m :: ms => subtrees m ++ subtreesAll ms

end

/-- The number of nodes of the tree. -/
def nodeCount (m : Matcher π) : Nat := m.subtrees.length

theorem subtreesAll_eq_flatMap (ms : List (Matcher π)) :
    subtreesAll ms = ms.flatMap subtrees := by
  induction ms with
  | nil => rfl
  | cons m ms ih => simp [subtreesAll, ih]

/-- The subtrees are the matcher itself and the subtrees of its children. -/
theorem subtrees_eq (m : Matcher π) : m.subtrees = m :: m.children.flatMap subtrees := by
  cases m <;> simp [subtrees, children, subtreesAll_eq_flatMap]

theorem mem_subtrees_self (m : Matcher π) : m ∈ m.subtrees := by
  simp [subtrees_eq m]

/-! ## Equality -/

mutual

/-- Both trees have the same shape and the same contents. -/
def same [DecidableEq π] : Matcher π → Matcher π → Bool
  | char a, char b => a = b
  | text a, text b => a = b
  | endOfInput, endOfInput => true
  | sequence as, sequence bs => sameAll as bs
  | choice as, choice bs => sameAll as bs
  | repetition a min max, repetition b min' max' => same a b && min = min' && max = max'
  | optional a, optional b => same a b
  | absent a, absent b => same a b
  | ref a, ref b => a = b
  | rule n a, rule n' b => n = n' && same a b
  | ignore a, ignore b => same a b
  | join a, join b => same a b
  | mark a, mark b => same a b
  | save n a, save n' b => n = n' && same a b
  | load a, load b => a = b
  | _, _ => false

/-- The lists are equally long and hold the same trees in the same order. -/
def sameAll [DecidableEq π] : List (Matcher π) → List (Matcher π) → Bool
  | [], [] => true
  | a :: as, b :: bs => same a b && sameAll as bs
  | _, _ => false

end

theorem sameAll_iff [DecidableEq π] {as bs : List (Matcher π)}
    (decides : ∀ a ∈ as, ∀ b, same a b = true ↔ a = b) : sameAll as bs = true ↔ as = bs := by
  induction as generalizing bs with
  | nil => cases bs <;> simp [sameAll]
  | cons a as ih =>
    cases bs with
    | nil => simp [sameAll]
    | cons b bs =>
      have first := decides a (by simp) b
      have rest := @ih bs (fun c member => decides c (by simp [member]))
      simp [sameAll, first, rest]

theorem same_iff [DecidableEq π] (a b : Matcher π) : same a b = true ↔ a = b := by
  induction a generalizing b with
  | sequence as ih => cases b <;> simp [same, sameAll_iff ih]
  | choice as ih => cases b <;> simp [same, sameAll_iff ih]
  | repetition a min max ih => cases b <;> simp [same, ih, and_assoc]
  | char | text | endOfInput | ref | load => cases b <;> simp [same]
  | optional a ih | absent a ih | rule n a ih | ignore a ih | join a ih | mark a ih
  | save n a ih => cases b <;> simp [same, ih]

instance [DecidableEq π] : DecidableEq (Matcher π) := fun a b =>
  decidable_of_iff _ (same_iff a b)

end Matcher

end Peg
