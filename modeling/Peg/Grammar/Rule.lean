import Peg.Grammar.Nullable
import Peg.Matcher.Shared
import Peg.Optimize.Basic

/-!
# Rules

A rule gives a matcher a name. It may also say how to make a value of what its
matcher yields: of the fragments, and of the values that rules below have made.
-/

namespace Peg

/-- Makes a value from the name of a rule, the fragments of its match, and the
values made within it. -/
abbrev Factory (τ : Type) := String → List Text → List τ → τ

structure Rule (π τ : Type) where
  name : String
  definition : Matcher π
  /-- Which nodes the definition shares. This decides nothing but how often the
  reduction of a choice is noted. -/
  labels : Labels
  factory : Option (Factory τ)

namespace Rule

variable {π τ : Type}

/-- What is matched when the rule is applied. -/
def body (r : Rule π τ) : Matcher π := .rule r.name r.definition

/-- The definition with the identity of its nodes. -/
def shared (r : Rule π τ) : Shared π := ⟨r.definition, r.labels⟩

/-- The rule with an optimized definition. -/
def optimize (r : Rule π τ) (labels : Labels) : Rule π τ :=
  { r with definition := r.definition.optimize, labels }

end Rule

/-! ## Nullable rules -/

/-- For each rule whether it is nullable, in the order of the rules. -/
abbrev NullMap := List (String × Bool)

namespace NullMap

variable {π τ : Type}

def holds (n : NullMap) (name : String) : Bool :=
  (n.lookup name).getD false

/-- Notes that a rule is nullable. -/
def mark (n : NullMap) (name : String) : NullMap :=
  n.map fun (key, value) => (key, value || key == name)

/-- No rule is known to be nullable. -/
def ofRules (rules : List (Rule π τ)) : NullMap :=
  rules.map fun r => (r.name, false)

/-- Looks at each rule once, each with what was found of those before it. -/
def sweep (rules : List (Rule π τ)) (n : NullMap) : NullMap :=
  rules.foldl (fun n r => if r.body.isNullable n.holds then n.mark r.name else n) n

/-- Sweeps until nothing is found any more, at most the given number of times. -/
def settle (rules : List (Rule π τ)) : Nat → NullMap → NullMap
  | 0, n => n
  | bound + 1, n =>
    let swept := sweep rules n
    if swept = n then n else settle rules bound swept

/-- The nullable ones among the rules. Each sweep but the last finds at least one. -/
def compute (rules : List (Rule π τ)) : NullMap :=
  settle rules rules.length (ofRules rules)

end NullMap

end Peg
