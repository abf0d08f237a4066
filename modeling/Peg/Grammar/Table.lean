import Peg.Grammar.NameGraph
import Peg.Grammar.Rule
import Peg.Grammar.WellFormed
import Peg.Optimize.Session
import Peg.Settings

/-!
# Rule tables

A grammar is a list of rules with settings and perhaps a root. Building it checks
it as a whole and gives a rule table, or the first problem there is:

1. a rule without a name, or a name given twice;
2. a root that is no rule;
3. a matcher that names something that is no rule;
4. a malformed node, in the order of the rules;
5. a rule that comes back to itself before anything is consumed.

A table answers look-ups, says which matchers are nullable and checks matchers
that are to run beside its rules.
-/

namespace Peg

/-- Rules as they were given. -/
structure Grammar (π τ : Type) where
  rules : List (Rule π τ)
  root : Option String := none
  settings : Settings := {}

/-- Rules that have passed all checks. -/
structure RuleTable (π τ : Type) where
  rules : List (Rule π τ)
  nullable : NullMap
  root : Option String
  settings : Settings

/-- What is noted while a table is made. -/
inductive TableEvent where
  | reduced (reduction : Reduction)
  /-- A table was built; a missing root is told as such. -/
  | built (rules : Nat) (root : String) (optimized : Bool)
deriving DecidableEq, Repr

namespace TableEvent

def level : TableEvent → String
  | reduced _ => "TRACE"
  | built _ _ _ => "DEBUG"

def message : TableEvent → String
  | reduced _ => "rewrote alternation"
  | built _ _ _ => "built rule table"

end TableEvent

namespace Grammar

variable {π τ : Type}

def names (g : Grammar π τ) : List String := g.rules.map (·.name)

/-- The first name that is empty or among those before it. -/
def nameProblem? (earlier : List String) : List String → Option GrammarError
  | [] => none
  | name :: names =>
    if name = "" then some (.malformed none .emptyRuleName)
    else if name ∈ earlier then some (.duplicateRule name)
    else nameProblem? (name :: earlier) names

def rootProblem? (g : Grammar π τ) : Option GrammarError :=
  match g.root with
  | some root => if root ∈ g.names then none else some (.missingRoot root)
  | none => none

/-- The first name in a rule that is no rule. -/
def referenceProblem? (g : Grammar π τ) : Option GrammarError :=
  g.rules.findSome? fun r =>
    (r.body.ruleNames.find? (· ∉ g.names)).map (.undefinedRule · (some r.name))

/-- The first malformed node of a rule. -/
def formProblem? [CharTest π] (g : Grammar π τ) (nullable : NullMap) : Option GrammarError :=
  g.rules.findSome? fun r =>
    (r.body.defect? nullable.holds).map (.malformed (some r.name) ·)

/-- Each rule with those that it may apply before anything is consumed. -/
def leadingGraph (g : Grammar π τ) (nullable : NullMap) : NameGraph :=
  g.rules.map fun r => (r.name, r.body.leadingRefs nullable.holds)

def recursionProblem? (g : Grammar π τ) (nullable : NullMap) : Option GrammarError :=
  (g.leadingGraph nullable).cycle?.map fun path => .malformed path.head? (.leftRecursion path)

/-- The first problem of the grammar. -/
def problem? [CharTest π] (g : Grammar π τ) : Option GrammarError :=
  let nullable := NullMap.compute g.rules
  nameProblem? [] g.names <|> g.rootProblem? <|> g.referenceProblem? <|>
    g.formProblem? nullable <|> g.recursionProblem? nullable

end Grammar

namespace RuleTable

variable {π τ : Type}

/-- The table without rules. -/
def empty : RuleTable π τ := ⟨[], [], none, {}⟩

instance : Inhabited (RuleTable π τ) := ⟨empty⟩

def names (t : RuleTable π τ) : List String := t.rules.map (·.name)

def rule? (t : RuleTable π τ) (name : String) : Option (Rule π τ) :=
  t.rules.find? (·.name == name)

def contains (t : RuleTable π τ) (name : String) : Bool := (t.rule? name).isSome

def rootRule? (t : RuleTable π τ) : Option (Rule π τ) := t.root.bind t.rule?

/-- Whether a matcher may match nothing, given the rules of the table. -/
def isNullable (t : RuleTable π τ) (m : Matcher π) : Bool := m.isNullable t.nullable.holds

/-- The first problem of a matcher that is to run beside the rules: a name that
is no rule, or else a malformed node. -/
def problem? [CharTest π] (t : RuleTable π τ) (m : Matcher π) : Option GrammarError :=
  (m.ruleNames.find? (!t.contains ·)).map (.undefinedRule · none) <|>
    (m.defect? t.nullable.holds).map (.malformed none)

/-- The table with every rule optimized, and the choices that were reduced. -/
def optimized (t : RuleTable π τ) : RuleTable π τ × List Reduction :=
  let (nodes, session) := Session.start.optimizeAll (t.rules.map (·.shared))
  let rules := t.rules.zipWith (fun r node => r.optimize node.labels) nodes
  ({ t with rules, settings := { t.settings with optimize := true } }, session.reductions)

end RuleTable

namespace Grammar

variable {π τ : Type}

/-- The table of a grammar without problems, optimized if the settings say so, and
what was noted on the way. -/
def build [CharTest π] (g : Grammar π τ) :
    Except GrammarError (RuleTable π τ × List TableEvent) :=
  match g.problem? with
  | some problem => .error problem
  | none =>
    let table : RuleTable π τ := ⟨g.rules, NullMap.compute g.rules, g.root, g.settings⟩
    let (table, reductions) := if g.settings.optimize then table.optimized else (table, [])
    .ok (table, reductions.map .reduced ++
      [.built table.rules.length (table.root.getD "<none>") table.settings.optimize])

end Grammar

end Peg
