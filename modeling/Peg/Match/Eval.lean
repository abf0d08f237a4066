import Peg.Grammar.Table
import Peg.Match.Step

/-!
# Matching

`Engine.step` gives the step that a matcher stands for. It follows the tree of the
matcher with `Engine.eval`, which leaves applications of rules to a function that it is
given. That function, `Engine.enter`, fails if as many rules are open as are allowed. It
counts down how many may still be opened, so that matching ends whatever the rules are.
-/

namespace Peg

/-- A rule table with the settings for a run of its rules. -/
structure Engine (π τ : Type) where
  table : RuleTable π τ
  settings : Settings

namespace Engine

variable {π τ : Type}

/-- Hands the output of a rule to its factory, if it has one. -/
def shape (e : Engine π τ) (name : String) (output : Output τ) : Output τ :=
  match (e.table.rule? name).bind (·.factory) with
  | some make => { output with values := [make name output.fragments output.values] }
  | none => output

/-- Notes that an application of a rule begins and ends, if rules are traced. -/
def traced (e : Engine π τ) (name : String) (step : Step τ) : Step τ := fun s =>
  let r := step s
  if e.settings.traceRules then
    let start := s.reader.location
    let ending : TraceEvent :=
      match r.outcome with
      | .ok _ => .matched name start r.state.reader.location
      | .error error => .failed name start error
    { r with log := (Log.mk [] [.entered name start s.depth]).append (r.log.append ⟨[], [ending]⟩) }
  else r

section

variable [CharTest π]

mutual

/-- The step of a matcher, where `enter` applies a rule. -/
def eval (e : Engine π τ) (enter : String → Matcher π → Step τ) : Matcher π → Step τ
  | .char cls => .char cls.accepts (Matcher.char cls).render
  | .text t => .text t (.mismatch (Matcher.text t : Matcher π).render)
  | .endOfInput => .endOfInput
  | .sequence ms => .guarded (evalSequence e enter ms)
  | .choice ms => fun s => evalChoice e enter s none ms s
  | .repetition m min max => .repetition (eval e enter m) min max
  | .optional m => .optional (eval e enter m)
  | .absent m => .absent (eval e enter m)
  | .ref name =>
    match e.table.rule? name with
    | some rule => enter rule.name rule.definition
    | none => .failHere (.internal s!"rule '{name}' is not in the table")
  | .rule name m => enter name m
  | .ignore m => .ignore (eval e enter m)
  | .join m => .join (eval e enter m)
  | .mark m => .mark (eval e enter m)
  | .save name m => .save name (eval e enter m)
  | .load name => .load name

/-- The steps of several matchers one after the other. -/
def evalSequence (e : Engine π τ) (enter : String → Matcher π → Step τ) :
    List (Matcher π) → Step τ
  | [] => .succeed .empty
  | m :: ms => fun s => (eval e enter m s).andThen (evalSequence e enter ms)

/-- The first of several matchers that matches from `origin`. -/
def evalChoice (e : Engine π τ) (enter : String → Matcher π → Step τ) (origin : State)
    (best : Option MatchError) : List (Matcher π) → Step τ
  | [] => .exhausted origin best
  | m :: ms =>
    .orElse origin best (eval e enter m) fun best => evalChoice e enter origin best ms

end

/-- Applies a rule, unless as many are open as are allowed. The first argument is the
number of those that may still be opened. -/
def enter (e : Engine π τ) : (levels : Nat) → String → Matcher π → Step τ
  | 0, _, _ => .failHere (.depthLimit e.settings.maxDepth)
  | levels + 1, name, m => fun s =>
    if e.settings.maxDepth ≤ s.depth then Step.failHere (.depthLimit e.settings.maxDepth) s
    else (e.traced name (.opened (e.eval (e.enter levels) m)) s).mapOutput (e.shape name)

/-- The step of a matcher, in a state with any number of rules open. -/
def step (e : Engine π τ) (m : Matcher π) : Step τ := fun s =>
  e.eval (e.enter (e.settings.maxDepth - s.depth)) m s

end

end Engine

end Peg
