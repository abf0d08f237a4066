import Peg.Match.Diagnostic
import Peg.Match.Eval

/-!
# Runs

A run matches once, from where a reader stands and with nothing saved, and tells
the result. A matcher is checked against the table before it runs; an error in it
is an error of the grammar and nothing runs. After a match that failed the reader
is where it was.
-/

namespace Peg

/-- The result of a run. -/
structure MatchResult (τ : Type) where
  outcome : Except MatchError (Output τ)
  /-- Where the match lies; of no width, at the start, if it failed. -/
  span : Span
  /-- The text that was consumed. -/
  matched : Text

namespace MatchResult

variable {τ : Type}

def success (r : MatchResult τ) : Bool := r.outcome.isOk

def fragments (r : MatchResult τ) : List Text :=
  match r.outcome with
  | .ok output => output.fragments
  | .error _ => []

def values (r : MatchResult τ) : List τ :=
  match r.outcome with
  | .ok output => output.values
  | .error _ => []

def error? (r : MatchResult τ) : Option MatchError :=
  match r.outcome with
  | .ok _ => none
  | .error e => some e

/-- The number of characters consumed. -/
def consumed (r : MatchResult τ) : Nat := r.matched.length

/-- The error of a failed run, in the text it ran over. -/
def diagnostic? (r : MatchResult τ) (text : Text) : Option Diagnostic :=
  r.error?.map (⟨·, text⟩)

end MatchResult

/-- A run with all it leaves behind. -/
structure Run (τ : Type) where
  result : MatchResult τ
  reader : Reader
  log : Log

namespace Engine

variable {π τ : Type} [CharTest π]

/-- Matches once, without a check. -/
def execute (e : Engine π τ) (m : Matcher π) (reader : Reader) : Run τ :=
  let report := e.step m ⟨reader, [], 0⟩
  let start := reader.location
  let result : MatchResult τ :=
    match report.outcome with
    | .ok output =>
      let last := report.state.reader.location
      let matched := (report.state.reader.slice start.offset last.offset).getD []
      ⟨.ok output, ⟨start, last⟩, matched⟩
    | .error error => ⟨.error error, .point start, []⟩
  ⟨result, report.state.reader, report.log⟩

/-- Runs a matcher beside the rules. -/
def run (e : Engine π τ) (m : Matcher π) (reader : Reader) : Except GrammarError (Run τ) :=
  match e.table.problem? m with
  | some problem => .error problem
  | none => .ok (e.execute m reader)

section

variable {e : Engine π τ} {m : Matcher π} {reader : Reader}

theorem run_eq_execute (checked : e.table.problem? m = none) :
    e.run m reader = .ok (e.execute m reader) := by
  rw [run, checked]

theorem execute_of_run {r : Run τ} (checked : e.table.problem? m = none)
    (ran : e.run m reader = .ok r) : e.execute m reader = r :=
  Except.ok.inj ((run_eq_execute checked).symm.trans ran)

end

/-- Runs a rule. -/
def runRule (e : Engine π τ) (name : String) (reader : Reader) :
    Except GrammarError (Run τ) :=
  match e.table.rule? name with
  | some rule => .ok (e.execute rule.body reader)
  | none => .error (.undefinedRule name none)

/-- Runs the root of the table. -/
def runRoot (e : Engine π τ) (reader : Reader) : Except GrammarError (Run τ) :=
  match e.table.rootRule? with
  | some rule => .ok (e.execute rule.body reader)
  | none => .error .noRoot

end Engine

namespace RuleTable

variable {π τ : Type}

/-- The engine with the settings of the table. -/
def engine (t : RuleTable π τ) : Engine π τ := ⟨t, t.settings⟩

end RuleTable

/-- Matches the start of a text with a matcher that names no rules. -/
def Matcher.matchText {π τ : Type} [CharTest π] (m : Matcher π) (text : Text) :
    Except GrammarError (Run τ) :=
  (RuleTable.empty : RuleTable π τ).engine.run m (.ofText text)

end Peg
