import Peg.Grammar.Table
import Peg.Matcher.Dump

/-!
# Tables in full

A rule table written out with its root, its rules and its settings. Rules are
given by the printed form of their definitions.
-/

namespace Peg

def Settings.dump (s : Settings) : String :=
  "EngineConfig " ++ dumpFields
    [("max_depth", toString s.maxDepth), ("optimize", toString s.optimize),
      ("trace_rules", toString s.traceRules)]

def Rule.dump {π τ : Type} [CharTest π] (r : Rule π τ) : String :=
  "Rule " ++ dumpFields
    [("name", Text.quote r.name.toList), ("definition", Text.quote r.definition.print),
      ("factory", toString r.factory.isSome)]

def RuleTable.dump {π τ : Type} [CharTest π] (t : RuleTable π τ) : String :=
  "RuleTable " ++ dumpFields
    [("root", dumpOption (t.root.map fun name => Text.quote name.toList)),
      ("rules", dumpList (t.rules.map (·.dump))), ("config", t.settings.dump)]

end Peg
