import Peg.Matcher.Basic
import Peg.Text.Quoted

/-!
# Trees in full

The tree of a matcher written out node by node, with each kind of node named.
-/

namespace Peg

/-- The contents of a record, in braces. -/
def dumpFields (fields : List (String × String)) : String :=
  let inside := ", ".intercalate (fields.map fun (name, value) => s!"{name}: {value}")
  String.singleton '{' ++ s!" {inside} " ++ String.singleton '}'

def dumpList (items : List String) : String :=
  "[" ++ ", ".intercalate items ++ "]"

def dumpOption : Option String → String
  | none => "None"
  | some value => s!"Some({value})"

def CharClass.dump {π : Type} [CharTest π] : CharClass π → String
  | only c => s!"Literal({Text.quoteChar c})"
  | range lo hi => s!"Range({Text.quoteChar lo}, {Text.quoteChar hi})"
  | oneOf cs => s!"Set({dumpList (cs.map Text.quoteChar)})"
  | satisfying p => s!"Predicate(CharPredicate({CharTest.name p}))"

namespace Matcher

variable {π : Type} [CharTest π]

mutual

def dump : Matcher π → String
  | char cls => cls.dump
  | text t => s!"LiteralString({Text.quote t})"
  | endOfInput => "EndOfInput"
  | sequence ms => s!"Sequence({dumpList (dumpAll ms)})"
  | choice ms => s!"Alternation({dumpList (dumpAll ms)})"
  | repetition m min max =>
    "Repetition " ++ dumpFields
      [("inner", dump m), ("min", toString min), ("max", dumpOption (max.map toString))]
  | optional m => s!"Optional({dump m})"
  | absent m => s!"Negated({dump m})"
  | ref name => s!"RuleRef({Text.quote name.toList})"
  | rule name m =>
    "RuleWrapper " ++ dumpFields [("name", Text.quote name.toList), ("inner", dump m)]
  | ignore m => s!"Ignore({dump m})"
  | join m => s!"Join({dump m})"
  | mark m => s!"Marker({dump m})"
  | save name m =>
    "Saving " ++ dumpFields [("name", Text.quote name.toList), ("inner", dump m)]
  | load name => s!"Loading({Text.quote name.toList})"

def dumpAll : List (Matcher π) → List String
  | [] => []
  | m :: ms => dump m :: dumpAll ms

end

end Matcher

end Peg
