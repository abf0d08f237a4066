/-!
# Settings

What a rule table carries along for the runs of its rules.
-/

namespace Peg

structure Settings where
  /-- How many applications of rules may be open at a time. -/
  maxDepth : Nat := 200
  /-- Rules are optimized when their table is built. -/
  optimize : Bool := false
  /-- Every application of a rule is traced. -/
  traceRules : Bool := false
deriving DecidableEq, Repr

instance : Inhabited Settings := ⟨{}⟩

inductive SettingsError where
  | zeroDepth
deriving DecidableEq, Repr

def SettingsError.message : SettingsError → String
  | zeroDepth => "max_depth must be at least 1"

/-- Refuses settings under which no rule can be applied. -/
def Settings.validate (s : Settings) : Except SettingsError Settings :=
  if s.maxDepth = 0 then .error .zeroDepth else .ok s

end Peg
