import Peg.Match.Step
import Peg.Grammar.Table

/-!
# What a matcher parses

`Parses` is the meaning of matchers as parsing expressions, given by rules. Its judgement
is about a matcher, the text ahead, the texts saved so far and the number of rules open,
and tells what the matcher comes to. Everything is passed by value: a rule that tries
something and drops it goes on with the text and the saved texts it began with.

The rules leave no choice: a matcher comes to at most one outcome
(`Parses.deterministic`).
-/

namespace Peg

/-- The character is one that the class names. -/
def CharClass.Has {π : Type} [CharTest π] : CharClass π → Char → Prop
  | .only c, x => x = c
  | .range lo hi, x => lo ≤ x ∧ x ≤ hi
  | .oneOf cs, x => x ∈ cs
  | .satisfying p, x => CharTest.accepts p x = true

/-- What a matcher comes to. -/
inductive Outcome (τ : Type) where
  /-- It matches, up to where `rest` is ahead. -/
  | ok (output : Output τ) (rest : Text) (saved : List (String × Text))
  | fail
  /-- More rules are open than allowed. -/
  | abort

namespace Outcome

variable {τ : Type}

def mapOutput (f : Output τ → Output τ) : Outcome τ → Outcome τ
  | ok output rest saved => ok (f output) rest saved
  | fail => fail
  | abort => abort

@[simp] theorem mapOutput_id (v : Outcome τ) : v.mapOutput id = v := by
  cases v <;> rfl

/-- Keeps the text of the fragments under a name. -/
def save (name : String) : Outcome τ → Outcome τ
  | ok output rest saved => ok output rest ((name, output.fragments.flatten) :: saved)
  | fail => fail
  | abort => abort

/-- It is no match, so nothing goes on from it. -/
inductive Stops : Outcome τ → Prop
  | fail : Stops fail
  | abort : Stops abort

/-- The end of a repetition that is still to match `min` times. -/
def enough (min : Nat) (text : Text) (saved : List (String × Text)) : Outcome τ :=
  if min = 0 then ok ⟨[], []⟩ text saved else fail

end Outcome

/-- Beside the rules of the table `t`, and with at most `limit` rules open at a time, the
matcher comes to the outcome. The indices are the number of rules open, the matcher, the
text ahead, the texts saved under names, latest first, and the outcome. -/
inductive Parses {π τ : Type} [CharTest π] (t : RuleTable π τ) (limit : Nat) :
    Nat → Matcher π → Text → List (String × Text) → Outcome τ → Prop
  | char {depth cls c rest saved} :
      cls.Has c → Parses t limit depth (.char cls) (c :: rest) saved
        (.ok ⟨[[c]], []⟩ rest saved)
  | char_other {depth cls c rest saved} :
      ¬ cls.Has c → Parses t limit depth (.char cls) (c :: rest) saved .fail
  | char_end {depth cls saved} : Parses t limit depth (.char cls) [] saved .fail
  | text {depth s rest saved} :
      Parses t limit depth (.text s) (s ++ rest) saved (.ok ⟨[s], []⟩ rest saved)
  | text_other {depth s text saved} :
      ¬ s <+: text → Parses t limit depth (.text s) text saved .fail
  | endOfInput {depth saved} :
      Parses t limit depth .endOfInput [] saved (.ok ⟨[], []⟩ [] saved)
  | endOfInput_other {depth c rest saved} :
      Parses t limit depth .endOfInput (c :: rest) saved .fail
  | sequence_nil {depth text saved} :
      Parses t limit depth (.sequence []) text saved (.ok ⟨[], []⟩ text saved)
  /-- Each child goes on where the one before it has ended. -/
  | sequence_cons {depth m ms text saved output rest saved' v} :
      Parses t limit depth m text saved (.ok output rest saved') →
      Parses t limit depth (.sequence ms) rest saved' v →
      Parses t limit depth (.sequence (m :: ms)) text saved
        (v.mapOutput fun later =>
          ⟨output.fragments ++ later.fragments, output.values ++ later.values⟩)
  | sequence_stop {depth m ms text saved v} :
      Parses t limit depth m text saved v → v.Stops →
      Parses t limit depth (.sequence (m :: ms)) text saved v
  | choice_nil {depth text saved} : Parses t limit depth (.choice []) text saved .fail
  | choice_first {depth m ms text saved output rest saved'} :
      Parses t limit depth m text saved (.ok output rest saved') →
      Parses t limit depth (.choice (m :: ms)) text saved (.ok output rest saved')
  /-- The next child begins where the one that failed began. -/
  | choice_next {depth m ms text saved v} :
      Parses t limit depth m text saved .fail →
      Parses t limit depth (.choice ms) text saved v →
      Parses t limit depth (.choice (m :: ms)) text saved v
  | choice_abort {depth m ms text saved} :
      Parses t limit depth m text saved .abort →
      Parses t limit depth (.choice (m :: ms)) text saved .abort
  /-- A repetition stops at the maximum. With each match there is one less that is still
  wanted and one less that is still allowed. -/
  | repetition_full {depth m min text saved} :
      Parses t limit depth (.repetition m min (some 0)) text saved (.enough min text saved)
  /-- It stops where `m` fails, with what there was before the failure. -/
  | repetition_end {depth m min max text saved} :
      max ≠ some 0 → Parses t limit depth m text saved .fail →
      Parses t limit depth (.repetition m min max) text saved (.enough min text saved)
  | repetition_abort {depth m min max text saved} :
      max ≠ some 0 → Parses t limit depth m text saved .abort →
      Parses t limit depth (.repetition m min max) text saved .abort
  /-- It stops with a match of no width, which stands for all that are still wanted. -/
  | repetition_still {depth m min max text saved output saved'} :
      max ≠ some 0 → Parses t limit depth m text saved (.ok output text saved') →
      Parses t limit depth (.repetition m min max) text saved (.ok output text saved')
  | repetition_more {depth m min max text saved output rest saved' v} :
      max ≠ some 0 → Parses t limit depth m text saved (.ok output rest saved') → rest ≠ text →
      Parses t limit depth (.repetition m (min - 1) (max.map (· - 1))) rest saved' v →
      Parses t limit depth (.repetition m min max) text saved
        (v.mapOutput fun later =>
          ⟨output.fragments ++ later.fragments, output.values ++ later.values⟩)
  | optional {depth m text saved output rest saved'} :
      Parses t limit depth m text saved (.ok output rest saved') →
      Parses t limit depth (.optional m) text saved (.ok output rest saved')
  | optional_empty {depth m text saved} :
      Parses t limit depth m text saved .fail →
      Parses t limit depth (.optional m) text saved (.ok ⟨[], []⟩ text saved)
  | optional_abort {depth m text saved} :
      Parses t limit depth m text saved .abort →
      Parses t limit depth (.optional m) text saved .abort
  | absent {depth m text saved} :
      Parses t limit depth m text saved .fail →
      Parses t limit depth (.absent m) text saved (.ok ⟨[], []⟩ text saved)
  | absent_present {depth m text saved output rest saved'} :
      Parses t limit depth m text saved (.ok output rest saved') →
      Parses t limit depth (.absent m) text saved .fail
  | absent_abort {depth m text saved} :
      Parses t limit depth m text saved .abort →
      Parses t limit depth (.absent m) text saved .abort
  | ref {depth name r text saved v} :
      t.rule? name = some r → Parses t limit depth r.body text saved v →
      Parses t limit depth (.ref name) text saved v
  | rule_limit {depth name m text saved} :
      limit ≤ depth → Parses t limit depth (.rule name m) text saved .abort
  | rule_plain {depth name m text saved v} :
      depth < limit → (∀ r, t.rule? name = some r → r.factory = none) →
      Parses t limit (depth + 1) m text saved v →
      Parses t limit depth (.rule name m) text saved v
  /-- The factory of a rule makes one value of what the rule yields. -/
  | rule_made {depth name m r make text saved v} :
      depth < limit → t.rule? name = some r → r.factory = some make →
      Parses t limit (depth + 1) m text saved v →
      Parses t limit depth (.rule name m) text saved
        (v.mapOutput fun output =>
          ⟨output.fragments, [make name output.fragments output.values]⟩)
  | ignore {depth m text saved v} :
      Parses t limit depth m text saved v →
      Parses t limit depth (.ignore m) text saved (v.mapOutput fun output => ⟨[], output.values⟩)
  | join {depth m text saved v} :
      Parses t limit depth m text saved v →
      Parses t limit depth (.join m) text saved
        (v.mapOutput fun output => ⟨[output.fragments.flatten], output.values⟩)
  | mark {depth m text saved v} :
      Parses t limit depth m text saved v → Parses t limit depth (.mark m) text saved v
  | save {depth name m text saved v} :
      Parses t limit depth m text saved v →
      Parses t limit depth (.save name m) text saved (v.save name)
  | load {depth name s rest saved} :
      saved.lookup name = some s →
      Parses t limit depth (.load name) (s ++ rest) saved (.ok ⟨[s], []⟩ rest saved)
  | load_other {depth name s text saved} :
      saved.lookup name = some s → ¬ s <+: text →
      Parses t limit depth (.load name) text saved .fail
  | load_unknown {depth name text saved} :
      saved.lookup name = none → Parses t limit depth (.load name) text saved .fail

namespace Parses

variable {π τ : Type} [CharTest π] {t : RuleTable π τ} {limit depth : Nat} {text : Text}
  {saved : List (String × Text)} {v v' : Outcome τ}

/-- The cases of a text: it is ahead, or it is not. -/
theorem text_inv {s : Text} (h : Parses t limit depth (.text s) text saved v) :
    (∃ rest, text = s ++ rest ∧ v = .ok ⟨[s], []⟩ rest saved) ∨ (¬ s <+: text ∧ v = .fail) := by
  cases h with
  | text => exact .inl ⟨_, rfl, rfl⟩
  | text_other other => exact .inr ⟨other, rfl⟩

/-- The cases of a saved text: it is ahead, or none that is ahead is saved. -/
theorem load_inv {name : String} (h : Parses t limit depth (.load name) text saved v) :
    (∃ s rest, saved.lookup name = some s ∧ text = s ++ rest ∧
      v = .ok ⟨[s], []⟩ rest saved) ∨
    ((∀ s, saved.lookup name = some s → ¬ s <+: text) ∧ v = .fail) := by
  cases h with
  | load found => exact .inl ⟨_, _, found, rfl, rfl⟩
  | load_other found other =>
    refine .inr ⟨fun s found' => ?_, rfl⟩
    cases found.symm.trans found'
    exact other
  | load_unknown unknown =>
    refine .inr ⟨fun s found => ?_, rfl⟩
    cases unknown.symm.trans found

/-- A matcher comes to at most one outcome. Two derivations for it agree from their first
premise on: that tells which rule the second one ends with. -/
theorem deterministic {m : Matcher π} (h : Parses t limit depth m text saved v)
    (h' : Parses t limit depth m text saved v') : v = v' := by
  induction h generalizing v' with
  | char has =>
    cases h' with
    | char => rfl
    | char_other other => exact absurd has other
  | char_other other =>
    cases h' with
    | char has => exact absurd has other
    | char_other => rfl
  | char_end =>
    cases h' with
    | char_end => rfl
  -- The text ahead is an append here, which `cases` on the second derivation cannot unify.
  | text =>
    rcases h'.text_inv with ⟨rest, same, rfl⟩ | ⟨other, _⟩
    · rw [List.append_cancel_left same]
    · exact absurd (List.prefix_append _ _) other
  | text_other other =>
    rcases h'.text_inv with ⟨rest, rfl, _⟩ | ⟨_, rfl⟩
    · exact absurd (List.prefix_append _ _) other
    · rfl
  | endOfInput =>
    cases h' with
    | endOfInput => rfl
  | endOfInput_other =>
    cases h' with
    | endOfInput_other => rfl
  | sequence_nil =>
    cases h' with
    | sequence_nil => rfl
  | sequence_cons _ _ first later =>
    cases h' with
    | sequence_cons first' later' =>
      cases first first'
      rw [later later']
    | sequence_stop first' stops =>
      cases first first'
      cases stops
  | sequence_stop _ stops first =>
    cases h' with
    | sequence_cons first' _ =>
      cases first first'
      cases stops
    | sequence_stop first' _ => exact first first'
  | choice_nil =>
    cases h' with
    | choice_nil => rfl
  | choice_first _ first =>
    cases h' with
    | choice_first first' => exact first first'
    | choice_next first' _ | choice_abort first' => cases first first'
  | choice_next _ _ first later =>
    cases h' with
    | choice_next _ later' => exact later later'
    | choice_first first' | choice_abort first' => cases first first'
  | choice_abort _ first =>
    cases h' with
    | choice_abort => rfl
    | choice_first first' | choice_next first' _ => cases first first'
  | repetition_full =>
    cases h' with
    | repetition_full => rfl
    | repetition_end more _ | repetition_abort more _ | repetition_still more _
    | repetition_more more _ _ _ => exact absurd rfl more
  | repetition_end more _ first =>
    cases h' with
    | repetition_full => exact absurd rfl more
    | repetition_end => rfl
    | repetition_abort _ first' | repetition_still _ first' | repetition_more _ first' _ _ =>
      cases first first'
  | repetition_abort more _ first =>
    cases h' with
    | repetition_full => exact absurd rfl more
    | repetition_abort => rfl
    | repetition_end _ first' | repetition_still _ first' | repetition_more _ first' _ _ =>
      cases first first'
  | repetition_still more _ first =>
    cases h' with
    | repetition_full => exact absurd rfl more
    | repetition_still _ first' => exact first first'
    | repetition_end _ first' | repetition_abort _ first' => cases first first'
    | repetition_more _ first' moved _ =>
      cases first first'
      exact absurd rfl moved
  | repetition_more more _ moved _ first later =>
    cases h' with
    | repetition_full => exact absurd rfl more
    | repetition_end _ first' | repetition_abort _ first' => cases first first'
    | repetition_still _ first' =>
      cases first first'
      exact absurd rfl moved
    | repetition_more _ first' _ later' =>
      cases first first'
      rw [later later']
  | optional _ inner =>
    cases h' with
    | optional inner' => exact inner inner'
    | optional_empty inner' | optional_abort inner' => cases inner inner'
  | optional_empty _ inner =>
    cases h' with
    | optional_empty => rfl
    | optional inner' | optional_abort inner' => cases inner inner'
  | optional_abort _ inner =>
    cases h' with
    | optional_abort => rfl
    | optional inner' | optional_empty inner' => cases inner inner'
  | absent _ inner =>
    cases h' with
    | absent => rfl
    | absent_present inner' | absent_abort inner' => cases inner inner'
  | absent_present _ inner =>
    cases h' with
    | absent_present => rfl
    | absent inner' | absent_abort inner' => cases inner inner'
  | absent_abort _ inner =>
    cases h' with
    | absent_abort => rfl
    | absent inner' | absent_present inner' => cases inner inner'
  | ref found _ inner =>
    cases h' with
    | ref found' inner' =>
      cases found.symm.trans found'
      exact inner inner'
  | rule_limit full =>
    cases h' with
    | rule_limit => rfl
    | rule_plain under _ _ | rule_made under _ _ _ => exact absurd under (Nat.not_lt.mpr full)
  | rule_plain under plain _ inner =>
    cases h' with
    | rule_limit full => exact absurd under (Nat.not_lt.mpr full)
    | rule_plain _ _ inner' => exact inner inner'
    | rule_made _ found factory _ => cases (plain _ found).symm.trans factory
  | rule_made under found factory _ inner =>
    cases h' with
    | rule_limit full => exact absurd under (Nat.not_lt.mpr full)
    | rule_plain _ plain _ => cases (plain _ found).symm.trans factory
    | rule_made _ found' factory' inner' =>
      cases found.symm.trans found'
      cases factory.symm.trans factory'
      rw [inner inner']
  | ignore _ inner =>
    cases h' with
    | ignore inner' => rw [inner inner']
  | join _ inner =>
    cases h' with
    | join inner' => rw [inner inner']
  | mark _ inner =>
    cases h' with
    | mark inner' => exact inner inner'
  | save _ inner =>
    cases h' with
    | save inner' => rw [inner inner']
  | load found =>
    rcases h'.load_inv with ⟨s, rest, found', same, rfl⟩ | ⟨other, _⟩
    · cases found.symm.trans found'
      rw [List.append_cancel_left same]
    · exact absurd (List.prefix_append _ _) (other _ found)
  | load_other found other =>
    rcases h'.load_inv with ⟨s, rest, found', rfl, _⟩ | ⟨_, rfl⟩
    · cases found.symm.trans found'
      exact absurd (List.prefix_append _ _) other
    · rfl
  | load_unknown unknown =>
    rcases h'.load_inv with ⟨s, rest, found, _⟩ | ⟨_, rfl⟩
    · cases unknown.symm.trans found
    · rfl

end Parses

end Peg
