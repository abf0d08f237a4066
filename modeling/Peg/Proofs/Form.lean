import Peg.Grammar.Table
import Peg.Proofs.CharRuns

/-!
# The form of checked matchers

A check looks at every node of a matcher on its own. What it asks of a node is
`Matcher.FormedNode`; a matcher is formed (`Matcher.Formed`) if all its nodes are. Both
this and the names of rules are told here along the tree, by the topmost node and the
matchers below it (`Matcher.formed_iff`, `Matcher.ruleNames_eq`), and a check is shown to
be about these two and nothing else (`RuleTable.problem?_eq_none_iff`).
-/

namespace Peg

def CharClass.test? {π : Type} : CharClass π → Option π
  | satisfying p => some p
  | only _ | range _ _ | oneOf _ => none

namespace Matcher

variable {π : Type}

/-- `P` holds of every node. -/
def Every (P : Matcher π → Prop) (m : Matcher π) : Prop := ∀ n ∈ m.subtrees, P n

theorem every_iff {P : Matcher π → Prop} {m : Matcher π} :
    m.Every P ↔ P m ∧ ∀ c ∈ m.children, c.Every P := by
  simp only [Every]
  rw [subtrees_eq m, List.forall_mem_cons, List.forall_mem_flatMap]

/-- A property holds of every matcher if it holds of a matcher whenever it holds of its
children. -/
theorem induct_children {motive : Matcher π → Prop}
    (step : ∀ m : Matcher π, (∀ c ∈ m.children, motive c) → motive m) (m : Matcher π) :
    motive m := by
  induction m with
  | sequence ms ih | choice ms ih => exact step _ ih
  | repetition m min max ih | optional m ih | absent m ih | rule name m ih | ignore m ih
  | join m ih | mark m ih | save name m ih => exact step _ (List.forall_mem_singleton.mpr ih)
  | char cls | text t | endOfInput | ref name | load name => exact step _ nofun

/-- What holds of every node of a matcher holds of every node below one of them. -/
theorem Every.subtree {P : Matcher π → Prop} {m n : Matcher π} (h : m.Every P)
    (hn : n ∈ m.subtrees) : n.Every P := by
  induction m using induct_children with
  | step m ih =>
    rw [subtrees_eq] at hn
    rcases List.mem_cons.mp hn with rfl | below
    · exact h
    · obtain ⟨c, hc, inside⟩ := List.mem_flatMap.mp below
      exact ih c hc ((every_iff.mp h).2 c hc) inside

def isOptional : Matcher π → Bool
  | optional _ => true
  | _ => false

theorem isOptional_eq_false_iff {m : Matcher π} :
    m.isOptional = false ↔ ∀ n, m ≠ optional n := by
  cases m <;> simp [isOptional]

/-- What is asked of a node in a grammar, if `known` tells which rules are nullable. -/
def FormedNode (known : String → Bool) : Matcher π → Prop
  | char cls => cls.Proper
  | text t => t ≠ []
  | sequence ms | choice ms => ms ≠ []
  | repetition _ min (some max) => min ≤ max
  | repetition m _ none => m.isNullable known = false
  | optional m => m.isOptional = false
  | ref name | rule name _ | save name _ | load name => name ≠ ""
  | endOfInput | absent _ | ignore _ | join _ | mark _ => True

abbrev Formed (known : String → Bool) (m : Matcher π) : Prop := m.Every (FormedNode known)

variable {known : String → Bool}

theorem formed_iff {m : Matcher π} :
    m.Formed known ↔ m.FormedNode known ∧ ∀ c ∈ m.children, c.Formed known := every_iff

theorem nodeDefect?_eq_none_iff [CharTest π] (m : Matcher π) :
    m.nodeDefect? known = none ↔ m.FormedNode known := by
  cases m with
  | char cls =>
    cases cls with
    | only c | satisfying p => simp [nodeDefect?, FormedNode, CharClass.Proper]
    | range lo hi =>
      have ordered : ¬ hi < lo ↔ lo ≤ hi := Char.not_lt
      simp only [nodeDefect?, FormedNode, CharClass.Proper, ← ordered]
      split
      · next inverted => simp [inverted]
      · next inverted => simp [inverted]
    | oneOf cs =>
      simp only [nodeDefect?, FormedNode, CharClass.Proper, ← Text.isAscending_iff]
      cases cs with
      | nil => simp
      | cons c cs => by_cases h : Text.isAscending (c :: cs) = true <;> simp [h]
  | text t | sequence t | choice t => cases t <;> simp [nodeDefect?, FormedNode]
  | repetition m min max => cases max <;> simp [nodeDefect?, FormedNode]
  | optional m => cases m <;> simp [nodeDefect?, FormedNode, isOptional]
  | ref name | rule name m | save name m | load name => simp [nodeDefect?, FormedNode]
  | endOfInput | absent m | ignore m | join m | mark m => simp [nodeDefect?, FormedNode]

theorem defect?_eq_none_iff [CharTest π] {m : Matcher π} :
    m.defect? known = none ↔ m.Formed known := by
  simp only [defect?, List.findSome?_eq_none_iff, nodeDefect?_eq_none_iff, Every]

/-! ## Tests and names of rules -/

def test? : Matcher π → Option π
  | char cls => cls.test?
  | _ => none

/-- The named tests of the matcher, from left to right. -/
def tests (m : Matcher π) : List π := m.subtrees.filterMap test?

/-- What is collected from the nodes of a matcher comes from the topmost node first, and then
from those below it. -/
theorem filterMap_subtrees {β : Type} (f : Matcher π → Option β) (m : Matcher π) :
    m.subtrees.filterMap f = (f m).toList ++ m.children.flatMap (·.subtrees.filterMap f) := by
  rw [subtrees_eq m, List.filterMap_cons, List.filterMap_flatMap]
  cases f m <;> rfl

theorem ruleNames_eq (m : Matcher π) :
    m.ruleNames = m.ruleName?.toList ++ m.children.flatMap ruleNames :=
  filterMap_subtrees ruleName? m

/-- All rules that the matcher names are among `names`. -/
def Closed (names : List String) (m : Matcher π) : Prop := ∀ name ∈ m.ruleNames, name ∈ names

variable {names : List String}

theorem Closed.child {m c : Matcher π} (h : m.Closed names) (hc : c ∈ m.children) :
    c.Closed names := fun name hn => by
  refine h name ?_
  rw [ruleNames_eq]
  exact List.mem_append_right _ (List.mem_flatMap.mpr ⟨c, hc, hn⟩)

theorem Formed.child {m c : Matcher π} (h : m.Formed known) (hc : c ∈ m.children) :
    c.Formed known := (formed_iff.mp h).2 c hc

theorem Formed.node {m : Matcher π} (h : m.Formed known) : m.FormedNode known :=
  (formed_iff.mp h).1

/-! ## Nullable and leading parts -/

theorem leadingOfChoice_eq_flatMap (known : String → Bool) (ms : List (Matcher π)) :
    leadingOfChoice known ms = ms.flatMap (leadingRefs known) := by
  induction ms with
  | nil => rfl
  | cons m ms ih => rw [leadingOfChoice, ih, List.flatMap_cons]

/-- What leads in a sequence is what leads in a child with only nullable ones before it. -/
theorem mem_leadingOfSequence_iff {ms : List (Matcher π)} {name : String} :
    name ∈ leadingOfSequence known ms ↔
      ∃ before m behind, ms = before ++ m :: behind ∧
        (∀ n ∈ before, n.isNullable known = true) ∧ name ∈ m.leadingRefs known := by
  induction ms with
  | nil => simp [leadingOfSequence]
  | cons m ms ih =>
    rw [leadingOfSequence, List.mem_append]
    constructor
    · rintro (here | later)
      · exact ⟨[], m, ms, rfl, nofun, here⟩
      · split at later
        · next nullable =>
          obtain ⟨before, n, behind, rfl, all, inside⟩ := ih.mp later
          exact ⟨m :: before, n, behind, rfl, List.forall_mem_cons.mpr ⟨nullable, all⟩, inside⟩
        · exact absurd later List.not_mem_nil
    · rintro ⟨before, n, behind, split, all, inside⟩
      cases before with
      | nil =>
        obtain ⟨rfl, rfl⟩ := List.cons.inj split
        exact .inl inside
      | cons first before =>
        obtain ⟨rfl, rfl⟩ := List.cons.inj split
        obtain ⟨nullable, all⟩ := List.forall_mem_cons.mp all
        rw [if_pos nullable]
        exact .inr (ih.mpr ⟨before, n, behind, rfl, all, inside⟩)

theorem exists_of_mem_leadingOfSequence {ms : List (Matcher π)}
    {name : String} (hn : name ∈ leadingOfSequence known ms) :
    ∃ m ∈ ms, name ∈ m.leadingRefs known := by
  obtain ⟨before, m, behind, rfl, _, inside⟩ := mem_leadingOfSequence_iff.mp hn
  exact ⟨m, List.mem_append_right _ List.mem_cons_self, inside⟩

end Matcher

namespace RuleTable

variable {π τ : Type}

theorem contains_iff {t : RuleTable π τ} {name : String} :
    t.contains name = true ↔ name ∈ t.names := by
  simp [contains, rule?, names]

theorem exists_rule? {t : RuleTable π τ} {name : String} (member : name ∈ t.names) :
    ∃ r, t.rule? name = some r :=
  Option.isSome_iff_exists.mp (contains_iff.mpr member)

theorem mem_of_rule? {t : RuleTable π τ} {name : String} {r : Rule π τ}
    (found : t.rule? name = some r) : r ∈ t.rules := List.mem_of_find?_eq_some found

theorem name_of_rule? {t : RuleTable π τ} {name : String} {r : Rule π τ}
    (found : t.rule? name = some r) : r.name = name := by
  have same := List.find?_some (p := fun r : Rule π τ => r.name == name) found
  exact beq_iff_eq.mp same

/-- A matcher passes the check beside the rules of a table exactly if it is formed and
names only rules of the table. -/
theorem problem?_eq_none_iff [CharTest π] {t : RuleTable π τ} {m : Matcher π} :
    t.problem? m = none ↔ m.Closed t.names ∧ m.Formed t.nullable.holds := by
  rw [problem?, Option.orElse_eq_orElse, Option.orElse_eq_or, Option.or_eq_none_iff,
    Option.map_eq_none_iff, Option.map_eq_none_iff, Matcher.defect?_eq_none_iff,
    List.find?_eq_none]
  simp [Matcher.Closed, contains_iff]

end RuleTable

end Peg
