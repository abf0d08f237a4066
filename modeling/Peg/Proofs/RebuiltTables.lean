import Peg.Proofs.BuiltTables
import Peg.Proofs.Denotation

/-!
# An optimized table need not be checked again

The rules of an optimized table are never checked, and what is known of nullable rules is
taken over from the table it was made from. Neither is a loss. All that a build looks at is
how the rules are called and what `Rule.StandsFor` tells of them; a rule that stands for
another passes where that one does, and an optimized rule stands for the rule it was made
from. So building the optimized rules anew gives what was taken over
(`RuleTable.rebuild_optimized`).
-/

namespace Peg

/-! ## Rules in place of others -/

/-- The second rule passes every check that the first one passes, beside whatever rules,
and tells the checks of other rules the same. -/
structure Rule.StandsFor {π τ : Type} (r r' : Rule π τ) : Prop where
  name : r'.name = r.name
  ruleNames : r'.body.ruleNames = r.body.ruleNames
  isNullable : ∀ known, r'.body.isNullable known = r.body.isNullable known
  leadingRefs : ∀ known, r'.body.leadingRefs known = r.body.leadingRefs known
  formed : ∀ {known}, r.body.Formed known → r'.body.Formed known

namespace Rule

variable {π τ : Type} {r r' r'' : Rule π τ}

theorem StandsFor.trans (h : r.StandsFor r') (h' : r'.StandsFor r'') : r.StandsFor r'' where
  name := h'.name.trans h.name
  ruleNames := h'.ruleNames.trans h.ruleNames
  isNullable known := (h'.isNullable known).trans (h.isNullable known)
  leadingRefs known := (h'.leadingRefs known).trans (h.leadingRefs known)
  formed formed := h'.formed (h.formed formed)

/-- Labels and factories are no matter of the checks. -/
theorem StandsFor.of_same (name : r'.name = r.name) (definition : r'.definition = r.definition) :
    r.StandsFor r' := by
  have body : r'.body = r.body := by rw [Rule.body, Rule.body, name, definition]
  exact ⟨name, by rw [body], fun _ => by rw [body], fun _ => by rw [body], fun h => body ▸ h⟩

theorem Optimized.standsFor [CharTest π] (h : r.Optimized r') : r.StandsFor r' where
  name := h.name
  ruleNames := by rw [h.body, Matcher.ruleNames_optimize]
  isNullable known := by rw [h.body, Matcher.isNullable_optimize]
  leadingRefs known := by rw [h.body, Matcher.leadingRefs_optimize]
  formed formed := h.body ▸ formed.optimize

end Rule

/-- Each rule of the second list stands for the one in its place in the first. -/
abbrev Replaces {π τ : Type} (rules rules' : List (Rule π τ)) : Prop :=
  List.Forall₂ Rule.StandsFor rules rules'

namespace Replaces

variable {π τ : Type} {rules rules' rules'' : List (Rule π τ)}

theorem refl (rules : List (Rule π τ)) : Replaces rules rules :=
  List.forall₂_same.mpr fun _ _ => .of_same rfl rfl

theorem trans (h : Replaces rules rules') (h' : Replaces rules' rules'') :
    Replaces rules rules'' := by
  induction h generalizing rules'' with
  | nil => exact h'
  | cons first _ ih =>
    cases h' with
    | cons first' rest => exact .cons (first.trans first') (ih rest)

theorem of_same (h : rules.map (fun r => (r.name, r.definition)) =
    rules'.map (fun r => (r.name, r.definition))) : Replaces rules rules' := by
  rw [← List.forall₂_eq_eq_eq, List.forall₂_map_left_iff, List.forall₂_map_right_iff] at h
  refine h.imp fun r r' same => ?_
  obtain ⟨name, definition⟩ := Prod.mk.inj same
  exact .of_same name.symm definition.symm

/-! ## Nullable rules -/

theorem sweep_eq (h : Replaces rules rules') (n : NullMap) :
    NullMap.sweep rules' n = NullMap.sweep rules n := by
  unfold NullMap.sweep
  induction h generalizing n with
  | nil => rfl
  | cons first _ ih =>
    rw [List.foldl_cons, List.foldl_cons, first.isNullable, first.name]
    exact ih _

theorem settle_eq (h : Replaces rules rules') (bound : Nat) (n : NullMap) :
    NullMap.settle rules' bound n = NullMap.settle rules bound n := by
  induction bound generalizing n with
  | zero => rfl
  | succ bound ih =>
    unfold NullMap.settle
    dsimp only
    rw [h.sweep_eq, ih]

theorem compute_eq (h : Replaces rules rules') :
    NullMap.compute rules' = NullMap.compute rules := by
  have start : NullMap.ofRules rules' = NullMap.ofRules rules :=
    map_eq_of_forall₂ h fun _ _ stands => by rw [stands.name]
  rw [NullMap.compute, NullMap.compute, start, h.length_eq, h.settle_eq]

/-! ## The checks of a grammar -/

variable {g g' : Grammar π τ}

theorem names_eq (h : Replaces g.rules g'.rules) : g'.names = g.names :=
  map_eq_of_forall₂ h fun _ _ stands => stands.name

theorem leadingGraph_eq (h : Replaces g.rules g'.rules) (nullable : NullMap) :
    g'.leadingGraph nullable = g.leadingGraph nullable :=
  map_eq_of_forall₂ h fun _ _ stands => by rw [stands.name, stands.leadingRefs]

theorem referenceProblem? (h : Replaces g.rules g'.rules) (clean : g.referenceProblem? = none) :
    g'.referenceProblem? = none := by
  refine List.findSome?_eq_none_iff.mpr fun r' hr => ?_
  obtain ⟨r, member, stands⟩ := exists_of_mem_of_forall₂ h hr
  have first := List.findSome?_eq_none_iff.mp clean r member
  rw [Option.map_eq_none_iff] at first ⊢
  rw [stands.ruleNames, h.names_eq]
  exact first

theorem formProblem? [CharTest π] (h : Replaces g.rules g'.rules) {nullable : NullMap}
    (clean : g.formProblem? nullable = none) : g'.formProblem? nullable = none := by
  refine List.findSome?_eq_none_iff.mpr fun r' hr => Option.map_eq_none_iff.mpr ?_
  obtain ⟨r, member, stands⟩ := exists_of_mem_of_forall₂ h hr
  exact Matcher.defect?_eq_none_iff.mpr
    (stands.formed (Grammar.formed_of_formProblem? clean r member))

/-- A grammar has no problem if its rules stand for those of one that has none. -/
theorem problem? [CharTest π] (h : Replaces g.rules g'.rules) (root : g'.root = g.root)
    (clean : g.problem? = none) : g'.problem? = none := by
  have rootProblem : g'.rootProblem? = g.rootProblem? := by
    rw [Grammar.rootProblem?, Grammar.rootProblem?, root, h.names_eq]
  have recursion : ∀ nullable, g'.recursionProblem? nullable = g.recursionProblem? nullable :=
    fun nullable => by rw [Grammar.recursionProblem?, Grammar.recursionProblem?, h.leadingGraph_eq]
  simp only [Grammar.problem?, Option.orElse_eq_orElse, Option.orElse_eq_or,
    Option.or_eq_none_iff] at clean ⊢
  obtain ⟨names, rootFound, references, form, recursionFound⟩ := clean
  rw [h.names_eq, rootProblem, recursion, h.compute_eq]
  exact ⟨names, rootFound, h.referenceProblem? references, h.formProblem? form, recursionFound⟩

end Replaces

/-! ## Built tables -/

section

variable {π τ : Type}

namespace RuleTable

/-- What each rule applies before anything is consumed. -/
def leadingRefs (t : RuleTable π τ) : List (String × List String) :=
  t.rules.map fun r => (r.name, r.body.leadingRefs t.nullable.holds)

theorem leadingRefs_eq {t u : RuleTable π τ} (rules : Replaces t.rules u.rules)
    (nullable : u.nullable = t.nullable) : u.leadingRefs = t.leadingRefs := by
  unfold leadingRefs
  rw [nullable]
  exact map_eq_of_forall₂ rules fun _ _ stands => by rw [stands.name, stands.leadingRefs]

end RuleTable

variable [CharTest π]

theorem RuleTable.replaces_optimized (t : RuleTable π τ) :
    Replaces t.rules t.optimized.1.rules :=
  t.forall₂_optimized.imp fun _ _ optimized => optimized.standsFor

/-- A table holds the rules of its grammar, or optimized ones in their places, and the
nullable rules as they were found in the grammar. -/
structure RuleTable.Holds (t : RuleTable π τ) (g : Grammar π τ) : Prop where
  rules : Replaces g.rules t.rules
  nullable : t.nullable = NullMap.compute g.rules
  root : t.root = g.root

/-- Only grammars without problems are built, and the table that one is built to holds it. -/
theorem Grammar.holds_of_build {g : Grammar π τ} {t : RuleTable π τ} {events : List TableEvent}
    (built : g.build = .ok (t, events)) : g.problem? = none ∧ t.Holds g := by
  let table : RuleTable π τ := ⟨g.rules, NullMap.compute g.rules, g.root, g.settings⟩
  unfold build at built
  split at built
  · cases built
  · next clean =>
    refine ⟨clean, ?_⟩
    cases optimize : g.settings.optimize with
    | true =>
      simp only [optimize, if_true] at built
      cases built
      exact ⟨table.replaces_optimized, rfl, rfl⟩
    | false =>
      simp only [optimize, Bool.false_eq_true, if_false] at built
      cases built
      exact ⟨.refl _, rfl, rfl⟩

/-- Every grammar without problems is built. -/
theorem Grammar.exists_build {g : Grammar π τ} (clean : g.problem? = none) :
    ∃ t events, g.build = .ok (t, events) := by
  unfold build
  rw [clean]
  exact ⟨_, _, rfl⟩

namespace RuleTable

/-- A matcher that passes the check of a built table passes it when it is optimized, and is
nullable as before. The definitions of the optimized table are those of a grammar that
is built as well, and what the build finds out about nullable rules and about the rules that
each rule applies first is what the optimized table took over. -/
theorem rebuild_optimized {g : Grammar π τ} {t : RuleTable π τ} {events : List TableEvent}
    (built : g.build = .ok (t, events)) :
    (∀ m, t.problem? m = none →
      t.problem? m.optimize = none ∧ t.isNullable m.optimize = t.isNullable m) ∧
    ∀ fresh : Grammar π τ, fresh.root = t.optimized.1.root →
      fresh.rules.map (fun r => (r.name, r.definition)) =
        t.optimized.1.rules.map (fun r => (r.name, r.definition)) →
      ∃ u events', fresh.build = .ok (u, events') ∧
        u.nullable = t.optimized.1.nullable ∧ t.optimized.1.nullable = t.nullable ∧
        u.leadingRefs = t.optimized.1.leadingRefs ∧ t.optimized.1.leadingRefs = t.leadingRefs := by
  refine ⟨fun m checked => ⟨problem?_optimize checked, m.isNullable_optimize _⟩,
    fun fresh root same => ?_⟩
  obtain ⟨clean, holds⟩ := Grammar.holds_of_build built
  have anew : Replaces t.optimized.1.rules fresh.rules := .of_same same.symm
  have whole := holds.rules.trans (t.replaces_optimized.trans anew)
  obtain ⟨u, events', rebuilt⟩ :=
    Grammar.exists_build (whole.problem? (root.trans holds.root) clean)
  have holds' := (Grammar.holds_of_build rebuilt).2
  have nullable : u.nullable = t.nullable := by
    rw [holds'.nullable, whole.compute_eq, holds.nullable]
  exact ⟨u, events', rebuilt, nullable, rfl, leadingRefs_eq (anew.trans holds'.rules) nullable,
    leadingRefs_eq t.replaces_optimized rfl⟩

/-- The alternatives of `"letter"` become one range and the optional one in `"word"` is
unwrapped. A build of the rules so made finds what was found before. -/
theorem rebuild_nested_choices :
    let letter : Matcher Empty :=
      .choice [.choice [.char (.only 'b'), .char (.range 'c' 'd')], .char (.only 'a')]
    let word : Matcher Empty :=
      .sequence [.optional (.choice [.optional (.ref "letter")]), .optional (.ref "end"),
        .repetition (.ref "letter") 1 none]
    let stop : Matcher Empty := .choice [.absent (.ref "letter"), .char (.only '.')]
    let rules : List (Rule Empty Nat) :=
      [⟨"letter", letter, default, none⟩, ⟨"word", word, default, none⟩,
        ⟨"end", stop, default, none⟩]
    let g : Grammar Empty Nat := ⟨rules, some "word", {}⟩
    let t : RuleTable Empty Nat := ⟨rules, NullMap.compute rules, some "word", {}⟩
    let m : Matcher Empty := .optional (.choice [.optional (.ref "word")])
    let fresh : Grammar Empty Nat :=
      ⟨[⟨"letter", .char (.range 'a' 'd'), default, some fun _ fragments _ => fragments.length⟩,
        ⟨"word", .sequence [.optional (.ref "letter"), .optional (.ref "end"),
          .repetition (.ref "letter") 1 none], default, none⟩,
        ⟨"end", stop, default, none⟩], some "word", { optimize := true }⟩
    g.build = .ok (t, [.built 3 "word" false]) ∧ t.problem? m = none ∧
      fresh.root = t.optimized.1.root ∧
      fresh.rules.map (fun r => (r.name, r.definition)) =
        t.optimized.1.rules.map (fun r => (r.name, r.definition)) ∧
      t.problem? m.optimize = none ∧ t.isNullable m.optimize = true ∧
      ∃ u events, fresh.build = .ok (u, events) ∧
        u.nullable = [("letter", false), ("word", false), ("end", true)] ∧
        u.leadingRefs =
          [("letter", []), ("word", ["letter", "end", "letter"]), ("end", ["letter"])] := by
  intro letter word stop rules g t m fresh
  have built : g.build = .ok (t, [.built 3 "word" false]) :=
    Grammar.build_of_problem? (by decide) rfl
  have checked : t.problem? m = none := by decide
  have root : fresh.root = t.optimized.1.root := rfl
  have same : fresh.rules.map (fun r => (r.name, r.definition)) =
      t.optimized.1.rules.map (fun r => (r.name, r.definition)) := by decide
  obtain ⟨matchers, rebuilt⟩ := rebuild_optimized built
  obtain ⟨checked', nullable⟩ := matchers m checked
  obtain ⟨u, events, build, known, found, leading, first⟩ := rebuilt fresh root same
  have known' : t.nullable = [("letter", false), ("word", false), ("end", true)] := by decide
  have first' : t.leadingRefs =
      [("letter", []), ("word", ["letter", "end", "letter"]), ("end", ["letter"])] := by decide
  exact ⟨built, checked, root, same, checked', nullable, u, events, build,
    (known.trans found).trans known', (leading.trans first).trans first'⟩

end RuleTable

end

end Peg
