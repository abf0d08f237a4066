import Peg.Proofs.BeforeConsuming
import Peg.Proofs.NameCycles
import Peg.Proofs.RebuiltTables

/-!
# Just the valid grammars are built

What makes a grammar valid is said here without its checks: `Grammar.Meets` gives, check by
check, what is asked of the rules, in terms of the rules alone. A grammar is built exactly
if it meets all of it, and if it is not, the error is one of the first check that it does
not meet (`Grammar.build_checks`). `Grammar.Reports` tells which error that is and where in
the grammar it comes from.

The checks are not independent of each other. That a name is no empty one is asked of every
node by the check of the form, but for the names of rules it follows from the checks before;
and the graph that is searched for a cycle is that of the rules only if no two of them have
one name.
-/

namespace Peg

/-! ## What is asked of a grammar -/

/-- What is asked of a node of a matcher beside the rules, apart from the rules that it
names. -/
def Matcher.ProperNode {π τ : Type} (rules : List (Rule π τ)) : Matcher π → Prop
  | char cls => cls.Proper
  | text t => t ≠ []
  | sequence ms | choice ms => ms ≠ []
  | repetition _ min (some max) => min ≤ max
  | repetition m _ none => ¬ m.Nullable rules
  | optional m => ∀ n, m ≠ optional n
  | save name _ | load name => name ≠ ""
  | endOfInput | absent _ | ref _ | rule _ _ | ignore _ | join _ | mark _ => True

namespace Grammar

variable {π τ : Type}

/-- The first rule may apply the second one before anything is consumed. -/
def Leads (g : Grammar π τ) (name next : String) : Prop :=
  ∃ r ∈ g.rules, r.name = name ∧ r.body.Leads g.rules next

/-- The first rule may apply the second one before anything is consumed, if just the rules in
`nullable` may match nothing. -/
def LeadsBy (g : Grammar π τ) (nullable : NullMap) (name next : String) : Prop :=
  ∃ r ∈ g.rules, r.name = name ∧ next ∈ r.body.leadingRefs nullable.holds

inductive Check where
  | names
  | root
  | references
  | form
  | recursion
deriving DecidableEq

/-- The checks that are made before this one. -/
def Check.earlier : Check → List Check
  | names => []
  | root => [names]
  | references => [names, root]
  | form => [names, root, references]
  | recursion => [names, root, references, form]

/-- What a check asks of a grammar. -/
def Meets (g : Grammar π τ) : Check → Prop
  | .names => "" ∉ g.names ∧ g.names.Nodup
  | .root => ∀ name, g.root = some name → name ∈ g.names
  | .references => ∀ r ∈ g.rules, r.body.Closed g.names
  | .form => ∀ r ∈ g.rules, r.body.Every (Matcher.ProperNode g.rules)
  | .recursion => ∀ name, ¬ Relation.TransGen g.Leads name name

/-- The errors that a check reports. The culprit is the first one in the order of the rules,
and within a rule the one that is met first. -/
inductive Reports [CharTest π] (g : Grammar π τ) : Check → GrammarError → Prop
  | emptyName {before behind : List String} :
      g.names = before ++ "" :: behind → "" ∉ before → before.Nodup →
      Reports g .names (.malformed none .emptyRuleName)
  | duplicate {before behind : List String} {name : String} :
      g.names = before ++ name :: behind → "" ∉ before → before.Nodup → name ∈ before →
      Reports g .names (.duplicateRule name)
  | root {name : String} : g.root = some name → name ∉ g.names →
      Reports g .root (.missingRoot name)
  | reference {before behind : List (Rule π τ)} {r : Rule π τ} {earlier later : List String}
      {name : String} :
      g.rules = before ++ r :: behind → (∀ r' ∈ before, r'.body.Closed g.names) →
      r.body.ruleNames = earlier ++ name :: later → (∀ n ∈ earlier, n ∈ g.names) →
      name ∉ g.names → Reports g .references (.undefinedRule name (some r.name))
  | form {before behind : List (Rule π τ)} {r : Rule π τ} {earlier later : List (Matcher π)}
      {n : Matcher π} {defect : Defect} :
      g.rules = before ++ r :: behind →
      (∀ r' ∈ before, r'.body.Every (Matcher.ProperNode g.rules)) →
      r.body.subtrees = earlier ++ n :: later → (∀ n' ∈ earlier, n'.ProperNode g.rules) →
      ¬ n.ProperNode g.rules → n.nodeDefect? (NullMap.compute g.rules).holds = some defect →
      Reports g .form (.malformed (some r.name) defect)
  | recursion {path : List String} : IsCycle g.Leads path →
      Reports g .recursion (.malformed path.head? (.leftRecursion path))

/-- A check that reports an error is not met. -/
theorem Reports.not_meets [CharTest π] {g : Grammar π τ} {check : Check} {error : GrammarError}
    (h : g.Reports check error) : ¬ g.Meets check := by
  cases h with
  | emptyName split =>
    intro ⟨proper, _⟩
    exact proper (split ▸ List.mem_append_right _ List.mem_cons_self)
  | duplicate split _ _ twice =>
    intro ⟨_, distinct⟩
    rw [split] at distinct
    exact (List.nodup_append.mp distinct).2.2 _ twice _ List.mem_cons_self rfl
  | root given missing => exact fun meets => missing (meets _ given)
  | reference split _ names _ missing =>
    intro closed
    refine missing (closed _ (split ▸ List.mem_append_right _ List.mem_cons_self) _ ?_)
    exact names ▸ List.mem_append_right _ List.mem_cons_self
  | form split _ nodes _ improper _ =>
    intro proper
    refine improper (proper _ (split ▸ List.mem_append_right _ List.mem_cons_self) _ ?_)
    exact nodes ▸ List.mem_append_right _ List.mem_cons_self
  | recursion cycle =>
    intro acyclic
    obtain ⟨name, _, around⟩ := cycle.exists_transGen
    exact acyclic name around

/-! ## The checks one by one -/

section

variable {g : Grammar π τ}

theorem nonempty_of_nameProblem? {earlier names : List String}
    (none : nameProblem? earlier names = none) : "" ∉ names := by
  induction names generalizing earlier with
  | nil => exact List.not_mem_nil
  | cons name names ih =>
    unfold nameProblem? at none
    split at none
    · cases none
    · next proper =>
      split at none
      · cases none
      · exact fun member => (List.mem_cons.mp member).elim (proper ·.symm) (ih none)

theorem meets_names (none : nameProblem? [] g.names = none) : g.Meets .names :=
  ⟨nonempty_of_nameProblem? none, (nodup_of_nameProblem? none).1⟩

/-- There is no problem with the names before the one that is reported. -/
theorem split_of_nameProblem? {earlier names : List String} {error : GrammarError}
    (found : nameProblem? earlier names = some error) :
    ∃ before name behind, names = before ++ name :: behind ∧
      nameProblem? earlier before = none ∧
      (name = "" ∧ error = .malformed none .emptyRuleName ∨
        (name ∈ earlier ∨ name ∈ before) ∧ error = .duplicateRule name) := by
  induction names generalizing earlier with
  | nil => cases found
  | cons name names ih =>
    unfold nameProblem? at found
    split at found
    · next empty =>
      cases found
      exact ⟨[], name, names, rfl, rfl, .inl ⟨empty, rfl⟩⟩
    · next proper =>
      split at found
      · next twice =>
        cases found
        exact ⟨[], name, names, rfl, rfl, .inr ⟨.inl twice, rfl⟩⟩
      · next new =>
        obtain ⟨before, culprit, behind, rfl, clean, what⟩ := ih found
        refine ⟨name :: before, culprit, behind, rfl, ?_, what.imp_right ?_⟩
        · rw [nameProblem?, if_neg proper, if_neg new, clean]
        · rintro ⟨old, rfl⟩
          refine ⟨?_, rfl⟩
          rw [List.mem_cons] at old ⊢
          rcases old with (here | old) | old
          · exact .inr (.inl here)
          · exact .inl old
          · exact .inr (.inr old)

variable [CharTest π]

theorem reports_names {error : GrammarError} (found : nameProblem? [] g.names = some error) :
    g.Reports .names error := by
  obtain ⟨before, name, behind, split, clean, what⟩ := split_of_nameProblem? found
  have proper := nonempty_of_nameProblem? clean
  have distinct := (nodup_of_nameProblem? clean).1
  rcases what with ⟨rfl, rfl⟩ | ⟨old | twice, rfl⟩
  · exact .emptyName split proper distinct
  · exact absurd old List.not_mem_nil
  · exact .duplicate split proper distinct twice

omit [CharTest π] in
theorem meets_root (none : g.rootProblem? = none) : g.Meets .root := by
  intro name given
  unfold rootProblem? at none
  rw [given] at none
  by_contra missing
  simp only [if_neg missing] at none
  cases none

theorem reports_root {error : GrammarError} (found : g.rootProblem? = some error) :
    g.Reports .root error := by
  unfold rootProblem? at found
  split at found
  · next name given =>
    split at found
    · cases found
    · next missing =>
      cases found
      exact .root given missing
  · cases found

omit [CharTest π] in
theorem meets_references (none : g.referenceProblem? = none) : g.Meets .references :=
  closed_of_referenceProblem? none

theorem reports_references {error : GrammarError} (found : g.referenceProblem? = some error) :
    g.Reports .references error := by
  obtain ⟨before, r, behind, split, here, clean⟩ := List.findSome?_eq_some_iff.mp found
  obtain ⟨name, first, rfl⟩ := Option.map_eq_some_iff.mp here
  obtain ⟨missing, earlier, later, names, known⟩ := List.find?_eq_some_iff_append.mp first
  refine .reference split (fun r' hr name hn => ?_) names (fun n hn => ?_) (by simpa using missing)
  · have none := List.find?_eq_none.mp (Option.map_eq_none_iff.mp (clean r' hr)) name hn
    simpa using none
  · simpa using known n hn

/-! ### The form of the nodes -/

omit [CharTest π] in
/-- If all names of rules are known and none is empty, the check of the form asks of a node
just that it is proper. -/
theorem formedNode_iff_properNode (names : g.Meets .names) {m : Matcher π}
    (closed : m.Closed g.names) {n : Matcher π} (hn : n ∈ m.subtrees) :
    n.FormedNode (NullMap.compute g.rules).holds ↔ n.ProperNode g.rules := by
  have named : ∀ name, n.ruleName? = some name → name ≠ "" := fun name same empty =>
    names.1 (empty ▸ closed name (List.mem_filterMap.mpr ⟨n, hn, same⟩))
  cases n with
  | repetition m min max =>
    cases max with
    | some max => exact Iff.rfl
    | none =>
      simp only [Matcher.FormedNode, Matcher.ProperNode, ← Matcher.isNullable_compute_iff,
        Bool.not_eq_true]
  | optional m => exact Matcher.isOptional_eq_false_iff
  | ref name | rule name m => exact ⟨fun _ => trivial, fun _ => named name rfl⟩
  | char | text | endOfInput | sequence | choice | absent | ignore | join | mark | save
  | load => exact Iff.rfl

omit [CharTest π] in
theorem formed_iff_proper (names : g.Meets .names) {m : Matcher π} (closed : m.Closed g.names) :
    m.Formed (NullMap.compute g.rules).holds ↔ m.Every (Matcher.ProperNode g.rules) :=
  forall₂_congr fun _ hn => formedNode_iff_properNode names closed hn

theorem meets_form (names : g.Meets .names) (references : g.Meets .references)
    (none : g.formProblem? (NullMap.compute g.rules) = none) : g.Meets .form := fun r hr =>
  (formed_iff_proper names (references r hr)).mp (formed_of_formProblem? none r hr)

theorem reports_form (names : g.Meets .names) (references : g.Meets .references)
    {error : GrammarError} (found : g.formProblem? (NullMap.compute g.rules) = some error) :
    g.Reports .form error := by
  obtain ⟨before, r, behind, split, here, clean⟩ := List.findSome?_eq_some_iff.mp found
  obtain ⟨defect, first, rfl⟩ := Option.map_eq_some_iff.mp here
  obtain ⟨earlier, n, later, nodes, what, proper⟩ := List.findSome?_eq_some_iff.mp first
  have member : r ∈ g.rules := split ▸ List.mem_append_right _ List.mem_cons_self
  have node {n : Matcher π} := @formedNode_iff_properNode π τ g names _ (references r member) n
  refine .form split (fun r' hr => ?_) nodes (fun n' hn => ?_) (fun good => ?_) what
  · have closed := references r' (split ▸ List.mem_append_left _ hr)
    rw [← formed_iff_proper names closed, ← Matcher.defect?_eq_none_iff]
    exact Option.map_eq_none_iff.mp (clean r' hr)
  · rw [← node (nodes ▸ List.mem_append_left _ hn), ← Matcher.nodeDefect?_eq_none_iff]
    exact proper n' hn
  · rw [← node (nodes ▸ List.mem_append_right _ List.mem_cons_self),
      ← Matcher.nodeDefect?_eq_none_iff, what] at good
    cases good

/-! ### Recursion -/

omit [CharTest π] in
theorem edge_leadingGraph_iff_leadsBy (distinct : g.names.Nodup) {nullable : NullMap}
    {name next : String} :
    (g.leadingGraph nullable).Edge name next ↔ g.LeadsBy nullable name next := by
  have leading : ∀ r ∈ g.rules, (g.leadingGraph nullable).successors r.name =
      r.body.leadingRefs nullable.holds := fun r hr => successors_leadingGraph distinct hr
  constructor
  · intro edge
    obtain ⟨entry, member, same⟩ := List.mem_map.mp edge.node
    obtain ⟨r, hr, rfl⟩ := List.mem_map.mp member
    obtain rfl := same
    exact ⟨r, hr, rfl, leading r hr ▸ edge⟩
  · rintro ⟨r, hr, rfl, leads⟩
    rw [NameGraph.Edge, leading r hr]
    exact leads

omit [CharTest π] in
theorem edge_leadingGraph_iff (distinct : g.names.Nodup) {name next : String} :
    (g.leadingGraph (NullMap.compute g.rules)).Edge name next ↔ g.Leads name next := by
  rw [edge_leadingGraph_iff_leadsBy distinct]
  exact exists_congr fun r => and_congr_right fun _ => and_congr_right fun _ =>
    Matcher.mem_leadingRefs_compute_iff

omit [CharTest π] in
theorem meets_recursion (names : g.Meets .names) (references : g.Meets .references)
    (none : g.recursionProblem? (NullMap.compute g.rules) = none) : g.Meets .recursion := by
  have edges : (g.leadingGraph (NullMap.compute g.rules)).Edge = g.Leads := by
    funext name next
    exact propext (edge_leadingGraph_iff names.2)
  rw [Meets, ← edges]
  exact (NameGraph.cycle?_eq_none_iff fun _ _ => mem_nodes_of_successor references).mp
    (Option.map_eq_none_iff.mp none)

theorem reports_recursion (names : g.Meets .names) {error : GrammarError}
    (found : g.recursionProblem? (NullMap.compute g.rules) = some error) :
    g.Reports .recursion error := by
  obtain ⟨path, cycle, rfl⟩ := Option.map_eq_some_iff.mp found
  exact .recursion ((NameGraph.isCycle_of_cycle? cycle).imp
    fun _ _ => (edge_leadingGraph_iff names.2).mp)

/-! ## All checks -/

/-- What a check reports. -/
def problemOf (g : Grammar π τ) : Check → Option GrammarError
  | .names => nameProblem? [] g.names
  | .root => g.rootProblem?
  | .references => g.referenceProblem?
  | .form => g.formProblem? (NullMap.compute g.rules)
  | .recursion => g.recursionProblem? (NullMap.compute g.rules)

theorem problemOf_of_problem?_eq_none (clean : g.problem? = none) (check : Check) :
    g.problemOf check = none := by
  simp only [problem?, Option.orElse_eq_orElse, Option.orElse_eq_or, Option.or_eq_none_iff] at clean
  obtain ⟨names, root, references, form, recursion⟩ := clean
  cases check with
  | names => exact names
  | root => exact root
  | references => exact references
  | form => exact form
  | recursion => exact recursion

/-- The problem of a grammar is that of the first check that reports one. -/
theorem exists_problemOf {error : GrammarError} (found : g.problem? = some error) :
    ∃ check, g.problemOf check = some error ∧ ∀ c ∈ check.earlier, g.problemOf c = none := by
  simp only [problem?, Option.orElse_eq_orElse, Option.orElse_eq_or, Option.or_eq_some_iff] at found
  rcases found with here | ⟨names, here | ⟨root, here | ⟨references, here | ⟨form, here⟩⟩⟩⟩
  · exact ⟨.names, here, fun _ none => absurd none List.not_mem_nil⟩
  · exact ⟨.root, here, by simp [Check.earlier, problemOf, names]⟩
  · exact ⟨.references, here, by simp [Check.earlier, problemOf, names, root]⟩
  · exact ⟨.form, here, by simp [Check.earlier, problemOf, names, root, references]⟩
  · exact ⟨.recursion, here, by simp [Check.earlier, problemOf, names, root, references, form]⟩

/-- A check is met if neither it nor one before it reports anything. -/
theorem meets_of_problemOf {check : Check} (earlier : ∀ c ∈ check.earlier, g.problemOf c = none)
    (here : g.problemOf check = none) : g.Meets check := by
  cases check with
  | names => exact meets_names here
  | root => exact meets_root here
  | references => exact meets_references here
  | form =>
    exact meets_form (meets_names (earlier .names (by decide)))
      (meets_references (earlier .references (by decide))) here
  | recursion =>
    exact meets_recursion (meets_names (earlier .names (by decide)))
      (meets_references (earlier .references (by decide))) here

theorem reports_of_problemOf {check : Check} {error : GrammarError}
    (earlier : ∀ c ∈ check.earlier, g.Meets c) (found : g.problemOf check = some error) :
    g.Reports check error := by
  cases check with
  | names => exact reports_names found
  | root => exact reports_root found
  | references => exact reports_references found
  | form => exact reports_form (earlier .names (by decide)) (earlier .references (by decide)) found
  | recursion => exact reports_recursion (earlier .names (by decide)) found

theorem Check.earlier_trans :
    ∀ check : Check, ∀ c ∈ check.earlier, ∀ c' ∈ c.earlier, c' ∈ check.earlier := by
  intro check
  cases check <;> decide

/-- The problem of a grammar is an error of the first check that is not met. -/
theorem exists_reports {error : GrammarError} (found : g.problem? = some error) :
    ∃ check, g.Reports check error ∧ ∀ c ∈ check.earlier, g.Meets c := by
  obtain ⟨check, here, clean⟩ := exists_problemOf found
  have earlier : ∀ c ∈ check.earlier, g.Meets c := fun c hc =>
    meets_of_problemOf (fun c' hc' => clean c' (check.earlier_trans c hc c' hc')) (clean c hc)
  exact ⟨check, reports_of_problemOf earlier here, earlier⟩

/-- A grammar has no problem exactly if it meets all checks. -/
theorem problem?_eq_none_iff : g.problem? = none ↔ ∀ check, g.Meets check := by
  constructor
  · intro clean check
    have clean := problemOf_of_problem?_eq_none clean
    exact meets_of_problemOf (fun c _ => clean c) (clean check)
  · intro meets
    cases found : g.problem? with
    | none => rfl
    | some error =>
      obtain ⟨check, reports, _⟩ := exists_reports found
      exact absurd (meets check) reports.not_meets

theorem build_eq_error_iff {error : GrammarError} :
    g.build = .error error ↔ g.problem? = some error := by
  unfold build
  split
  · next problem found =>
    rw [found, Except.error.injEq, Option.some.injEq]
  · next clean =>
    rw [clean]
    exact ⟨nofun, nofun⟩

end

/-! ## Building -/

variable [CharTest π]

/-- A grammar is built exactly if it meets all checks. What is reported otherwise is an error
of the first check that it does not meet. Beside the rules of a table that was built,
optimized or not, a matcher passes exactly if it names only rules and all its nodes are
proper. -/
theorem build_checks (g : Grammar π τ) :
    ((∃ t events, g.build = .ok (t, events)) ↔ ∀ check, g.Meets check) ∧
    (∀ error, g.build = .error error → ∃ check, ¬ g.Meets check ∧
      (∀ earlier ∈ check.earlier, g.Meets earlier) ∧ g.Reports check error) ∧
    ∀ t events, g.build = .ok (t, events) → ∀ t' ∈ [t, t.optimized.1], ∀ m : Matcher π,
      t'.problem? m = none ↔ m.Closed g.names ∧ m.Every (Matcher.ProperNode g.rules) := by
  refine ⟨?_, fun error failed => ?_, fun t events built t' beside m => ?_⟩
  · rw [← problem?_eq_none_iff]
    exact ⟨fun ⟨_, _, built⟩ => (holds_of_build built).1, exists_build⟩
  · obtain ⟨check, reports, earlier⟩ := exists_reports (build_eq_error_iff.mp failed)
    exact ⟨check, reports.not_meets, earlier, reports⟩
  · obtain ⟨clean, holds⟩ := holds_of_build built
    have names : t'.names = g.names := by
      have same : t.names = g.names := map_eq_of_forall₂ holds.rules fun _ _ stands => stands.name
      rcases List.mem_pair.mp beside with rfl | rfl
      · exact same
      · exact t.names_optimized.trans same
    have nullable : t'.nullable = NullMap.compute g.rules := by
      rcases List.mem_pair.mp beside with rfl | rfl
      · exact holds.nullable
      · exact holds.nullable
    rw [RuleTable.problem?_eq_none_iff, names, nullable]
    exact and_congr_right fun closed =>
      formed_iff_proper (problem?_eq_none_iff.mp clean .names) closed

/-- A list comes back to itself, but only behind a parenthesis. Repeating blanks, which may
match nothing, is refused even where another rule comes back to itself at once, since the
form of all rules is looked at first. -/
theorem checks_repeated_blank :
    let list : Matcher Empty :=
      .sequence [.ref "blank", .char (.only '('), .optional (.ref "list"), .char (.only ')')]
    let blank : Matcher Empty := .repetition (.char (.only ' ')) 0 none
    let rules : List (Rule Empty Nat) :=
      [⟨"list", list, default, none⟩, ⟨"blank", blank, default, none⟩]
    let more : List (Rule Empty Nat) :=
      [⟨"left", .sequence [.ref "blank", .ref "left"], default, none⟩,
        ⟨"gap", .sequence [.char (.range 'a' 'z'), .repetition (.ref "blank") 1 none],
          default, none⟩,
        ⟨"late", .optional (.optional .endOfInput), default, none⟩]
    let g : Grammar Empty Nat := ⟨rules, some "list", {}⟩
    let g' : Grammar Empty Nat := ⟨rules ++ more, some "list", {}⟩
    let t : RuleTable Empty Nat := ⟨rules, NullMap.compute rules, some "list", {}⟩
    let m : Matcher Empty := .sequence [.ref "blank", .repetition (.ref "list") 1 none]
    g.build = .ok (t, [.built 2 "list" false]) ∧ (∀ check, g.Meets check) ∧
      m.Closed g.names ∧ m.Every (Matcher.ProperNode g.rules) ∧
      g'.build = .error (.malformed (some "gap") (.endlessLoop "blank+")) ∧
      (∀ earlier ∈ Check.form.earlier, g'.Meets earlier) ∧ ¬ g'.Meets .form := by
  intro list blank rules more g g' t m
  have built : g.build = .ok (t, [.built 2 "list" false]) :=
    Grammar.build_of_problem? (by decide) rfl
  have failed : g'.build = .error (.malformed (some "gap") (.endlessLoop "blank+")) :=
    build_eq_error_iff.mpr (by decide)
  obtain ⟨accepted, _, checked⟩ := build_checks g
  obtain ⟨closed, proper⟩ := (checked t _ built t List.mem_cons_self m).mp (by decide)
  obtain ⟨check, unmet, earlier, reports⟩ := (build_checks g').2.1 _ failed
  have form : check = .form := by
    generalize same : GrammarError.malformed _ _ = error at reports
    cases reports with
    | form => rfl
    | recursion => cases (GrammarError.malformed.inj same).2
    | emptyName | duplicate | root | reference => cases same
  subst form
  exact ⟨built, accepted.mp ⟨_, _, built⟩, closed, proper, failed, earlier, unmet⟩

end Grammar

end Peg
