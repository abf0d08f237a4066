import Mathlib.Data.List.Forall2
import Peg.Proofs.NullableRules
import Peg.Proofs.OptimizedForm
import Peg.Proofs.RuleOrder

/-!
# What holds of every built table

A grammar is checked before it becomes a table. `RuleTable.Sound` is what the checks
establish of the rules, and with it what a match relies on: every table that is built has
it (`RuleTable.Sound.of_build`), and optimizing the rules once more keeps it
(`RuleTable.Sound.optimized`).
-/

namespace Peg

/-! ## Leading rules -/

namespace Matcher

variable {π : Type} {known : String → Bool}

/-- The rules that a matcher applies first are among those that it names. -/
theorem leadingRefs_subset (m : Matcher π) : m.leadingRefs known ⊆ m.ruleNames := by
  induction m with
  | sequence ms ih =>
    rw [ruleNames_eq]
    intro name hn
    obtain ⟨m, hm, inside⟩ := exists_of_mem_leadingOfSequence hn
    exact List.mem_flatMap.mpr ⟨m, hm, ih m hm inside⟩
  | choice ms ih =>
    rw [ruleNames_eq, leadingRefs, leadingOfChoice_eq_flatMap]
    intro name hn
    obtain ⟨m, hm, inside⟩ := List.mem_flatMap.mp hn
    exact List.mem_flatMap.mpr ⟨m, hm, ih m hm inside⟩
  | repetition m min max ih | optional m ih | absent m ih | rule name m ih | ignore m ih
  | join m ih | mark m ih | save name m ih =>
    rw [ruleNames_eq]
    refine List.subset_append_of_subset_right _ ?_
    rw [children, List.flatMap_singleton]
    exact ih
  | ref name => exact List.Subset.refl _
  | char cls | text t | endOfInput | load name => exact List.nil_subset _

end Matcher

/-! ## Sound tables -/

/-- What the rules of a table have to be for matching. -/
structure RuleTable.Sound {π τ : Type} (t : RuleTable π τ) : Prop where
  distinct : t.names.Nodup
  closed : ∀ r ∈ t.rules, r.body.Closed t.names
  formed : ∀ r ∈ t.rules, r.body.Formed t.nullable.holds
  /-- A rule is known to be nullable if its body is. -/
  settled : ∀ r ∈ t.rules,
    r.body.isNullable t.nullable.holds = true → t.nullable.holds r.name = true
  /-- The rules that a rule applies before anything is consumed rank below it. -/
  ranked : ∃ rank : String → Nat, (∀ r ∈ t.rules, rank r.name < t.rules.length) ∧
    ∀ r ∈ t.rules, ∀ next ∈ r.body.leadingRefs t.nullable.holds, rank next < rank r.name

namespace Grammar

variable {π τ : Type}

theorem nodup_of_nameProblem? {earlier names : List String}
    (none : nameProblem? earlier names = none) :
    names.Nodup ∧ ∀ name ∈ names, name ∉ earlier := by
  induction names generalizing earlier with
  | nil => exact ⟨.nil, nofun⟩
  | cons name names ih =>
    unfold nameProblem? at none
    split at none
    · cases none
    · split at none
      · cases none
      · next new =>
        obtain ⟨distinct, apart⟩ := ih none
        refine ⟨List.nodup_cons.mpr ⟨fun twice => apart name twice List.mem_cons_self, distinct⟩,
          List.forall_mem_cons.mpr ⟨new, fun x hx old => ?_⟩⟩
        exact apart x hx (List.mem_cons_of_mem _ old)

theorem closed_of_referenceProblem? {g : Grammar π τ} (none : g.referenceProblem? = none) :
    ∀ r ∈ g.rules, r.body.Closed g.names := by
  intro r hr name hn
  have first := List.findSome?_eq_none_iff.mp none r hr
  have all := List.find?_eq_none.mp (Option.map_eq_none_iff.mp first) name hn
  simpa using all

theorem formed_of_formProblem? [CharTest π] {g : Grammar π τ} {nullable : NullMap}
    (none : g.formProblem? nullable = none) : ∀ r ∈ g.rules, r.body.Formed nullable.holds :=
  fun r hr => Matcher.defect?_eq_none_iff.mp
    (Option.map_eq_none_iff.mp (List.findSome?_eq_none_iff.mp none r hr))

theorem successors_leadingGraph {rules : List (Rule π τ)} {f : Rule π τ → List String}
    (distinct : (rules.map (·.name)).Nodup) {r : Rule π τ} (hr : r ∈ rules) :
    NameGraph.successors (rules.map fun r => (r.name, f r)) r.name = f r := by
  unfold NameGraph.successors
  induction rules with
  | nil => exact absurd hr List.not_mem_nil
  | cons first rules ih =>
    obtain ⟨new, rest⟩ := List.nodup_cons.mp distinct
    rw [List.map_cons, List.lookup_cons]
    rcases List.mem_cons.mp hr with rfl | later
    · rw [BEq.rfl]
      rfl
    · have other : r.name ≠ first.name := fun same => new (List.mem_map.mpr ⟨r, later, same⟩)
      rw [beq_eq_false_iff_ne.mpr other]
      exact ih rest later

theorem nodes_leadingGraph (g : Grammar π τ) (nullable : NullMap) :
    (g.leadingGraph nullable).nodes = g.names := by
  simp [NameGraph.nodes, leadingGraph, names, Function.comp_def]

/-- If all rules are closed, only rules are led to. -/
theorem mem_nodes_of_successor {g : Grammar π τ} {nullable : NullMap}
    (closed : ∀ r ∈ g.rules, r.body.Closed g.names) {name next : String}
    (edge : next ∈ (g.leadingGraph nullable).successors name) :
    next ∈ (g.leadingGraph nullable).nodes := by
  obtain ⟨heads, member, inside⟩ := NameGraph.exists_of_mem_successors edge
  obtain ⟨r, hr, same⟩ := List.mem_map.mp member
  obtain ⟨rfl, rfl⟩ := Prod.mk.inj same
  rw [nodes_leadingGraph]
  exact closed r hr next (Matcher.leadingRefs_subset _ inside)

theorem ranked_of_recursionProblem? {g : Grammar π τ} {nullable : NullMap}
    (distinct : g.names.Nodup) (closed : ∀ r ∈ g.rules, r.body.Closed g.names)
    (none : g.recursionProblem? nullable = none) :
    ∃ rank : String → Nat, (∀ r ∈ g.rules, rank r.name < g.rules.length) ∧
      ∀ r ∈ g.rules, ∀ next ∈ r.body.leadingRefs nullable.holds, rank next < rank r.name := by
  obtain ⟨rank, below, falls⟩ := NameGraph.exists_rank
    (fun _ _ => mem_nodes_of_successor closed) (Option.map_eq_none_iff.mp none)
  rw [nodes_leadingGraph] at below falls
  rw [leadingGraph, List.length_map] at below
  have member : ∀ r ∈ g.rules, r.name ∈ g.names := fun r hr => List.mem_map_of_mem hr
  refine ⟨rank, fun r hr => below r.name (member r hr), fun r hr next edge => ?_⟩
  refine falls r.name (member r hr) next ?_
  rwa [leadingGraph, successors_leadingGraph distinct hr]

end Grammar

/-! ## Optimized rules -/

section

variable {α β : Type} {R : α → β → Prop} {as : List α} {bs : List β}

theorem exists_of_mem_of_forall₂ (h : List.Forall₂ R as bs) {b : β} (hb : b ∈ bs) :
    ∃ a ∈ as, R a b := by
  induction h with
  | nil => exact absurd hb List.not_mem_nil
  | @cons a _ _ _ first _ ih =>
    rcases List.mem_cons.mp hb with rfl | later
    · exact ⟨a, List.mem_cons_self, first⟩
    · obtain ⟨a, member, related⟩ := ih later
      exact ⟨a, List.mem_cons_of_mem _ member, related⟩

theorem map_eq_of_forall₂ {γ : Type} {f : α → γ} {g : β → γ} (h : List.Forall₂ R as bs)
    (each : ∀ a b, R a b → g b = f a) : bs.map g = as.map f := by
  rw [← List.forall₂_eq_eq_eq, List.forall₂_map_left_iff, List.forall₂_map_right_iff]
  exact (h.imp each).flip

end

namespace Session

variable {π : Type}

theorem length_optimizeAll (s : Session π) (nodes : List (Shared π)) :
    (s.optimizeAll nodes).1.length = nodes.length := by
  induction nodes generalizing s with
  | nil => rfl
  | cons node nodes ih => exact congrArg Nat.succ (ih (s.optimize node).2)

end Session

/-- The second rule is the first one with its definition optimized. -/
structure Rule.Optimized {π τ : Type} (r r' : Rule π τ) : Prop where
  name : r'.name = r.name
  definition : r'.definition = r.definition.optimize
  factory : r'.factory = r.factory

theorem Rule.Optimized.body {π τ : Type} {r r' : Rule π τ} (h : r.Optimized r') :
    r'.body = r.body.optimize := by
  rw [Rule.body, h.name, h.definition]
  rfl

/-- A grammar without problems is built to its table. -/
theorem Grammar.build_of_problem? {π τ : Type} [CharTest π] {g : Grammar π τ}
    (none : g.problem? = none) (plain : g.settings.optimize = false) :
    g.build = .ok (⟨g.rules, NullMap.compute g.rules, g.root, g.settings⟩,
      [.built g.rules.length (g.root.getD "<none>") false]) := by
  unfold Grammar.build
  simp [none, plain]

namespace RuleTable

variable {π τ : Type} (t : RuleTable π τ)

theorem forall₂_zipWith_optimize {rules : List (Rule π τ)} {nodes : List (Shared π)}
    (all : nodes.length = rules.length) :
    List.Forall₂ Rule.Optimized rules
      (rules.zipWith (fun r node => r.optimize node.labels) nodes) := by
  induction rules generalizing nodes with
  | nil => exact .nil
  | cons r rules ih =>
    cases nodes with
    | nil => cases all
    | cons node nodes => exact .cons ⟨rfl, rfl, rfl⟩ (ih (Nat.succ.inj all))

/-- Optimizing a table replaces each rule, in its place, by the optimized one. -/
theorem forall₂_optimized : List.Forall₂ Rule.Optimized t.rules t.optimized.1.rules := by
  refine forall₂_zipWith_optimize ?_
  rw [Session.length_optimizeAll, List.length_map]

theorem names_optimized : t.optimized.1.names = t.names :=
  map_eq_of_forall₂ t.forall₂_optimized fun _ _ same => same.name

/-- Looking up a rule in the optimized table gives the optimized rule. -/
theorem rule?_optimized (name : String) :
    Option.Rel Rule.Optimized (t.rule? name) (t.optimized.1.rule? name) := by
  unfold rule?
  have rules := t.forall₂_optimized
  generalize t.rules = before, t.optimized.1.rules = behind at rules
  induction rules with
  | nil => exact .none
  | @cons r r' _ _ first _ ih =>
    rw [List.find?_cons, List.find?_cons, first.name]
    split
    · exact .some first
    · exact ih

/-- A matcher that passes the check of a table passes it when it is optimized. -/
theorem problem?_optimize [CharTest π] {t : RuleTable π τ} {m : Matcher π}
    (checked : t.problem? m = none) : t.problem? m.optimize = none := by
  obtain ⟨closed, formed⟩ := problem?_eq_none_iff.mp checked
  refine problem?_eq_none_iff.mpr ⟨?_, formed.optimize⟩
  rwa [Matcher.Closed, Matcher.ruleNames_optimize]

/-- Optimizing the rules of a sound table keeps it sound. -/
theorem Sound.optimized [CharTest π] {t : RuleTable π τ} (h : t.Sound) : t.optimized.1.Sound := by
  have size : t.optimized.1.rules.length = t.rules.length := t.forall₂_optimized.length_eq.symm
  obtain ⟨rank, below, falls⟩ := h.ranked
  refine ⟨?_, fun r' hr => ?_, fun r' hr => ?_, fun r' hr => ?_, rank, fun r' hr => ?_,
    fun r' hr => ?_⟩
  · rw [names_optimized]
    exact h.distinct
  -- What is asked of an optimized rule holds of the rule that it was made from.
  all_goals obtain ⟨r, member, same⟩ := exists_of_mem_of_forall₂ t.forall₂_optimized hr
  · rw [same.body, names_optimized, Matcher.Closed, Matcher.ruleNames_optimize]
    exact h.closed r member
  · rw [same.body]
    exact (h.formed r member).optimize
  · rw [same.body, same.name, Matcher.isNullable_optimize]
    exact h.settled r member
  · rw [same.name, size]
    exact below r member
  · rw [same.body, same.name, Matcher.leadingRefs_optimize]
    exact falls r member

/-- Every table that a grammar is built to is sound. -/
theorem Sound.of_build [CharTest π] {g : Grammar π τ} {t : RuleTable π τ}
    {events : List TableEvent} (built : g.build = .ok (t, events)) : t.Sound := by
  unfold Grammar.build at built
  split at built
  · cases built
  · next none =>
    have sound : RuleTable.Sound ⟨g.rules, NullMap.compute g.rules, g.root, g.settings⟩ := by
      simp only [Grammar.problem?, Option.orElse_eq_orElse, Option.orElse_eq_or,
        Option.or_eq_none_iff] at none
      obtain ⟨names, _, references, form, recursion⟩ := none
      have distinct := (Grammar.nodup_of_nameProblem? names).1
      have closed := Grammar.closed_of_referenceProblem? references
      exact ⟨distinct, closed, Grammar.formed_of_formProblem? form,
        fun r hr => NullMap.holds_compute_of_isNullable hr,
        Grammar.ranked_of_recursionProblem? distinct closed recursion⟩
    cases optimize : g.settings.optimize with
    | true =>
      simp only [optimize, if_true] at built
      cases built
      exact sound.optimized
    | false =>
      simp only [optimize, Bool.false_eq_true, if_false] at built
      cases built
      exact sound

end RuleTable

end Peg
