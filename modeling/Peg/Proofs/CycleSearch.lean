import Peg.Proofs.ValidGrammars

/-!
# The search for left recursion ends

The search for a cycle is bounded so that it is a function of any graph. Without the bound it
goes from a name to all that the name leads to, and from there on, until it comes back to a
name of the path behind it or to one that is done (`NameGraph.Searches`). No name is on a path
twice, so among finitely many names this ends, and what it ends with is what the bounded search
finds (`NameGraph.searches_nodes_iff`).

What is found is exact: an error is reported for the rules of a grammar exactly if a rule leads
back to itself, and the error tells a way on which it does (`Grammar.recursionProblem_exact`).
-/

namespace Peg

namespace NameGraph

variable {g : NameGraph}

/-- The search from several names one after the other, at the end of `path` and with some names
done, ends with a cycle or with the names that are done then. A name is done when the search
from all that it leads to has ended without a cycle. -/
inductive Searches (g : NameGraph) :
    (path done names : List String) → Except (List String) (List String) → Prop
  | nil {path done : List String} : Searches g path done [] (.ok done)
  | back {path done names : List String} {name : String} :
      name ∈ path →
      Searches g path done (name :: names) (.error (path.dropWhile (· ≠ name) ++ [name]))
  | skip {path done names : List String} {name : String}
      {outcome : Except (List String) (List String)} :
      name ∉ path → name ∈ done → Searches g path done names outcome →
      Searches g path done (name :: names) outcome
  | found {path done names cycle : List String} {name : String} :
      name ∉ path → name ∉ done →
      Searches g (path ++ [name]) done (g.successors name) (.error cycle) →
      Searches g path done (name :: names) (.error cycle)
  | leave {path done below names : List String} {name : String}
      {outcome : Except (List String) (List String)} :
      name ∉ path → name ∉ done →
      Searches g (path ++ [name]) done (g.successors name) (.ok below) →
      Searches g path (name :: below) names outcome →
      Searches g path done (name :: names) outcome

/-- There is one way for a search to go. -/
theorem Searches.unique {path done names : List String}
    {outcome outcome' : Except (List String) (List String)}
    (h : g.Searches path done names outcome) (h' : g.Searches path done names outcome') :
    outcome = outcome' := by
  induction h generalizing outcome' with
  | nil =>
    cases h'
    rfl
  | back onPath =>
    cases h' with
    | back => rfl
    | skip notOnPath | found notOnPath | leave notOnPath => exact absurd onPath notOnPath
  | skip notOnPath isDone _ ih =>
    cases h' with
    | back onPath => exact absurd onPath notOnPath
    | skip _ _ rest => exact ih rest
    | found _ notDone | leave _ notDone => exact absurd isDone notDone
  | found notOnPath notDone _ ih =>
    cases h' with
    | back onPath => exact absurd onPath notOnPath
    | skip _ isDone => exact absurd isDone notDone
    | found _ _ inner => exact ih inner
    | leave _ _ inner => cases ih inner
  | leave notOnPath notDone _ _ ihInner ihRest =>
    cases h' with
    | back onPath => exact absurd onPath notOnPath
    | skip _ isDone => exact absurd isDone notDone
    | found _ _ inner => cases ihInner inner
    | leave _ _ inner rest =>
      cases ihInner inner
      exact ihRest rest

/-- A bound that fits the path is never met: the bounded search goes the way of the one without
a bound. The induction is on the bound, which falls as the path grows. -/
theorem searches_foldlM (closed : ∀ name next, next ∈ g.successors name → next ∈ g.nodes)
    {bound : Nat} {path names done : List String} (fits : g.Fits bound path)
    (inside : names ⊆ g.nodes) :
    g.Searches path done names (names.foldlM (g.searchFrom bound path) done) := by
  induction bound generalizing path names done with
  | zero => exact absurd fits not_fits_zero
  | succ bound ih =>
    induction names generalizing done with
    | nil => exact .nil
    | cons name names ihNames =>
      obtain ⟨node, rest⟩ := List.cons_subset.mp inside
      rw [List.foldlM_cons]
      by_cases onPath : name ∈ path
      · rw [searchFrom, if_pos onPath]
        exact .back onPath
      by_cases isDone : name ∈ done
      · rw [searchFrom, if_neg onPath, if_pos isDone]
        exact .skip onPath isDone (ihNames rest)
      have inner := @ih (path ++ [name]) (g.successors name) done (fits.concat node onPath)
        (closed name)
      rw [searchFrom, if_neg onPath, if_neg isDone]
      cases search : (g.successors name).foldlM (g.searchFrom bound (path ++ [name])) done with
      | error cycle => exact .found onPath isDone (search ▸ inner)
      | ok below => exact .leave onPath isDone (search ▸ inner) (ihNames rest)

/-- What the bounded search from all names ends with. -/
def outcome (g : NameGraph) : Except (List String) (List String) :=
  g.nodes.foldlM (g.searchFrom (g.length + 1) []) []

/-- The search from all names ends, with what the bounded search ends with and nothing else. -/
theorem searches_nodes_iff (closed : ∀ name next, next ∈ g.successors name → next ∈ g.nodes)
    {o : Except (List String) (List String)} :
    g.Searches [] [] g.nodes o ↔ o = g.outcome := by
  have ends : g.Searches [] [] g.nodes g.outcome :=
    searches_foldlM closed g.fits_nil (List.Subset.refl _)
  constructor
  · exact fun searches => searches.unique ends
  · rintro rfl
    exact ends

theorem cycle?_eq_some_iff {path : List String} :
    g.cycle? = some path ↔ g.outcome = .error path := by
  unfold cycle?
  split
  · next cycle found =>
    have ends : g.outcome = .error cycle := found
    rw [ends, Option.some_inj, Except.error.injEq]
  · next done found =>
    have ends : g.outcome = .ok done := found
    simp [ends]

end NameGraph

namespace Grammar

variable {π τ : Type} {g : Grammar π τ} {nullable : NullMap}

theorem recursionProblem?_eq_some_iff {error : GrammarError} :
    g.recursionProblem? nullable = some error ↔
      ∃ path, (g.leadingGraph nullable).cycle? = some path ∧
        error = .malformed path.head? (.leftRecursion path) := by
  rw [recursionProblem?, Option.map_eq_some_iff]
  exact exists_congr fun path => and_congr_right fun _ => eq_comm

/-- Beside rules that have distinct names and name only rules, whatever is known of which rules
are nullable, the search for left recursion ends. It reports an error exactly if a rule leads
back to itself. The error names the first rule of a path that goes from each rule to one that
it leads to, ends where it began, and is at no rule twice on the way. -/
theorem recursionProblem_exact (nullable : NullMap) (distinct : g.names.Nodup)
    (closed : ∀ r ∈ g.rules, r.body.Closed g.names) :
    (∃ outcome, (∀ o, (g.leadingGraph nullable).Searches [] [] g.names o ↔ o = outcome) ∧
      ∀ error, g.recursionProblem? nullable = some error ↔
        ∃ path, outcome = .error path ∧ error = .malformed path.head? (.leftRecursion path)) ∧
    ((∃ error, g.recursionProblem? nullable = some error) ↔
      ∃ name, Relation.TransGen (g.LeadsBy nullable) name name) ∧
    ∀ error, g.recursionProblem? nullable = some error →
      ∃ first inner,
        error = .malformed (some first) (.leftRecursion (first :: inner ++ [first])) ∧
        (first :: inner).Nodup ∧ (first :: inner ++ [first]).IsChain (g.LeadsBy nullable) := by
  have onlyRules : ∀ name next, next ∈ (g.leadingGraph nullable).successors name →
      next ∈ (g.leadingGraph nullable).nodes := fun _ _ => mem_nodes_of_successor closed
  have edges : (g.leadingGraph nullable).Edge = g.LeadsBy nullable := by
    funext name next
    exact propext (edge_leadingGraph_iff_leadsBy distinct)
  refine ⟨⟨(g.leadingGraph nullable).outcome, fun o => ?_, fun error => ?_⟩, ?_,
    fun error found => ?_⟩
  · rw [← nodes_leadingGraph g nullable]
    exact NameGraph.searches_nodes_iff onlyRules
  · simp only [recursionProblem?_eq_some_iff, NameGraph.cycle?_eq_some_iff]
  · have none := NameGraph.cycle?_eq_none_iff onlyRules
    rw [edges] at none
    rw [← not_iff_not, not_exists, not_exists, ← none, recursionProblem?,
      ← Option.eq_none_iff_forall_ne_some, Option.map_eq_none_iff]
  · obtain ⟨path, cycle, rfl⟩ := recursionProblem?_eq_some_iff.mp found
    have around := NameGraph.isCycle_of_cycle? cycle
    rw [edges] at around
    obtain ⟨single, chain⟩ := around
    exact ⟨_, _, rfl, single, chain⟩

/-- A sum leads to a product, a product behind blanks to a group, and a group to a sum again,
since looking for a parenthesis consumes nothing. The rule from which the search comes to these
three is not on the path that is reported, nor are the blanks, which are done by then. -/
theorem recursion_exact_nested_group :
    let rules : List (Rule Empty Nat) :=
      [⟨"start", .sequence [.ref "blank", .ref "sum"], default, none⟩,
        ⟨"sum", .sequence [.ref "product", .optional (.sequence [.char (.only '+'), .ref "sum"])],
          default, none⟩,
        ⟨"product", .choice [.char (.range '0' '9'), .sequence [.ref "blank", .ref "group"]],
          default, none⟩,
        ⟨"group", .sequence [.absent (.char (.only '(')), .ref "sum"], default, none⟩,
        ⟨"blank", .repetition (.char (.only ' ')) 0 none, default, none⟩]
    let g : Grammar Empty Nat := ⟨rules, none, {}⟩
    let nullable := NullMap.compute rules
    let path := ["sum", "product", "group", "sum"]
    g.names.Nodup ∧ (∀ r ∈ g.rules, r.body.Closed g.names) ∧
      g.recursionProblem? nullable = some (.malformed (some "sum") (.leftRecursion path)) ∧
      (g.leadingGraph nullable).Searches [] [] g.names (.error path) ∧
      (∃ name, Relation.TransGen (g.LeadsBy nullable) name name) ∧
      path.IsChain (g.LeadsBy nullable) := by
  intro rules g nullable path
  have distinct : g.names.Nodup := by decide
  have closed : ∀ r ∈ g.rules, r.body.Closed g.names := by
    unfold Matcher.Closed
    decide
  have found : g.recursionProblem? nullable =
      some (.malformed (some "sum") (.leftRecursion path)) := by decide
  obtain ⟨⟨outcome, ends, reports⟩, around, genuine⟩ :=
    recursionProblem_exact nullable distinct closed
  obtain ⟨reported, searched, same⟩ := (reports _).mp found
  obtain rfl : path = reported := Defect.leftRecursion.inj (GrammarError.malformed.inj same).2
  obtain ⟨first, inner, same, _, chain⟩ := genuine _ found
  have whole := Defect.leftRecursion.inj (GrammarError.malformed.inj same).2
  exact ⟨distinct, closed, found, (ends _).mpr searched.symm, around.mp ⟨_, found⟩,
    whole ▸ chain⟩

end Grammar

end Peg
