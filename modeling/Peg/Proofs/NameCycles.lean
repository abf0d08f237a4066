import Mathlib.Data.List.Chain
import Mathlib.Logic.Relation
import Peg.Proofs.RuleOrder

/-!
# The search finds a cycle exactly if there is one

What the search for a cycle reports is a path along the edges that comes back to its first
name, with no name twice on the way (`NameGraph.isCycle_of_cycle?`). Since the path that is
searched along is one from the start, this needs nothing of the names that are done. That
no cycle is missed does: without one reported the names have ranks, and no way along the
edges leads up again (`NameGraph.cycle?_eq_none_iff`).
-/

namespace Peg

/-! ## Cycles of a relation -/

section

variable {R S : String → String → Prop}

/-- The path leads along the relation from a name back to it, and to no name twice. -/
inductive IsCycle (R : String → String → Prop) : List String → Prop
  | intro {first : String} {inner : List String} :
      (first :: inner).Nodup → (first :: inner ++ [first]).IsChain R →
      IsCycle R (first :: inner ++ [first])

theorem IsCycle.imp {path : List String} (h : IsCycle R path) (sub : ∀ a b, R a b → S a b) :
    IsCycle S path := by
  obtain ⟨distinct, chain⟩ := h
  exact .intro distinct (chain.imp sub)

theorem transGen_of_isChain {first last : String} {inner : List String}
    (chain : (first :: inner ++ [last]).IsChain R) : Relation.TransGen R first last := by
  induction inner generalizing first with
  | nil => exact .single (List.isChain_pair.mp chain)
  | cons next inner ih =>
    obtain ⟨edge, rest⟩ := List.isChain_cons_cons.mp chain
    exact .head edge (ih rest)

theorem IsCycle.exists_transGen {path : List String} (h : IsCycle R path) :
    ∃ name ∈ path, Relation.TransGen R name name := by
  obtain ⟨_, chain⟩ := h
  exact ⟨_, List.mem_cons_self, transGen_of_isChain chain⟩

end

namespace NameGraph

variable {g : NameGraph}

def Edge (g : NameGraph) (name next : String) : Prop := next ∈ g.successors name

theorem Edge.node {name next : String} (edge : g.Edge name next) : name ∈ g.nodes := by
  obtain ⟨names, member, _⟩ := exists_of_mem_successors edge
  exact List.mem_map_of_mem member

/-! ## What the search reports -/

theorem exists_of_foldlM_error
    {search : List String → String → Except (List String) (List String)}
    {names done cycle : List String} (found : names.foldlM search done = .error cycle) :
    ∃ name ∈ names, ∃ d, search d name = .error cycle := by
  induction names generalizing done with
  | nil => cases found
  | cons name names ih =>
    rw [List.foldlM_cons] at found
    cases step : search done name with
    | error first =>
      rw [step] at found
      cases found
      exact ⟨name, List.mem_cons_self, done, step⟩
    | ok between =>
      rw [step] at found
      obtain ⟨later, member, rest⟩ := ih found
      exact ⟨later, List.mem_cons_of_mem _ member, rest⟩

/-- From the first occurrence of a name on a path that leads to it, the path is a cycle. -/
theorem isCycle_dropWhile {R : String → String → Prop} {path : List String} {name : String}
    (single : path.Nodup) (chain : (path ++ [name]).IsChain R) (onPath : name ∈ path) :
    IsCycle R (path.dropWhile (· ≠ name) ++ [name]) := by
  induction path with
  | nil => exact absurd onPath List.not_mem_nil
  | cons first path ih =>
    rw [List.dropWhile_cons]
    by_cases same : first = name
    · obtain rfl := same
      rw [if_neg (by simp)]
      exact .intro single chain
    · rw [if_pos (by simpa using same)]
      have later := (List.mem_cons.mp onPath).resolve_left (Ne.symm same)
      exact ih (List.nodup_cons.mp single).2 chain.tail later

/-- What a search along a path reports is a cycle. -/
theorem isCycle_of_searchFrom {bound : Nat} {path done cycle : List String} {name : String}
    (single : path.Nodup) (chain : (path ++ [name]).IsChain g.Edge)
    (found : g.searchFrom bound path done name = .error cycle) : IsCycle g.Edge cycle := by
  induction bound generalizing path done name with
  | zero => cases found
  | succ bound ih =>
    unfold searchFrom at found
    split at found
    · next onPath =>
      cases found
      exact isCycle_dropWhile single chain onPath
    · next notOnPath =>
      split at found
      · cases found
      · split at found
        · next below search =>
          cases found
          obtain ⟨next, edge, d, step⟩ := exists_of_foldlM_error search
          refine ih ?_ ?_ step
          · rw [List.nodup_append_comm]
            exact List.nodup_cons.mpr ⟨notOnPath, single⟩
          · refine chain.append (.singleton next) fun last h first h' => ?_
            obtain rfl := Option.mem_some.mp (List.head?_cons ▸ h')
            rw [List.getLast?_concat] at h
            obtain rfl := Option.mem_some.mp h
            exact edge
        · cases found

theorem isCycle_of_cycle? {path : List String} (found : g.cycle? = some path) :
    IsCycle g.Edge path := by
  unfold cycle? at found
  split at found
  · next cycle search =>
    cases found
    obtain ⟨name, _, d, step⟩ := exists_of_foldlM_error search
    exact isCycle_of_searchFrom .nil (.singleton name) step
  · cases found

/-! ## No cycle is missed -/

/-- The search reports nothing exactly if no name leads back to itself. -/
theorem cycle?_eq_none_iff (closed : ∀ name next, next ∈ g.successors name → next ∈ g.nodes) :
    g.cycle? = none ↔ ∀ name, ¬ Relation.TransGen g.Edge name name := by
  constructor
  · intro none name around
    obtain ⟨rank, _, falls⟩ := exists_rank closed none
    have lower : ∀ a b, g.Edge a b → rank b < rank a := fun a b edge =>
      falls a edge.node b edge
    have below : ∀ {a b}, Relation.TransGen g.Edge a b → rank b < rank a := by
      intro a b path
      induction path with
      | single edge => exact lower _ _ edge
      | tail _ edge ih => exact Nat.lt_trans (lower _ _ edge) ih
    exact Nat.lt_irrefl _ (below around)
  · intro acyclic
    cases found : g.cycle? with
    | none => rfl
    | some path =>
      obtain ⟨name, _, around⟩ := (isCycle_of_cycle? found).exists_transGen
      exact absurd around (acyclic name)

end NameGraph

end Peg
