import Mathlib.Data.List.Nodup
import Mathlib.Data.List.Perm.Subperm
import Peg.Grammar.NameGraph

/-!
# Graphs without a cycle are ordered

A search that finds no cycle leaves every name behind the names that it leads to. The
place of a name in that order is a rank that falls along every edge
(`NameGraph.exists_rank`).

The search bounds the length of its path by the number of names. On a path no name is
twice, so the bound is never met; this needs that each name leads to names of the graph.
-/

namespace Peg.NameGraph

variable {g : NameGraph}

def nodes (g : NameGraph) : List String := g.map (·.1)

theorem exists_of_mem_successors {name next : String} (edge : next ∈ g.successors name) :
    ∃ names, (name, names) ∈ g ∧ next ∈ names := by
  unfold successors at edge
  cases found : g.lookup name with
  | none =>
    rw [found] at edge
    exact absurd edge List.not_mem_nil
  | some names =>
    rw [found] at edge
    obtain ⟨before, behind, rfl, _⟩ := List.lookup_eq_some_iff.mp found
    exact ⟨names, List.mem_append_right _ List.mem_cons_self, edge⟩

/-- Each name of the list leads only to names behind it. -/
inductive Ordered (g : NameGraph) : List String → Prop
  | nil : Ordered g []
  | cons {name : String} {names : List String} :
      Ordered g names → name ∈ g.nodes → name ∉ names →
      (∀ next ∈ g.successors name, next ∈ names) → Ordered g (name :: names)

theorem Ordered.nodup {names : List String} (h : g.Ordered names) : names.Nodup := by
  induction h with
  | nil => exact .nil
  | cons _ _ new _ ih => exact List.nodup_cons.mpr ⟨new, ih⟩

theorem Ordered.subset {names : List String} (h : g.Ordered names) : names ⊆ g.nodes := by
  induction h with
  | nil => exact List.nil_subset _
  | cons _ node _ _ ih => exact List.cons_subset.mpr ⟨node, ih⟩

theorem Ordered.successor_mem {names : List String} (h : g.Ordered names) {name next : String}
    (hn : name ∈ names) (edge : next ∈ g.successors name) : next ∈ names := by
  induction h with
  | nil => exact absurd hn List.not_mem_nil
  | cons _ _ _ behind ih =>
    rcases List.mem_cons.mp hn with rfl | later
    · exact List.mem_cons_of_mem _ (behind next edge)
    · exact List.mem_cons_of_mem _ (ih later)

/-! ## The search -/

/-- What a search along `path` adds to the names that are done: they stay in order, and
none of them is on the path. -/
structure Extends (g : NameGraph) (path done done' : List String) : Prop where
  ordered : g.Ordered done'
  subset : done ⊆ done'
  apart : ∀ name ∈ path, name ∈ done' → name ∈ done

theorem Extends.refl {path done : List String} (h : g.Ordered done) : g.Extends path done done :=
  ⟨h, List.Subset.refl done, fun _ _ hd => hd⟩

theorem Extends.trans {path done done' done'' : List String} (first : g.Extends path done done')
    (second : g.Extends path done' done'') : g.Extends path done done'' :=
  ⟨second.ordered, fun _ hx => second.subset (first.subset hx),
    fun name hp hd => first.apart name hp (second.apart name hp hd)⟩

/-- Behind a search from what `name` leads to, with `name` on the path, `name` is done. -/
theorem Extends.done {path done below : List String} {name : String}
    (h : g.Extends (path ++ [name]) done below) (node : name ∈ g.nodes) (notOnPath : name ∉ path)
    (notDone : name ∉ done) (behind : g.successors name ⊆ below) :
    g.Extends path done (name :: below) := by
  have new : name ∉ below := fun hn =>
    notDone (h.apart name (List.mem_append_right _ List.mem_cons_self) hn)
  refine ⟨.cons h.ordered node new fun next hn => behind hn,
    fun x hx => List.mem_cons_of_mem _ (h.subset hx), fun x hx hd => ?_⟩
  rcases List.mem_cons.mp hd with rfl | later
  · exact absurd hx notOnPath
  · exact h.apart x (List.mem_append_left _ hx) later

/-- Searching from several names, one after the other. -/
theorem extends_foldlM {search : List String → String → Except (List String) (List String)}
    (path : List String) {names done done' : List String}
    (each : ∀ name ∈ names, ∀ d d', g.Ordered d → search d name = .ok d' →
      g.Extends path d d' ∧ name ∈ d')
    (ordered : g.Ordered done) (found : names.foldlM search done = .ok done') :
    g.Extends path done done' ∧ names ⊆ done' := by
  induction names generalizing done with
  | nil =>
    cases found
    exact ⟨.refl ordered, List.nil_subset _⟩
  | cons name names ih =>
    obtain ⟨first, rest⟩ := List.forall_mem_cons.mp each
    rw [List.foldlM_cons] at found
    cases step : search done name with
    | error cycle =>
      rw [step] at found
      cases found
    | ok between =>
      rw [step] at found
      obtain ⟨there, hn⟩ := first done between ordered step
      obtain ⟨onward, hns⟩ := ih rest there.ordered found
      exact ⟨there.trans onward, List.cons_subset.mpr ⟨onward.subset hn, hns⟩⟩

/-- The bound is enough for a search along the path: no name of the graph is on it twice, so it
ends before the bound is met. -/
structure Fits (g : NameGraph) (bound : Nat) (path : List String) : Prop where
  single : path.Nodup
  inside : path ⊆ g.nodes
  enough : g.length < bound + path.length

theorem fits_nil (g : NameGraph) : g.Fits (g.length + 1) [] :=
  ⟨.nil, List.nil_subset _, Nat.lt_succ_self _⟩

theorem not_fits_zero {path : List String} : ¬ g.Fits 0 path := by
  intro fits
  have short := (List.subperm_of_subset fits.single fits.inside).length_le
  have enough := fits.enough
  rw [nodes, List.length_map] at short
  omega

theorem Fits.concat {bound : Nat} {path : List String} {name : String}
    (h : g.Fits (bound + 1) path) (node : name ∈ g.nodes) (notOnPath : name ∉ path) :
    g.Fits bound (path ++ [name]) := by
  refine ⟨?_, List.append_subset.mpr ⟨h.inside, by simpa using node⟩, ?_⟩
  · rw [List.nodup_append_comm]
    exact List.nodup_cons.mpr ⟨notOnPath, h.single⟩
  · have enough := h.enough
    rw [List.length_append, List.length_singleton]
    omega

/-- A search that finds no cycle extends what is done, up to the name it began with. -/
theorem extends_searchFrom (closed : ∀ name next, next ∈ g.successors name → next ∈ g.nodes)
    {bound : Nat} {path done done' : List String} {name : String} (fits : g.Fits bound path)
    (node : name ∈ g.nodes) (ordered : g.Ordered done)
    (found : g.searchFrom bound path done name = .ok done') :
    g.Extends path done done' ∧ name ∈ done' := by
  induction bound generalizing path done done' name with
  | zero => exact absurd fits not_fits_zero
  | succ bound ih =>
    unfold searchFrom at found
    split at found
    · cases found
    · next notOnPath =>
      split at found
      · next isDone =>
        cases found
        exact ⟨.refl ordered, isDone⟩
      · next notDone =>
        have fits' := fits.concat node notOnPath
        split at found
        · cases found
        · next below search =>
          cases found
          obtain ⟨extended, behind⟩ := extends_foldlM (path ++ [name])
            (fun next hn d d' hd found => ih fits' (closed name next hn) hd found) ordered search
          exact ⟨extended.done node notOnPath notDone behind, List.mem_cons_self⟩

/-- If there is no cycle, all names can be put in order. -/
theorem exists_ordered (closed : ∀ name next, next ∈ g.successors name → next ∈ g.nodes)
    (none : g.cycle? = none) : ∃ names, g.Ordered names ∧ g.nodes ⊆ names := by
  unfold cycle? at none
  split at none
  · cases none
  · next done found =>
    obtain ⟨extended, all⟩ := extends_foldlM []
      (fun name hn d d' hd found => extends_searchFrom closed g.fits_nil hn hd found)
      .nil found
    exact ⟨done, extended.ordered, all⟩

/-! ## Ranks -/

/-- The number of names behind a name of the list. -/
def place (name : String) : List String → Nat
  | [] => 0
  | first :: names => if name = first then names.length else place name names

theorem place_lt_length {name : String} {names : List String} (hn : name ∈ names) :
    place name names < names.length := by
  induction names with
  | nil => exact absurd hn List.not_mem_nil
  | cons first names ih =>
    unfold place
    split
    · exact Nat.lt_succ_self _
    · next other => exact Nat.lt_succ_of_lt (ih ((List.mem_cons.mp hn).resolve_left other))

theorem Ordered.place_lt {names : List String} (h : g.Ordered names) {name next : String}
    (hn : name ∈ names) (edge : next ∈ g.successors name) :
    place next names < place name names := by
  induction h with
  | nil => exact absurd hn List.not_mem_nil
  | @cons first names ordered _ new behind ih =>
    have later : ∀ x, x ∈ names → place x (first :: names) = place x names := fun x hx =>
      if_neg fun (same : x = first) => new (same ▸ hx)
    rcases List.mem_cons.mp hn with rfl | hn
    · rw [later next (behind next edge), place, if_pos rfl]
      exact place_lt_length (behind next edge)
    · rw [later name hn, later next (ordered.successor_mem hn edge)]
      exact ih hn

/-- In a graph without a cycle there is a rank that falls along every edge. -/
theorem exists_rank (closed : ∀ name next, next ∈ g.successors name → next ∈ g.nodes)
    (none : g.cycle? = none) :
    ∃ rank : String → Nat, (∀ name ∈ g.nodes, rank name < g.length) ∧
      ∀ name ∈ g.nodes, ∀ next ∈ g.successors name, rank next < rank name := by
  obtain ⟨names, ordered, all⟩ := exists_ordered closed none
  have short := (List.subperm_of_subset ordered.nodup ordered.subset).length_le
  rw [nodes, List.length_map] at short
  refine ⟨(place · names), fun name hn => ?_, fun name hn next edge => ?_⟩
  · exact Nat.lt_of_lt_of_le (place_lt_length (all hn)) short
  · exact ordered.place_lt (all hn) edge

end Peg.NameGraph
