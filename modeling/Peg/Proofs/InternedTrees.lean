import Mathlib.Data.List.Dedup
import Mathlib.Data.List.Perm.Lattice
import Peg.Matcher.Interner
import Peg.Proofs.SharedNodes

/-!
# Interned trees

An interner holds one node for each tree it has met, and with a node those below it
(`Interner.Sound`). So when it finds a node for a tree it has nothing to do for what is below
the tree, and in every other case the nodes below are there before the node that is made.

`Interner.gives_intern` tells what becomes of an interner that takes in a tree.
`Interner.internAll_exact` is about the results of any number of calls: nodes are the same
exactly if their trees are, and there are as many as there are different trees.
-/

namespace Peg.Interner

variable {π : Type}

/-- The trees that are held. -/
def trees (i : Interner π) : List (Matcher π) := i.nodes.map (·.tree)

/-- The interner holds nodes with all that lies below them, and no two of one tree. -/
structure Sound (i : Interner π) : Prop where
  stacked : Shared.Stacked i.nodes
  numbered : ∀ n ∈ i.nodes, n.id < i.size
  distinct : i.trees.Nodup

theorem sound_empty : (empty : Interner π).Sound := ⟨.nil, nofun, List.nodup_nil⟩

variable {i i' i'' : Interner π} {m : Matcher π} {ms : List (Matcher π)} {n : Shared π}
  {nodes : List (Shared π)}

/-- With a tree its subtrees are held. -/
theorem Sound.subtrees_subset (h : i.Sound) (hn : n ∈ i.nodes) : n.tree.subtrees ⊆ i.trees := by
  intro t ht
  obtain ⟨below, reached, rfl⟩ := (Shared.mem_subtrees_iff (h.stacked.laidOut hn)).mp ht
  exact List.mem_map_of_mem (h.stacked.mem_of_reaches hn reached)

theorem Sound.eq_of_tree_eq (h : i.Sound) {a b : Shared π} (ha : a ∈ i.nodes) (hb : b ∈ i.nodes)
    (same : a.tree = b.tree) : a = b :=
  List.inj_on_of_nodup_map h.distinct ha hb same

/-- A node above nodes that are held may be added for a tree that is not. -/
theorem Sound.add (h : i.Sound) (children : m.children = nodes.map (·.tree))
    (held : nodes ⊆ i.nodes) (new : m ∉ i.trees) :
    (⟨⟨m, .node i.size (nodes.map (·.labels))⟩ :: i.nodes⟩ : Interner π).Sound := by
  let node : Shared π := ⟨m, .node i.size (nodes.map (·.labels))⟩
  have above : node.children ⊆ i.nodes := by
    rw [Shared.children_above children]
    exact held
  have fits : node.Fits := by
    rw [Shared.Fits, children, List.length_map]
    exact List.length_map _
  have number : node.id ∉ i.nodes.map (·.id) := fun member => by
    obtain ⟨n, hn, same⟩ := List.mem_map.mp member
    exact Nat.ne_of_lt (h.numbered n hn) same
  refine ⟨.cons h.stacked fits above number, ?_, List.nodup_cons.mpr ⟨new, h.distinct⟩⟩
  refine List.forall_mem_cons.mpr ⟨Nat.lt_succ_self _, fun n hn => ?_⟩
  exact Nat.lt_succ_of_lt (h.numbered n hn)

/-- The interner has given `nodes` for the trees `ms` and has become `i'`. -/
structure Gives (i : Interner π) (ms : List (Matcher π)) (nodes : List (Shared π))
    (i' : Interner π) : Prop where
  sound : i'.Sound
  /-- What was held is still held. -/
  kept : i.nodes <:+ i'.nodes
  /-- Only the given trees and what is below them have come in addition. -/
  trees : ∀ t, t ∈ i'.trees ↔ t ∈ i.trees ∨ t ∈ ms.flatMap Matcher.subtrees
  held : nodes ⊆ i'.nodes
  same : nodes.map (·.tree) = ms

theorem Gives.nil (h : i.Sound) : i.Gives [] [] i :=
  ⟨h, List.suffix_rfl, by simp, List.nil_subset _, rfl⟩

theorem Gives.cons (first : i.Gives [m] [n] i') (rest : i'.Gives ms nodes i'') :
    i.Gives (m :: ms) (n :: nodes) i'' := by
  refine ⟨rest.sound, first.kept.trans rest.kept, fun t => ?_, ?_, ?_⟩
  · rw [rest.trees, first.trees, List.flatMap_singleton, List.flatMap_cons, List.mem_append,
      or_assoc]
  · exact List.cons_subset.mpr ⟨rest.kept.subset (first.held List.mem_cons_self), rest.held⟩
  · have head : n.tree = m := (List.cons.inj first.same).1
    rw [List.map_cons, rest.same, head]

variable [DecidableEq π]

/-- A node that is found is one for the tree, and what is below it is held as well. -/
theorem gives_heldOr (make : Interner π → Shared π × Interner π) (h : i.Sound)
    (new : m ∉ i.trees → i.Gives [m] [(make i).1] (make i).2) :
    i.Gives [m] [(i.heldOr m make).1] (i.heldOr m make).2 := by
  unfold heldOr
  split
  · next n found =>
    have held : n ∈ i.nodes := List.mem_of_find?_eq_some found
    have same : n.tree = m := by simpa using List.find?_some found
    refine ⟨h, List.suffix_rfl, fun t => ?_, List.cons_subset.mpr ⟨held, List.nil_subset _⟩,
      congrArg (fun t => [t]) same⟩
    rw [List.flatMap_singleton, ← same]
    exact ⟨.inl, fun ht => ht.elim id fun below => h.subtrees_subset held below⟩
  · next missing =>
    refine new fun member => ?_
    obtain ⟨n, hn, same⟩ := List.mem_map.mp member
    exact List.find?_eq_none.mp missing n hn (decide_eq_true same)

/-- A node is made above the nodes for the children, unless there is one for the tree. -/
theorem Gives.share (below : i.Gives m.children nodes i') :
    i.Gives [m] [(i'.share m (nodes.map (·.labels))).1] (i'.share m (nodes.map (·.labels))).2 := by
  -- Behind the children only the tree itself has still to come.
  have subtrees : ∀ t, t ∈ [m].flatMap Matcher.subtrees ↔
      t = m ∨ t ∈ m.children.flatMap Matcher.subtrees := fun t => by
    rw [List.flatMap_singleton, Matcher.subtrees_eq, List.mem_cons]
  have made : i'.Gives [m] [(i'.share m (nodes.map (·.labels))).1]
      (i'.share m (nodes.map (·.labels))).2 := by
    refine gives_heldOr _ below.sound fun new => ?_
    refine ⟨below.sound.add below.same.symm below.held new, List.suffix_cons _ _, fun t => ?_,
      List.cons_subset.mpr ⟨List.mem_cons_self, List.nil_subset _⟩, rfl⟩
    rw [subtrees]
    show t ∈ m :: i'.trees ↔ _
    rw [List.mem_cons, below.trees]
    tauto
  refine ⟨made.sound, below.kept.trans made.kept, fun t => ?_, made.held, made.same⟩
  rw [made.trees, below.trees, subtrees]
  tauto

theorem intern_eq (i : Interner π) (m : Matcher π) :
    i.intern m = (i.internEach m.children).2.share
      (m.withChildren ((i.internEach m.children).1.map (·.tree)))
      ((i.internEach m.children).1.map (·.labels)) := by
  cases m <;> rfl

theorem gives_internEach (h : i.Sound)
    (each : ∀ m ∈ ms, ∀ i : Interner π, i.Sound → i.Gives [m] [(i.intern m).1] (i.intern m).2) :
    i.Gives ms (i.internEach ms).1 (i.internEach ms).2 := by
  induction ms generalizing i with
  | nil => exact .nil h
  | cons m ms ih =>
    have first := gives_heldOr (·.intern m) h fun _ => each m List.mem_cons_self i h
    exact first.cons (ih first.sound fun m hm => each m (List.mem_cons_of_mem _ hm))

/-- A tree is given one node, which it shares with all equal trees before and after. -/
theorem gives_intern (h : i.Sound) (m : Matcher π) :
    i.Gives [m] [(i.intern m).1] (i.intern m).2 := by
  induction m using Matcher.induct_children generalizing i with
  | step m ih =>
    have below := gives_internEach h fun c hc _ sound => ih c hc sound
    rw [intern_eq, below.same, Matcher.withChildren_children]
    exact below.share

theorem gives_internAll (h : i.Sound) (ms : List (Matcher π)) :
    i.Gives ms (i.internAll ms).1 (i.internAll ms).2 := by
  induction ms generalizing i with
  | nil => exact .nil h
  | cons m ms ih =>
    have first := gives_intern h m
    exact first.cons (ih first.sound)

/-- Interned trees may have nodes in common. -/
theorem coherent_internAll (ms : List (Matcher π)) :
    Shared.Coherent ((empty : Interner π).internAll ms).1 :=
  have given := gives_internAll sound_empty ms
  given.sound.stacked.coherent given.held

/-- Calls on one interner, however many and for whatever trees, give back these trees. Of all
the nodes of the results two are the same exactly if their trees are equal, be they results
themselves or somewhere below. The interner holds as many nodes as there are different trees
among the given ones and those below them. -/
theorem internAll_exact (ms : List (Matcher π)) :
    let nodes := ((empty : Interner π).internAll ms).1
    let i := ((empty : Interner π).internAll ms).2
    nodes.map (·.tree) = ms ∧
    (∀ (j k : Nat) (a b : Shared π), nodes[j]? = some a → nodes[k]? = some b →
      (a.id = b.id ↔ ms[j]? = ms[k]?)) ∧
    (∀ a b, Shared.Within nodes a → Shared.Within nodes b →
      (a.id = b.id ↔ a.tree = b.tree) ∧ (a.id = b.id ↔ a = b)) ∧
    (∀ m ∈ ms, ∀ t ∈ m.subtrees, ∃ a, Shared.Within nodes a ∧ a.tree = t) ∧
    i.size = (ms.flatMap Matcher.subtrees).dedup.length := by
  intro nodes i
  have given : (empty : Interner π).Gives ms nodes i := gives_internAll sound_empty ms
  have inside : ∀ a, Shared.Within nodes a → a ∈ i.nodes := fun a ⟨r, hr, reached⟩ =>
    given.sound.stacked.mem_of_reaches (given.held hr) reached
  have exact : ∀ a b, Shared.Within nodes a → Shared.Within nodes b →
      (a.id = b.id ↔ a.tree = b.tree) ∧ (a.id = b.id ↔ a = b) := by
    intro a b ha hb
    have ids : a.id = b.id → a = b := given.sound.stacked.eq_of_id_eq (inside a ha) (inside b hb)
    have trees : a.tree = b.tree → a = b := given.sound.eq_of_tree_eq (inside a ha) (inside b hb)
    exact ⟨⟨fun h => ids h ▸ rfl, fun h => trees h ▸ rfl⟩, ids, fun h => h ▸ rfl⟩
  refine ⟨given.same, fun j k a b hj hk => ?_, exact, fun m hm t ht => ?_, ?_⟩
  · have ha : a ∈ nodes := List.mem_of_getElem? hj
    have hb : b ∈ nodes := List.mem_of_getElem? hk
    rw [(exact a b (.of_mem ha) (.of_mem hb)).1, ← given.same, List.getElem?_map, List.getElem?_map,
      hj, hk, Option.map_some, Option.map_some, Option.some_inj]
  · rw [← given.same] at hm
    obtain ⟨r, hr, rfl⟩ := List.mem_map.mp hm
    have laidOut := given.sound.stacked.laidOut (given.held hr)
    obtain ⟨a, reached, same⟩ := (Shared.mem_subtrees_iff laidOut).mp ht
    exact ⟨a, ⟨r, hr, reached⟩, same⟩
  · have perm : i.trees.Perm (ms.flatMap Matcher.subtrees).dedup := by
      refine (List.perm_ext_iff_of_nodup given.sound.distinct (List.nodup_dedup _)).mpr fun t => ?_
      rw [given.trees, List.mem_dedup]
      exact or_iff_right List.not_mem_nil
    rw [← perm.length_eq]
    exact List.length_map _ |>.symm

end Peg.Interner
