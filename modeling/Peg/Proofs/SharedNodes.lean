import Mathlib.Data.List.Flatten
import Mathlib.Data.List.Nodup
import Mathlib.Logic.Relation
import Peg.Matcher.Shared
import Peg.Proofs.Form

/-!
# Nodes of shared trees

A shared tree is one of its nodes, the topmost, and the others are reached from it by going
from nodes to the nodes directly below (`Shared.Reaches`). If every node has a label for each
of its children, the trees of these nodes are the subtrees of the tree
(`Shared.mem_subtrees_iff`).

Labels stand for nodes that exist once. `Shared.Coherent` says so of several trees that may
have nodes in common. Whoever makes nodes from below, or works on them from below, has at any
time a stack of nodes in which each comes after those below it (`Shared.Stacked`).
-/

namespace Peg

variable {π : Type}

/-- A node like `m`, above other children. -/
def Matcher.withChildren : Matcher π → List (Matcher π) → Matcher π
  | .sequence _, ms => .sequence ms
  | .choice _, ms => .choice ms
  | .repetition _ min max, ms => .repetition (ms.headD default) min max
  | .optional _, ms => .optional (ms.headD default)
  | .absent _, ms => .absent (ms.headD default)
  | .rule name _, ms => .rule name (ms.headD default)
  | .ignore _, ms => .ignore (ms.headD default)
  | .join _, ms => .join (ms.headD default)
  | .mark _, ms => .mark (ms.headD default)
  | .save name _, ms => .save name (ms.headD default)
  | m, _ => m

@[simp] theorem Matcher.withChildren_children (m : Matcher π) : m.withChildren m.children = m := by
  cases m <;> rfl

namespace Shared

/-- The node is `s` or lies below it. -/
def Reaches (s n : Shared π) : Prop := Relation.ReflTransGen (fun a b => b ∈ a.children) s n

/-- The node lies below `s`. -/
def Above (s n : Shared π) : Prop := Relation.TransGen (fun a b => b ∈ a.children) s n

/-- There is a label for each child. -/
def Fits (s : Shared π) : Prop := s.labels.inner.length = s.tree.children.length

/-- There is a label for each child of each node. -/
def LaidOut (s : Shared π) : Prop := ∀ n, s.Reaches n → n.Fits

variable {s n : Shared π}

theorem Fits.length_children (h : s.Fits) : s.children.length = s.tree.children.length := by
  rw [children, List.length_zipWith, show s.labels.inner.length = _ from h, Nat.min_self]

theorem Fits.trees (h : s.Fits) : s.children.map (·.tree) = s.tree.children :=
  List.ext_getElem (by rw [List.length_map, h.length_children]) fun _ _ _ => by simp [children]

theorem Fits.labels (h : s.Fits) : s.children.map (·.labels) = s.labels.inner :=
  List.ext_getElem (by rw [List.length_map, h.length_children]; exact h.symm) fun _ _ _ => by
    simp [children]

theorem mem_children_tree {c : Shared π} (hc : c ∈ s.children) : c.tree ∈ s.tree.children := by
  obtain ⟨i, hi, rfl⟩ := List.getElem_of_mem hc
  simp [children]

/-- A node made above `inner` has these nodes as children. -/
theorem children_above {tree : Matcher π} {id : Nat} {inner : List (Shared π)}
    (h : tree.children = inner.map (·.tree)) :
    (⟨tree, .node id (inner.map (·.labels))⟩ : Shared π).children = inner := by
  simp [children, Labels.inner, h, List.zipWith_map, List.zipWith_self]

theorem LaidOut.fits (h : s.LaidOut) : s.Fits := h s .refl

theorem LaidOut.child (h : s.LaidOut) {c : Shared π} (hc : c ∈ s.children) : c.LaidOut :=
  fun n below => h n (.head hc below)

theorem laidOut_iff : s.LaidOut ↔ s.Fits ∧ ∀ c ∈ s.children, c.LaidOut := by
  refine ⟨fun h => ⟨h.fits, fun c hc => h.child hc⟩, fun ⟨fits, below⟩ n reached => ?_⟩
  rcases reached.cases_head with rfl | ⟨c, hc, further⟩
  · exact fits
  · exact below c hc n further

/-- The subtrees of the tree are the trees of the nodes. -/
theorem mem_subtrees_iff (h : s.LaidOut) {t : Matcher π} :
    t ∈ s.tree.subtrees ↔ ∃ n, s.Reaches n ∧ n.tree = t := by
  constructor
  · intro member
    induction hm : s.tree using Matcher.induct_children generalizing s with
    | step m ih =>
      subst hm
      rw [Matcher.subtrees_eq, ← h.fits.trees] at member
      rcases List.mem_cons.mp member with rfl | below
      · exact ⟨s, .refl, rfl⟩
      · obtain ⟨_, member, inside⟩ := List.mem_flatMap.mp below
        obtain ⟨c, hc, rfl⟩ := List.mem_map.mp member
        obtain ⟨n, reached, same⟩ := ih c.tree (mem_children_tree hc) (h.child hc) inside rfl
        exact ⟨n, .head hc reached, same⟩
  · rintro ⟨n, reached, rfl⟩
    induction reached using Relation.ReflTransGen.head_induction_on with
    | refl => exact Matcher.mem_subtrees_self _
    | head hc _ ih =>
      rw [Matcher.subtrees_eq]
      exact List.mem_cons_of_mem _ (List.mem_flatMap.mpr ⟨_, mem_children_tree hc, ih (h.child hc)⟩)

/-- A tree below a node is smaller than that of the node. -/
theorem Above.nodeCount_lt (h : s.Above n) : n.tree.nodeCount < s.tree.nodeCount := by
  have child : ∀ {a b : Shared π}, b ∈ a.children → b.tree.nodeCount < a.tree.nodeCount := by
    intro a b hb
    have part := List.singleton_sublist.mpr (mem_children_tree hb) |>.flatMap Matcher.subtrees
    rw [List.flatMap_singleton] at part
    rw [Matcher.nodeCount, Matcher.nodeCount, Matcher.subtrees_eq a.tree, List.length_cons]
    exact Nat.lt_succ_of_le part.length_le
  induction h with
  | single hb => exact child hb
  | tail _ hb ih => exact Nat.lt_trans (child hb) ih

theorem Above.ne (h : s.Above n) : n ≠ s := by
  rintro rfl
  exact Nat.lt_irrefl _ h.nodeCount_lt

/-! ## Nodes of several trees -/

/-- The node is one of those of the trees. -/
def Within (roots : List (Shared π)) (n : Shared π) : Prop := ∃ r ∈ roots, r.Reaches n

/-- The labels stand for nodes: what has the same number is the same. -/
structure Coherent (roots : List (Shared π)) : Prop where
  laidOut : ∀ r ∈ roots, r.LaidOut
  same : ∀ a b, Within roots a → Within roots b → a.id = b.id → a = b

variable {roots : List (Shared π)}

theorem Within.of_mem {r : Shared π} (hr : r ∈ roots) : Within roots r := ⟨r, hr, .refl⟩

theorem Within.reaches {a b : Shared π} (h : Within roots a) (below : a.Reaches b) :
    Within roots b :=
  let ⟨r, hr, reached⟩ := h
  ⟨r, hr, reached.trans below⟩

theorem Coherent.laidOut_of_within (h : Coherent roots) {a : Shared π} (ha : Within roots a) :
    a.LaidOut :=
  let ⟨r, hr, reached⟩ := ha
  fun n below => h.laidOut r hr n (reached.trans below)

/-! ## Nodes in order -/

/-- Different nodes, the latest first, each behind all that lie below it. -/
inductive Stacked : List (Shared π) → Prop
  | nil : Stacked []
  | cons {n : Shared π} {nodes : List (Shared π)} : Stacked nodes → n.Fits →
      n.children ⊆ nodes → n.id ∉ nodes.map (·.id) → Stacked (n :: nodes)

variable {nodes : List (Shared π)}

theorem Stacked.fits (h : Stacked nodes) (hn : n ∈ nodes) : n.Fits := by
  induction h with
  | nil => cases hn
  | cons _ fits _ _ ih =>
    rcases List.mem_cons.mp hn with rfl | earlier
    · exact fits
    · exact ih earlier

theorem Stacked.nodup (h : Stacked nodes) : (nodes.map (·.id)).Nodup := by
  induction h with
  | nil => exact List.nodup_nil
  | cons _ _ _ new ih => exact List.nodup_cons.mpr ⟨new, ih⟩

theorem Stacked.mem_of_mem_children (h : Stacked nodes) (hs : s ∈ nodes) (hn : n ∈ s.children) :
    n ∈ nodes := by
  induction h with
  | nil => cases hs
  | cons _ _ children _ ih =>
    rcases List.mem_cons.mp hs with rfl | earlier
    · exact List.mem_cons_of_mem _ (children hn)
    · exact List.mem_cons_of_mem _ (ih earlier)

theorem Stacked.mem_of_reaches (h : Stacked nodes) (hs : s ∈ nodes) (reached : s.Reaches n) :
    n ∈ nodes := by
  induction reached with
  | refl => exact hs
  | tail _ hn ih => exact h.mem_of_mem_children ih hn

theorem Stacked.laidOut (h : Stacked nodes) (hs : s ∈ nodes) : s.LaidOut :=
  fun _ reached => h.fits (h.mem_of_reaches hs reached)

/-- What lies below a node has come before it. -/
theorem Stacked.mem_of_above {after : List (Shared π)} (h : Stacked (after ++ s :: nodes))
    (below : s.Above n) : n ∈ nodes := by
  induction after with
  | nil =>
    obtain ⟨c, hc, reached⟩ := Relation.TransGen.head'_iff.mp below
    cases h with
    | cons earlier _ children _ => exact earlier.mem_of_reaches (children hc) reached
  | cons a after ih =>
    cases h with
    | cons earlier => exact ih earlier

/-- Nodes of one number in a stack are the same. -/
theorem Stacked.eq_of_id_eq (h : Stacked nodes) (hs : s ∈ nodes) (hn : n ∈ nodes)
    (same : s.id = n.id) : s = n :=
  List.inj_on_of_nodup_map h.nodup hs hn same

/-- Trees whose nodes are in one stack. -/
theorem Stacked.coherent (h : Stacked nodes) (inside : roots ⊆ nodes) : Coherent roots := by
  refine ⟨fun r hr => h.laidOut (inside hr), ?_⟩
  rintro a b ⟨r, hr, ha⟩ ⟨r', hr', hb⟩ same
  exact h.eq_of_id_eq (h.mem_of_reaches (inside hr) ha) (h.mem_of_reaches (inside hr') hb) same

end Shared

end Peg
