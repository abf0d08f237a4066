import Peg.Matcher.Basic

/-!
# Trees with shared nodes

Several places of a grammar may hold one and the same node. A tree alone does not
show that, so a shared tree carries labels beside it: a number for each of its
nodes. Two places hold the same node when their labels have the same number, and
then they hold equal trees.
-/

namespace Peg

/-- The numbers of the nodes of a tree, laid out like the tree. -/
inductive Labels where
  | node (id : Nat) (inner : List Labels)
deriving Repr

namespace Labels

instance : Inhabited Labels := ⟨node 0 []⟩

def id : Labels → Nat
  | node id _ => id

def inner : Labels → List Labels
  | node _ inner => inner

end Labels

/-- A tree whose nodes have an identity. -/
structure Shared (π : Type) where
  tree : Matcher π
  labels : Labels
deriving Repr

namespace Shared

variable {π : Type}

instance : Inhabited (Shared π) := ⟨⟨default, default⟩⟩

/-- The number of the topmost node. -/
def id (s : Shared π) : Nat := s.labels.id

/-- The shared trees directly below. -/
def children (s : Shared π) : List (Shared π) :=
  s.tree.children.zipWith Shared.mk s.labels.inner

mutual

/-- Labels without any sharing, numbered from `first` on, and the next number. -/
def number : Matcher π → (first : Nat) → Labels × Nat
  | .sequence ms, first | .choice ms, first =>
    let (below, next) := numberAll ms (first + 1)
    (.node first below, next)
  | .repetition m _ _, first | .optional m, first | .absent m, first | .rule _ m, first
  | .ignore m, first | .join m, first | .mark m, first | .save _ m, first =>
    let (below, next) := number m (first + 1)
    (.node first [below], next)
  | .char _, first | .text _, first | .endOfInput, first | .ref _, first | .load _, first =>
    (.node first [], first + 1)

def numberAll : List (Matcher π) → (first : Nat) → List Labels × Nat
  | [], first => ([], first)
  | m :: ms, first =>
    let (labels, next) := number m first
    let (rest, next) := numberAll ms next
    (labels :: rest, next)

end

/-- Trees that have no node in common, with themselves or with each other. -/
def unshared (ms : List (Matcher π)) : List (Shared π) :=
  ms.zipWith Shared.mk (numberAll ms 0).1

end Shared

end Peg
