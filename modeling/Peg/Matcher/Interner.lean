import Peg.Matcher.Shared

/-!
# Interning

An interner holds one node for each tree it has met. Interning a tree gives back
that tree with equal subtrees made one node, among themselves and with all trees
interned before. A tree below another one that is held already is taken as it is held.
-/

namespace Peg

/-- The nodes met so far, latest first. -/
structure Interner (π : Type) where
  nodes : List (Shared π)

namespace Interner

variable {π : Type}

def empty : Interner π := ⟨[]⟩

/-- How many nodes the interner holds. -/
def size (i : Interner π) : Nat := i.nodes.length

def isEmpty (i : Interner π) : Bool := i.nodes.isEmpty

variable [DecidableEq π]

/-- The node held for `tree`, or else what `make` comes to. -/
def heldOr (i : Interner π) (tree : Matcher π) (make : Interner π → Shared π × Interner π) :
    Shared π × Interner π :=
  match i.nodes.find? (·.tree = tree) with
  | some node => (node, i)
  | none => make i

/-- The node held for `tree`, or a new one above the nodes labelled `below`. -/
def share (i : Interner π) (tree : Matcher π) (below : List Labels) : Shared π × Interner π :=
  i.heldOr tree fun i =>
    let node : Shared π := ⟨tree, .node i.size below⟩
    (node, ⟨node :: i.nodes⟩)

/-- The node for `rebuild` of one interned tree. -/
def shareAbove (rebuild : Matcher π → Matcher π) :
    Shared π × Interner π → Shared π × Interner π
  | (inner, i) => i.share (rebuild inner.tree) [inner.labels]

/-- The node for `rebuild` of several interned trees. -/
def shareAboveAll (rebuild : List (Matcher π) → Matcher π) :
    List (Shared π) × Interner π → Shared π × Interner π
  | (inner, i) => i.share (rebuild (inner.map (·.tree))) (inner.map (·.labels))

mutual

/-- The node for a tree, after those for everything below it. What is below it is not
looked into where there is a node for it. -/
def intern (i : Interner π) : Matcher π → Shared π × Interner π
  | .sequence ms => shareAboveAll .sequence (internEach i ms)
  | .choice ms => shareAboveAll .choice (internEach i ms)
  | .repetition m min max =>
    shareAbove (.repetition · min max) (i.heldOr m fun i => intern i m)
  | .optional m => shareAbove .optional (i.heldOr m fun i => intern i m)
  | .absent m => shareAbove .absent (i.heldOr m fun i => intern i m)
  | .rule name m => shareAbove (.rule name) (i.heldOr m fun i => intern i m)
  | .ignore m => shareAbove .ignore (i.heldOr m fun i => intern i m)
  | .join m => shareAbove .join (i.heldOr m fun i => intern i m)
  | .mark m => shareAbove .mark (i.heldOr m fun i => intern i m)
  | .save name m => shareAbove (.save name) (i.heldOr m fun i => intern i m)
  | .char cls => i.share (.char cls) []
  | .text t => i.share (.text t) []
  | .endOfInput => i.share .endOfInput []
  | .ref name => i.share (.ref name) []
  | .load name => i.share (.load name) []

/-- The nodes for the children of a tree, from left to right. -/
def internEach (i : Interner π) : List (Matcher π) → List (Shared π) × Interner π
  | [] => ([], i)
  | m :: ms =>
    let (node, i) := i.heldOr m fun i => intern i m
    let (nodes, i) := internEach i ms
    (node :: nodes, i)

end

/-- The nodes for several trees, from left to right. -/
def internAll (i : Interner π) : List (Matcher π) → List (Shared π) × Interner π
  | [] => ([], i)
  | m :: ms =>
    let (node, i) := i.intern m
    let (nodes, i) := i.internAll ms
    (node :: nodes, i)

end Interner

end Peg
