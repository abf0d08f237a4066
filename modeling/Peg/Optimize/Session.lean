import Peg.Matcher.Shared
import Peg.Optimize.Basic

/-!
# Optimization of shared trees

A session optimizes shared trees one after the other and keeps what it has made
of each node, so that a node met again is not worked on again and the results
share what the trees shared. It notes every choice that it reduces.

The nodes of the results are numbered anew, from zero in each session.
-/

namespace Peg

/-- A choice was reduced. -/
structure Reduction where
  /-- The number of the node. -/
  node : Nat
  /-- The number of its children, and of the alternatives they became. -/
  before : Nat
  after : Nat
deriving DecidableEq, Repr

structure Session (π : Type) where
  /-- What has become of the nodes worked on, by their numbers. -/
  results : List (Nat × Shared π)
  /-- The number of the next node made. -/
  next : Nat
  /-- The reduced choices, in order. -/
  reductions : List Reduction

namespace Session

variable {π : Type}

def start : Session π := ⟨[], 0, []⟩

/-- A new node. -/
def fresh (s : Session π) (tree : Matcher π) (below : List Labels) : Shared π × Session π :=
  (⟨tree, .node s.next below⟩, { s with next := s.next + 1 })

def note (s : Session π) (r : Reduction) : Session π :=
  { s with reductions := s.reductions ++ [r] }

/-- The result for the node numbered `id`, made only if there is none yet. -/
def once (s : Session π) (id : Nat) (make : Session π → Shared π × Session π) :
    Shared π × Session π :=
  match s.results.lookup id with
  | some result => (result, s)
  | none =>
    let (result, s) := make s
    (result, { s with results := (id, result) :: s.results })

/-- A new node for `rebuild` of one result. -/
def freshAbove (rebuild : Matcher π → Matcher π) :
    Shared π × Session π → Shared π × Session π
  | (inner, s) => s.fresh (rebuild inner.tree) [inner.labels]

/-- A new node like `node`, above the same nodes. -/
def duplicate (s : Session π) (node : Shared π) : Shared π × Session π :=
  s.fresh node.tree node.labels.inner

/-- New nodes for character classes. -/
def freshChars (s : Session π) : List (CharClass π) → List (Shared π) × Session π
  | [] => ([], s)
  | cls :: rest =>
    let (node, s) := s.fresh (.char cls) []
    let (nodes, s) := s.freshChars rest
    (node :: nodes, s)

/-- The alternatives of a choice as nodes; any other node is its only alternative. -/
def alternatives (node : Shared π) : List (Shared π) :=
  match node.tree with
  | .choice _ => node.children
  | _ => [node]

def isTest (node : Shared π) : Bool :=
  match node.tree with
  | .char cls => CharRun.isTest cls
  | _ => false

/-- Merged classes are new nodes, tests and all other matchers keep theirs. -/
def mergeSegment (s : Session π) : Segment (Shared π) → List (Shared π) × Session π
  | .run members =>
    let (merged, s) :=
      s.freshChars (CharRun.mergeChars (members.filterMap (·.tree.charClass?)))
    (merged ++ members.filter isTest, s)
  | .other node => ([node], s)

def mergeSegments (s : Session π) : List (Segment (Shared π)) → List (Shared π) × Session π
  | [] => ([], s)
  | segment :: rest =>
    let (nodes, s) := s.mergeSegment segment
    let (more, s) := s.mergeSegments rest
    (nodes ++ more, s)

/-- The node for the choice numbered `id`, whose children are optimized. -/
def reduceChoice (id : Nat) : List (Shared π) × Session π → Shared π × Session π
  | (children, s) =>
    let (nodes, s) :=
      s.mergeSegments (segments (·.tree.isSingleChar) (children.flatMap alternatives))
    let s := s.note ⟨id, children.length, nodes.length⟩
    match nodes with
    | [only] => s.duplicate only
    | _ => s.fresh (.choice (nodes.map (·.tree))) (nodes.map (·.labels))

/-- The node for an optional matcher whose inner one is optimized. -/
def reduceOptional : Shared π × Session π → Shared π × Session π
  | (inner, s) =>
    match inner.tree with
    | .optional _ => s.duplicate inner
    | _ => s.fresh (.optional inner.tree) [inner.labels]

mutual

/-- Optimizes the tree with the given labels. -/
def visit (s : Session π) : Matcher π → Labels → Shared π × Session π
  | .choice ms, labels =>
    s.once labels.id fun s => reduceChoice labels.id (visitAll s ms labels.inner)
  | .optional m, labels =>
    s.once labels.id fun s => reduceOptional (visit s m (labels.inner.headD default))
  | .sequence ms, labels =>
    s.once labels.id fun s =>
      let (inner, s) := visitAll s ms labels.inner
      s.fresh (.sequence (inner.map (·.tree))) (inner.map (·.labels))
  | .repetition m min max, labels =>
    s.once labels.id fun s =>
      freshAbove (.repetition · min max) (visit s m (labels.inner.headD default))
  | .absent m, labels =>
    s.once labels.id fun s => freshAbove .absent (visit s m (labels.inner.headD default))
  | .rule name m, labels =>
    s.once labels.id fun s => freshAbove (.rule name) (visit s m (labels.inner.headD default))
  | .ignore m, labels =>
    s.once labels.id fun s => freshAbove .ignore (visit s m (labels.inner.headD default))
  | .join m, labels =>
    s.once labels.id fun s => freshAbove .join (visit s m (labels.inner.headD default))
  | .mark m, labels =>
    s.once labels.id fun s => freshAbove .mark (visit s m (labels.inner.headD default))
  | .save name m, labels =>
    s.once labels.id fun s => freshAbove (.save name) (visit s m (labels.inner.headD default))
  | .char cls, labels => s.once labels.id fun s => s.fresh (.char cls) []
  | .text t, labels => s.once labels.id fun s => s.fresh (.text t) []
  | .endOfInput, labels => s.once labels.id fun s => s.fresh .endOfInput []
  | .ref name, labels => s.once labels.id fun s => s.fresh (.ref name) []
  | .load name, labels => s.once labels.id fun s => s.fresh (.load name) []

/-- Optimizes several trees from left to right. -/
def visitAll (s : Session π) :
    List (Matcher π) → List Labels → List (Shared π) × Session π
  | [], _ => ([], s)
  | m :: ms, labels =>
    let (node, s) := visit s m (labels.headD default)
    let (nodes, s) := visitAll s ms labels.tail
    (node :: nodes, s)

end

/-- The optimized form of a shared tree. -/
def optimize (s : Session π) (node : Shared π) : Shared π × Session π :=
  s.visit node.tree node.labels

/-- The optimized forms of several shared trees. -/
def optimizeAll (s : Session π) : List (Shared π) → List (Shared π) × Session π
  | [] => ([], s)
  | node :: nodes =>
    let (result, s) := s.optimize node
    let (results, s) := s.optimizeAll nodes
    (result :: results, s)

end Session

end Peg
