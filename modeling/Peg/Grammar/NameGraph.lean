/-!
# Cycles in a graph of names

A depth-first search for a cycle. It starts from each node in turn, keeps the
path from there, and never enters a node twice that it has left without finding a
cycle.
-/

namespace Peg

/-- Names with the names they lead to, in order. -/
abbrev NameGraph := List (String × List String)

namespace NameGraph

def successors (g : NameGraph) (name : String) : List String :=
  (g.lookup name).getD []

/-- Searches from `name` on, at the end of `path`. The result is a cycle, or the
names that lead to none. The first argument bounds the length of the path. -/
def searchFrom (g : NameGraph) :
    Nat → (path done : List String) → String → Except (List String) (List String)
  | 0, _, done, _ => .ok done
  | bound + 1, path, done, name =>
    if name ∈ path then .error (path.dropWhile (· ≠ name) ++ [name])
    else if name ∈ done then .ok done
    else
      match (g.successors name).foldlM (g.searchFrom bound (path ++ [name])) done with
      | .error cycle => .error cycle
      | .ok done => .ok (name :: done)

/-- The first cycle found from the nodes in order, from its first node back to it. -/
def cycle? (g : NameGraph) : Option (List String) :=
  match (g.map (·.1)).foldlM (g.searchFrom (g.length + 1) []) [] with
  | .error cycle => some cycle
  | .ok _ => none

end NameGraph

end Peg
