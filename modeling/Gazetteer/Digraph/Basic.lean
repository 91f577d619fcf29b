import Gazetteer.Error
import Gazetteer.WordSet.Algebra
import Gazetteer.WordSet.Members

/-!
# Directed graphs in words

A `Digraph` over the nodes `0..size` keeps one word set for each node with the targets of its edges
and one with the sources. The two tables hold the same edges: `addEdge`, the one way to change a
graph, writes to both.
-/

namespace Gazetteer

/-- A directed graph. -/
structure Digraph where
  /-- The targets of the edges from each node. -/
  outbound : Array WordSet
  /-- The sources of the edges to each node. -/
  inbound : Array WordSet
deriving DecidableEq

/-- The row of node `i`, empty if there is none. -/
def rowOf (rows : Array WordSet) (i : Nat) : WordSet := rows[i]?.getD (.empty 0)

namespace Digraph

/-- The graph of `n` nodes without edges. -/
def empty (n : Nat) : Digraph :=
  ⟨Array.replicate n (WordSet.empty n), Array.replicate n (WordSet.empty n)⟩

/-- The number of nodes. -/
def size (g : Digraph) : Nat := g.outbound.size

/-- The edge is in the graph. -/
def containsEdge (g : Digraph) (source target : Nat) : Bool :=
  g.outbound[source]?.any (·.contains target)

/-- Adds an edge, and says whether it is new. -/
def addEdge (g : Digraph) (source target : Nat) : Except Error (Bool × Digraph) := do
  let _ ← checkIndex source g.size
  let _ ← checkIndex target g.size
  return ((rowOf g.outbound source).adds target,
    { outbound := g.outbound.modify source (·.insert target)
      inbound := g.inbound.modify target (·.insert source) })

/-- The number of edges. -/
def edgeCount (g : Digraph) : Nat := (g.outbound.toList.map (·.count)).foldr (· + ·) 0

/-- The edges, by source and then by target. -/
def edges (g : Digraph) : List (Nat × Nat) :=
  g.outbound.toList.zipIdx.flatMap fun (row, source) =>
    row.toList.map fun target => (source, target)

/-- The targets of the edges from `node`. -/
def successors (g : Digraph) (node : Nat) : Except Error WordSet := do
  return rowOf g.outbound (← checkIndex node g.size)

/-- The sources of the edges to `node`. -/
def predecessors (g : Digraph) (node : Nat) : Except Error WordSet := do
  return rowOf g.inbound (← checkIndex node g.size)

/-! ## Roots and leaves -/

/-- The nodes whose row names no other node: what is counted, less the node itself, is nothing. -/
def lonely (rows : Array WordSet) : WordSet :=
  let nodes := rows.toList.zipIdx.filter fun (row, node) =>
    row.count - (if row.contains node then 1 else 0) = 0
  .ofList rows.size (nodes.map (·.2))

/-- The nodes to which no edge leads from another node. -/
def roots (g : Digraph) : WordSet := lonely g.inbound

/-- The nodes from which no edge leads to another node. -/
def leaves (g : Digraph) : WordSet := lonely g.outbound

end Digraph

end Gazetteer
