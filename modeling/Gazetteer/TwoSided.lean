import Gazetteer.Catalog.Concat
import Gazetteer.Digraph.Reach

/-!
# Graphs over two catalogs

A `TwoSided` graph has the items of two catalogs as its nodes. A `Node` names an item by its side
and its place there. Underneath is a plain graph over the places of both catalogs, those of the
left one first; `placeOf` and `nodeAt` lead from one to the other, and `split` takes a set of
places apart.
-/

namespace Gazetteer

/-- An item of one of two catalogs. -/
inductive Node where
  | left (i : Nat)
  | right (i : Nat)
deriving DecidableEq

/-- A set of places of each side. -/
structure SidedSet where
  /-- The places of the left side. -/
  left : WordSet
  /-- The places of the right side. -/
  right : WordSet
deriving DecidableEq

namespace SidedSet

/-- The set has no members. -/
def isEmpty (s : SidedSet) : Bool := s.left.isEmpty && s.right.isEmpty

/-- The number of members. -/
def count (s : SidedSet) : Nat := s.left.count + s.right.count

end SidedSet

/-- A graph over the items of two catalogs. -/
structure TwoSided (γ δ : Type) where
  /-- The two catalogs. -/
  items : Concat γ δ
  /-- The graph over their places. -/
  graph : Digraph

namespace TwoSided

variable {γ δ α : Type} [Catalog γ α] [Catalog δ α]

/-- The graph without edges. -/
def empty (left : γ) (right : δ) : TwoSided γ δ :=
  ⟨⟨left, right⟩, .empty (Catalog.size left + Catalog.size right)⟩

/-! ## Nodes and places -/

/-- The place of a node. -/
def placeOf (t : TwoSided γ δ) : Node → Except Error Nat
  | .left i => checkIndex i (Catalog.size t.items.left)
  | .right i => do return t.items.boundary + (← checkIndex i (Catalog.size t.items.right))

/-- The node at a place. -/
def nodeAt (t : TwoSided γ δ) (place : Nat) : Except Error Node := do
  let place ← checkIndex place (Catalog.size t.items)
  return if place < t.items.boundary then .left place else .right (place - t.items.boundary)

/-- The node of an item of the left side. -/
def leftNode? (t : TwoSided γ δ) (x : α) : Option Node :=
  (Catalog.indexOf? t.items.left x).map .left

/-- The node of an item of the right side. -/
def rightNode? (t : TwoSided γ δ) (x : α) : Option Node :=
  (Catalog.indexOf? t.items.right x).map .right

/-- The item of a node. -/
def item? (t : TwoSided γ δ) : Node → Option α
  | .left i => Catalog.get? t.items.left i
  | .right i => Catalog.get? t.items.right i

/-- A set of places, side by side. -/
def split (t : TwoSided γ δ) (places : WordSet) : SidedSet :=
  let (lefts, rights) := places.toList.partition (· < t.items.boundary)
  { left := .ofList (Catalog.size t.items.left) lefts
    right := .ofList (Catalog.size t.items.right) (rights.map (· - t.items.boundary)) }

/-! ## Edges -/

/-- Adds an edge, and says whether it is new. -/
def addEdge (t : TwoSided γ δ) (source target : Node) : Except Error (Bool × TwoSided γ δ) := do
  let source ← t.placeOf source
  let target ← t.placeOf target
  let (added, graph) ← t.graph.addEdge source target
  return (added, { t with graph })

/-- The edge is in the graph. -/
def containsEdge (t : TwoSided γ δ) (source target : Node) : Bool :=
  match t.placeOf source, t.placeOf target with
  | .ok source, .ok target => t.graph.containsEdge source target
  | _, _ => false

/-- The targets of the edges from a node. -/
def successors (t : TwoSided γ δ) (node : Node) : Except Error SidedSet := do
  return t.split (← t.graph.successors (← t.placeOf node))

/-- The sources of the edges to a node. -/
def predecessors (t : TwoSided γ δ) (node : Node) : Except Error SidedSet := do
  return t.split (← t.graph.predecessors (← t.placeOf node))

/-- The nodes that one or more edges lead to from a node. -/
def descendants (t : TwoSided γ δ) (node : Node) : Except Error SidedSet := do
  return t.split (← t.graph.descendants (← t.placeOf node))

/-- The nodes from which one or more edges lead to a node. -/
def ancestors (t : TwoSided γ δ) (node : Node) : Except Error SidedSet := do
  return t.split (← t.graph.ancestors (← t.placeOf node))

/-- The number of edges of a shortest path, `none` if there is no path. -/
def distance (t : TwoSided γ δ) (source target : Node) : Except Error (Option Nat) := do
  t.graph.distance (← t.placeOf source) (← t.placeOf target)

end TwoSided

end Gazetteer
