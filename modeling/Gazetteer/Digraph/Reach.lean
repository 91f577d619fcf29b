import Gazetteer.Digraph.Basic

/-!
# What can be reached

A **sweep** follows edges level by level. The first level is given; the next one is made of all
nodes that an edge leads to from the level before, without those seen already. The sweep ends with
the last level that is not empty.

Every level but the first brings nodes that were not seen before, so there are no more levels than
nodes. `sweep` takes that bound as `limit`.
-/

namespace Gazetteer

/-- The union of the rows of a set of nodes. -/
def neighbours (rows : Array WordSet) (nodes : WordSet) : WordSet :=
  nodes.toList.foldl (fun acc i => acc.union (rowOf rows i)) (.empty rows.size)

/-- At most `limit` levels from `level` on, where the nodes `seen` never come again. -/
def sweep (rows : Array WordSet) : (limit : Nat) → (seen level : WordSet) → List WordSet
  | 0, _, _ => []
  | limit + 1, seen, level =>
    if level.isEmpty then []
    else
      let seen := seen.union level
      level :: sweep rows limit seen ((neighbours rows level).diff seen)

/-- The nodes that one or more edges lead to from `node`. -/
def reachedFrom (rows : Array WordSet) (node : Nat) : WordSet :=
  let nothing := WordSet.empty rows.size
  (sweep rows rows.size nothing (rowOf rows node)).foldl WordSet.union nothing

/-- The number of edges of a shortest path between two nodes that are not the same. -/
def levelOf? (rows : Array WordSet) (source target : Nat) : Option Nat :=
  let seen := (WordSet.empty rows.size).insert source
  let levels := sweep rows rows.size seen (rowOf rows source)
  (levels.findIdx? (·.contains target)).map (· + 1)

namespace Digraph

/-- The nodes that one or more edges lead to from `node`. -/
def descendants (g : Digraph) (node : Nat) : Except Error WordSet := do
  return reachedFrom g.outbound (← checkIndex node g.size)

/-- The nodes from which one or more edges lead to `node`. -/
def ancestors (g : Digraph) (node : Nat) : Except Error WordSet := do
  return reachedFrom g.inbound (← checkIndex node g.size)

/-- The number of descendants. -/
def descendantCount (g : Digraph) (node : Nat) : Except Error Nat := do
  return (← g.descendants node).count

/-- `node` lies on a cycle. -/
def isRecursive (g : Digraph) (node : Nat) : Except Error Bool := do
  let node ← checkIndex node g.size
  return (rowOf g.outbound node).contains node || (reachedFrom g.outbound node).contains node

/-- The number of edges of a shortest path, `none` if there is no path. -/
def distance (g : Digraph) (source target : Nat) : Except Error (Option Nat) := do
  let _ ← checkIndex source g.size
  let _ ← checkIndex target g.size
  return if source = target then some 0 else levelOf? g.outbound source target

/-- There is a path, which may be without edges. -/
def isReachable (g : Digraph) (source target : Nat) : Except Error Bool := do
  return (← g.distance source target).isSome

end Digraph

end Gazetteer
