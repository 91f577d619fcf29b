import Gazetteer.CrossReference.Basic
import Gazetteer.Directory.Layout

/-!
# Drafting a cross reference

A `Draft` takes the uses of names in the order of the text. Resolved and unresolved uses are kept
in two forests of their own, each under the rules of a forest. A use that its forest refuses leaves
everything as it was.

The body of a declaration is its region in the directory of names, unless another directory gives
the bodies; then the body at a position is matched to the declared names by its name.
-/

namespace Gazetteer.CrossReference

/-- What became of a use. -/
inductive Outcome where
  /-- The name is declared; the use leads to `target` and stands in the body of `container`. -/
  | resolved (target : Nat) (container : Option Nat)
  /-- The name is not declared; this is unresolved use number `ordinal`. -/
  | unresolved (ordinal : Nat)
deriving DecidableEq

/-- A cross reference in the making. -/
structure Draft (κ : Type) where
  /-- The declared names. -/
  names : Directory κ
  /-- The bodies of the declarations, if they are not the regions of the names. -/
  bodies : Option (Directory κ)
  /-- The resolved uses so far. -/
  sites : Forest.Draft Nat
  /-- The unresolved uses so far. -/
  unresolved : Forest.Draft (Unresolved κ)
  /-- The edges so far. -/
  graph : Digraph

namespace Draft

variable {κ : Type}

/-- The draft without uses. -/
def start (names : Directory κ) (bodies : Option (Directory κ)) : Draft κ :=
  ⟨names, bodies, .empty, .empty, .empty names.size⟩

/-- The ordinal of the declaration in whose body `pos` lies. -/
def containerAt? (d : Draft κ) (pos : Offset) : Option Nat :=
  match d.bodies with
  | some bodies => (bodies.innermost? pos).bind fun body => d.names.indexOf? body.name
  | none => (d.names.innermost? pos).map (·.ordinal)

/-- The graph with an edge from the container of a use, if it has one, to its target. -/
def link (d : Draft κ) (container : Option Nat) (target : Nat) : Except Error Digraph :=
  match container with
  | some source => do
    let (_, graph) ← d.graph.addEdge source target
    return graph
  | none => .ok d.graph

/-- Records a use of a declared name. -/
def addResolved (d : Draft κ) (target : Nat) (span : Span) : Except Error (Outcome × Draft κ) := do
  let container := d.containerAt? span.start
  let sites ← d.sites.add (some target) span
  let graph ← d.link container target
  return (.resolved target container, { d with sites, graph })

/-- Records a use of a name that is not declared. -/
def addUnresolved (d : Draft κ) (name : String) (expected : Option κ) (span : Span) :
    Except Error (Outcome × Draft κ) := do
  let ordinal := d.unresolved.size
  let unresolved ←
    d.unresolved.add (some ⟨name, expected, ordinal, d.containerAt? span.start⟩) span
  return (.unresolved ordinal, { d with unresolved })

/-- Records a use of `name`, where the text calls for the kind `expected`. -/
def add (d : Draft κ) (name : String) (expected : Option κ) (span : Span) :
    Except Error (Outcome × Draft κ) :=
  match d.names.indexOf? name with
  | some target => d.addResolved target span
  | none => d.addUnresolved name expected span

/-- The sites of a forest, gathered by the ordinal that they lead to. -/
def gatherTargets (count : Nat) (sites : Forest Nat) : Array (List Nat) :=
  sites.rows.toList.zipIdx.foldl
    (fun groups (site, i) =>
      match site.key with
      | some target => groups.modify target (· ++ [i])
      | none => groups)
    (Array.replicate count [])

/-- The cross reference of all uses recorded. -/
def freeze (d : Draft κ) : CrossReference κ :=
  let sites := d.sites.freeze
  { names := d.names
    sites
    byTarget := gatherTargets d.names.size sites
    unresolved := d.unresolved.freeze
    graph := d.graph }

end Draft

end Gazetteer.CrossReference
