import Gazetteer.CrossReference.Basic
import Gazetteer.Directory.Similar
import Gazetteer.Forest.Lookup

/-!
# Asking a cross reference

Sites by name and by position, suggestions for unresolved uses, and the graph in terms of names.
A question about a name that is not declared has an empty answer, never an error.
-/

namespace Gazetteer.CrossReference

variable {κ : Type}

/-! ## Sites -/

/-- The sites that lead to `name`, in the order of the text. -/
def sitesOf (x : CrossReference κ) (name : String) : List Nat :=
  ((x.names.indexOf? name).bind fun target => x.byTarget[target]?).getD []

/-- The declaration that the site around `pos` leads to. -/
def targetAt? (x : CrossReference κ) (pos : Offset) : Option (Entry κ) := do
  let i ← x.sites.innermost? pos
  let site ← x.sites.get? i
  let target ← site.key
  x.names.entry? target

/-- The unresolved use around `pos`. -/
def unresolvedAt? (x : CrossReference κ) (pos : Offset) : Option (Unresolved κ) := do
  let i ← x.unresolved.innermost? pos
  let site ← x.unresolved.get? i
  site.key

/-- The unresolved use at an ordinal, or the refusal of one that is out of range. -/
def unresolvedUse (x : CrossReference κ) (ordinal : Nat) : Except Error (Unresolved κ) :=
  match (x.unresolved.get? ordinal).bind (·.key) with
  | some use => .ok use
  | none => .error (.indexOutOfRange ordinal x.unresolved.size)

/-- The `count` declared names nearest to the name of an unresolved use. If a kind is expected and
some name is of that kind, only names of that kind are suggested. -/
def suggestionsBy [DecidableEq κ] (distance : String → String → Nat) (x : CrossReference κ)
    (use : Unresolved κ) (count : Nat) : List (Entry κ) :=
  let ranked := x.names.similarBy distance use.name x.names.size
  match use.expected with
  | some kind =>
    if ranked.any (·.kind = kind) then (ranked.filter (·.kind = kind)).take count
    else ranked.take count
  | none => ranked.take count

/-- The `count` declared names most similar to the name of an unresolved use, by edit distance. -/
def suggestions [DecidableEq κ] (x : CrossReference κ) (use : Unresolved κ) (count : Nat) :
    List (Entry κ) :=
  x.suggestionsBy editDistance use count

/-! ## The graph, by name -/

/-- The entries at a set of ordinals. -/
def entriesIn (x : CrossReference κ) (ordinals : WordSet) : List (Entry κ) :=
  ordinals.toList.filterMap x.names.entry?

/-- The entries that a question about the node of `name` is answered with. -/
def askNode (x : CrossReference κ) (name : String) (ask : Nat → Except Error WordSet) :
    List (Entry κ) :=
  match (x.names.indexOf? name).map ask with
  | some (.ok ordinals) => x.entriesIn ordinals
  | _ => []

/-- The names used in the body of `name`. -/
def successors (x : CrossReference κ) (name : String) : List (Entry κ) :=
  x.askNode name x.graph.successors

/-- The names whose bodies use `name`. -/
def predecessors (x : CrossReference κ) (name : String) : List (Entry κ) :=
  x.askNode name x.graph.predecessors

/-- The names that `name` uses, directly or through others. -/
def descendants (x : CrossReference κ) (name : String) : List (Entry κ) :=
  x.askNode name x.graph.descendants

/-- The names that use `name`, directly or through others. -/
def ancestors (x : CrossReference κ) (name : String) : List (Entry κ) :=
  x.askNode name x.graph.ancestors

/-- `name` uses itself, directly or through others. -/
def isRecursive (x : CrossReference κ) (name : String) : Bool :=
  match (x.names.indexOf? name).map x.graph.isRecursive with
  | some (.ok answer) => answer
  | _ => false

/-- The declarations that no other one uses. -/
def roots (x : CrossReference κ) : List (Entry κ) := x.entriesIn x.graph.roots

/-- The declarations that use no other one. -/
def leaves (x : CrossReference κ) : List (Entry κ) := x.entriesIn x.graph.leaves

end Gazetteer.CrossReference
