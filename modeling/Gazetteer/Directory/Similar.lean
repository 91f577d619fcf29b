import Gazetteer.Directory.Basic
import Gazetteer.Text.Distance

/-!
# Similar names

The names of a directory ranked by their distance from a given one, for "did you mean" messages.
The ranking works with any measure of distance; names are ranked by their edit distance.
-/

namespace Gazetteer.Directory

variable {κ : Type} (distance : String → String → Nat)

/-- The ranking order: by distance, then by ordinal. -/
def rankLE (a b : Nat × Nat) : Bool := a.1 < b.1 || (a.1 = b.1 && a.2 ≤ b.2)

/-- All ordinals with their distances from `name`, nearest first. -/
def rankingBy (d : Directory κ) (name : String) : List (Nat × Nat) :=
  (d.names.zipIdx.map fun (n, i) => (distance name n, i)).mergeSort rankLE

/-- All entries, nearest to `name` first. -/
def rankedBy (d : Directory κ) (name : String) : List (Entry κ) :=
  (d.rankingBy distance name).filterMap fun (_, i) => d.entry? i

/-- The `count` entries nearest to `name`; of names at the same distance the lesser comes first. -/
def similarBy (d : Directory κ) (name : String) (count : Nat) : List (Entry κ) :=
  (d.rankedBy distance name).take count

/-- The `count` entries with the least edit distance from `name`. -/
def similar (d : Directory κ) (name : String) (count : Nat) : List (Entry κ) :=
  d.similarBy editDistance name count

end Gazetteer.Directory
