import Gazetteer.Forest.Basic
import Std.Data.TreeMap

/-!
# Finding rows by key

A `KeyTable` leads from a property of the keys of a forest to the rows. Where two rows have the
same property the first one stays, and the other is counted as a collision.
-/

namespace Gazetteer

/-- Rows by a property of their keys. -/
structure KeyTable (β : Type) [Ord β] where
  /-- The row for each value of the property. -/
  byKey : Std.TreeMap β Nat compare
  /-- The number of rows left out because their value was taken. -/
  collisions : Nat

namespace KeyTable

variable {β : Type} [Ord β]

/-- The table without entries. -/
def empty : KeyTable β := ⟨∅, 0⟩

/-- Records row `i` under `b`, unless `b` is taken. -/
def insert (t : KeyTable β) (b : β) (i : Nat) : KeyTable β :=
  if t.byKey.contains b then { t with collisions := t.collisions + 1 }
  else { t with byKey := t.byKey.insert b i }

/-- The row recorded under `b`. -/
def get? (t : KeyTable β) (b : β) : Option Nat := t.byKey[b]?

/-- Some row is recorded under `b`. -/
def contains (t : KeyTable β) (b : β) : Bool := t.byKey.contains b

/-- The number of rows recorded. -/
def size (t : KeyTable β) : Nat := t.byKey.size

/-- No row is recorded. -/
def isEmpty (t : KeyTable β) : Bool := t.byKey.isEmpty

/-- The entries, by ascending value. -/
def toList (t : KeyTable β) : List (β × Nat) := t.byKey.toList

end KeyTable

/-- The rows of a forest by the property `project` of their keys; rows without a key are left
out. -/
def Forest.keyTable {κ β : Type} [Ord β] (f : Forest κ) (project : κ → β) : KeyTable β :=
  f.rows.toList.zipIdx.foldl
    (fun t (r, i) =>
      match r.key with
      | some k => t.insert (project k) i
      | none => t)
    KeyTable.empty

end Gazetteer
