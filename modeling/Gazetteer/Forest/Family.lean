import Gazetteer.Forest.Basic

/-!
# Rows around and inside a row

Outwards, a row's relatives are its `lineage`. Inwards, they are found without parent links: after
a child, everything that starts before the child ends lies deeper and is skipped.
-/

namespace Gazetteer.Forest

variable {κ : Type}

/-- The number of rows around row `i`; an index out of range has none. -/
def depth (f : Forest κ) (i : Nat) : Nat := (lineage f.parent? i).length - 1

/-- Row `i` lies in no other row. -/
def isTopLevel (f : Forest κ) (i : Nat) : Bool := (f.parent? i).isNone

/-- The outermost row around row `i`, which may be `i` itself. -/
def outermost? (f : Forest κ) (i : Nat) : Option Nat :=
  if i < f.size then (lineage f.parent? i).getLast? else none

/-- The rows exactly one level inside row `i`. -/
def children (f : Forest κ) (i : Nat) : List Nat :=
  match f.stop? i with
  | some stop => skipNested 0 ((f.placed.drop (i + 1)).takeWhile fun p => p.span.start < stop)
  | none => []

/-- The rows that lie in no other row. -/
def topLevel (f : Forest κ) : List Nat := skipNested 0 f.placed

end Gazetteer.Forest
