import Gazetteer.Error
import Gazetteer.Nesting

/-!
# Forests of spans

A `Forest` is a table of spans that nest: rows come in the order in which a walk over the text
meets them, an enclosing span before everything inside it. Of any two rows, either one encloses
the other or they lie apart.

Every row knows its **parent**, the innermost row around it. `nestingBegins` is the first row that
has one; the rows before it lie apart, so their ends ascend as well as their starts.

Forests are made by `Forest.Draft`, which refuses whatever would break these rules.
-/

namespace Gazetteer

/-- A row of a forest. -/
structure Interval (κ : Type) where
  /-- The text covered. -/
  span : Span
  /-- What the row is about, if anything. -/
  key : Option κ
  /-- The innermost row around this one. -/
  parent : Option Nat
deriving DecidableEq

/-- A table of nested spans. -/
structure Forest (κ : Type) where
  /-- The rows, enclosing ones first. -/
  rows : Array (Interval κ)
  /-- The first row that has a parent. -/
  nestingBegins : Option Nat
deriving DecidableEq

namespace Forest

variable {κ : Type}

/-- The number of rows. -/
def size (f : Forest κ) : Nat := f.rows.size

/-- The forest has no rows. -/
def isEmpty (f : Forest κ) : Bool := f.size == 0

/-- Some row lies inside another. -/
def hasNesting (f : Forest κ) : Bool := f.nestingBegins.isSome

/-- Row `i`. -/
def get? (f : Forest κ) (i : Nat) : Option (Interval κ) := f.rows[i]?

/-- Row `i`, or the refusal of an index that is out of range. -/
def row (f : Forest κ) (i : Nat) : Except Error (Interval κ) :=
  match f.get? i with
  | some r => .ok r
  | none => .error (.indexOutOfRange i f.size)

/-- The index of the first row. -/
def first? (f : Forest κ) : Option Nat := if f.isEmpty then none else some 0

/-- The index of the last row. -/
def last? (f : Forest κ) : Option Nat := if f.isEmpty then none else some (f.size - 1)

/-- Where row `i` starts. -/
def start? (f : Forest κ) (i : Nat) : Option Offset := (f.get? i).map (·.span.start)

/-- Where row `i` stops. -/
def stop? (f : Forest κ) (i : Nat) : Option Offset := (f.get? i).map (·.span.stop)

/-- The parent of row `i`. -/
def parent? (f : Forest κ) (i : Nat) : Option Nat := (f.get? i).bind (·.parent)

/-- The rows with their indices. -/
def placed (f : Forest κ) : List Placed := f.rows.toList.zipIdx.map fun (r, i) => ⟨i, r.span⟩

/-- The keys of the rows that have one, in order. -/
def keys (f : Forest κ) : List κ := f.rows.toList.filterMap (·.key)

end Forest

end Gazetteer
