import Gazetteer.Forest.Basic

/-!
# Walking a forest from both ends

A `Cursor` stands for the rows that have not been visited yet. It is moved from the front and from
the back, and is spent when the two ends meet.
-/

namespace Gazetteer

/-- The rows from `front` to before `back`. -/
structure Cursor where
  /-- The next row from the front. -/
  front : Nat
  /-- One past the next row from the back. -/
  back : Nat
deriving DecidableEq

namespace Cursor

/-- The number of rows not visited yet. -/
def remaining (c : Cursor) : Nat := c.back - c.front

/-- Visits the next row from the front. -/
def next (c : Cursor) : Option Nat × Cursor :=
  if c.front < c.back then (some c.front, { c with front := c.front + 1 }) else (none, c)

/-- Visits the next row from the back. -/
def nextBack (c : Cursor) : Option Nat × Cursor :=
  if c.front < c.back then (some (c.back - 1), { c with back := c.back - 1 }) else (none, c)

end Cursor

/-- A cursor over all rows. -/
def Forest.cursor {κ : Type} (f : Forest κ) : Cursor := ⟨0, f.size⟩

end Gazetteer
