import Gazetteer.Text.Span

/-!
# Nesting

What forests and position layouts share: how spans that come in order of their starts find the
spans around them.

* `stillOpen` drops from a stack of spans the ones that end before a position. What remains, if the
  stack was properly nested, is every span around that position, innermost first.
* `lineage` follows parent links outwards; `climb` looks along it for the first row that passes a
  test.
* `skipNested` keeps, of rows in order, the ones that do not start inside a row kept before.
-/

namespace Gazetteer

/-- A span at an index. -/
structure Placed where
  /-- The place of the span in its table. -/
  index : Nat
  /-- The span. -/
  span : Span
deriving DecidableEq

/-- The part of a stack of spans, innermost first, that is still open at `pos`. -/
def stillOpen (pos : Offset) (stack : List Placed) : List Placed :=
  stack.dropWhile fun o => o.span.stop ≤ pos

/-- `i`, its parent, the parent of that, and so on outwards.

A parent stands before its children, so a link that does not lead to a smaller index ends the
list. -/
def lineage (parent? : Nat → Option Nat) (i : Nat) : List Nat :=
  match parent? i with
  | some p => if p < i then i :: lineage parent? p else [i]
  | none => [i]
termination_by i

/-- The first row that passes `test` on the way outwards from the last of `count` rows. -/
def climb (parent? : Nat → Option Nat) (test : Nat → Bool) : (count : Nat) → Option Nat
  | 0 => none
  | last + 1 => (lineage parent? last).find? test

/-- The indices of the rows that start at or after `reach`, where every row kept moves `reach` to
its own end. -/
def skipNested (reach : Offset) : List Placed → List Nat
  | [] => []
  | row :: rest =>
    if reach ≤ row.span.start then row.index :: skipNested row.span.stop rest
    else skipNested reach rest

end Gazetteer
