import Gazetteer.Forest.Basic

/-!
# Drafting a forest

A `Draft` takes spans one at a time. It keeps, next to the rows, the stack of spans that the next
one may lie in (`pending`, innermost first). A span is refused, and the draft stays as it is, when

1. it covers nothing,
2. it starts before the last span that was accepted, or
3. it starts inside a span that is still open and ends after it.

The stack is all that is compared with: what has been dropped from it ends at or before the last
start, so no later span can start inside it.
-/

namespace Gazetteer.Forest

/-- A forest in the making. -/
structure Draft (κ : Type) where
  /-- The rows accepted so far. -/
  rows : Array (Interval κ)
  /-- The rows that the next one may lie in, innermost first. -/
  pending : List Placed
  /-- The first row that has a parent. -/
  nestingBegins : Option Nat
deriving DecidableEq

namespace Draft

variable {κ : Type}

/-- The draft without rows. -/
def empty : Draft κ := ⟨#[], [], none⟩

/-- The number of rows accepted. -/
def size (d : Draft κ) : Nat := d.rows.size

/-- Nothing has been accepted. -/
def isEmpty (d : Draft κ) : Bool := d.size == 0

/-- The span accepted last. -/
def last? (d : Draft κ) : Option Span := d.rows.back?.map (·.span)

/-- The open rows around position `pos`, innermost first. -/
def scope (d : Draft κ) (pos : Offset) : List Placed := stillOpen pos d.pending

/-- Why `span` would cross the end of the innermost open row around its start, if it would. -/
def crossing? (d : Draft κ) (span : Span) : Option Error :=
  match d.scope span.start with
  | around :: _ =>
    if around.span.stop < span.stop then
      some (.outOfOrder span around.span .straddlesEnclosing)
    else none
  | [] => none

/-- Why `span` cannot be the next row, if it cannot. -/
def objection? (d : Draft κ) (span : Span) : Option Error :=
  if span.Proper then
    match d.last? with
    | some last =>
      if span.start < last.start then some (.outOfOrder span last .precedesPrevious)
      else d.crossing? span
    | none => d.crossing? span
  else some (.emptySpan span)

/-- The draft with one more row, whose parent is the innermost open row around its start. -/
def push (d : Draft κ) (key : Option κ) (span : Span) : Draft κ :=
  let around := d.scope span.start
  let parent := around.head?.map (·.index)
  { rows := d.rows.push ⟨span, key, parent⟩
    pending := ⟨d.size, span⟩ :: around
    nestingBegins := d.nestingBegins.or (parent.map fun _ => d.size) }

/-- Adds a row at index `d.size`, or says why not. -/
def add (d : Draft κ) (key : Option κ) (span : Span) : Except Error (Draft κ) :=
  match d.objection? span with
  | some e => .error e
  | none => .ok (d.push key span)

/-- Adds a row if it can be added. -/
def offer (d : Draft κ) (key : Option κ) (span : Span) : Draft κ :=
  match d.add key span with
  | .ok d' => d'
  | .error _ => d

/-- The forest of the rows accepted. -/
def freeze (d : Draft κ) : Forest κ := ⟨d.rows, d.nestingBegins⟩

end Draft

/-- The forest without rows. -/
def empty {κ : Type} : Forest κ := Draft.empty.freeze

end Gazetteer.Forest
