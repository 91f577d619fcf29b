import Gazetteer.Error

/-!
# Edits

An `Edit` inserts or deletes text at one place, and says where every position of the text before
it lies after it. `mapStart` carries the first position of a span, `mapStop` the position one past
its last; the two differ only where text is inserted exactly at that position, which belongs to
the span that starts there and not to the one that stops there. Neither ever reorders two
positions, so spans that nest or lie apart still do so after an edit; they can only collapse.
-/

namespace Gazetteer

/-- An insertion (`delta > 0`) or deletion (`delta < 0`) of `|delta|` bytes at `offset`. -/
structure Edit where
  /-- Where the text changes. -/
  offset : Offset
  /-- By how many bytes it grows. -/
  delta : Int
deriving DecidableEq

namespace Edit

/-- The insertion of `len` bytes. -/
def insertion (offset len : Offset) : Edit := ⟨offset, len.val⟩

/-- The deletion of `len` bytes. -/
def deletion (offset len : Offset) : Edit := ⟨offset, -len.val⟩

/-- The largest position, beyond any text, at which a deletion may end: 2 ^ 63 - 1. -/
def farthestEnd : Int := 9223372036854775807

/-- One past the last position of the text that a deletion removes. -/
def deletedEnd (e : Edit) : Int := e.offset.val - e.delta

/-- `pos` moved along by the whole edit, if that is still a position. -/
def shift (e : Edit) (pos : Offset) : Except Error Offset :=
  match Offset.ofInt? (pos.val + e.delta) with
  | some moved => .ok moved
  | none => .error (.offsetOverflow pos e.delta)

/-- Where position `pos` lies after the edit.

What stands before the edit stays. An insertion moves the rest along, a deletion gathers the
positions it removes at its own offset. -/
def mapStart (e : Edit) (pos : Offset) : Except Error Offset :=
  if pos < e.offset ∨ e.delta = 0 then .ok pos
  else if 0 < e.delta then e.shift pos
  else if farthestEnd < e.deletedEnd then .error (.offsetOverflow pos e.delta)
  else if (pos.val : Int) < e.deletedEnd then .ok e.offset
  else e.shift pos

/-- Where the end of a span lies after the edit: a span that ends where text is inserted does not
grow. -/
def mapStop (e : Edit) (pos : Offset) : Except Error Offset :=
  if 0 < e.delta ∧ pos = e.offset then .ok pos else e.mapStart pos

/-- Where a span lies after the edit, `none` if nothing of it is left. -/
def mapSpan (e : Edit) (span : Span) : Except Error (Option Span) := do
  let start ← e.mapStart span.start
  let stop ← e.mapStop span.stop
  return if start < stop then some ⟨start, stop⟩ else none

end Edit

end Gazetteer
