import Gazetteer.Text.Offset

/-!
# Spans

A `Span` is a half-open stretch `start..stop` of a source text. A span need not be sound: the one
rule that every recorded span obeys, `start < stop`, is the predicate `Proper`, which callers
check before they record one.

Two proper spans **straddle** when they overlap and neither encloses the other. Forests never hold
straddling spans; directories may.
-/

namespace Gazetteer

/-- A half-open stretch of text. -/
structure Span where
  /-- The first position covered. -/
  start : Offset
  /-- One past the last position covered. -/
  stop : Offset
deriving DecidableEq

namespace Span

/-- The span covers at least one position. -/
def Proper (s : Span) : Prop := s.start < s.stop

/-- Position `p` lies in the span. -/
def Contains (s : Span) (p : Offset) : Prop := s.start ≤ p ∧ p < s.stop

/-- `inner` lies wholly inside `outer`. -/
def Encloses (outer inner : Span) : Prop := outer.start ≤ inner.start ∧ inner.stop ≤ outer.stop

instance (s : Span) : Decidable s.Proper := inferInstanceAs (Decidable (s.start < s.stop))

instance (s : Span) (p : Offset) : Decidable (s.Contains p) :=
  inferInstanceAs (Decidable (s.start ≤ p ∧ p < s.stop))

instance (outer inner : Span) : Decidable (outer.Encloses inner) :=
  inferInstanceAs (Decidable (outer.start ≤ inner.start ∧ inner.stop ≤ outer.stop))

/-- The span covers nothing. -/
def isEmpty (s : Span) : Bool := s.stop ≤ s.start

/-- The number of positions covered. -/
def length (s : Span) : Nat := s.stop.val - s.start.val

/-- The text `start..stop`. -/
def render (s : Span) : String := toString s.start.val ++ ".." ++ toString s.stop.val

end Span

end Gazetteer
