import Gazetteer.Forest.Basic

/-!
# Auditing a forest

`audit` checks the rules of a forest row by row and reports the first breach. Each row is compared
with the row before it and with the row that it names as its parent.
-/

namespace Gazetteer.Forest

variable {κ : Type}

/-- How row `i` breaks the rule about parents. -/
def parentBreach? (f : Forest κ) (i : Nat) (r : Interval κ) : Option Error :=
  r.parent.bind fun p =>
    match f.get? p with
    | some q =>
      if p < i ∧ q.span.Encloses r.span then none
      else some (.outOfOrder r.span q.span .parentNotEnclosing)
    | none => some (.indexOutOfRange p f.size)

/-- How row `i`, which follows row `last`, breaks a rule. -/
def breachAfter? (f : Forest κ) (last : Span) (i : Nat) (r : Interval κ) : Option Error :=
  if r.span.start < last.start then some (.outOfOrder r.span last .startsNotSorted)
  else if r.span.start < last.stop ∧ last.stop < r.span.stop then
    some (.outOfOrder r.span last .straddlesPrevious)
  else f.parentBreach? i r

/-- How row `i` breaks a rule. -/
def breach? (f : Forest κ) (i : Nat) (r : Interval κ) : Option Error :=
  if r.span.Proper then
    match i with
    | 0 => none
    | j + 1 => (f.get? j).bind fun last => f.breachAfter? last.span i r
  else some (.emptySpan r.span)

/-- Reports the first row that breaks a rule. -/
def audit (f : Forest κ) : Except Error Unit :=
  match f.rows.toList.zipIdx.findSome? fun (r, i) => f.breach? i r with
  | some e => .error e
  | none => .ok ()

end Gazetteer.Forest
