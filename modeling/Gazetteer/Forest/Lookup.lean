import Gazetteer.Bisect
import Gazetteer.Forest.Basic

/-!
# Looking up positions

Questions about a position or a stretch of text. All of them begin with a bisection of the sorted
starts. The innermost row around a position is then found by climbing: if the last row that starts
at or before the position has already ended, so has everything between it and its parent.
-/

namespace Gazetteer.Forest

variable {κ : Type}

/-- The number of rows that start at or before `pos`. -/
def startedBy (f : Forest κ) (pos : Offset) : Nat :=
  bisect (fun i => (f.start? i).any (· ≤ pos)) 0 f.size

/-- The number of rows that start before `pos`. -/
def startedBefore (f : Forest κ) (pos : Offset) : Nat :=
  bisect (fun i => (f.start? i).any (· < pos)) 0 f.size

/-- The innermost row around `pos`. -/
def innermost? (f : Forest κ) (pos : Offset) : Option Nat :=
  climb f.parent? (fun i => (f.stop? i).any (pos < ·)) (f.startedBy pos)

/-- Every row around `pos`, innermost first. -/
def containing (f : Forest κ) (pos : Offset) : List Nat :=
  match f.innermost? pos with
  | some i => lineage f.parent? i
  | none => []

/-- The first row that starts exactly at `pos`. -/
def startingAt? (f : Forest κ) (pos : Offset) : Option Nat :=
  let i := f.startedBefore pos
  if f.start? i = some pos then some i else none

/-- The number of rows from the first on whose ends ascend. -/
def sortedEnds (f : Forest κ) : Nat := f.nestingBegins.getD f.size

/-- The first row that stops exactly at `pos`: by bisection among the rows before the first nested
one, else by a scan of the rest. -/
def endingAt? (f : Forest κ) (pos : Offset) : Option Nat :=
  let i := bisect (fun i => (f.stop? i).any (· < pos)) 0 f.sortedEnds
  if i < f.sortedEnds ∧ f.stop? i = some pos then some i
  else (List.range' f.sortedEnds (f.size - f.sortedEnds)).find? fun j => f.stop? j = some pos

/-- The rows that lie wholly inside `span`. -/
def within (f : Forest κ) (span : Span) : List Nat :=
  let first := f.startedBefore span.start
  (List.range' first (f.startedBefore span.stop - first)).filter fun i =>
    (f.stop? i).any (· ≤ span.stop)

end Gazetteer.Forest
