/-!
# Edit distance

`editDistance a b` is the least number of insertions, deletions and replacements of one character
that turn `a` into `b`. It is worked out row by row: a row holds the distances from one beginning
of `a` to all beginnings of `b`.
-/

namespace Gazetteer

/-- The rest of the next row for the character `c` of `a`, given `b`, the entries of the row above
from the current column on, and the entry to the left. -/
def distanceRow (c : Char) : List Char → (above : List Nat) → (left : Nat) → List Nat
  | x :: xs, diagonal :: straight :: above, left =>
    let here := min (min (left + 1) (straight + 1)) (diagonal + if c = x then 0 else 1)
    here :: distanceRow c xs (straight :: above) here
  | _, _, _ => []

/-- The row after `row` for the character `c`. -/
def nextDistances (b : List Char) (row : List Nat) (c : Char) : List Nat :=
  match row with
  | [] => []
  | first :: _ => (first + 1) :: distanceRow c b row (first + 1)

/-- The least number of one-character changes from `a` to `b`. -/
def editDistance (a b : String) : Nat :=
  let start := List.range (b.toList.length + 1)
  (a.toList.foldl (nextDistances b.toList) start).getLast?.getD 0

end Gazetteer
