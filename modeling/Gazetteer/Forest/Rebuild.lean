import Gazetteer.Forest.Draft
import Gazetteer.Text.Edit

/-!
# Forests made from forests

Both operations draft a new forest from the rows of an old one, so the parents and
`nestingBegins` of the result are worked out afresh.
-/

namespace Gazetteer.Forest

variable {κ : Type}

/-- The forest of the rows that `keep` accepts, given each with its index. -/
def retain (f : Forest κ) (keep : Nat → Interval κ → Bool) : Forest κ :=
  let kept := f.rows.toList.zipIdx.filter fun (r, i) => keep i r
  (kept.foldl (fun d (r, _) => d.offer r.key r.span) Draft.empty).freeze

/-- Adds what an edit leaves of a row. -/
def Draft.addEdited (e : Edit) (d : Draft κ) (r : Interval κ) : Except Error (Draft κ) := do
  match ← e.mapSpan r.span with
  | some span => d.add r.key span
  | none => return d

/-- The forest after an edit of the text, without the rows of which nothing is left. -/
def edit (f : Forest κ) (e : Edit) : Except Error (Forest κ) := do
  let d ← f.rows.toList.foldlM (Draft.addEdited e) Draft.empty
  return d.freeze

end Gazetteer.Forest
