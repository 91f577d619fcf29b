import Gazetteer.Directory.Draft
import Gazetteer.Directory.Layout
import Gazetteer.Runs
import Gazetteer.Text.Edit

/-!
# Directories made from directories

* `shadowed`: the directory that the duplicates alone would make.
* `without`: the directory without some names.
* `edit`: the directory after an edit of the text. Regions that collapse are dropped, and so is a
  region that lands exactly on another one that came before it in position order.
-/

namespace Gazetteer.Directory

variable {κ : Type}

/-- The directory of the duplicates: the best one of each name is primary. -/
def shadowed [Ranked κ] (d : Directory κ) : Directory κ :=
  let offers := d.duplicates.rows.flatMap fun (name, decls) => decls.map (name, ·)
  (offers.foldl (fun draft (name, decl) => draft.offer name decl) Draft.empty).freeze

/-- The directory without the given names and their duplicates. -/
def without (d : Directory κ) (removed : List String) : Directory κ :=
  .ofPrimaries
    ((d.entries.filter fun e => !removed.contains e.name).map fun e => (e.name, e.declaration))
    (d.duplicates.filterNames fun name => !removed.contains name)

/-! ## Edits -/

/-- What an edit leaves of an entry. -/
def editEntry (e : Edit) (x : Entry κ) : Except Error (Option (Entry κ)) := do
  return (← e.mapSpan x.span).map fun span => { x with span }

/-- What an edit leaves of a declaration. -/
def editDeclaration (e : Edit) (x : Declaration κ) : Except Error (Option (Declaration κ)) := do
  return (← e.mapSpan x.span).map fun span => { x with span }

/-- The order by region, then by rank among the entries. -/
def regionLE (a b : Entry κ × Nat) : Bool :=
  a.1.span.start < b.1.span.start ||
    (a.1.span.start = b.1.span.start &&
      (a.1.span.stop < b.1.span.stop || (a.1.span.stop = b.1.span.stop && a.2 ≤ b.2)))

/-- Of entries with the same region the first, the remaining entries by ordinal. -/
def dropCoinciding (entries : List (Entry κ)) : List (Entry κ) :=
  let distinct := firstOfRuns (·.1.span) (entries.zipIdx.mergeSort regionLE)
  (distinct.map (·.1)).mergeSort fun a b => a.ordinal ≤ b.ordinal

/-- What an edit leaves of a row of duplicates. -/
def editDuplicates (e : Edit) (row : String × List (Declaration κ)) :
    Except Error (String × List (Declaration κ)) := do
  return (row.1, (← row.2.mapM (editDeclaration e)).filterMap id)

/-- The directory after an edit. The primary regions are moved first, in position order, and then
the duplicates; the first that cannot be moved is the one reported. -/
def edit (d : Directory κ) (e : Edit) : Except Error (Directory κ) := do
  let moved := (← d.byPosition.mapM (editEntry e)).filterMap id
  let duplicates ← d.duplicates.rows.mapM (editDuplicates e)
  return .ofPrimaries ((dropCoinciding moved).map fun x => (x.name, x.declaration))
    ⟨duplicates.filter fun (_, decls) => !decls.isEmpty⟩

end Gazetteer.Directory
