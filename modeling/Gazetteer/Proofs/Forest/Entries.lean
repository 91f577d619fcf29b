import Gazetteer.Proofs.Column
import Gazetteer.Proofs.Forest.Lookup
import Gazetteer.Proofs.Forest.Rebuilding

/-!
# What is found in a forest, read off its entries

Lookups answer with the index of a row. What the row says, its key and its span, is what a scan of
the entries finds: the last entry around a position (`getLast?_entries`), the first entry that
starts at it (`find?_entries_start`).
-/

namespace Gazetteer.Forest

variable {κ : Type} {f : Forest κ}

theorem any_start?_eq (f : Forest κ) (test : Offset → Bool) (i : Nat) :
    (f.start? i).any test = f.entries[i]?.any fun x => test x.2.start := by
  rw [entries_getElem?, start?]
  cases f.get? i <;> rfl

theorem lt_size_of_startingAt? {pos : Offset} {i : Nat} (hi : f.startingAt? pos = some i) :
    i < f.size := by
  obtain ⟨hstart, rfl⟩ : f.start? (f.startedBefore pos) = some pos ∧ f.startedBefore pos = i := by
    simpa [startingAt?] using hi
  obtain ⟨s, hs, -⟩ := start?_eq_some_iff.mp hstart
  exact lt_size_of_span? hs

namespace WellFormed

variable (h : f.WellFormed) (pos : Offset)

include h

/-- The last entry around a position is that of the innermost row. -/
theorem getLast?_entries :
    (f.entries.filter fun x => x.2.Contains pos).getLast? =
      (f.innermost? pos).bind (f.entries[·]?) := by
  refine getLast?_filter_eq_bind fun i => ?_
  rw [h.innermost?_eq_some_iff, h.innermost_iff]
  have hplaces : {j | Covers f.span? pos j} = PlacesOf f.entries fun x => x.2.Contains pos := by
    ext j
    simp [Covers, PlacesOf, span?, entries_getElem?]
  rw [hplaces]

/-- The first entry that starts at a position is that of the row found there. -/
theorem find?_entries_start :
    f.entries.find? (fun x => x.2.start = pos) = (f.startingAt? pos).bind (f.entries[·]?) := by
  have hstarts : f.entries.Pairwise fun a b => a.2.start ≤ b.2.start :=
    List.pairwise_map.mpr (h.rows_admit.imp fun hqr => hqr.1)
  have hplace : f.startedBefore pos =
      bisect (fun i => f.entries[i]?.any (·.2.start < pos)) 0 f.entries.length := by
    rw [length_entries, startedBefore, funext (f.any_start?_eq (· < pos))]
  rw [find?_eq_bisect hstarts pos, ← hplace, startingAt?, start?, entries_getElem?]
  cases hrow : f.get? (f.startedBefore pos) with
  | none => rfl
  | some r =>
    by_cases hr : r.span.start = pos
    · simp [hr, entries_getElem?, hrow]
    · simp [hr]

theorem lt_size_of_innermost? {i : Nat} (hi : f.innermost? pos = some i) : i < f.size := by
  obtain ⟨s, hs, -⟩ := (h.innermost?_eq_some_iff.mp hi).1
  exact lt_size_of_span? hs

end WellFormed

end Gazetteer.Forest
