import Gazetteer.Proofs.Forest.Editing
import Gazetteer.Proofs.Text.Succession

/-!
# Editing a forest twice

Every edit drafts the forest anew, so two edits work out all parents twice. What they leave is
determined by the keys and spans alone (`WellFormed.eq_of_entries`), and these go where the edits
take them: edits that do the same to positions do the same to every forest (`edit_of_composes`).

* `edit_of_composes`: two edits that compose to a third make the forest that the third makes.
* `edit_of_splits`: an edit can be made in two steps.
* `edit_insertion_undone`: deleting what has been inserted gives the forest back.
-/

namespace Gazetteer.Forest

variable {κ : Type} {f g m : Forest κ} {first second whole : Edit}

/-! ## What determines a forest -/

/-- **A well-formed forest is determined by its keys and spans**: everything else is worked out
from them. -/
theorem WellFormed.eq_of_entries (hf : f.WellFormed) (hg : g.WellFormed)
    (h : f.entries = g.entries) : f = g := by
  have hspan : f.span? = g.span? := funext fun i => by
    rw [span?_eq_entries, span?_eq_entries, h]
  have hparent : f.parent? = g.parent? := funext fun j => Option.ext fun p => by
    rw [hf.parent_iff, hg.parent_iff, hspan]
  have hnesting : f.nestingBegins = g.nestingBegins := Option.ext fun n => by
    rw [hf.nestingBegins_iff, hg.nestingBegins_iff, hparent]
  have hrows : f.rows = g.rows := by
    have hsize : f.size = g.size := by rw [← length_entries, h, length_entries]
    refine Array.ext hsize fun i hi hi' => ?_
    have hq : f.get? i = some f.rows[i] := Array.getElem?_eq_getElem hi
    have hr : g.get? i = some g.rows[i] := Array.getElem?_eq_getElem hi'
    have hentry : f.entries[i]? = g.entries[i]? := by rw [h]
    have hlink : f.parent? i = g.parent? i := by rw [hparent]
    rw [entries_getElem?, entries_getElem?, hq, hr, Option.map_some, Option.map_some,
      Option.some.injEq, Prod.mk.injEq] at hentry
    rw [parent?, parent?, hq, hr, Option.bind_some, Option.bind_some] at hlink
    calc f.rows[i] = ⟨f.rows[i].span, f.rows[i].key, f.rows[i].parent⟩ := rfl
      _ = ⟨g.rows[i].span, g.rows[i].key, g.rows[i].parent⟩ := by
        rw [hentry.1, hentry.2, hlink]
  obtain ⟨rows, nestingBegins⟩ := f
  obtain ⟨rows', nestingBegins'⟩ := g
  exact congrArg₂ Forest.mk hrows hnesting

/-! ## Two edits -/

/-- What an edit leaves of a row is its key with what it leaves of its span. -/
theorem image?_eq_map_left? (e : Edit) (r : Interval κ) :
    r.image? e = (left? (e.mapSpan r.span)).map (r.key, ·) := by
  unfold Interval.image?
  cases e.mapSpan r.span with
  | error x => rfl
  | ok o => cases o <;> rfl

/-- **Edits that compose make the same forest.** -/
theorem edit_of_composes (h : Edit.Composes first second whole) (hf : f.WellFormed)
    (hfirst : f.edit first = .ok m) (hwhole : f.edit whole = .ok g) : m.edit second = .ok g := by
  have hm := leftBy_of_edit hf hfirst
  have hg := leftBy_of_edit hf hwhole
  -- what the first edit leaves is a row of `m`, and the second can move it where the whole does
  have hok : ∀ r ∈ m.rows.toList, ∃ o, second.mapSpan r.span = .ok o := by
    intro r hr
    have hentry : (r.key, r.span) ∈ m.entries := List.mem_map_of_mem hr
    rw [hm.entries_eq] at hentry
    obtain ⟨q, hq, himage⟩ := List.mem_filterMap.mp hentry
    obtain ⟨o, ho⟩ := hg.in_range q hq
    exact ⟨o, h.mapSpan_of_some (Interval.image?_eq_some_iff.mp himage).1 ho⟩
  obtain ⟨g', hedit, hwell, hentries⟩ := exists_edit_of_all_ok hm.after hok
  have himage : ∀ r ∈ f.rows.toList,
      ((r.image? first).bind fun c => (left? (second.mapSpan c.2)).map (c.1, ·)) =
        r.image? whole := by
    intro r hr
    obtain ⟨o₁, ho₁⟩ := hm.in_range r hr
    obtain ⟨o, ho⟩ := hg.in_range r hr
    rw [image?_eq_map_left?, image?_eq_map_left?, ← h.bind_left?_mapSpan ho₁ ho]
    cases left? (first.mapSpan r.span) <;> rfl
  have hsame : g'.entries = g.entries := by
    rw [hentries, funext (image?_eq_map_left? second), hg.entries_eq,
      ← List.filterMap_congr himage, ← List.filterMap_filterMap, ← hm.entries_eq, entries,
      List.filterMap_map]
    rfl
  rw [hedit, hwell.eq_of_entries hg.after hsame]

/-- **An edit can be made in two steps.** -/
theorem edit_of_splits (h : Edit.Splits whole first second) (hf : f.WellFormed)
    (hwhole : f.edit whole = .ok g) : (do (← f.edit first).edit second) = .ok g := by
  have hok : ∀ r ∈ f.rows.toList, ∃ o, first.mapSpan r.span = .ok o := by
    intro r hr
    obtain ⟨o, ho⟩ := (leftBy_of_edit hf hwhole).in_range r hr
    exact h.exists_mapSpan ho
  obtain ⟨m, hfirst, -⟩ := exists_edit_of_all_ok hf hok
  exact bind_eq_ok_iff.mpr ⟨m, hfirst, edit_of_composes h.toComposes hf hfirst hwhole⟩

/-! ## Undoing an insertion -/

/-- An edit that neither inserts nor deletes anything leaves a forest as it is. -/
theorem edit_zero (hf : f.WellFormed) (o : Offset) : f.edit ⟨o, 0⟩ = .ok f := by
  have hspan : ∀ r ∈ f.rows.toList, Edit.mapSpan ⟨o, 0⟩ r.span = .ok (some r.span) := fun r hr =>
    Edit.mapSpan_zero o (forall_span?_iff.mp (fun _ _ => hf.proper) r (Array.mem_toList_iff.mp hr))
  obtain ⟨g, hedit, hwell, hentries⟩ := exists_edit_of_all_ok hf fun r hr => ⟨_, hspan r hr⟩
  have hsame : g.entries = f.entries := by
    rw [hentries, entries, ← List.filterMap_eq_map]
    refine List.filterMap_congr fun r hr => ?_
    rw [image?_eq_map_left?, hspan r hr]
    rfl
  rw [hedit, hwell.eq_of_entries hf hsame]

/-- **Deleting what has just been inserted** gives the forest back, with all its keys, parents and
the place where nesting begins. -/
theorem edit_insertion_undone (calls : List (Option κ × Span)) (o len : Offset) (g : Forest κ)
    (hedit : (Draft.empty.offerAll calls).freeze.edit (.insertion o len) = .ok g) :
    g.edit (.deletion o len) = .ok (Draft.empty.offerAll calls).freeze := by
  have hf : (Draft.empty.offerAll calls).freeze.WellFormed :=
    (Draft.inv_empty.offerAll calls).wellFormed
  exact edit_of_composes (Edit.composes_undo o len) hf hedit (edit_zero hf o)

theorem edit_insertion_undone_at_touching :
    ∃ g : Forest Nat,
      let f := (Draft.empty.offerAll [(some 7, ⟨0, 10⟩), (none, ⟨2, 5⟩), (some 7, ⟨5, 8⟩)]).freeze
      f.edit (.insertion 5 3) = .ok g ∧
        g.rows = #[⟨⟨0, 13⟩, some 7, none⟩, ⟨⟨2, 5⟩, none, some 0⟩, ⟨⟨8, 11⟩, some 7, some 0⟩] ∧
        g.edit (.deletion 5 3) = .ok f := by
  -- text is inserted inside the first row, where the second stops and the third starts
  let g : Forest Nat :=
    { rows := #[⟨⟨0, 13⟩, some 7, none⟩, ⟨⟨2, 5⟩, none, some 0⟩, ⟨⟨8, 11⟩, some 7, some 0⟩]
      nestingBegins := some 1 }
  have hedit : (Draft.empty.offerAll [(some 7, ⟨0, 10⟩), (none, ⟨2, 5⟩),
      (some 7, ⟨5, 8⟩)]).freeze.edit (.insertion 5 3) = .ok g := by decide
  exact ⟨g, hedit, rfl, edit_insertion_undone _ 5 3 g hedit⟩

end Gazetteer.Forest
