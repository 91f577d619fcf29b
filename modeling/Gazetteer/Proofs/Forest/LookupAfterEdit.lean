import Gazetteer.Proofs.Forest.Editing
import Gazetteer.Proofs.Forest.Lookup

/-!
# Looking up a position after an edit

A position whose text is kept moves with the text, and with it move the rows around it: what lies
around the moved position is what is left of the rows that lay around the old one
(`LeftBy.covers_iff`). So it makes no difference whether a forest is edited first and asked then,
or asked first.
-/

namespace Gazetteer.Forest

variable {κ : Type} {f g : Forest κ} {e : Edit} {pos q : Offset}

namespace LeftBy

/-- Something is left of every row around a position that is kept, and it lies around the position
that this one is moved to. -/
theorem exists_image?_of_covers (h : LeftBy e f g) (hpos : e.Keeps pos)
    (hq : e.mapStart pos = .ok q) {i : Nat} (hi : Covers f.span? pos i) :
    ∃ c, f.image? e i = some c ∧ c.2.Contains q := by
  obtain ⟨s, hs, hc⟩ := hi
  obtain ⟨r, hr, rfl⟩ := span?_eq_some_iff.mp hs
  obtain ⟨o, ho⟩ := h.in_range r (Array.mem_toList_iff.mpr (Array.mem_of_getElem? hr))
  obtain ⟨t, rfl, ht⟩ := (Edit.contains_of_mapSpan_iff hpos hq ho).mpr hc
  exact ⟨(r.key, t), image?_of_get? hr ho, ht⟩

/-- **The rows around a moved position** are what is left of the rows around the old one. -/
theorem covers_iff (h : LeftBy e f g) (hpos : e.Keeps pos) (hq : e.mapStart pos = .ok q)
    (k : Nat) : Covers g.span? q k ↔ ∃ i, Covers f.span? pos i ∧ f.placeAfter e i = k := by
  constructor
  · rintro ⟨t, ht, hc⟩
    obtain ⟨i, c, hi, rfl⟩ := h.exists_placeAfter ht
    obtain ⟨s, hs, hmap⟩ := span?_of_image? hi
    obtain rfl : c.2 = t := Option.some.inj ((h.span?_placeAfter hi).symm.trans ht)
    exact ⟨i, ⟨s, hs, (Edit.contains_of_mapSpan_iff hpos hq hmap).mp ⟨c.2, rfl, hc⟩⟩, rfl⟩
  · rintro ⟨i, hi, rfl⟩
    obtain ⟨c, hc, hcq⟩ := h.exists_image?_of_covers hpos hq hi
    exact ⟨c.2, h.span?_placeAfter hc, hcq⟩

/-- Listing the rows around a position commutes with an edit. -/
theorem containing_eq_map (h : LeftBy e f g) (hpos : e.Keeps pos) (hq : e.mapStart pos = .ok q) :
    g.containing q = (f.containing pos).map (f.placeAfter e) := by
  have hdesc : ((f.containing pos).map (f.placeAfter e)).Pairwise fun a b => b < a := by
    rw [h.before.containing_eq_scan, List.pairwise_map]
    refine (f.scan_descending pos).imp_of_mem fun {a b} _ hb hlt => ?_
    obtain ⟨c, hc, -⟩ := h.exists_image?_of_covers hpos hq (mem_scan.mp hb)
    exact (placeAfter_lt_iff hc).mpr hlt
  have hdesc' : (g.containing q).Pairwise fun a b => b < a := by
    rw [h.after.containing_eq_scan]
    exact g.scan_descending q
  refine List.Pairwise.eq_of_mem_iff hdesc' hdesc fun k => ?_
  rw [h.after.mem_containing, h.covers_iff hpos hq, List.mem_map]
  exact exists_congr fun i => and_congr_left' h.before.mem_containing.symm

/-- **Looking up a position commutes with an edit.** -/
theorem innermost?_eq_map (h : LeftBy e f g) (hpos : e.Keeps pos) (hq : e.mapStart pos = .ok q) :
    g.innermost? q = (f.innermost? pos).map (f.placeAfter e) := by
  rw [← head?_containing, ← head?_containing, h.containing_eq_map hpos hq, List.head?_map]

end LeftBy

/-- **Lookup commutes with editing**, in every forest that is drafted, for every edit that succeeds
and every position whose text it keeps:

* the rows around the moved position are what is left of the rows around the old one, listed in the
  same order;
* the innermost row around the moved position is what is left of the innermost row around the old
  one, and there is none iff there was none;
* what is left of a row stands at the number of rows before it of which something is left, with its
  new span and its old key. -/
theorem lookup_edit_commutes (calls : List (Option κ × Span))
    (hg : (Draft.empty.offerAll calls).freeze.edit e = .ok g) (hpos : e.Keeps pos)
    (hq : e.mapStart pos = .ok q) :
    let f := (Draft.empty.offerAll calls).freeze
    (∀ k, Covers g.span? q k ↔ ∃ i, Covers f.span? pos i ∧ f.placeAfter e i = k) ∧
    g.containing q = (f.containing pos).map (f.placeAfter e) ∧
    g.innermost? q = (f.innermost? pos).map (f.placeAfter e) ∧
    (g.innermost? q = none ↔ f.innermost? pos = none) ∧
    ∀ i, Covers f.span? pos i → ∃ r s, f.get? i = some r ∧ e.mapSpan r.span = .ok (some s) ∧
      ∃ r', g.get? (f.placeAfter e i) = some r' ∧ r'.span = s ∧ r'.key = r.key := by
  intro f
  have hleft : LeftBy e f g := leftBy_of_edit (Draft.inv_empty.offerAll calls).wellFormed hg
  have hinnermost := hleft.innermost?_eq_map hpos hq
  refine ⟨hleft.covers_iff hpos hq, hleft.containing_eq_map hpos hq, hinnermost, ?_,
    fun i hi => ?_⟩
  · rw [hinnermost, Option.map_eq_none_iff]
  · obtain ⟨c, hc, -⟩ := hleft.exists_image?_of_covers hpos hq hi
    obtain ⟨r, hr, himage⟩ := Option.bind_eq_some_iff.mp hc
    obtain ⟨hmap, -⟩ := Interval.image?_eq_some_iff.mp himage
    exact ⟨r, c.2, hr, hmap, _, hleft.get?_placeAfter hr hmap, rfl, rfl⟩

theorem lookup_edit_commutes_after_deletion :
    ∃ f g : Forest Nat, ∃ e : Edit, f.edit e = .ok g ∧ e.Keeps 12 ∧ e.mapStart 12 = .ok 5 ∧
      f.containing 12 = [4, 3, 0] ∧ g.containing 5 = [3, 2, 0] ∧
      g.innermost? 5 = (f.innermost? 12).map (f.placeAfter e) := by
  -- seven bytes are deleted: the third row collapses, the second and the fourth lose an end
  let calls : List (Option Nat × Span) :=
    [(some 1, ⟨0, 30⟩), (some 2, ⟨4, 8⟩), (some 3, ⟨6, 8⟩), (some 4, ⟨10, 20⟩), (none, ⟨12, 14⟩)]
  let e : Edit := .deletion 5 7
  obtain ⟨g, hg⟩ : ∃ g, (Draft.empty.offerAll calls).freeze.edit e = .ok g := ⟨_, rfl⟩
  have hpos : e.Keeps 12 := by decide
  have hq : e.mapStart 12 = .ok 5 := by decide
  obtain ⟨-, hcontaining, hinnermost, -, -⟩ := lookup_edit_commutes calls hg hpos hq
  have hbefore : (Draft.empty.offerAll calls).freeze.containing 12 = [4, 3, 0] := by decide +kernel
  refine ⟨_, g, e, hg, hpos, hq, hbefore, ?_, hinnermost⟩
  rw [hcontaining, hbefore]
  decide

end Gazetteer.Forest
