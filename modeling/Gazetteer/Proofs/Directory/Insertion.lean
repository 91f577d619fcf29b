import Gazetteer.Proofs.Directory.Editing
import Mathlib

/-!
# Insertions, and names that coincide

An insertion makes no region collapse and moves no two regions to the same place, so it should lose
no name. But entries that coincide are dropped after every edit, whether or not the edit has brought
them together, and two names may be declared with the same region to begin with. Of such names only
the first is kept (`survives_iff_of_nonneg`); an insertion loses no name iff there are none
(`names_insertion_eq_iff`).
-/

namespace Gazetteer.Directory

variable {κ : Type} {d d' : Directory κ} {e : Edit}

/-- An edit that does not fail has moved all regions. -/
theorem exists_mapSpan_of_edit (hedit : d.edit e = .ok d') {s : Span} (hs : s ∈ d.regions) :
    ∃ o, e.mapSpan s = .ok o := by
  cases hmap : e.mapSpan s with
  | ok o => exact ⟨o, rfl⟩
  | error x =>
    obtain ⟨y, hy⟩ := exists_edit_eq_error_iff.mpr ⟨s, hs, x, hmap⟩
    rw [hedit] at hy
    exact absurd hy (by simp)

/-- In position order, entries with the same region come by ordinal. -/
theorem precedes_iff_of_span_eq {x y : Entry κ} (hspan : y.span = x.span) :
    y.placed.Precedes x.placed ↔ y.ordinal < x.ordinal := by
  simp [Placed.Precedes, Entry.placed, hspan]

/-- **What an insertion leaves of a name** is where its region lands, unless a name before it has
the same region. -/
theorem survives_iff_of_nonneg (hdelta : 0 ≤ e.delta) {x : Entry κ} {s : Span} :
    d.Survives e x s ↔ e.mapSpan x.span = .ok (some s) ∧
      ∀ y ∈ d.entries, y.span = x.span → x.ordinal ≤ y.ordinal := by
  refine and_congr_right fun hs => forall₂_congr fun y hy => ?_
  constructor
  · intro h hspan
    by_contra hlt
    exact h ((precedes_iff_of_span_eq hspan).mpr (not_le.mp hlt)) (hspan ▸ hs)
  · intro h hbefore hy
    have hspan : y.span = x.span := Edit.eq_of_mapSpan hdelta hy hs
    exact absurd (h hspan) (not_le.mpr ((precedes_iff_of_span_eq hspan).mp hbefore))

namespace WellFormed

variable (h : d.WellFormed) (hdelta : 0 ≤ e.delta) (hedit : d.edit e = .ok d')

include h hdelta hedit

/-- Every region lands somewhere. -/
theorem exists_image_of_nonneg {x : Entry κ} (hx : x ∈ d.entries) :
    ∃ s, e.mapSpan x.span = .ok (some s) := by
  obtain ⟨o, ho⟩ := exists_mapSpan_of_edit hedit (mem_regions.mpr (Or.inl ⟨x, hx, rfl⟩))
  obtain ⟨s, rfl⟩ := Edit.exists_mapSpan_eq_some hdelta (h.proper_of_mem_entries hx) ho
  exact ⟨s, ho⟩

/-- A name is lost iff a name before it has the same region. -/
theorem contains_insertion_iff {x : Entry κ} (hx : x ∈ d.entries) :
    d'.contains x.name = true ↔ ∀ y ∈ d.entries, y.span = x.span → x.ordinal ≤ y.ordinal := by
  have hfind : d.find? x.name = some x := h.find?_eq_some_iff.mpr ⟨mem_entries.mp hx, rfl⟩
  rw [h.contains_edit_iff hedit, hfind]
  simp only [Option.some.injEq, exists_eq_left', survives_iff_of_nonneg hdelta]
  rw [exists_and_right]
  exact and_iff_right (h.exists_image_of_nonneg hdelta hedit hx)

/-- No name is lost iff no two names have the same region. -/
theorem names_insertion_eq_names_iff : d'.names = d.names ↔ (d.entries.map (·.span)).Nodup := by
  have hwell : d'.WellFormed := h.edit hedit
  have hcontains := fun {x} => h.contains_insertion_iff hdelta hedit (x := x)
  constructor
  · intro hnames
    have hfirst : ∀ x ∈ d.entries, ∀ y ∈ d.entries, y.span = x.span → x.ordinal ≤ y.ordinal := by
      intro x hx
      refine (hcontains hx).mp (hwell.contains_iff.mpr ?_)
      rw [hnames]
      exact List.mem_of_getElem? (entry?_eq_some (mem_entries.mp hx)).2
    refine List.Nodup.map_on (fun x hx y hy hspan => ?_) (d.pairwise_entries.imp ?_)
    · have hordinal : x.ordinal = y.ordinal :=
        le_antisymm (hfirst x hx y hy hspan.symm) (hfirst y hy x hx hspan)
      rw [mem_entries] at hx hy
      rw [hordinal, hy] at hx
      exact (Option.some.inj hx).symm
    · rintro a b hlt rfl
      exact lt_irrefl _ hlt
  · intro hspans
    refine List.Pairwise.eq_of_mem_iff hwell.ascending h.ascending fun name => ?_
    refine ⟨fun hname => (h.names_edit_sublist hedit).subset hname, fun hname => ?_⟩
    obtain ⟨x, hx, -, rfl⟩ := h.exists_find?_of_mem hname
    refine hwell.contains_iff.mp ((hcontains hx).mpr fun y hy hspan => ?_)
    exact (congrArg Entry.ordinal (List.inj_on_of_nodup_map hspans hy hx hspan)).ge

end WellFormed

/-- **When an insertion loses no name.** Nothing collapses, and whatever is kept has its kind and
the region where it landed. But a name is kept only if no name before it has the same region, so
the names are all there iff no two of them have the same region. -/
theorem names_insertion_eq_iff [Ranked κ] (requests : List (Draft.Request κ)) (e : Edit)
    (d' : Directory κ) (hdelta : 0 ≤ e.delta)
    (hedit : (Draft.empty.submitAll requests).freeze.edit e = .ok d') :
    let d := (Draft.empty.submitAll requests).freeze
    (∀ x ∈ d.entries, ∃ s, e.mapSpan x.span = .ok (some s)) ∧
    (∀ name x', d'.find? name = some x' → ∃ x, d.find? name = some x ∧ x'.kind = x.kind ∧
      e.mapSpan x.span = .ok (some x'.span)) ∧
    (∀ x ∈ d.entries, d'.contains x.name = true ↔
      ∀ y ∈ d.entries, y.span = x.span → x.ordinal ≤ y.ordinal) ∧
    (d'.names = d.names ↔ (d.entries.map (·.span)).Nodup) := by
  intro d
  have hwell : d.WellFormed := (Draft.sound_submitAll requests).freeze_wellFormed
  refine ⟨fun x hx => hwell.exists_image_of_nonneg hdelta hedit hx, fun name x' hx' => ?_,
    fun x hx => hwell.contains_insertion_iff hdelta hedit hx,
    hwell.names_insertion_eq_names_iff hdelta hedit⟩
  obtain ⟨x, hx, hkind, hs⟩ := (hwell.find?_edit_iff hedit).mp (congrArg (Option.map _) hx')
  exact ⟨x, hx, hkind, hs.1⟩

theorem names_insertion_eq_of_nested :
    ∃ d d' : Directory Kind, (0 : Int) ≤ 3 ∧ d.edit ⟨5, 3⟩ = .ok d' ∧
      d.entries.map (·.span) = [⟨0, 9⟩, ⟨0, 5⟩, ⟨5, 9⟩] ∧ (d.entries.map (·.span)).Nodup ∧
      d'.entries.map (·.span) = [⟨0, 12⟩, ⟨0, 5⟩, ⟨8, 12⟩] ∧ d'.names = d.names := by
  -- text is inserted inside the first region, at the end of the second and before the third
  let requests : List (Draft.Request Kind) :=
    [.add "a" ⟨.parserRule, ⟨0, 9⟩⟩, .add "b" ⟨.lexerRule, ⟨0, 5⟩⟩,
      .add "c" ⟨.parserRule, ⟨5, 9⟩⟩]
  let d' : Directory Kind :=
    { headings := #[⟨"a", .parserRule, 0⟩, ⟨"b", .lexerRule, 0⟩, ⟨"c", .parserRule, 8⟩]
      stops := some #[12, 5, 12]
      duplicates := .empty }
  have hdelta : (0 : Int) ≤ 3 := by decide
  have hedit : (Draft.empty.submitAll requests).freeze.edit ⟨5, 3⟩ = .ok d' := by cbv
  have hspans : (Draft.empty.submitAll requests).freeze.entries.map (·.span) =
      [⟨0, 9⟩, ⟨0, 5⟩, ⟨5, 9⟩] := by cbv
  have hnodup : ((Draft.empty.submitAll requests).freeze.entries.map (·.span)).Nodup := by
    rw [hspans]
    decide
  obtain ⟨-, -, -, hnames⟩ := names_insertion_eq_iff requests ⟨5, 3⟩ d' hdelta hedit
  exact ⟨_, d', hdelta, hedit, hspans, hnodup, by cbv, hnames.mpr hnodup⟩

/-- Of two names with the same region one is lost when text is inserted somewhere else, and even
when nothing is inserted at all. -/
theorem names_lost_by_insertion :
    ∃ d' : Directory Kind,
      let d := (Draft.empty.submitAll [.add "a" ⟨.parserRule, ⟨0, 5⟩⟩,
        .add "b" ⟨.lexerRule, ⟨0, 5⟩⟩]).freeze
      d.names = ["a", "b"] ∧ d.edit ⟨9, 3⟩ = .ok d' ∧ d.edit ⟨9, 0⟩ = .ok d' ∧
        d'.names = ["a"] := by
  let d' : Directory Kind :=
    { headings := #[⟨"a", .parserRule, 0⟩]
      stops := some #[5]
      duplicates := .empty }
  exact ⟨d', by cbv, by cbv, by cbv, by cbv⟩

end Gazetteer.Directory
