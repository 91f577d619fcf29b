import Gazetteer.Proofs.Directory.Draftable
import Gazetteer.Proofs.Directory.Insertion
import Gazetteer.Proofs.Text.Succession
import Mathlib

/-!
# Editing a directory twice

Of names that an edit brings to the same place only the first is kept, in the position order from
before the edit. A second edit goes by the position order that the first one has left, and names
that straddle can change places in it. The same name is kept all the same: names that two edits
together bring to one place have started or stopped at one place, and such names never change
places without coinciding (`precedes_of_mapSpan`).

* `exists_survives_second`, `exists_survives_whole`: what is left by two edits is what is left by
  the one that they compose to.
* `edit_of_composes`: two edits that compose to a third make the directory that the third makes.
* `edit_of_splits`: an edit can be made in two steps.
* `edit_insertion_undone_iff`: deleting what has been inserted gives the directory back, unless two
  of its names had the same region.
-/

namespace Gazetteer.Directory

variable {κ : Type} {d d' m : Directory κ} {e first second whole : Edit}

/-! ## What determines a directory -/

/-- **Directories that list and set aside the same are equal**, if they store no ends without
need. -/
theorem WellFormed.eq_of_mem_declared_iff (h : d.WellFormed) (h' : d'.WellFormed)
    (hneeded : d.StopsNeeded) (hneeded' : d'.StopsNeeded)
    (hlisted : ∀ p, p ∈ d.entries.map Entry.declared ↔ p ∈ d'.entries.map Entry.declared)
    (haside : d.duplicates = d'.duplicates) : d = d' := by
  have hasymm : Std.Asymm fun p q : String × Declaration κ => p.1 < q.1 := ⟨fun p q => lt_asymm⟩
  have hentries := List.Pairwise.eq_of_mem_iff h.pairwise_declared h'.pairwise_declared
    fun {p} => hlisted p
  rw [← h.ofPrimaries_entries hneeded, hentries, haside, h'.ofPrimaries_entries hneeded']

/-- What an edit makes stores no ends without need. -/
theorem WellFormed.stopsNeeded_edit (h : d.WellFormed) (hedit : d.edit e = .ok d') :
    d'.StopsNeeded := by
  have hproper := (h.edit hedit).proper_of_mem_declared
  rw [eq_of_edit hedit, map_declared_entries] at hproper
  rw [eq_of_edit hedit]
  exact stopsNeeded_ofPrimaries hproper

/-! ## What an edit leaves -/

theorem span_mem_regions {x : Entry κ} (hx : x ∈ d.entries) : x.span ∈ d.regions :=
  mem_regions.mpr (Or.inl ⟨x, hx, rfl⟩)

theorem span_mem_regions_of_mem_row {row : String × List (Declaration κ)}
    (hrow : row ∈ d.duplicates.rows) {x : Declaration κ} (hx : x ∈ row.2) : x.span ∈ d.regions :=
  mem_regions.mpr (Or.inr ⟨row, hrow, x, hx, rfl⟩)

theorem exists_edit_of_regions (h : ∀ s ∈ d.regions, ∃ o, e.mapSpan s = .ok o) :
    ∃ d', d.edit e = .ok d' := by
  cases hedit : d.edit e with
  | ok d' => exact ⟨d', rfl⟩
  | error x =>
    obtain ⟨s, hs, y, hy⟩ := exists_edit_eq_error_iff.mp ⟨x, hedit⟩
    obtain ⟨o, ho⟩ := h s hs
    rw [ho] at hy
    exact absurd hy (by simp)

theorem rows_duplicates_edit (hedit : d.edit e = .ok d') :
    d'.duplicates.rows = d.leftAside e := by
  rw [eq_of_edit hedit]
  rfl

theorem mem_declared_edit_iff (hedit : d.edit e = .ok d') {p : String × Declaration κ} :
    p ∈ d'.entries.map Entry.declared ↔
      ∃ x ∈ d.entries, x.name = p.1 ∧ p.2.kind = x.kind ∧ d.Survives e x p.2.span := by
  rw [eq_of_edit hedit, map_declared_entries]
  exact mem_declared_left_iff

/-- Every entry after an edit is what is left of one before it. -/
theorem exists_survives_of_mem (hedit : d.edit e = .ok d') {y : Entry κ} (hy : y ∈ d'.entries) :
    ∃ x ∈ d.entries, x.name = y.name ∧ y.kind = x.kind ∧ d.Survives e x y.span :=
  (mem_declared_edit_iff hedit).mp (List.mem_map_of_mem hy)

theorem exists_mem_of_survives (hedit : d.edit e = .ok d') {x : Entry κ} (hx : x ∈ d.entries)
    {s : Span} (hs : d.Survives e x s) :
    ∃ y ∈ d'.entries, y.name = x.name ∧ y.kind = x.kind ∧ y.span = s := by
  have hlisted : (x.name, ⟨x.kind, s⟩) ∈ d'.entries.map Entry.declared :=
    (mem_declared_edit_iff hedit).mpr ⟨x, hx, rfl, rfl, hs⟩
  obtain ⟨y, hy, heq⟩ := List.mem_map.mp hlisted
  obtain ⟨hname, hdecl⟩ := Prod.mk.inj heq
  obtain ⟨hkind, hspan⟩ := Declaration.mk.inj hdecl
  exact ⟨y, hy, hname, hkind, hspan⟩

/-- Where a region lands, one entry is left. -/
theorem exists_survives {x : Entry κ} (hx : x ∈ d.entries) {s : Span}
    (hs : e.mapSpan x.span = .ok (some s)) : ∃ w ∈ d.entries, d.Survives e w s := by
  cases hfind : d.byPosition.find? (fun y => e.image? y.span = some s) with
  | none =>
    have hnot := List.find?_eq_none.mp hfind x (d.byPosition_perm.mem_iff.mpr hx)
    exact absurd (decide_eq_true (Edit.image?_eq_some_iff.mpr hs)) hnot
  | some w => exact ⟨w, find?_byPosition_iff.mp hfind⟩

/-- And no more than one. -/
theorem Survives.unique {x y : Entry κ} {s : Span} (hx : x ∈ d.entries) (hy : y ∈ d.entries)
    (hxs : d.Survives e x s) (hys : d.Survives e y s) : x = y :=
  Option.some.inj ((find?_byPosition_iff.mpr ⟨hx, hxs⟩).symm.trans
    (find?_byPosition_iff.mpr ⟨hy, hys⟩))

/-! ## Names, twice edited -/

/-- Of two entries one comes before the other in position order. -/
theorem precedes_trichotomy {x y : Entry κ} (hx : x ∈ d.entries) (hy : y ∈ d.entries) :
    x.placed.Precedes y.placed ∨ x = y ∨ y.placed.Precedes x.placed := by
  rw [Layout.precedes_iff, Layout.precedes_iff]
  refine (lt_trichotomy (Layout.positionKey x.placed) (Layout.positionKey y.placed)).imp_right
    (Or.imp_left fun hkey => ?_)
  have hordinal : x.ordinal = y.ordinal := congrArg (fun k => (ofLex (ofLex k).2).2) hkey
  rw [mem_entries] at hx hy
  rw [hordinal, hy] at hx
  exact (Option.some.inj hx).symm

theorem not_precedes_of_precedes {a b : Placed} (hab : a.Precedes b) : ¬ b.Precedes a := by
  rw [Layout.precedes_iff] at hab ⊢
  exact lt_asymm hab

/-- **Regions that one edit brings to the same place keep their order under another**, unless they
coincide after it. -/
theorem precedes_of_mapSpan {a b : Placed} {s t u : Span} {i j : Nat} (hab : a.Precedes b)
    (ha : whole.mapSpan a.span = .ok (some u)) (hb : whole.mapSpan b.span = .ok (some u))
    (hs : first.mapSpan a.span = .ok (some s)) (ht : first.mapSpan b.span = .ok (some t))
    (hne : s ≠ t) : (Placed.mk i s).Precedes ⟨j, t⟩ := by
  obtain ⟨hs1, hs2, -⟩ := Edit.mapSpan_eq_some_iff.mp hs
  obtain ⟨ht1, ht2, -⟩ := Edit.mapSpan_eq_some_iff.mp ht
  rcases Edit.start_eq_or_stop_eq_of_mapSpan ha hb with hstart | hstop
  · -- with the same start, the longer region comes first
    have hlonger : b.span.stop ≤ a.span.stop := by
      rcases hab with hlt | ⟨-, hlt | ⟨heq, -⟩⟩
      · exact absurd hstart hlt.ne
      · exact hlt.le
      · exact heq.ge
    rw [hstart, ht1, Except.ok.injEq] at hs1
    have hle : t.stop ≤ s.stop := Edit.mapStop_mono hlonger ht2 hs2
    refine Or.inr ⟨hs1.symm, Or.inl (lt_of_le_of_ne hle fun heq => hne ?_)⟩
    exact congrArg₂ Span.mk hs1.symm heq.symm
  · -- with the same end, the region that starts first comes first, and is the longer one too
    have hle : s.start ≤ t.start := Edit.mapStart_mono hab.start_le hs1 ht1
    rw [hstop, ht2, Except.ok.injEq] at hs2
    refine Or.inl (lt_of_le_of_ne hle fun heq => hne ?_)
    exact congrArg₂ Span.mk heq hs2.symm

section Twice

variable (h : Edit.Composes first second whole) (hfirst : d.edit first = .ok m)
  (hwhole : d.edit whole = .ok d')

include h hfirst hwhole

/-- What the whole leaves of an entry, the first edit leaves something of. -/
theorem Survives.exists_first {x : Entry κ} (hx : x ∈ d.entries) {s : Span}
    (hs : d.Survives whole x s) :
    ∃ t, d.Survives first x t ∧ second.mapSpan t = .ok (some s) := by
  obtain ⟨o, ho⟩ := exists_mapSpan_of_edit hfirst (span_mem_regions hx)
  cases o with
  | none => exact absurd (h.eq_none_of_none ho hs.1) (by simp)
  | some t =>
    have ht : second.mapSpan t = .ok (some s) := h.mapSpan_of_some ho hs.1
    refine ⟨t, ⟨ho, fun y hy hbefore hyt => ?_⟩, ht⟩
    -- what coincides after the first edit coincides after both
    obtain ⟨o', ho'⟩ := exists_mapSpan_of_edit hwhole (span_mem_regions hy)
    rw [h.mapSpan_of_some hyt ho'] at ht
    exact hs.2 y hy hbefore (ho'.trans ht)

/-- **What one edit leaves of an entry, two edits leave of it.** -/
theorem exists_survives_second {x : Entry κ} (hx : x ∈ d.entries) {s : Span}
    (hs : d.Survives whole x s) :
    ∃ y ∈ m.entries, y.name = x.name ∧ y.kind = x.kind ∧ m.Survives second y s := by
  obtain ⟨t, ht, hts⟩ := hs.exists_first h hfirst hwhole hx
  obtain ⟨y, hy, hname, hkind, rfl⟩ := exists_mem_of_survives hfirst hx ht
  refine ⟨y, hy, hname, hkind, hts, fun z hz hbefore hzs => ?_⟩
  -- `z` comes before `y` after the first edit; the entry `w` that it is left of lands where `x` does
  obtain ⟨w, hw, -, -, hwz⟩ := exists_survives_of_mem hfirst hz
  obtain ⟨o, ho⟩ := exists_mapSpan_of_edit hwhole (span_mem_regions hw)
  obtain rfl : o = some s := Except.ok.inj ((h.mapSpan_of_some hwz.1 ho).symm.trans hzs)
  rcases precedes_trichotomy hx hw with hxw | rfl | hwx
  · have hne : y.span ≠ z.span := fun heq => hwz.2 x hx hxw (heq ▸ ht.1)
    exact not_precedes_of_precedes hbefore (precedes_of_mapSpan hxw hs.1 ho ht.1 hwz.1 hne)
  · have hspan : z.span = y.span := Option.some.inj (Except.ok.inj (hwz.1.symm.trans ht.1))
    obtain rfl : z = y := List.inj_on_of_nodup_map (nodup_span_edit hfirst) hz hy hspan
    exact not_precedes_of_precedes hbefore hbefore
  · exact hs.2 w hw hwx ho

/-- **And nothing else is left by two edits.** -/
theorem exists_survives_whole {y : Entry κ} (hy : y ∈ m.entries) {s : Span}
    (hs : m.Survives second y s) :
    ∃ x ∈ d.entries, x.name = y.name ∧ y.kind = x.kind ∧ d.Survives whole x s := by
  obtain ⟨x, hx, -, -, hxy⟩ := exists_survives_of_mem hfirst hy
  obtain ⟨o, ho⟩ := exists_mapSpan_of_edit hwhole (span_mem_regions hx)
  obtain rfl : o = some s := Except.ok.inj ((h.mapSpan_of_some hxy.1 ho).symm.trans hs.1)
  -- some entry is left there by the whole, and then by the two edits: it must be the same one
  obtain ⟨w, hw, hws⟩ := exists_survives hx ho
  obtain ⟨z, hz, hname, hkind, hzs⟩ := exists_survives_second h hfirst hwhole hw hws
  obtain rfl : z = y := Survives.unique hz hy hzs hs
  exact ⟨w, hw, hname.symm, hkind, hws⟩

/-! ## Duplicates, twice edited -/

/-- What two edits leave of a declaration is what the one leaves of it. -/
theorem bind_image?_of_mem {row : String × List (Declaration κ)} (hrow : row ∈ d.duplicates.rows)
    {x : Declaration κ} (hx : x ∈ row.2) :
    (x.image? first).bind (Declaration.image? second) = x.image? whole := by
  have hregion : x.span ∈ d.regions := span_mem_regions_of_mem_row hrow hx
  obtain ⟨o₁, ho₁⟩ := exists_mapSpan_of_edit hfirst hregion
  obtain ⟨o, ho⟩ := exists_mapSpan_of_edit hwhole hregion
  have hspan : (first.image? x.span).bind second.image? = whole.image? x.span :=
    h.bind_left?_mapSpan ho₁ ho
  unfold Declaration.image?
  rw [← hspan]
  cases first.image? x.span <;> rfl

/-- **What two edits leave aside is what the one leaves aside.** A name of which the first edit has
left nothing would have nothing left by the second. -/
theorem leftAside_second : m.leftAside second = d.leftAside whole := by
  have hrows : (d.duplicates.rows.map fun row =>
      (row.1, row.2.filterMap (Declaration.image? first))).map
        (fun row => (row.1, row.2.filterMap (Declaration.image? second))) =
      d.duplicates.rows.map fun row => (row.1, row.2.filterMap (Declaration.image? whole)) := by
    rw [List.map_map]
    refine List.map_congr_left fun row hrow => congrArg (Prod.mk row.1) ?_
    rw [List.filterMap_filterMap]
    exact List.filterMap_congr fun x hx => bind_image?_of_mem h hfirst hwhole hrow hx
  rw [leftAside, rows_duplicates_edit hfirst, leftAside, leftAside, ← hrows]
  generalize (d.duplicates.rows.map fun row =>
    (row.1, row.2.filterMap (Declaration.image? first))) = moved
  rw [List.filter_map, List.filter_filter, List.filter_map]
  -- a row that is empty after the first edit stays empty
  refine congrArg (List.map _) (List.filter_congr fun row _ => ?_)
  obtain ⟨name, decls⟩ := row
  cases decls <;> simp

/-! ## Two edits -/

omit hwhole h in
/-- Every region after an edit is where a region before it has landed. -/
theorem exists_region_of_edit {t : Span} (ht : t ∈ m.regions) :
    ∃ s ∈ d.regions, first.mapSpan s = .ok (some t) := by
  rcases mem_regions.mp ht with ⟨y, hy, rfl⟩ | ⟨row, hrow, y, hy, rfl⟩
  · obtain ⟨x, hx, -, -, hxy⟩ := exists_survives_of_mem hfirst hy
    exact ⟨x.span, span_mem_regions hx, hxy.1⟩
  · rw [rows_duplicates_edit hfirst, leftAside] at hrow
    obtain ⟨row', hrow', rfl⟩ := List.mem_map.mp (List.mem_of_mem_filter hrow)
    obtain ⟨x, hx, himage⟩ := List.mem_filterMap.mp hy
    obtain ⟨s, hs, rfl⟩ := Option.map_eq_some_iff.mp himage
    exact ⟨x.span, span_mem_regions_of_mem_row hrow' hx, Edit.image?_eq_some_iff.mp hs⟩

/-- **Edits that compose make the same directory.** -/
theorem edit_of_composes (hd : d.WellFormed) : m.edit second = .ok d' := by
  have hm : m.WellFormed := hd.edit hfirst
  have hok : ∀ t ∈ m.regions, ∃ o, second.mapSpan t = .ok o := by
    intro t ht
    obtain ⟨s, hs, hst⟩ := exists_region_of_edit hfirst ht
    obtain ⟨o, ho⟩ := exists_mapSpan_of_edit hwhole hs
    exact ⟨o, h.mapSpan_of_some hst ho⟩
  obtain ⟨d'', hsecond⟩ := exists_edit_of_regions hok
  rw [hsecond, Except.ok.injEq]
  refine (hm.edit hsecond).eq_of_mem_declared_iff (hd.edit hwhole) (hm.stopsNeeded_edit hsecond)
    (hd.stopsNeeded_edit hwhole) (fun p => ?_) ?_
  · rw [mem_declared_edit_iff hsecond, mem_declared_edit_iff hwhole]
    constructor
    · rintro ⟨y, hy, hname, hkind, hs⟩
      obtain ⟨x, hx, hname', hkind', hs'⟩ := exists_survives_whole h hfirst hwhole hy hs
      exact ⟨x, hx, hname'.trans hname, hkind.trans hkind', hs'⟩
    · rintro ⟨x, hx, hname, hkind, hs⟩
      obtain ⟨y, hy, hname', hkind', hs'⟩ := exists_survives_second h hfirst hwhole hx hs
      exact ⟨y, hy, hname'.trans hname, hkind.trans hkind'.symm, hs'⟩
  · refine congrArg Register.mk ?_
    rw [rows_duplicates_edit hsecond, rows_duplicates_edit hwhole,
      leftAside_second h hfirst hwhole]

end Twice

/-- **An edit can be made in two steps.** -/
theorem edit_of_splits (h : Edit.Splits whole first second) (hd : d.WellFormed)
    (hwhole : d.edit whole = .ok d') : (do (← d.edit first).edit second) = .ok d' := by
  have hok : ∀ s ∈ d.regions, ∃ o, first.mapSpan s = .ok o := by
    intro s hs
    obtain ⟨o, ho⟩ := exists_mapSpan_of_edit hwhole hs
    exact h.exists_mapSpan ho
  obtain ⟨m, hfirst⟩ := exists_edit_of_regions hok
  exact bind_eq_ok_iff.mpr ⟨m, hfirst, edit_of_composes h.toComposes hfirst hwhole hd⟩

/-! ## Undoing an insertion -/

theorem WellFormed.proper_of_mem_regions (h : d.WellFormed) {s : Span} (hs : s ∈ d.regions) :
    s.Proper := by
  rcases mem_regions.mp hs with ⟨x, hx, rfl⟩ | ⟨row, hrow, x, hx, rfl⟩
  · exact h.proper_of_mem_entries hx
  · exact (h.aside row hrow).2 x hx

/-- An edit that neither inserts nor deletes anything moves no region. -/
theorem WellFormed.mapSpan_zero (h : d.WellFormed) (o : Offset) {s : Span} (hs : s ∈ d.regions) :
    Edit.mapSpan ⟨o, 0⟩ s = .ok (some s) :=
  Edit.mapSpan_zero o (h.proper_of_mem_regions hs)

theorem WellFormed.leftAside_zero (h : d.WellFormed) (o : Offset) :
    d.leftAside ⟨o, 0⟩ = d.duplicates.rows := by
  have himage : ∀ row ∈ d.duplicates.rows, ∀ x ∈ row.2, x.image? ⟨o, 0⟩ = some x := by
    intro row hrow x hx
    have hx' := h.mapSpan_zero o (span_mem_regions_of_mem_row hrow hx)
    rw [Declaration.image?, Edit.image?_eq_some_iff.mpr hx', Option.map_some]
  have hrows : (d.duplicates.rows.map fun row =>
      (row.1, row.2.filterMap (Declaration.image? ⟨o, 0⟩))) = d.duplicates.rows.map id := by
    refine List.map_congr_left fun row hrow => congrArg (Prod.mk row.1) ?_
    rw [List.filterMap_congr (himage row hrow), List.filterMap_some]
  rw [leftAside, hrows, List.map_id, List.filter_eq_self]
  intro row hrow
  simpa using (h.aside row hrow).1

/-- An edit that neither inserts nor deletes anything leaves a directory as it is, if no two names
have the same region. -/
theorem WellFormed.edit_zero (h : d.WellFormed) (hneeded : d.StopsNeeded)
    (hnodup : (d.entries.map (·.span)).Nodup) (o : Offset) : d.edit ⟨o, 0⟩ = .ok d := by
  obtain ⟨d', hedit⟩ := exists_edit_of_regions fun s hs => ⟨_, h.mapSpan_zero o hs⟩
  have hsurvives : ∀ {x : Entry κ} {s : Span}, x ∈ d.entries →
      (d.Survives ⟨o, 0⟩ x s ↔ x.span = s) := by
    intro x s hx
    have hx' := h.mapSpan_zero o (span_mem_regions hx)
    rw [survives_iff_of_nonneg le_rfl, hx', Except.ok.injEq, Option.some.injEq]
    refine and_iff_left fun y hy hspan => ?_
    exact (congrArg Entry.ordinal (List.inj_on_of_nodup_map hnodup hy hx hspan)).ge
  rw [hedit, Except.ok.injEq]
  refine (h.edit hedit).eq_of_mem_declared_iff h (h.stopsNeeded_edit hedit) hneeded
    (fun p => ?_) (congrArg Register.mk ((rows_duplicates_edit hedit).trans (h.leftAside_zero o)))
  rw [mem_declared_edit_iff hedit, List.mem_map]
  refine exists_congr fun x => and_congr_right fun hx => ?_
  rw [hsurvives hx]
  obtain ⟨name, kind, span⟩ := p
  simp [Entry.declared, Entry.declaration, eq_comm]

/-- **Deleting what has just been inserted gives the directory back**, with its names, kinds,
regions and duplicates, and with its ends stored or implied as they were, iff no two names had the
same region. -/
theorem edit_insertion_undone_iff [Ranked κ] (requests : List (Draft.Request κ)) (o len : Offset)
    (d' : Directory κ)
    (hedit : (Draft.empty.submitAll requests).freeze.edit (.insertion o len) = .ok d') :
    let d := (Draft.empty.submitAll requests).freeze
    d'.edit (.deletion o len) = .ok d ↔ (d.entries.map (·.span)).Nodup := by
  intro d
  have hd : d.WellFormed := (Draft.sound_submitAll requests).freeze_wellFormed
  refine ⟨nodup_span_edit, fun hnodup => ?_⟩
  exact edit_of_composes (Edit.composes_undo o len) hedit
    (hd.edit_zero (stopsNeeded_freeze requests) hnodup o) hd

theorem edit_insertion_undone_iff_of_implied_stops :
    ∃ d d' : Directory Kind, d.edit (.insertion 1 3) = .ok d' ∧
      d.entries.map (·.span) = [⟨0, 2⟩, ⟨1, 4⟩] ∧ d.stops = none ∧ d'.stops = some #[5, 7] ∧
      d'.duplicates = ⟨[("ab", [⟨.channel, ⟨4, 12⟩⟩])]⟩ ∧ d'.edit (.deletion 1 3) = .ok d := by
  -- the insertion goes into the middle of the first name, so that its end is no longer implied
  let requests : List (Draft.Request Kind) :=
    [.add "ab" ⟨.parserRule, ⟨0, 2⟩⟩, .add "cde" ⟨.lexerRule, ⟨1, 4⟩⟩,
      .add "ab" ⟨.channel, ⟨1, 9⟩⟩]
  let d' : Directory Kind :=
    { headings := #[⟨"ab", .parserRule, 0⟩, ⟨"cde", .lexerRule, 4⟩]
      stops := some #[5, 7]
      duplicates := ⟨[("ab", [⟨.channel, ⟨4, 12⟩⟩])]⟩ }
  have hedit : (Draft.empty.submitAll requests).freeze.edit (.insertion 1 3) = .ok d' := by cbv
  have hspans : (Draft.empty.submitAll requests).freeze.entries.map (·.span) =
      [⟨0, 2⟩, ⟨1, 4⟩] := by cbv
  have hundone := (edit_insertion_undone_iff requests 1 3 d' hedit).mpr (by rw [hspans]; decide)
  exact ⟨_, d', hedit, hspans, by cbv, rfl, rfl, hundone⟩

end Gazetteer.Directory
