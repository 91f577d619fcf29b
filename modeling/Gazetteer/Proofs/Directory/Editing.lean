import Gazetteer.Proofs.Directory.Position
import Mathlib

/-!
# What an edit makes of a directory

An edit moves the regions of all names and duplicates, and then drops the names that land on a
region where another one has landed. It does so by sorting: by region, to find those that coincide,
and by ordinal, to bring the names back into order. Nothing of this is left in what it does.

* `refusal?_edit`: the first region that cannot be moved is the one reported, where the names come
  first, in position order, and then the duplicates.
* `mem_dropCoinciding`: of entries with the same region the first is kept.
* `find?_edit_iff`: a name is kept iff something is left of its region (`Survives`) and no name
  before it in position order has landed there.
* `edit_obtainable_exact`: all of this for every directory that can be had.
-/

namespace Gazetteer

/-! ## Images -/

namespace Edit

/-- What an edit leaves of a span, if anything. -/
def image? (e : Edit) (s : Span) : Option Span := left? (e.mapSpan s)

/-- Why an edit cannot move a span, `none` if it can. -/
def failure? (e : Edit) (s : Span) : Option Error := refusal? (e.mapSpan s)

variable {e : Edit} {s t : Span}

theorem image?_eq_some_iff : e.image? s = some t ↔ e.mapSpan s = .ok (some t) := by
  unfold image?
  cases e.mapSpan s <;> simp [left?]

theorem failure?_eq_some_iff {x : Error} : e.failure? s = some x ↔ e.mapSpan s = .error x :=
  refusal?_eq_some_iff

end Edit

variable {κ : Type}

/-- What an edit leaves of an entry, if anything: its new region. -/
def Entry.image? (e : Edit) (x : Entry κ) : Option (Entry κ) :=
  (e.image? x.span).map fun span => { x with span }

/-- What an edit leaves of a declaration, if anything: its new region. -/
def Declaration.image? (e : Edit) (x : Declaration κ) : Option (Declaration κ) :=
  (e.image? x.span).map fun span => { x with span }

namespace Directory

variable {d d' : Directory κ} {e : Edit}

theorem left?_editEntry (e : Edit) (x : Entry κ) : left? (editEntry e x) = x.image? e := by
  unfold editEntry Entry.image? Edit.image?
  cases e.mapSpan x.span <;> rfl

theorem left?_editDeclaration (e : Edit) (x : Declaration κ) :
    left? (editDeclaration e x) = x.image? e := by
  unfold editDeclaration Declaration.image? Edit.image?
  cases e.mapSpan x.span <;> rfl

theorem editDuplicates_eq {row row' : String × List (Declaration κ)}
    (h : editDuplicates e row = .ok row') :
    row' = (row.1, row.2.filterMap (Declaration.image? e)) := by
  obtain ⟨left, hleft, hrow⟩ := bind_eq_ok_iff.mp h
  rw [← Except.ok.inj hrow, filterMap_of_mapM hleft]
  simp only [left?_editDeclaration]

/-! ## When an edit fails -/

/-- All regions in the order in which an edit moves them: those of the names by position, and then
those of the duplicates. -/
def regions (d : Directory κ) : List Span :=
  d.byPosition.map (·.span) ++ d.duplicates.flatten.map (·.2.span)

/-- **The first region that cannot be moved** is the one reported. -/
theorem refusal?_edit (d : Directory κ) (e : Edit) :
    refusal? (d.edit e) = d.regions.findSome? e.failure? := by
  have hrow : ∀ row : String × List (Declaration κ),
      refusal? (editDuplicates e row) = row.2.findSome? fun x => e.failure? x.span := by
    intro row
    unfold editDuplicates
    rw [refusal?_bind_pure, refusal?_mapM]
    exact congrArg (row.2.findSome? ·) (funext fun x => refusal?_bind_pure)
  have hentries : refusal? (d.byPosition.mapM (editEntry e)) =
      d.byPosition.findSome? fun x => e.failure? x.span := by
    rw [refusal?_mapM]
    exact congrArg (d.byPosition.findSome? ·) (funext fun x => refusal?_bind_pure)
  have hduplicates : refusal? (d.duplicates.rows.mapM (editDuplicates e)) =
      d.duplicates.flatten.findSome? fun p => e.failure? p.2.span := by
    rw [refusal?_mapM, Register.findSome?_flatten d.duplicates fun x => e.failure? x.span]
    exact congrArg (d.duplicates.rows.findSome? ·) (funext hrow)
  rw [edit, refusal?_bind fun _ _ => refusal?_bind_pure, hentries, hduplicates, regions,
    List.findSome?_append, List.findSome?_map, List.findSome?_map]
  rfl

theorem edit_eq_error_iff {x : Error} :
    d.edit e = .error x ↔ d.regions.findSome? e.failure? = some x := by
  rw [← refusal?_edit, refusal?_eq_some_iff]

theorem mem_regions {s : Span} :
    s ∈ d.regions ↔ (∃ x ∈ d.entries, x.span = s) ∨
      ∃ row ∈ d.duplicates.rows, ∃ x ∈ row.2, x.span = s := by
  rw [regions, List.mem_append, List.mem_map, List.mem_map]
  refine or_congr (exists_congr fun x => and_congr_left fun _ => d.byPosition_perm.mem_iff) ?_
  simp only [Prod.exists, Register.mem_flatten]
  constructor
  · rintro ⟨name, x, ⟨items, hrow, hx⟩, rfl⟩
    exact ⟨name, items, hrow, x, hx, rfl⟩
  · rintro ⟨name, items, hrow, x, hx, rfl⟩
    exact ⟨name, x, ⟨items, hrow, hx⟩, rfl⟩

theorem exists_edit_eq_error_iff :
    (∃ x, d.edit e = .error x) ↔ ∃ s ∈ d.regions, ∃ x, e.mapSpan s = .error x := by
  simp only [edit_eq_error_iff, ← Option.isSome_iff_exists, List.findSome?_isSome_iff]
  refine exists_congr fun s => and_congr_right fun _ => ?_
  rw [Option.isSome_iff_exists]
  exact exists_congr fun x => Edit.failure?_eq_some_iff

/-! ## What an edit makes -/

/-- What is left of the duplicates: of each name those that something is left of, in order, and no
name without any. -/
def leftAside (d : Directory κ) (e : Edit) : List (String × List (Declaration κ)) :=
  (d.duplicates.rows.map fun row => (row.1, row.2.filterMap (Declaration.image? e))).filter
    fun row => !row.2.isEmpty

theorem eq_of_edit (h : d.edit e = .ok d') :
    d' = ofPrimaries
      ((dropCoinciding (d.byPosition.filterMap (Entry.image? e))).map Entry.declared)
      ⟨d.leftAside e⟩ := by
  unfold edit at h
  obtain ⟨left, hleft, h⟩ := bind_eq_ok_iff.mp h
  obtain ⟨rows, hrows, h⟩ := bind_eq_ok_iff.mp h
  have hrows : rows = d.duplicates.rows.map fun row =>
      (row.1, row.2.filterMap (Declaration.image? e)) := by
    have hmap := map_eq_map_of_forall₂ (g := id) (mapM_eq_ok_iff.mp hrows)
      fun row row' hrow => editDuplicates_eq hrow
    rwa [List.map_id] at hmap
  have hmoved : left.filterMap id = d.byPosition.filterMap (Entry.image? e) := by
    rw [filterMap_of_mapM hleft]
    simp only [left?_editEntry]
  rw [← Except.ok.inj h, hmoved, hrows]
  rfl

/-! ## Entries that coincide -/

section Coinciding

/-- Where a span stands when spans are sorted by start and then by end. -/
def spanKey (s : Span) : Offset ×ₗ Offset := toLex (s.start, s.stop)

theorem spanKey_injective : Function.Injective spanKey := by
  intro s t h
  obtain ⟨hstart, hstop⟩ := Prod.mk.inj (toLex.injective h)
  exact congrArg₂ Span.mk hstart hstop

theorem regionLE_iff (a b : Entry κ × Nat) :
    regionLE a b = true ↔
      toLex (spanKey a.1.span, a.2) ≤ toLex (spanKey b.1.span, b.2) := by
  simp only [regionLE, Prod.Lex.toLex_le_toLex, spanKey, Prod.Lex.toLex_lt_toLex,
    Bool.or_eq_true, Bool.and_eq_true, decide_eq_true_eq, toLex_inj, Prod.mk.injEq]
  tauto

theorem pairwise_sortedByRegion (entries : List (Entry κ)) :
    (entries.zipIdx.mergeSort regionLE).Pairwise fun a b =>
      spanKey a.1.span < spanKey b.1.span ∨ a.1.span = b.1.span ∧ a.2 < b.2 := by
  have hkeys : (entries.zipIdx.map fun a => toLex (spanKey a.1.span, a.2)).Nodup := by
    refine List.Nodup.of_map (fun k => (ofLex k).2) ?_
    have hplaces : (entries.zipIdx.map (·.2)).Nodup := by
      rw [List.zipIdx_map_snd]
      exact List.nodup_range'
    rwa [List.map_map]
  refine (pairwise_lt_mergeSort regionLE_iff hkeys).imp fun {a b} hab => ?_
  rw [Prod.Lex.toLex_lt_toLex] at hab
  exact hab.imp_right fun hab => ⟨spanKey_injective hab.1, hab.2⟩

/-- **Of entries with the same region the first is kept.** -/
theorem mem_dropCoinciding {entries : List (Entry κ)} {x : Entry κ} :
    x ∈ dropCoinciding entries ↔ entries.find? (fun y => y.span = x.span) = some x := by
  have hperm := List.mergeSort_perm entries.zipIdx regionLE
  have hmem : x ∈ dropCoinciding entries ↔ ∃ i, (x, i) ∈ entries.zipIdx ∧
      ∀ b ∈ entries.zipIdx, b.1.span = x.span → i ≤ b.2 := by
    rw [dropCoinciding, (List.mergeSort_perm _ _).mem_iff, List.mem_map]
    simp only [mem_firstOfRuns spanKey_injective (pairwise_sortedByRegion entries),
      hperm.mem_iff, Prod.exists, exists_and_right, exists_eq_right]
  rw [hmem, List.find?_eq_some_iff_getElem]
  simp only [List.mem_zipIdx_iff_getElem?, Prod.forall, decide_true, true_and, Bool.not_eq_true',
    decide_eq_false_iff_not]
  constructor
  · rintro ⟨i, hi, hfirst⟩
    obtain ⟨hlt, hget⟩ := List.getElem?_eq_some_iff.mp hi
    refine ⟨i, hlt, hget, fun j hj hspan => ?_⟩
    have hle := hfirst _ j (List.getElem?_eq_getElem (hj.trans hlt)) hspan
    exact absurd hle (not_le.mpr hj)
  · rintro ⟨i, hlt, hget, hfirst⟩
    refine ⟨i, List.getElem?_eq_some_iff.mpr ⟨hlt, hget⟩, fun y j hy hspan => ?_⟩
    obtain ⟨_, rfl⟩ := List.getElem?_eq_some_iff.mp hy
    exact not_lt.mp fun hj => hfirst j hj hspan

end Coinciding

/-! ## Entries that are left -/

/-- **An edit leaves `s` of an entry**: `s` is where its region lands, and the region of no entry
before it in position order lands there. -/
def Survives (d : Directory κ) (e : Edit) (x : Entry κ) (s : Span) : Prop :=
  e.mapSpan x.span = .ok (some s) ∧
    ∀ y ∈ d.entries, y.placed.Precedes x.placed → e.mapSpan y.span ≠ .ok (some s)

theorem find?_byPosition_iff {x : Entry κ} {s : Span} :
    d.byPosition.find? (fun y => e.image? y.span = some s) = some x ↔
      x ∈ d.entries ∧ d.Survives e x s := by
  have hasymm : ∀ a b : Entry κ, a.placed.Precedes b.placed → ¬ b.placed.Precedes a.placed := by
    intro a b
    rw [Layout.precedes_iff, Layout.precedes_iff]
    exact lt_asymm
  rw [find?_eq_some_iff_of_pairwise d.pairwise_byPosition hasymm]
  simp only [d.byPosition_perm.mem_iff, decide_eq_true_eq, decide_eq_false_iff_not,
    Edit.image?_eq_some_iff, Survives, ne_eq]

/-- The entries that are left, in their new regions. -/
theorem mem_left_iff {y : Entry κ} :
    y ∈ dropCoinciding (d.byPosition.filterMap (Entry.image? e)) ↔
      ∃ x ∈ d.entries, ∃ s, d.Survives e x s ∧ y = { x with span := s } := by
  have htest : ∀ x : Entry κ, ((x.image? e).any fun z => z.span = y.span) =
      decide (e.image? x.span = some y.span) := by
    intro x
    unfold Entry.image?
    cases e.image? x.span <;> simp
  have himage : ∀ {x s}, d.Survives e x s → x.image? e = some { x with span := s } := by
    intro x s hs
    rw [Entry.image?, Edit.image?_eq_some_iff.mpr hs.1, Option.map_some]
  rw [mem_dropCoinciding, List.find?_filterMap, Option.bind_eq_some_iff]
  simp only [htest, find?_byPosition_iff]
  constructor
  · rintro ⟨x, ⟨hx, hs⟩, hy⟩
    exact ⟨x, hx, y.span, hs, Option.some.inj (hy.symm.trans (himage hs))⟩
  · rintro ⟨x, hx, s, hs, rfl⟩
    exact ⟨x, ⟨hx, hs⟩, himage hs⟩

theorem mem_declared_left_iff {name : String} {decl : Declaration κ} :
    (name, decl) ∈ (dropCoinciding (d.byPosition.filterMap (Entry.image? e))).map Entry.declared ↔
      ∃ x ∈ d.entries, x.name = name ∧ decl.kind = x.kind ∧ d.Survives e x decl.span := by
  rw [List.mem_map]
  simp only [mem_left_iff]
  constructor
  · rintro ⟨_, ⟨x, hx, s, hs, rfl⟩, hy⟩
    obtain ⟨rfl, rfl⟩ := Prod.mk.inj hy
    exact ⟨x, hx, rfl, rfl, hs⟩
  · rintro ⟨x, hx, rfl, hkind, hs⟩
    refine ⟨_, ⟨x, hx, decl.span, hs, rfl⟩, ?_⟩
    rw [Entry.declared, Entry.declaration, ← hkind]

/-- No two entries that are left have the same region. -/
theorem nodup_span_left (d : Directory κ) (e : Edit) :
    ((dropCoinciding (d.byPosition.filterMap (Entry.image? e))).map (·.span)).Nodup := by
  have hordinals : d.byPosition.Pairwise fun a b => a.ordinal ≠ b.ordinal := by
    have hentries : (d.entries.map (·.ordinal)).Nodup :=
      List.pairwise_map.mpr (d.pairwise_entries.imp ne_of_lt)
    exact List.pairwise_map.mp ((d.byPosition_perm.map _).nodup_iff.mpr hentries)
  have hmoved : ((d.byPosition.filterMap (Entry.image? e)).map (·.ordinal)).Nodup := by
    refine List.pairwise_map.mpr (hordinals.filterMap _ fun a b hab x hx y hy => ?_)
    obtain ⟨s, -, rfl⟩ := Option.map_eq_some_iff.mp hx
    obtain ⟨t, -, rfl⟩ := Option.map_eq_some_iff.mp hy
    exact hab
  refine List.Nodup.map_on (fun x hx y hy hspan => ?_) ?_
  · rw [mem_dropCoinciding] at hx hy
    rw [hspan, hy] at hx
    exact (Option.some.inj hx).symm
  · refine (dropCoinciding_spec hmoved).1.imp fun {a b} hlt heq => ?_
    exact absurd (congrArg Entry.ordinal heq) hlt.ne

/-! ## What is found after an edit -/

namespace WellFormed

variable (h : d.WellFormed) (hedit : d.edit e = .ok d')

include h hedit

/-- **A name is found after an edit** in the region that the edit leaves of it. -/
theorem find?_edit_iff {name : String} {decl : Declaration κ} :
    (d'.find? name).map Entry.declaration = some decl ↔
      ∃ x, d.find? name = some x ∧ decl.kind = x.kind ∧ d.Survives e x decl.span := by
  have hwell : d'.WellFormed := h.edit hedit
  rw [hwell.find?_declaration_iff, eq_of_edit hedit, map_declared_entries, mem_declared_left_iff]
  simp only [h.find?_eq_some_iff, mem_entries, and_assoc]

theorem contains_edit_iff {name : String} :
    d'.contains name = true ↔ ∃ x, d.find? name = some x ∧ ∃ s, d.Survives e x s := by
  have hwell : d'.WellFormed := h.edit hedit
  rw [hwell.contains_iff]
  constructor
  · intro hname
    obtain ⟨y, -, hy, -⟩ := hwell.exists_find?_of_mem hname
    obtain ⟨x, hx, -, hs⟩ := (h.find?_edit_iff hedit).mp (congrArg (Option.map _) hy)
    exact ⟨x, hx, _, hs⟩
  · rintro ⟨x, hx, s, hs⟩
    have hfound : (d'.find? name).map Entry.declaration = some ⟨x.kind, s⟩ :=
      (h.find?_edit_iff hedit).mpr ⟨x, hx, rfl, hs⟩
    obtain ⟨y, hy, -⟩ := Option.map_eq_some_iff.mp hfound
    by_contra hname
    rw [hwell.find?_eq_none_iff.mpr hname] at hy
    exact absurd hy (by simp)

theorem names_edit_sublist : d'.names.Sublist d.names := by
  have hwell : d'.WellFormed := h.edit hedit
  have hsubset : d'.names ⊆ d.names := by
    intro name hname
    obtain ⟨x, hx, -⟩ := (h.contains_edit_iff hedit).mp (hwell.contains_iff.mpr hname)
    by_contra hnot
    rw [h.find?_eq_none_iff.mpr hnot] at hx
    exact absurd hx (by simp)
  exact List.sublist_of_subperm_of_pairwise
    (List.subperm_of_subset (hwell.ascending.imp ne_of_lt) hsubset) hwell.ascending h.ascending

end WellFormed

theorem nodup_span_edit (hedit : d.edit e = .ok d') : (d'.entries.map (·.span)).Nodup := by
  have hspans : ∀ xs : List (Entry κ),
      xs.map (·.span) = (xs.map Entry.declared).map (·.2.span) := by
    intro xs
    rw [List.map_map]
    rfl
  rw [hspans, eq_of_edit hedit, map_declared_entries, ← hspans]
  exact d.nodup_span_left e

/-! ## Every directory that can be had -/

/-- **What an edit makes of a directory, exactly.**

* It fails iff some region, of a name or of a duplicate, cannot be moved, and reports the first of
  them: the names come first, in position order, and then the duplicates, name by name. Position
  order lists every name once, by `Precedes`.
* If it does not fail, a name is kept iff its region lands somewhere and no name before it in
  position order lands there. It keeps its kind, and its region is where it landed. The names that
  are kept are in order, and no two of them have the same region.
* Of each list of duplicates those are left that land somewhere, in order and whether or not they
  coincide; names of which none is left are gone, and the others stand in the same order. -/
theorem edit_obtainable_exact [Ranked κ] (h : d.Obtainable) (e : Edit) :
    ((∃ x, d.edit e = .error x) ↔
      (∃ y ∈ d.entries, ∃ x, e.mapSpan y.span = .error x) ∨
        ∃ row ∈ d.duplicates.rows, ∃ y ∈ row.2, ∃ x, e.mapSpan y.span = .error x) ∧
    (∀ x, d.edit e = .error x ↔ d.regions.findSome? e.failure? = some x) ∧
    (d.byPosition.Perm d.entries ∧
      d.byPosition.Pairwise fun a b => a.placed.Precedes b.placed) ∧
    ∀ d', d.edit e = .ok d' →
      (∀ name decl, (d'.find? name).map Entry.declaration = some decl ↔
        ∃ x, d.find? name = some x ∧ decl.kind = x.kind ∧ d.Survives e x decl.span) ∧
      (∀ name, d'.contains name = true ↔
        ∃ x, d.find? name = some x ∧ ∃ s, d.Survives e x s) ∧
      d'.names.Sublist d.names ∧ d'.names.Pairwise (· < ·) ∧
      (d'.entries.map (·.span)).Nodup ∧
      d'.duplicates.rows = d.leftAside e := by
  have hwell := h.wellFormed
  refine ⟨?_, fun x => edit_eq_error_iff, ⟨d.byPosition_perm, d.pairwise_byPosition⟩,
    fun d' hedit => ⟨fun name decl => ?_, fun name => ?_, hwell.names_edit_sublist hedit,
      (hwell.edit hedit).ascending, nodup_span_edit hedit, ?_⟩⟩
  · rw [exists_edit_eq_error_iff]
    simp only [mem_regions]
    constructor
    · rintro ⟨s, ⟨y, hy, rfl⟩ | ⟨row, hrow, y, hy, rfl⟩, hfail⟩
      · exact Or.inl ⟨y, hy, hfail⟩
      · exact Or.inr ⟨row, hrow, y, hy, hfail⟩
    · rintro (⟨y, hy, hfail⟩ | ⟨row, hrow, y, hy, hfail⟩)
      · exact ⟨y.span, Or.inl ⟨y, hy, rfl⟩, hfail⟩
      · exact ⟨y.span, Or.inr ⟨row, hrow, y, hy, rfl⟩, hfail⟩
  · exact hwell.find?_edit_iff hedit
  · exact hwell.contains_edit_iff hedit
  · rw [eq_of_edit hedit]
    rfl

theorem edit_obtainable_exact_collision :
    ∃ d d' : Directory Kind, d.Obtainable ∧ d.edit ⟨5, -5⟩ = .ok d' ∧
      (∃ x, d.find? "b" = some x ∧ d.Survives ⟨5, -5⟩ x ⟨4, 5⟩) ∧
      (¬ ∃ x, d.find? "a" = some x ∧ ∃ s, d.Survives ⟨5, -5⟩ x s) ∧
      d.names = ["a", "b", "c", "d"] ∧ d'.names = ["b", "d"] ∧ d'.names.Sublist d.names ∧
      d.leftAside ⟨5, -5⟩ = [("c", [⟨.channel, ⟨15, 25⟩⟩])] ∧
      d.regions.findSome? (Edit.failure? ⟨8, 4294967290⟩) =
        some (.offsetOverflow 9 4294967290) := by
  -- `a` lands on `b`, `c` collapses, and so does what is set aside for `d`
  let requests : List (Draft.Request Kind) :=
    [.add "a" ⟨.parserRule, ⟨4, 7⟩⟩, .add "b" ⟨.parserRule, ⟨4, 8⟩⟩,
      .add "c" ⟨.fragment, ⟨6, 9⟩⟩, .add "c" ⟨.channel, ⟨20, 30⟩⟩,
      .add "d" ⟨.lexerRule, ⟨20, 24⟩⟩, .add "d" ⟨.channel, ⟨6, 8⟩⟩]
  let d' : Directory Kind :=
    { headings := #[⟨"b", .parserRule, 4⟩, ⟨"d", .lexerRule, 15⟩]
      stops := some #[5, 19]
      duplicates := ⟨[("c", [⟨.channel, ⟨15, 25⟩⟩])]⟩ }
  have hobtainable := Obtainable.drafted requests
  have hedit : (Draft.empty.submitAll requests).freeze.edit ⟨5, -5⟩ = .ok d' := by cbv
  have hfails : (Draft.empty.submitAll requests).freeze.edit ⟨8, 4294967290⟩ =
      .error (.offsetOverflow 9 4294967290) := by cbv
  obtain ⟨-, -, -, hok⟩ := edit_obtainable_exact hobtainable ⟨5, -5⟩
  obtain ⟨hfind, hcontains, hnames, -, -, haside⟩ := hok d' hedit
  obtain ⟨x, hx, -, hs⟩ := (hfind "b" ⟨.parserRule, ⟨4, 5⟩⟩).mp (by cbv)
  have hgone : d'.contains "a" = false := by cbv
  have hfirst := ((edit_obtainable_exact hobtainable ⟨8, 4294967290⟩).2.1 _).mp hfails
  refine ⟨_, d', hobtainable, hedit, ⟨x, hx, hs⟩, fun hkept => ?_, by cbv, by cbv, hnames,
    haside.symm, hfirst⟩
  rw [(hcontains "a").mpr hkept] at hgone
  exact absurd hgone (by simp)

end Directory

end Gazetteer
