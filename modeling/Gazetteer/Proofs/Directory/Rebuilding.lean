import Gazetteer.Directory.Rebuild
import Gazetteer.Proofs.Directory.Drafting
import Gazetteer.Proofs.Directory.Layout
import Gazetteer.Proofs.Except
import Gazetteer.Proofs.Text.Edit

/-!
# Directories made from well-formed directories

All that is made from a well-formed directory is well-formed.

* `WellFormed.rebuild`: entries that keep their names and come by ordinal make a well-formed
  directory, whichever of them are left and wherever their regions are now.
* `WellFormed.without`, `WellFormed.edit`: two ways to come by such entries.
* `shadowed_wellFormed`: duplicates are put into a draft like any other declarations.
* `byPosition_perm`: position order lists every entry once.
-/

namespace Gazetteer

/-! ## Position order -/

namespace Layout

theorem order_perm (regions : List Placed) :
    (ofRegions regions).order.Perm (regions.map (·.index)) := by
  rw [order_ofRegions]
  exact (List.mergeSort_perm regions positionLE).map _

end Layout

namespace Directory

variable {κ : Type} {d : Directory κ}

/-- **Position order lists every entry once.** -/
theorem byPosition_perm (d : Directory κ) : d.byPosition.Perm d.entries := by
  have horder : d.layout.order.Perm (d.entries.map (·.ordinal)) := by
    have hperm := Layout.order_perm (d.entries.map fun e => ⟨e.ordinal, e.span⟩)
    rwa [List.map_map] at hperm
  have hentries : (d.entries.map (·.ordinal)).filterMap d.entry? = d.entries := by
    rw [List.filterMap_map]
    conv_rhs => rw [← List.filterMap_some (l := d.entries)]
    exact List.filterMap_congr fun e he => mem_entries.mp he
  rw [← hentries]
  exact horder.filterMap d.entry?

/-! ## Entries that are left -/

namespace WellFormed

/-- **Entries that keep their names, by ordinal, make a well-formed directory.** -/
theorem rebuild (h : d.WellFormed) {left : List (Entry κ)}
    {duplicates : Register (List (Declaration κ))}
    (hordinal : left.Pairwise fun a b => a.ordinal < b.ordinal)
    (hname : ∀ x ∈ left, d.names[x.ordinal]? = some x.name)
    (hproper : ∀ x ∈ left, x.span.Proper) (hdistinct : duplicates.Distinct)
    (haside : ∀ row ∈ duplicates.rows, row.2 ≠ [] ∧ ∀ x ∈ row.2, x.span.Proper) :
    (ofPrimaries (left.map fun x => (x.name, x.declaration)) duplicates).WellFormed := by
  refine wellFormed_ofPrimaries ?_ (fun p hp => ?_) hdistinct haside
  · refine List.pairwise_map.mpr (hordinal.imp_of_mem fun {a b} ha hb hab => ?_)
    exact getElem?_lt_of_pairwise h.ascending hab (hname a ha) (hname b hb)
  · obtain ⟨x, hx, rfl⟩ := List.mem_map.mp hp
    exact hproper x hx

theorem proper_of_mem_entries (h : d.WellFormed) {e : Entry κ} (he : e ∈ d.entries) :
    e.span.Proper := by
  rw [mem_entries] at he
  obtain ⟨e', he', hproper⟩ := h.proper e.ordinal (entry?_lt_size he)
  rwa [Option.some.inj (he.symm.trans he')]

theorem without (h : d.WellFormed) (removed : List String) : (d.without removed).WellFormed := by
  refine h.rebuild (d.pairwise_entries.filter _) (fun x hx => ?_) (fun x hx => ?_) ?_
    fun row hrow => ?_
  · exact (entry?_eq_some (mem_entries.mp (List.mem_filter.mp hx).1)).2
  · exact h.proper_of_mem_entries (List.mem_filter.mp hx).1
  · exact List.Nodup.sublist (List.filter_sublist.map _) h.distinct
  · exact h.aside row (List.mem_filter.mp hrow).1

end WellFormed

theorem shadowed_wellFormed [Ranked κ] (d : Directory κ) : d.shadowed.WellFormed := by
  -- an offer is a request, and refused ones leave no trace
  have hdraft := Draft.sound_submitAll (d.duplicates.flatten.map fun p => .add p.1 p.2)
  rw [Draft.submitAll, List.foldl_map] at hdraft
  exact hdraft.freeze_wellFormed

/-! ## Edits -/

section Edits

variable {e : Edit}

/-- What an edit leaves is proper. -/
theorem exists_span_of_mapSpan {α : Type} {s : Span} {f : Span → α} {y : α}
    (h : (do return (← e.mapSpan s).map f : Except Error (Option α)) = .ok (some y)) :
    ∃ t : Span, t.Proper ∧ f t = y := by
  obtain ⟨o, ho, hy⟩ := bind_eq_ok_iff.mp h
  obtain ⟨t, rfl, ht⟩ := Option.map_eq_some_iff.mp (Except.ok.inj hy)
  exact ⟨t, (Edit.mapSpan_eq_some_iff.mp ho).2.2, ht⟩

theorem editEntry_eq_some {x y : Entry κ} (h : editEntry e x = .ok (some y)) :
    y.ordinal = x.ordinal ∧ y.name = x.name ∧ y.span.Proper := by
  obtain ⟨t, ht, rfl⟩ := exists_span_of_mapSpan h
  exact ⟨rfl, rfl, ht⟩

theorem editDuplicates_eq_ok {row row' : String × List (Declaration κ)}
    (h : editDuplicates e row = .ok row') : row'.1 = row.1 ∧ ∀ x ∈ row'.2, x.span.Proper := by
  obtain ⟨left, hleft, hrow⟩ := bind_eq_ok_iff.mp h
  obtain rfl := Except.ok.inj hrow
  obtain ⟨kept, -, hkept⟩ := exists_kept_of_mapM hleft
  refine ⟨rfl, forall_of_forall₂ hkept fun x _ y hy => ?_⟩
  obtain ⟨t, ht, rfl⟩ := exists_span_of_mapSpan hy
  exact ht

/-- Of entries with different ordinals some are left, by ordinal. -/
theorem dropCoinciding_spec {entries : List (Entry κ)} (h : (entries.map (·.ordinal)).Nodup) :
    (dropCoinciding entries).Pairwise (fun a b => a.ordinal < b.ordinal) ∧
      dropCoinciding entries ⊆ entries := by
  have hfirst : (entries.zipIdx.mergeSort regionLE).map (·.1) |>.Perm entries := by
    have hperm := (List.mergeSort_perm entries.zipIdx regionLE).map (·.1)
    rwa [List.zipIdx_map_fst] at hperm
  have hkept := (firstOfRuns_sublist (·.1.span) (entries.zipIdx.mergeSort regionLE)).map (·.1)
  constructor
  · refine pairwise_lt_mergeSort (fun _ _ => decide_eq_true_iff) ?_
    exact ((hfirst.map _).nodup_iff.mpr h).sublist (hkept.map _)
  · intro x hx
    exact hfirst.subset (hkept.subset ((List.mergeSort_perm _ _).subset hx))

/-- What an edit leaves of the entries keeps their ordinals, and so their names. -/
theorem moved_spec {left : List (Option (Entry κ))}
    (h : d.byPosition.mapM (editEntry e) = .ok left) :
    ((left.filterMap id).map (·.ordinal)).Nodup ∧
      ∀ y ∈ left.filterMap id, d.names[y.ordinal]? = some y.name ∧ y.span.Proper := by
  obtain ⟨kept, hsublist, hkept⟩ := exists_kept_of_mapM h
  constructor
  · rw [map_eq_map_of_forall₂ hkept fun x y hy => (editEntry_eq_some hy).1]
    have hnodup : (d.entries.map (·.ordinal)).Nodup :=
      List.pairwise_map.mpr (d.pairwise_entries.imp ne_of_lt)
    exact ((d.byPosition_perm.map _).nodup_iff.mpr hnodup).sublist (hsublist.map _)
  · refine forall_of_forall₂ hkept fun x hx y hy => ?_
    have hentry := mem_entries.mp (d.byPosition_perm.subset (hsublist.subset hx))
    obtain ⟨hordinal, hname, hproper⟩ := editEntry_eq_some hy
    rw [hordinal, hname]
    exact ⟨(entry?_eq_some hentry).2, hproper⟩

/-- **A well-formed directory is well-formed after an edit.** -/
theorem WellFormed.edit (h : d.WellFormed) {d' : Directory κ} (hedit : d.edit e = .ok d') :
    d'.WellFormed := by
  unfold Directory.edit at hedit
  obtain ⟨left, hleft, hedit⟩ := bind_eq_ok_iff.mp hedit
  obtain ⟨rows, hrows, hedit⟩ := bind_eq_ok_iff.mp hedit
  obtain rfl := Except.ok.inj hedit
  rw [mapM_eq_ok_iff] at hrows
  -- regions have moved and some are gone, but ordinals still tell entries apart
  obtain ⟨hordinal, hmoved⟩ := moved_spec hleft
  obtain ⟨hpairwise, hmem⟩ := dropCoinciding_spec hordinal
  refine h.rebuild hpairwise (fun x hx => (hmoved x (hmem hx)).1)
    (fun x hx => (hmoved x (hmem hx)).2) ?_ fun row hrow => ?_
  · have hnames : rows.map (·.1) = d.duplicates.rows.map (·.1) :=
      map_eq_map_of_forall₂ hrows fun x y hy => (editDuplicates_eq_ok hy).1
    have hdistinct : (rows.map (·.1)).Nodup := hnames ▸ h.distinct
    exact hdistinct.sublist (List.filter_sublist.map _)
  · obtain ⟨hrow, hnonempty⟩ := List.mem_filter.mp hrow
    refine ⟨by simpa using hnonempty, ?_⟩
    exact forall_of_forall₂ hrows (fun x _ y hy => (editDuplicates_eq_ok hy).2) row hrow

end Edits

end Directory

end Gazetteer
