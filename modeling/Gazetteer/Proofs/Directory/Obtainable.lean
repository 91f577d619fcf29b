import Gazetteer.Directory.Bytes
import Gazetteer.Proofs.Directory.Rebuilding

/-!
# Every directory that can be had

`Obtainable` lists every way to come by a directory: to draft one, to read one from bytes, to make
one from another. Each of them gives a well-formed directory (`Obtainable.wellFormed`).

Bytes may come from anywhere. `ofRecord_eq_ok_iff` says what a record must be like to be accepted,
and this is enough to make it well-formed (`wellFormed_of_ofRecord`).
-/

namespace Gazetteer.Directory

open Wire

variable {κ : Type} {d : Directory κ} {r : Record}

/-! ## Checks -/

theorem columnsAgree_iff :
    columnsAgree r = true ↔ r.ranks.length = r.names.length ∧ r.starts.length = r.names.length ∧
      ∀ stops, r.stops = some stops → stops.length = r.names.length := by
  simp [columnsAgree, and_assoc, Option.all_eq_true]

theorem emptyRegion?_eq_none_iff :
    d.emptyRegion? = none ↔ ∀ i < d.size, ∃ e, d.entry? i = some e ∧ e.span.Proper := by
  simp [emptyRegion?, List.find?_eq_none, Option.any_eq_true]

/-- The directory of the columns of a record, without duplicates. -/
def bare (r : Record) (kinds : List κ) : Directory κ :=
  { headings := ((r.names.zip (kinds.zip r.starts)).map fun (name, kind, start) =>
      ⟨name, kind, start⟩).toArray
    stops := r.stops.map (·.toArray)
    duplicates := .empty }

theorem names_bare {kinds : List κ} (hkinds : kinds.length = r.names.length)
    (hstarts : r.starts.length = r.names.length) : (bare r kinds).names = r.names := by
  have hlength : r.names.length ≤ (kinds.zip r.starts).length := by
    rw [List.length_zip, hkinds, hstarts, min_self]
  rw [names, bare, List.toList_toArray, List.map_map]
  exact List.map_fst_zip hlength

variable [Ranked κ]

/-- **What a record must be like to be accepted**, and what is made of it. -/
theorem ofRecord_eq_ok_iff :
    ofRecord r = .ok d ↔
      (r.version = formatVersion ∧ columnsAgree r = true ∧ ascending r.names = true) ∧
      ∃ kinds decls, r.ranks.mapM kindOf = .ok kinds ∧ (bare r kinds).emptyRegion? = none ∧
        r.duplicates.mapM duplicateOf = .ok decls ∧
        d = { bare r kinds with duplicates := gather decls } := by
  unfold ofRecord
  split_ifs with hversion hcolumns hnames
  · simp [hversion]
  · rw [Bool.not_eq_true'] at hcolumns
    simp [hcolumns]
  · rw [Bool.not_eq_true'] at hnames
    simp [hnames]
  · rw [bind_eq_ok_iff]
    simp only [not_not.mp hversion, Bool.not_not_eq.mp hcolumns, Bool.not_not_eq.mp hnames,
      true_and]
    refine exists_congr fun kinds => ?_
    rw [exists_and_left]
    refine and_congr_right fun _ => ?_
    -- the check on the way is made on `bare r kinds`, written out
    cases hregions : (bare r kinds).emptyRegion? with
    | some i =>
      simp only [bare] at hregions
      simp [hregions]
    | none =>
      simp only [bare] at hregions
      simp only [hregions]
      rw [bind_eq_ok_iff]
      simp only [true_and]
      refine exists_congr fun decls => and_congr_right fun _ => ?_
      exact ⟨fun h => (Except.ok.inj h).symm, fun h => congrArg Except.ok h.symm⟩

/-! ## What is read is well-formed -/

theorem proper_of_duplicateOf {x : DuplicateRecord} {p : String × Declaration κ}
    (h : duplicateOf x = .ok p) : p.2.span.Proper := by
  unfold duplicateOf at h
  split at h
  · rename_i hproper
    cases hkind : (kindOf x.rank : Except Fault κ) with
    | error fault =>
      rw [hkind] at h
      exact absurd h (by simp [Except.map])
    | ok kind =>
      rw [hkind] at h
      rw [← Except.ok.inj h]
      exact hproper
  · exact absurd h (by simp)

/-- **A record that is accepted makes a well-formed directory**, wherever it comes from. -/
theorem wellFormed_of_ofRecord (h : ofRecord r = .ok d) : d.WellFormed := by
  obtain ⟨⟨-, hcolumns, hnames⟩, kinds, decls, hkinds, hregions, hdecls, rfl⟩ :=
    ofRecord_eq_ok_iff.mp h
  obtain ⟨hranks, hstarts, hstops⟩ := columnsAgree_iff.mp hcolumns
  have hlength : kinds.length = r.names.length :=
    (mapM_eq_ok_iff.mp hkinds).length_eq.symm.trans hranks
  have hcolumn : (bare r kinds).names = r.names := names_bare hlength hstarts
  have hproper : ∀ p ∈ decls, p.2.span.Proper :=
    forall_of_forall₂ (mapM_eq_ok_iff.mp hdecls) fun _ _ _ hp => proper_of_duplicateOf hp
  obtain ⟨hdistinct, haside⟩ := Register.distinct_pushAll
    (P := fun x : Declaration κ => x.span.Proper) Register.distinct_empty
    (fun _ hrow => absurd hrow List.not_mem_nil) hproper
  refine ⟨?_, fun stops h => ?_, emptyRegion?_eq_none_iff.mp hregions, hdistinct, haside⟩
  · exact hcolumn ▸ ascending_iff.mp hnames
  · obtain ⟨column, hcol, rfl⟩ := Option.map_eq_some_iff.mp h
    have hsize : (bare r kinds).size = r.names.length := by rw [← length_names, hcolumn]
    rw [List.size_toArray, hstops column hcol]
    exact hsize.symm

/-! ## Every directory that can be had -/

/-- **The ways to come by a directory.** -/
inductive Obtainable : Directory κ → Prop
  | drafted (requests : List (Draft.Request κ)) :
      Obtainable (Draft.empty.submitAll requests).freeze
  | empty : Obtainable Directory.empty
  | read {bytes : List UInt8} {d : Directory κ} : ofBytes bytes = .ok d → Obtainable d
  | shadowed {d : Directory κ} : Obtainable d → Obtainable d.shadowed
  | without {d : Directory κ} (removed : List String) :
      Obtainable d → Obtainable (d.without removed)
  | edit {d d' : Directory κ} (e : Edit) : Obtainable d → d.edit e = .ok d' → Obtainable d'

theorem exists_ofRecord_of_ofBytes {bytes : List UInt8} (h : ofBytes bytes = .ok d) :
    ∃ r, ofRecord r = .ok d := by
  unfold ofBytes at h
  split at h
  · rename_i r _ _
    cases hr : (ofRecord r : Except Fault (Directory κ)) with
    | error fault =>
      rw [hr] at h
      exact absurd h (by simp [Except.mapError])
    | ok d' =>
      rw [hr] at h
      exact ⟨r, hr.trans (congrArg Except.ok (Except.ok.inj h))⟩
  · exact absurd h (by simp)

/-- **Every directory that can be had is well-formed.** -/
theorem Obtainable.wellFormed (h : d.Obtainable) : d.WellFormed := by
  induction h with
  | drafted requests => exact (Draft.sound_submitAll requests).freeze_wellFormed
  | empty => exact Draft.sound_empty.freeze_wellFormed
  | read hread =>
    obtain ⟨r, hr⟩ := exists_ofRecord_of_ofBytes hread
    exact wellFormed_of_ofRecord hr
  | @shadowed d _ _ => exact d.shadowed_wellFormed
  | without removed _ ih => exact ih.without removed
  | edit e _ hedit ih => exact ih.edit hedit

end Gazetteer.Directory
