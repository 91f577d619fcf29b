import Gazetteer.Directory.Basic
import Gazetteer.Proofs.Catalog.Lexicon
import Gazetteer.Proofs.Register

/-!
# Well-formed directories

What every directory that can be made has in common: its names ascend, every name has a proper
region, and every name with duplicates has a list of proper ones. Whether ends are stored or
implied makes no difference to what is answered.

* `entry?_ofPrimaries`: a directory made of primary declarations answers with these declarations.
* `wellFormed_ofPrimaries`: when it is well-formed.
* `WellFormed.find?_eq_some_iff`: looking up a name in a well-formed directory.
-/

namespace Gazetteer

/-- The name of an entry with its declaration. -/
def Entry.declared {κ : Type} (e : Entry κ) : String × Declaration κ := (e.name, e.declaration)

namespace Directory

variable {κ : Type} {d : Directory κ}

/-- **A well-formed directory.** -/
structure WellFormed (d : Directory κ) : Prop where
  ascending : d.names.Pairwise (· < ·)
  size_stops : ∀ stops, d.stops = some stops → stops.size = d.size
  proper : ∀ i, i < d.size → ∃ e, d.entry? i = some e ∧ e.span.Proper
  distinct : d.duplicates.Distinct
  aside : ∀ row ∈ d.duplicates.rows, row.2 ≠ [] ∧ ∀ x ∈ row.2, x.span.Proper

/-! ## Columns -/

theorem length_names (d : Directory κ) : d.names.length = d.size := by simp [names, size]

theorem name?_eq_getElem? (d : Directory κ) (i : Nat) : d.name? i = d.names[i]? := by
  simp [name?, names]

/-- An entry is what the columns have at its ordinal. -/
theorem entry?_columns {i : Nat} {e : Entry κ} (h : d.entry? i = some e) :
    d.headings[i]? = some ⟨e.name, e.kind, e.span.start⟩ ∧ d.stop? i = some e.span.stop ∧
      e.ordinal = i := by
  unfold entry? at h
  obtain ⟨heading, hheading, h⟩ := Option.bind_eq_some_iff.mp h
  obtain ⟨stop, hstop, rfl⟩ := Option.map_eq_some_iff.mp h
  exact ⟨hheading, hstop, rfl⟩

theorem entry?_eq_some {i : Nat} {e : Entry κ} (h : d.entry? i = some e) :
    e.ordinal = i ∧ d.names[i]? = some e.name := by
  obtain ⟨hheading, -, hordinal⟩ := entry?_columns h
  refine ⟨hordinal, ?_⟩
  rw [← name?_eq_getElem?, name?, hheading]
  rfl

/-! ## Entries -/

theorem entry?_lt_size {i : Nat} {e : Entry κ} (h : d.entry? i = some e) : i < d.size := by
  rw [← length_names]
  exact (List.getElem?_eq_some_iff.mp (entry?_eq_some h).2).1

theorem entry?_eq_none {i : Nat} (h : d.size ≤ i) : d.entry? i = none :=
  Option.eq_none_iff_forall_ne_some.mpr fun _ he => absurd (entry?_lt_size he) (not_lt.mpr h)

theorem mem_entries {e : Entry κ} : e ∈ d.entries ↔ d.entry? e.ordinal = some e := by
  rw [entries, List.mem_filterMap]
  constructor
  · rintro ⟨i, -, he⟩
    rwa [(entry?_eq_some he).1]
  · exact fun he => ⟨e.ordinal, List.mem_range.mpr (entry?_lt_size he), he⟩

theorem pairwise_entries (d : Directory κ) :
    d.entries.Pairwise fun a b => a.ordinal < b.ordinal := by
  refine List.pairwise_filterMap.mpr (List.pairwise_lt_range.imp fun {i j} hij a ha b hb => ?_)
  rwa [(entry?_eq_some ha).1, (entry?_eq_some hb).1]

/-! ## Looking up a name -/

namespace WellFormed

theorem indexOf?_eq_some_iff (h : d.WellFormed) {name : String} {i : Nat} :
    d.indexOf? name = some i ↔ d.names[i]? = some name := by
  have hcolumn : d.name? = fun i => d.names[i]? := funext d.name?_eq_getElem?
  rw [indexOf?, hcolumn, ← length_names]
  exact searchName_eq_some_iff h.ascending

/-- **Looking up a name** gives the one entry of that name. -/
theorem find?_eq_some_iff (h : d.WellFormed) {name : String} {e : Entry κ} :
    d.find? name = some e ↔ d.entry? e.ordinal = some e ∧ e.name = name := by
  unfold find?
  rw [Option.bind_eq_some_iff]
  simp only [h.indexOf?_eq_some_iff]
  constructor
  · rintro ⟨i, hi, he⟩
    obtain ⟨rfl, hname⟩ := entry?_eq_some he
    exact ⟨he, Option.some.inj (hname.symm.trans hi)⟩
  · rintro ⟨he, rfl⟩
    exact ⟨e.ordinal, (entry?_eq_some he).2, he⟩

theorem find?_eq_none_iff (h : d.WellFormed) {name : String} :
    d.find? name = none ↔ name ∉ d.names := by
  constructor
  · intro hnone hmem
    obtain ⟨i, hi⟩ := List.mem_iff_getElem?.mp hmem
    have hlt : i < d.size := d.length_names ▸ (List.getElem?_eq_some_iff.mp hi).1
    obtain ⟨e, he, -⟩ := h.proper i hlt
    obtain ⟨rfl, hname⟩ := entry?_eq_some he
    have hfound := h.find?_eq_some_iff.mpr ⟨he, Option.some.inj (hname.symm.trans hi)⟩
    rw [hnone] at hfound
    exact absurd hfound (by simp)
  · intro hmem
    cases hfound : d.find? name with
    | none => rfl
    | some e =>
      obtain ⟨he, rfl⟩ := h.find?_eq_some_iff.mp hfound
      exact absurd (List.mem_of_getElem? (entry?_eq_some he).2) hmem

/-- A name that is declared has an entry. -/
theorem exists_find?_of_mem (h : d.WellFormed) {name : String} (hname : name ∈ d.names) :
    ∃ e ∈ d.entries, d.find? name = some e ∧ e.name = name := by
  cases hfound : d.find? name with
  | none => exact absurd hname (h.find?_eq_none_iff.mp hfound)
  | some e =>
    obtain ⟨hentry, heq⟩ := h.find?_eq_some_iff.mp hfound
    exact ⟨e, mem_entries.mpr hentry, rfl, heq⟩

/-- The declaration that a name is found with is the one it is listed with. -/
theorem find?_declaration_iff (h : d.WellFormed) {name : String} {decl : Declaration κ} :
    (d.find? name).map Entry.declaration = some decl ↔
      (name, decl) ∈ d.entries.map Entry.declared := by
  rw [Option.map_eq_some_iff, List.mem_map]
  simp only [h.find?_eq_some_iff, mem_entries, Entry.declared, Prod.mk.injEq, and_assoc]

theorem contains_iff (h : d.WellFormed) {name : String} :
    d.contains name = true ↔ name ∈ d.names := by
  rw [contains, Option.isSome_iff_exists, List.mem_iff_getElem?]
  exact exists_congr fun i => h.indexOf?_eq_some_iff

theorem proper_of_mem_flatten (h : d.WellFormed) :
    ∀ p ∈ d.duplicates.flatten, p.2.span.Proper := by
  intro p hp
  obtain ⟨items, hrow, hitem⟩ := Register.mem_flatten.mp hp
  exact (h.aside _ hrow).2 _ hitem

end WellFormed

/-! ## Directories made of primary declarations -/

section OfPrimaries

variable (primaries : List (String × Declaration κ)) (duplicates : Register (List (Declaration κ)))

theorem names_ofPrimaries : (ofPrimaries primaries duplicates).names = primaries.map (·.1) := by
  simp [ofPrimaries, names, Function.comp_def]

theorem size_ofPrimaries : (ofPrimaries primaries duplicates).size = primaries.length := by
  simp [ofPrimaries, size]

/-- Stored or implied, the ends are those of the declarations. -/
theorem stop?_ofPrimaries (i : Nat) :
    (ofPrimaries primaries duplicates).stop? i = primaries[i]?.map fun p => p.2.span.stop := by
  unfold ofPrimaries stop?
  simp only
  split_ifs with himplied
  · simp only [List.getElem?_toArray, List.getElem?_map]
    cases hp : primaries[i]? with
    | none => rfl
    | some p =>
      have hstop := List.all_eq_true.mp himplied p (List.mem_of_getElem? hp)
      exact of_decide_eq_true hstop
  · simp only [List.getElem?_toArray, List.getElem?_map]

/-- **A directory answers with the declarations it is made of.** -/
theorem entry?_ofPrimaries (i : Nat) :
    entry? (ofPrimaries primaries duplicates) i =
      primaries[i]?.map fun p => ⟨i, p.1, p.2.kind, p.2.span⟩ := by
  have hheading : (ofPrimaries primaries duplicates).headings[i]? =
      primaries[i]?.map fun p => ⟨p.1, p.2.kind, p.2.span.start⟩ := by
    simp [ofPrimaries]
  unfold entry?
  rw [stop?_ofPrimaries, hheading]
  cases primaries[i]? <;> rfl

variable {primaries duplicates}

theorem entry?_ofPrimaries_eq_some_iff {i : Nat} {e : Entry κ} :
    entry? (ofPrimaries primaries duplicates) i = some e ↔
      primaries[i]? = some (e.name, e.declaration) ∧ e.ordinal = i := by
  rw [entry?_ofPrimaries, Option.map_eq_some_iff]
  constructor
  · rintro ⟨p, hp, rfl⟩
    exact ⟨hp, rfl⟩
  · rintro ⟨hp, rfl⟩
    exact ⟨_, hp, rfl⟩

theorem map_declared_entries :
    (ofPrimaries primaries duplicates).entries.map Entry.declared = primaries := by
  have hrange : List.range primaries.length = primaries.zipIdx.map (·.2) := by
    rw [List.zipIdx_map_snd, List.range_eq_range']
  have hentry : ∀ p ∈ primaries.zipIdx, entry? (ofPrimaries primaries duplicates) p.2 =
      some ⟨p.2, p.1.1, p.1.2.kind, p.1.2.span⟩ := by
    intro p hp
    rw [entry?_ofPrimaries, List.mem_zipIdx_iff_getElem?.mp hp]
    rfl
  rw [entries, size_ofPrimaries, hrange, List.filterMap_map]
  refine (congrArg _ (List.filterMap_congr hentry)).trans ?_
  rw [List.filterMap_eq_map', List.map_map]
  exact List.zipIdx_map_fst 0 primaries

theorem wellFormed_ofPrimaries (hnames : primaries.Pairwise fun p q => p.1 < q.1)
    (hproper : ∀ p ∈ primaries, p.2.span.Proper) (hdistinct : duplicates.Distinct)
    (haside : ∀ row ∈ duplicates.rows, row.2 ≠ [] ∧ ∀ x ∈ row.2, x.span.Proper) :
    (ofPrimaries primaries duplicates).WellFormed := by
  refine ⟨?_, fun stops hstops => ?_, fun i hi => ?_, hdistinct, haside⟩
  · rw [names_ofPrimaries]
    exact List.pairwise_map.mpr hnames
  · rw [size_ofPrimaries]
    simp only [ofPrimaries] at hstops
    split at hstops
    · exact absurd hstops (by simp)
    · rw [← Option.some.inj hstops]
      simp
  · rw [size_ofPrimaries] at hi
    have hentry := entry?_ofPrimaries primaries duplicates i
    rw [List.getElem?_eq_getElem hi] at hentry
    exact ⟨_, hentry, hproper _ (List.getElem_mem hi)⟩

end OfPrimaries

end Directory

end Gazetteer
