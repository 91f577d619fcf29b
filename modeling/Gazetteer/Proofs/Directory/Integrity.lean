import Gazetteer.Proofs.Directory.Obtainable
import Gazetteer.Proofs.Text.ByteOrder

/-!
# Every directory is intact

However a directory was come by, and from whatever bytes, nothing about it is left to chance: its
columns are equally long, its names ascend byte by byte, its regions and duplicates are proper, and
no end is worked out that is out of range. So the checks that an operation makes on what it puts
into a new directory never fail (`obtainable_intact`).
-/

namespace Gazetteer.Directory

variable {κ : Type} {d : Directory κ}

/-- An end that is not stored is the exact sum of start and length; nothing wraps around. -/
theorem stop_of_implied {i : Nat} {e : Entry κ} (hstops : d.stops = none)
    (he : d.entry? i = some e) :
    e.span.stop.val = e.span.start.val + e.name.utf8ByteSize := by
  obtain ⟨hheading, hstop, -⟩ := entry?_columns he
  rw [stop?, hstops] at hstop
  simp only [hheading, Option.bind_some, impliedStop?] at hstop
  split at hstop
  · exact absurd hstop (by simp)
  · exact Offset.ofNat?_eq_some_iff.mp hstop

/-! ## Names that a directory is made of -/

theorem ofAscending?_of_pairwise {names : List String} (h : names.Pairwise (· < ·)) :
    Lexicon.ofAscending? names = some ⟨names.toArray⟩ :=
  Lexicon.ofAscending?_eq_some_iff.mpr ⟨h, rfl⟩

variable [Ranked κ]

/-- Nothing is cut off a record that is accepted: its columns are equally long. -/
theorem columns_of_ofRecord {r : Wire.Record} (h : ofRecord r = .ok d) :
    d.names = r.names ∧ r.ranks.length = r.names.length ∧ r.starts.length = r.names.length ∧
      ∀ stops, r.stops = some stops → stops.length = r.names.length := by
  obtain ⟨⟨-, hcolumns, -⟩, kinds, decls, hkinds, -, -, rfl⟩ := ofRecord_eq_ok_iff.mp h
  obtain ⟨hranks, hstarts, hstops⟩ := columnsAgree_iff.mp hcolumns
  have hlength : kinds.length = r.names.length :=
    (mapM_eq_ok_iff.mp hkinds).length_eq.symm.trans hranks
  exact ⟨names_bare hlength hstarts, hranks, hstarts, hstops⟩

/-! ## Duplicates that are declared again -/

/-- The draft of all the declarations, up to the first that is refused. -/
def Draft.addAll (draft : Draft κ) (decls : List (String × Declaration κ)) :
    Except Error (Draft κ) :=
  decls.foldlM (fun draft p => (draft.add p.1 p.2).map (·.2)) draft

theorem Draft.addAll_eq_ok {decls : List (String × Declaration κ)}
    (h : ∀ p ∈ decls, p.2.span.Proper) (draft : Draft κ) :
    draft.addAll decls = .ok (decls.foldl (fun draft p => draft.offer p.1 p.2) draft) := by
  unfold addAll
  induction decls generalizing draft with
  | nil => rfl
  | cons p decls ih =>
    have hadd : draft.add p.1 p.2 = .ok (draft.record p.1 p.2) :=
      if_pos (h p List.mem_cons_self)
    have hoffer : draft.offer p.1 p.2 = (draft.record p.1 p.2).2 := by rw [Draft.offer, hadd]
    rw [List.foldlM_cons, List.foldl_cons, hadd, hoffer]
    exact ih (fun q hq => h q (List.mem_cons_of_mem p hq)) _

theorem WellFormed.addAll_flatten (h : d.WellFormed) :
    ∃ draft, Draft.empty.addAll d.duplicates.flatten = .ok draft ∧ d.shadowed = draft.freeze :=
  ⟨_, Draft.addAll_eq_ok h.proper_of_mem_flatten Draft.empty, rfl⟩

/-- **Every directory that can be had is intact**, whatever it was made from:

* its names ascend strictly in the order of their UTF-8 bytes;
* kinds, starts and stored ends have one entry for each name, and so they have in every record that
  the directory is read from;
* every name has a region, and it is proper; an end that is not stored is the exact sum of start and
  length, and still an offset;
* every name with duplicates has a list of proper ones that is not empty;
* the names that a directory is made of pass the check for ascending names;
* when the duplicates are declared again, none of them is refused. -/
theorem obtainable_intact (h : d.Obtainable) :
    (d.names.map utf8Bytes).Pairwise (· < ·) ∧
    (d.headings.size = d.names.length ∧
      ∀ stops, d.stops = some stops → stops.size = d.names.length) ∧
    (∀ r : Wire.Record, ofRecord r = .ok d →
      d.names = r.names ∧ r.ranks.length = r.names.length ∧ r.starts.length = r.names.length ∧
        ∀ stops, r.stops = some stops → stops.length = r.names.length) ∧
    (∀ i, i < d.names.length → ∃ e, d.entry? i = some e ∧ e.span.start < e.span.stop ∧
      (d.stops = none → e.span.stop.val = e.span.start.val + e.name.utf8ByteSize)) ∧
    (∀ row ∈ d.duplicates.rows, row.2 ≠ [] ∧ ∀ x ∈ row.2, x.span.start < x.span.stop) ∧
    (∀ primaries duplicates, d = ofPrimaries primaries duplicates →
      Lexicon.ofAscending? (primaries.map (·.1)) = some ⟨(primaries.map (·.1)).toArray⟩) ∧
    ∃ draft, Draft.empty.addAll d.duplicates.flatten = .ok draft ∧ d.shadowed = draft.freeze := by
  have hwell := h.wellFormed
  refine ⟨?_, ⟨d.length_names.symm, fun stops hstops => ?_⟩, fun r => columns_of_ofRecord,
    fun i hi => ?_, hwell.aside, ?_, hwell.addAll_flatten⟩
  · exact List.pairwise_map.mpr (hwell.ascending.imp lt_iff_utf8Bytes_lt.mp)
  · rw [length_names]
    exact hwell.size_stops stops hstops
  · rw [length_names] at hi
    obtain ⟨e, he, hproper⟩ := hwell.proper i hi
    exact ⟨e, he, hproper, fun hstops => stop_of_implied hstops he⟩
  · rintro primaries duplicates rfl
    have hascending := hwell.ascending
    rw [names_ofPrimaries] at hascending
    exact ofAscending?_of_pairwise hascending

theorem obtainable_intact_foreign_bytes :
    ∃ d : Directory Kind, d.Obtainable ∧ d.stops = none ∧ d.names = ["ab", "é"] ∧
      d.duplicates.names = ["zz"] ∧ (d.names.map utf8Bytes).Pairwise (· < ·) ∧
      (∃ e, d.entry? 1 = some e ∧ e.span.start < e.span.stop ∧
        e.span.stop.val = e.span.start.val + e.name.utf8ByteSize) ∧
      ∃ draft, Draft.empty.addAll d.duplicates.flatten = .ok draft ∧ d.shadowed = draft.freeze := by
  -- nothing has written these bytes: the name that has a duplicate is not declared
  let bytes : List UInt8 :=
    [1, 2, 2, 97, 98, 2, 195, 169, 2, 1, 0, 2, 5, 200, 1, 0, 1, 2, 122, 122, 0, 3, 9]
  let d : Directory Kind :=
    { headings := #[⟨"ab", .lexerRule, 5⟩, ⟨"é", .parserRule, 200⟩]
      stops := none
      duplicates := ⟨[("zz", [⟨.parserRule, ⟨3, 9⟩⟩])]⟩ }
  have hread : ofBytes bytes = .ok d := by rfl
  have hobtainable : d.Obtainable := .read hread
  obtain ⟨hnames, -, -, hregions, -, -, hshadowed⟩ := obtainable_intact hobtainable
  obtain ⟨e, he, hproper, hstop⟩ := hregions 1 (by decide)
  exact ⟨d, hobtainable, rfl, rfl, rfl, hnames, ⟨e, he, hproper, hstop rfl⟩, hshadowed⟩

end Gazetteer.Directory
