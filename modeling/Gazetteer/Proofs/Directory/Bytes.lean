import Gazetteer.Proofs.Directory.Obtainable
import Gazetteer.Proofs.Wire.RoundTrip
import Gazetteer.Proofs.Wire.Shortage
import Mathlib

/-!
# Directories written and read back

The checks on a record are no stricter than they have to be: the record of every well-formed
directory is accepted as this very directory, with the duplicates of all names in the order in which
they were (`WellFormed.ofRecord_toRecord`). Records are read back from their bytes, so whatever can
be had can be written and read back.

The bytes say where they end (`ofBytes_toBytes_delimited`): what follows them is not looked at, and
no part of them passes for a smaller directory.
-/

namespace Gazetteer.Directory

open Wire

variable {κ : Type} [Ranked κ] {d : Directory κ}

/-! ## Records -/

theorem kindOf_rank (kind : κ) : kindOf (Ranked.rank kind) = .ok kind := by
  rw [kindOf, Ranked.ofRank?_rank]

theorem bare_toRecord (d : Directory κ) :
    bare d.toRecord (d.headings.toList.map (·.kind)) = { d with duplicates := .empty } := by
  have hstops : (d.stops.map (·.toList)).map (·.toArray) = d.stops := by
    cases d.stops <;> simp
  simp only [bare, toRecord, names, List.zip_map', List.map_map, hstops]
  simp [Function.comp_def]

theorem duplicates_toRecord (d : Directory κ) :
    d.toRecord.duplicates =
      d.duplicates.flatten.map fun p => ⟨p.1, Ranked.rank p.2.kind, p.2.span⟩ := by
  simp only [toRecord, Register.flatten, List.map_flatMap, List.map_map]
  rfl

theorem duplicateOf_of_proper {name : String} {x : Declaration κ} (h : x.span.Proper) :
    duplicateOf ⟨name, Ranked.rank x.kind, x.span⟩ = .ok (name, x) := by
  rw [duplicateOf, if_pos h, kindOf_rank]
  rfl

namespace WellFormed

theorem columnsAgree_toRecord (h : d.WellFormed) : columnsAgree d.toRecord = true := by
  refine columnsAgree_iff.mpr ⟨by simp [toRecord, names], by simp [toRecord, names], ?_⟩
  intro stops hstops
  obtain ⟨column, hcolumn, rfl⟩ := Option.map_eq_some_iff.mp hstops
  rw [Array.length_toList, h.size_stops column hcolumn]
  exact d.length_names.symm

/-- **The record of a well-formed directory is accepted** as this directory. -/
theorem ofRecord_toRecord (h : d.WellFormed) : ofRecord d.toRecord = .ok d := by
  have hdecls : d.toRecord.duplicates.mapM duplicateOf = .ok (d.duplicates.flatten.map id) := by
    rw [duplicates_toRecord]
    exact mapM_map_eq_ok fun p hp => duplicateOf_of_proper (h.proper_of_mem_flatten p hp)
  have hgather : gather d.duplicates.flatten = d.duplicates :=
    Register.pushAll_flatten _ h.distinct fun row hrow => (h.aside row hrow).1
  rw [List.map_id] at hdecls
  refine ofRecord_eq_ok_iff.mpr ⟨⟨rfl, h.columnsAgree_toRecord, ascending_iff.mpr h.ascending⟩,
    d.headings.toList.map (·.kind), d.duplicates.flatten, ?_, ?_, hdecls, ?_⟩
  · exact mapM_map_eq_ok fun x _ => kindOf_rank x.kind
  · rw [bare_toRecord]
    exact emptyRegion?_eq_none_iff.mpr h.proper
  · rw [bare_toRecord, hgather]

end WellFormed

/-! ## Bytes -/

/-- **Whatever can be had can be written and read back**: names, kinds, regions, whether ends are
stored, and the duplicates with the order of the names and of the declarations of each. Lengths are
numbers of 64 bits in the format; bytes that a machine can hold are no more than that. -/
theorem ofBytes_toBytes_of_obtainable (h : d.Obtainable) (hlength : d.toBytes.length < 2 ^ 64) :
    ofBytes d.toBytes = .ok d := by
  have hread : Record.read.run d.toBytes = .ok (d.toRecord, []) := by
    have hrecord := inverts_record d.toRecord hlength []
    rwa [List.append_nil] at hrecord
  rw [ofBytes, hread]
  simp only
  rw [h.wellFormed.ofRecord_toRecord]
  rfl

theorem ofBytes_toBytes_rule_and_token :
    ∃ d : Directory Kind, d.Obtainable ∧ d.hasStops = true ∧
      d.duplicatesOf "expr" = [⟨.lexerRule, ⟨40, 52⟩⟩, ⟨.channel, ⟨7, 9⟩⟩] ∧
      d.toBytes.length < 2 ^ 64 ∧ ofBytes d.toBytes = .ok d := by
  -- a rule that is declared three times, and a token whose region is longer than its name
  let requests : List (Draft.Request Kind) :=
    [.add "expr" ⟨.lexerRule, ⟨40, 52⟩⟩, .addName "ID" .lexerRule 300,
      .add "expr" ⟨.parserRule, ⟨100000, 100004⟩⟩, .add "expr" ⟨.channel, ⟨7, 9⟩⟩,
      .relocate "ID" ⟨2, 9⟩]
  have hobtainable := Obtainable.drafted requests
  have hlength : (Draft.empty.submitAll requests).freeze.toBytes.length < 2 ^ 64 := by cbv
  exact ⟨_, hobtainable, by cbv, by cbv, hlength, ofBytes_toBytes_of_obtainable hobtainable hlength⟩

/-- **The bytes of a directory say where they end.** Whatever can be had is read back from its bytes
with anything behind them, and wherever its bytes are cut short, they are refused because they ran
out: no part of them is read as another directory or refused for another reason. -/
theorem ofBytes_toBytes_delimited (h : d.Obtainable) (hlength : d.toBytes.length < 2 ^ 64) :
    (∀ part, part <+: d.toBytes → part ≠ d.toBytes →
      (ofBytes part : Except Error (Directory κ)) = .error (.decode .endOfInput)) ∧
    ∀ more, ofBytes (d.toBytes ++ more) = .ok d := by
  have hreads : Reads Record.read d.toBytes d.toRecord := inverts_record d.toRecord hlength
  refine ⟨fun part hpart hne => ?_, fun more => ?_⟩
  · rw [ofBytes, onward_record.run_eq_endOfInput hreads hpart hne]
  · rw [ofBytes, hreads more]
    simp only
    rw [h.wellFormed.ofRecord_toRecord]
    rfl

theorem ofBytes_toBytes_delimited_inside_number :
    ∃ d : Directory Kind, d.Obtainable ∧ d.toBytes.length < 2 ^ 64 ∧
      d.toBytes = [1, 1, 2, 73, 68, 1, 1, 1, 172, 2, 0, 0] ∧
      (ofBytes [1, 1, 2, 73, 68, 1, 1, 1, 172] : Except Error (Directory Kind)) =
        .error (.decode .endOfInput) ∧
      ofBytes (d.toBytes ++ [255, 7]) = .ok d := by
  -- the start of the one token takes two bytes, and the cut falls between them
  let requests : List (Draft.Request Kind) := [.addName "ID" .lexerRule 300]
  have hobtainable := Obtainable.drafted requests
  have hbytes : (Draft.empty.submitAll requests).freeze.toBytes =
      [1, 1, 2, 73, 68, 1, 1, 1, 172, 2, 0, 0] := by cbv
  have hlength : (Draft.empty.submitAll requests).freeze.toBytes.length < 2 ^ 64 := by
    rw [hbytes]
    decide
  obtain ⟨hshort, hlong⟩ := ofBytes_toBytes_delimited hobtainable hlength
  refine ⟨_, hobtainable, hlength, hbytes, hshort _ ?_ ?_, hlong _⟩
  · rw [hbytes]
    exact ⟨[2, 0, 0], rfl⟩
  · rw [hbytes]
    decide

end Gazetteer.Directory
