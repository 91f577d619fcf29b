import Gazetteer.Proofs.Directory.Draftable
import Mathlib

/-!
# Directories without some names

Names can be left out of a directory that is finished, or of the requests that it is drafted from.
It makes no difference (`without_freeze_exact`): not to the order of the duplicates, and not to
whether ends are stored, which one name that is left out may have been the only reason for.

The two meet in the middle. A request changes what a draft holds for its own name only, so a draft
made of fewer requests is the draft made of all of them with names left out
(`Draft.filterNames_submitAll`); and freezing sorts what is left as it would have been sorted among
the rest (`Draft.Sound.without_freeze`).
-/

namespace Gazetteer.Directory

variable {κ : Type}

/-! ## Requests -/

/-- The name that a request is about. -/
def Draft.Request.name : Draft.Request κ → String
  | .add name _ => name
  | .addName name _ _ => name
  | .relocate name _ => name

namespace Draft

theorem Request.name_of_declared? {r : Request κ} {name : String} {decl : Declaration κ}
    (h : r.declared? = some (name, decl)) : r.name = name := by
  cases r with
  | add n x =>
    simp only [declared?] at h
    split at h
    · exact (Prod.mk.inj (Option.some.inj h)).1
    · exact absurd h (by simp)
  | addName n kind start =>
    obtain ⟨stop, -, hx⟩ := Option.map_eq_some_iff.mp h
    exact (Prod.mk.inj hx).1
  | relocate n span => exact absurd h (by simp [declared?])

theorem Request.name_of_relocated? {r : Request κ} {name : String} {span : Span}
    (h : r.relocated? = some (name, span)) : r.name = name := by
  cases r with
  | relocate n s =>
    simp only [relocated?] at h
    split at h
    · exact (Prod.mk.inj (Option.some.inj h)).1
    · exact absurd h (by simp)
  | _ => exact absurd h (by simp [relocated?])

/-! ## Drafts with fewer names -/

/-- The draft of the names for which `keep` holds. -/
def filterNames (d : Draft κ) (keep : String → Bool) : Draft κ :=
  ⟨d.primaries.filterNames keep, d.duplicates.filterNames keep⟩

variable {d : Draft κ} {keep : String → Bool} {name : String}

section Kept

variable (hkeep : keep name = true)

include hkeep

theorem filterNames_promote (decl : Declaration κ) :
    (d.promote name decl).filterNames keep = (d.filterNames keep).promote name decl :=
  congrArg (Draft.mk · _) (d.primaries.filterNames_alter _ hkeep)

theorem filterNames_divert (decl : Declaration κ) :
    (d.divert name decl).filterNames keep = (d.filterNames keep).divert name decl :=
  congrArg (Draft.mk _) (d.duplicates.filterNames_alter _ hkeep)

theorem find?_filterNames : (d.filterNames keep).primaries.find? name = d.primaries.find? name :=
  d.primaries.find?_filterNames hkeep

theorem filterNames_record [Ranked κ] (decl : Declaration κ) :
    (d.record name decl).2.filterNames keep = ((d.filterNames keep).record name decl).2 := by
  cases hfind : d.primaries.find? name with
  | none =>
    rw [record_of_none hfind, record_of_none ((find?_filterNames hkeep).trans hfind)]
    exact filterNames_promote hkeep decl
  | some primary =>
    rw [record_of_some hfind, record_of_some ((find?_filterNames hkeep).trans hfind)]
    by_cases hrank : Ranked.rank decl.kind < Ranked.rank primary.kind
    · rw [if_pos hrank, if_pos hrank, filterNames_divert hkeep, filterNames_promote hkeep]
    · rw [if_neg hrank, if_neg hrank, filterNames_divert hkeep]

end Kept

section LeftOut

variable (hkeep : ¬ keep name = true)

include hkeep

theorem filterNames_promote_of_not (decl : Declaration κ) :
    (d.promote name decl).filterNames keep = d.filterNames keep :=
  congrArg (Draft.mk · _) (d.primaries.filterNames_alter_of_not _ hkeep)

theorem filterNames_divert_of_not (decl : Declaration κ) :
    (d.divert name decl).filterNames keep = d.filterNames keep :=
  congrArg (Draft.mk _) (d.duplicates.filterNames_alter_of_not _ hkeep)

end LeftOut

variable [Ranked κ]

/-- **A request about a name that is kept** can be made before or after the others are left out. -/
theorem filterNames_submit {r : Request κ} (hkeep : keep r.name = true) :
    (d.submit r).filterNames keep = (d.filterNames keep).submit r := by
  cases hdecl : r.declared? with
  | some x =>
    obtain ⟨name, decl⟩ := x
    rw [Request.name_of_declared? hdecl] at hkeep
    rw [submit_of_declared? hdecl, submit_of_declared? hdecl, filterNames_record hkeep]
  | none =>
    cases hreloc : r.relocated? with
    | some x =>
      obtain ⟨name, span⟩ := x
      rw [Request.name_of_relocated? hreloc] at hkeep
      rw [submit, submit, answer_of_relocated? hreloc, answer_of_relocated? hreloc,
        find?_filterNames hkeep]
      cases d.primaries.find? name with
      | none => rfl
      | some primary => exact filterNames_promote hkeep _
    | none =>
      obtain ⟨x, hx⟩ := exists_answer_eq_error (d := d) hdecl hreloc
      obtain ⟨y, hy⟩ := exists_answer_eq_error (d := d.filterNames keep) hdecl hreloc
      rw [submit, hx, submit, hy]

/-- **A request about a name that is left out** need not have been made. -/
theorem filterNames_submit_of_not {r : Request κ} (hkeep : ¬ keep r.name = true) :
    (d.submit r).filterNames keep = d.filterNames keep := by
  have ho := d.outcome_submit r
  generalize d.submit r = d' at ho
  cases ho with
  | refused _ _ => rfl
  | nowhere _ _ => rfl
  | relocated hreloc _ =>
    rw [Request.name_of_relocated? hreloc] at hkeep
    exact filterNames_promote_of_not hkeep _
  | first hdecl _ =>
    rw [Request.name_of_declared? hdecl] at hkeep
    exact filterNames_promote_of_not hkeep _
  | displaced hdecl _ _ =>
    rw [Request.name_of_declared? hdecl] at hkeep
    rw [filterNames_divert_of_not hkeep, filterNames_promote_of_not hkeep]
  | setAside hdecl _ _ =>
    rw [Request.name_of_declared? hdecl] at hkeep
    exact filterNames_divert_of_not hkeep _

/-- **Names can be left out of the draft or of the requests.** -/
theorem filterNames_submitAll (d : Draft κ) (keep : String → Bool) (requests : List (Request κ)) :
    (d.submitAll requests).filterNames keep =
      (d.filterNames keep).submitAll (requests.filter fun r => keep r.name) := by
  unfold submitAll
  induction requests generalizing d with
  | nil => rfl
  | cons r requests ih =>
    rw [List.foldl_cons, ih]
    by_cases hkeep : keep r.name = true
    · rw [List.filter_cons, if_pos hkeep, List.foldl_cons, filterNames_submit hkeep]
    · rw [List.filter_cons, if_neg hkeep, filterNames_submit_of_not hkeep]

end Draft

/-! ## Directories with fewer names -/

theorem without_ofPrimaries (primaries : List (String × Declaration κ))
    (duplicates : Register (List (Declaration κ))) (removed : List String) :
    (ofPrimaries primaries duplicates).without removed =
      ofPrimaries (primaries.filter fun p => !removed.contains p.1)
        (duplicates.filterNames fun name => !removed.contains name) := by
  have hlisted : ((ofPrimaries primaries duplicates).entries.filter fun e =>
      !removed.contains e.name).map Entry.declared =
        primaries.filter fun p => !removed.contains p.1 := by
    calc _ = ((ofPrimaries primaries duplicates).entries.map Entry.declared).filter
            fun p => !removed.contains p.1 := List.filter_map.symm
      _ = primaries.filter fun p => !removed.contains p.1 := by rw [map_declared_entries]
  rw [← hlisted]
  rfl

/-- **Names that are left out one after another** are left out at once. -/
theorem without_without (d : Directory κ) {first second all : List String}
    (hall : ∀ name, name ∈ all ↔ name ∈ first ∨ name ∈ second) :
    (d.without first).without second = d.without all := by
  have htest : ∀ name, (!second.contains name && !first.contains name) = !all.contains name := by
    intro name
    rw [Bool.eq_iff_iff]
    simp [hall, and_comm]
  have hlisted : ((d.entries.filter fun e => !first.contains e.name).map Entry.declared).filter
      (fun p => !second.contains p.1) =
        (d.entries.filter fun e => !all.contains e.name).map Entry.declared := by
    rw [List.filter_map, List.filter_filter]
    exact congrArg (List.map _) (List.filter_congr fun e _ => htest e.name)
  have haside : (d.duplicates.filterNames fun name => !first.contains name).filterNames
      (fun name => !second.contains name) =
        d.duplicates.filterNames fun name => !all.contains name := by
    refine congrArg Register.mk ?_
    show (d.duplicates.rows.filter _).filter _ = _
    rw [List.filter_filter]
    exact List.filter_congr fun row _ => htest row.1
  calc (d.without first).without second
      = ofPrimaries _ _ := without_ofPrimaries _ _ second
    _ = d.without all := by
      show ofPrimaries (((d.entries.filter _).map Entry.declared).filter _) _ = _
      rw [hlisted, haside]
      rfl

namespace Draft.Sound

variable {d : Draft κ} (h : d.Sound)

include h

/-- Names are sorted alike before and after others are left out. -/
theorem sortedPrimaries_filterNames (keep : String → Bool) :
    (d.filterNames keep).sortedPrimaries = d.sortedPrimaries.filter fun p => keep p.1 := by
  have hdistinct : ((d.filterNames keep).primaries.rows.map (·.1)).Nodup :=
    List.Nodup.sublist (List.filter_sublist.map _) h.distinct
  have hasymm : Std.Asymm fun p q : String × Declaration κ => p.1 < q.1 := ⟨fun p q => lt_asymm⟩
  refine List.Pairwise.eq_of_mem_iff
    (pairwise_lt_mergeSort (fun _ _ => decide_eq_true_iff) hdistinct)
    (h.pairwise_sortedPrimaries.filter _) fun {p} => ?_
  rw [mem_sortedPrimaries, List.mem_filter, mem_sortedPrimaries]
  exact List.mem_filter

theorem without_freeze (removed : List String) :
    d.freeze.without removed = (d.filterNames fun name => !removed.contains name).freeze := by
  show (ofPrimaries d.sortedPrimaries d.duplicates).without removed =
    ofPrimaries (d.filterNames _).sortedPrimaries _
  rw [without_ofPrimaries, h.sortedPrimaries_filterNames]
  rfl

end Draft.Sound

/-- Nothing changes when names are left out of which there is nothing. -/
theorem WellFormed.without_of_forall {d : Directory κ} (h : d.WellFormed)
    (hneeded : d.StopsNeeded) {removed : List String} (hlisted : ∀ name ∈ d.names, name ∉ removed)
    (haside : ∀ name ∈ d.duplicates.names, name ∉ removed) : d.without removed = d := by
  have hentries : (d.entries.filter fun e => !removed.contains e.name) = d.entries := by
    refine List.filter_eq_self.mpr fun e he => ?_
    have hname : e.name ∈ d.names := h.map_name_entries ▸ List.mem_map_of_mem he
    simpa using hlisted e.name hname
  have hrows : (d.duplicates.filterNames fun name => !removed.contains name) = d.duplicates := by
    refine congrArg Register.mk (List.filter_eq_self.mpr fun row hrow => ?_)
    simpa using haside row.1 (List.mem_map_of_mem hrow)
  calc d.without removed
      = ofPrimaries (d.entries.map Entry.declared) d.duplicates := by
        rw [Directory.without, hentries, hrows]
        rfl
    _ = d := h.ofPrimaries_entries hneeded

/-- **Leaving names out of a directory is leaving out the requests about them**: the two directories
are equal, down to the order of the duplicates and to whether ends are stored. So it makes no
difference to leave out a name twice, to leave out some names first and others then, or to leave out
names that are not declared. -/
theorem without_freeze_exact [Ranked κ] (requests : List (Draft.Request κ))
    (removed : List String) :
    let d := ((Draft.empty : Draft κ).submitAll requests).freeze
    d.without removed =
      (Draft.empty.submitAll (requests.filter fun r => !removed.contains r.name)).freeze ∧
    (d.without removed).without removed = d.without removed ∧
    (∀ before all : List String, (∀ name, name ∈ all ↔ name ∈ before ∨ name ∈ removed) →
      (d.without before).without removed = d.without all) ∧
    ((∀ name ∈ removed, d.contains name = false) → d.without removed = d) := by
  intro d
  have hsound := Draft.sound_submitAll requests
  have hwell : d.WellFormed := hsound.freeze_wellFormed
  refine ⟨?_, d.without_without fun name => (or_self_iff).symm,
    fun before all hall => d.without_without hall, fun hnone => ?_⟩
  · rw [hsound.without_freeze, Draft.filterNames_submitAll]
    rfl
  · have hnot : ∀ name, d.contains name = true → name ∉ removed := fun name hname hmem => by
      rw [hnone name hmem] at hname
      exact absurd hname (by simp)
    exact hwell.without_of_forall (stopsNeeded_freeze requests)
      (fun name hname => hnot name (hwell.contains_iff.mpr hname))
      fun name hname => hnot name ((duplicatesShadowed_freeze requests).declared name hname)

end Gazetteer.Directory
