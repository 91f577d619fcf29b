import Gazetteer.Proofs.Directory.Integrity
import Gazetteer.Proofs.Directory.Shadowing
import Mathlib

/-!
# Directories that can be drafted

What is frozen from a draft is more than well-formed. Its duplicates are shadowed
(`DuplicatesShadowed`), and it stores ends only if one of them is not implied (`StopsNeeded`). And
this is all: a well-formed directory with both can be drafted, by declaring what it lists and then
what it has set aside (`WellFormed.freeze_restatement`).

Reading from bytes checks neither of the two. So what is read can be drafted iff it happens to have
both (`drafted_iff_of_ofBytes`), and there are bytes that miss each of them
(`accepted_undraftable_bytes`).
-/

namespace Gazetteer

variable {κ : Type}

theorem impliedStop?_eq_stop_iff {name : String} {s : Span} (h : s.Proper) :
    impliedStop? name s.start = some s.stop ↔
      s.stop.val = s.start.val + name.utf8ByteSize := by
  have hlt : s.start.val < s.stop.val := h
  unfold impliedStop?
  split
  · simp only [reduceCtorEq, false_iff]
    omega
  · exact Offset.ofNat?_eq_some_iff

namespace Directory

variable {d d' : Directory κ}

/-! ## Ends that are needed -/

/-- **Ends are stored only if one of them is not implied.** -/
def StopsNeeded (d : Directory κ) : Prop :=
  d.stops ≠ none → ∃ x ∈ d.entries, x.span.stop.val ≠ x.span.start.val + x.name.utf8ByteSize

section OfPrimaries

variable {primaries : List (String × Declaration κ)} {duplicates : Register (List (Declaration κ))}

/-- When ends are stored for declarations that are all proper. -/
theorem stops_ofPrimaries (h : ∀ p ∈ primaries, p.2.span.Proper) :
    (ofPrimaries primaries duplicates).stops =
      if ∀ p ∈ primaries, p.2.span.stop.val = p.2.span.start.val + p.1.utf8ByteSize then none
      else some (primaries.map fun p => p.2.span.stop).toArray := by
  have himplied : (primaries.all fun p =>
      impliedStop? p.1 p.2.span.start = some p.2.span.stop) = true ↔
        ∀ p ∈ primaries, p.2.span.stop.val = p.2.span.start.val + p.1.utf8ByteSize := by
    simp only [List.all_eq_true, decide_eq_true_iff]
    exact forall₂_congr fun p hp => impliedStop?_eq_stop_iff (h p hp)
  exact if_congr himplied rfl rfl

theorem stopsNeeded_ofPrimaries (h : ∀ p ∈ primaries, p.2.span.Proper) :
    (ofPrimaries primaries duplicates).StopsNeeded := by
  intro hstops
  rw [stops_ofPrimaries h] at hstops
  split at hstops
  · exact absurd rfl hstops
  · rename_i hneeded
    push Not at hneeded
    obtain ⟨p, hp, hne⟩ := hneeded
    have hlisted : p ∈ (ofPrimaries primaries duplicates).entries.map Entry.declared := by
      rwa [map_declared_entries]
    obtain ⟨x, hx, rfl⟩ := List.mem_map.mp hlisted
    exact ⟨x, hx, hne⟩

end OfPrimaries

/-! ## Made of what is listed -/

namespace WellFormed

theorem map_heading_entries (h : d.WellFormed) :
    (d.entries.map fun x => (⟨x.name, x.kind, x.span.start⟩ : Heading κ)) =
      d.headings.toList := by
  refine h.map_entries_eq Array.length_toList fun i x hx => ?_
  rw [Array.getElem?_toList, (entry?_columns hx).1]

theorem map_stop_entries (h : d.WellFormed) {stops : Array Offset} (hstops : d.stops = some stops) :
    d.entries.map (·.span.stop) = stops.toList := by
  refine h.map_entries_eq (Array.length_toList.trans (h.size_stops stops hstops)) fun i x hx => ?_
  have hstop := (entry?_columns hx).2.1
  rw [stop?, hstops] at hstop
  rw [Array.getElem?_toList]
  exact hstop

theorem proper_of_mem_declared (h : d.WellFormed) :
    ∀ p ∈ d.entries.map Entry.declared, p.2.span.Proper := by
  intro p hp
  obtain ⟨x, hx, rfl⟩ := List.mem_map.mp hp
  exact h.proper_of_mem_entries hx

theorem pairwise_declared (h : d.WellFormed) :
    (d.entries.map Entry.declared).Pairwise fun p q => p.1 < q.1 := by
  have hnames := h.ascending
  rw [← h.map_name_entries, List.pairwise_map] at hnames
  exact List.pairwise_map.mpr hnames

/-- **A directory is made of what it lists**, unless it stores ends without need. -/
theorem ofPrimaries_entries (h : d.WellFormed) (hneeded : d.StopsNeeded) :
    ofPrimaries (d.entries.map Entry.declared) d.duplicates = d := by
  have hheadings : (ofPrimaries (d.entries.map Entry.declared) d.duplicates).headings =
      d.headings := by
    rw [ofPrimaries, List.map_map]
    exact congrArg List.toArray h.map_heading_entries
  have hstops : (ofPrimaries (d.entries.map Entry.declared) d.duplicates).stops = d.stops := by
    rw [stops_ofPrimaries h.proper_of_mem_declared, List.map_map]
    cases hd : d.stops with
    | none =>
      refine if_pos fun p hp => ?_
      obtain ⟨x, hx, rfl⟩ := List.mem_map.mp hp
      exact stop_of_implied hd (mem_entries.mp hx)
    | some stops =>
      obtain ⟨x, hx, hne⟩ := hneeded (by simp [hd])
      rw [if_neg fun himplied => hne (List.forall_mem_map.mp himplied x hx)]
      exact congrArg (fun column : List Offset => some column.toArray) (h.map_stop_entries hd)
  calc ofPrimaries (d.entries.map Entry.declared) d.duplicates
      = ⟨(ofPrimaries (d.entries.map Entry.declared) d.duplicates).headings,
          (ofPrimaries (d.entries.map Entry.declared) d.duplicates).stops, d.duplicates⟩ := rfl
    _ = d := by rw [hheadings, hstops]

end WellFormed

/-! ## Declaring everything again -/

section Restating

variable [Ranked κ]

/-- The requests that add declarations, one after the other. -/
def Draft.additions (decls : List (String × Declaration κ)) : List (Draft.Request κ) :=
  decls.map fun p => .add p.1 p.2

theorem Draft.submitAll_additions_cons (draft : Draft κ) {p : String × Declaration κ}
    (hproper : p.2.span.Proper) (decls : List (String × Declaration κ)) :
    draft.submitAll (additions (p :: decls)) =
      (draft.record p.1 p.2).2.submitAll (additions decls) := by
  have hdeclared : (Request.add p.1 p.2).declared? = some (p.1, p.2) := if_pos hproper
  rw [← submit_of_declared? hdeclared]
  rfl

/-- First declarations become the primary ones, in their order. -/
theorem Draft.submitAll_first {decls : List (String × Declaration κ)}
    (hproper : ∀ p ∈ decls, p.2.span.Proper) (draft : Draft κ)
    (hnew : ((draft.primaries.rows ++ decls).map (·.1)).Nodup) :
    draft.submitAll (additions decls) =
      { draft with primaries := ⟨draft.primaries.rows ++ decls⟩ } := by
  induction decls generalizing draft with
  | nil =>
    rw [List.append_nil]
    rfl
  | cons p decls ih =>
    have hnone : p.1 ∉ draft.primaries.rows.map (·.1) := fun hmem => by
      rw [List.map_append, List.nodup_append] at hnew
      exact hnew.2.2 p.1 hmem p.1 List.mem_cons_self rfl
    have hpromote : draft.promote p.1 p.2 =
        { draft with primaries := ⟨draft.primaries.rows ++ [p]⟩ } := by
      rw [promote, Register.insert, Register.alter, Register.amend_of_notMem hnone]
    have hrest := ih (fun q hq => hproper q (List.mem_cons_of_mem _ hq))
      (draft.promote p.1 p.2) (by rwa [hpromote, List.append_assoc])
    rw [submitAll_additions_cons draft (hproper p List.mem_cons_self),
      record_of_none (Register.find?_eq_none_iff.mpr hnone), hrest, hpromote, List.append_assoc]
    rfl

/-- Declarations that outrank nothing are set aside, in their order. -/
theorem Draft.submitAll_setAside {decls : List (String × Declaration κ)} (draft : Draft κ)
    (hdecls : ∀ p ∈ decls, p.2.span.Proper ∧ ∃ primary,
      draft.primaries.find? p.1 = some primary ∧
        Ranked.rank primary.kind ≤ Ranked.rank p.2.kind) :
    draft.submitAll (additions decls) =
      { draft with duplicates := draft.duplicates.pushAll decls } := by
  induction decls generalizing draft with
  | nil => rfl
  | cons p decls ih =>
    obtain ⟨hproper, primary, hprimary, hrank⟩ := hdecls p List.mem_cons_self
    rw [submitAll_additions_cons draft hproper, record_of_some hprimary,
      if_neg (not_lt.mpr hrank)]
    exact ih (draft.divert p.1 p.2) fun q hq => hdecls q (List.mem_cons_of_mem _ hq)

/-- The requests that declare what a directory lists, and then what it has set aside. -/
def restatement (d : Directory κ) : List (Draft.Request κ) :=
  Draft.additions (d.entries.map Entry.declared) ++ Draft.additions d.duplicates.flatten

/-- What is set aside is listed as something that it does not outrank. -/
theorem DuplicatesShadowed.exists_entry_of_mem_flatten (hshadowed : d.DuplicatesShadowed)
    (h : d.WellFormed) {p : String × Declaration κ} (hp : p ∈ d.duplicates.flatten) :
    ∃ x ∈ d.entries, x.name = p.1 ∧ Ranked.rank x.kind ≤ Ranked.rank p.2.kind := by
  obtain ⟨items, hrow, hitem⟩ := Register.mem_flatten.mp hp
  have hname := hshadowed.declared p.1 (List.mem_map.mpr ⟨_, hrow, rfl⟩)
  obtain ⟨x, hx, hfind, heq⟩ := h.exists_find?_of_mem (h.contains_iff.mp hname)
  have haside : p.2 ∈ d.duplicatesOf p.1 :=
    (Register.mem_listOf_iff h.distinct).mpr ⟨items, hrow, hitem⟩
  exact ⟨x, hx, heq, hshadowed.rank_le p.1 x hfind p.2 haside⟩

/-- **A directory is drafted by declaring it again.** -/
theorem WellFormed.freeze_restatement (h : d.WellFormed) (hshadowed : d.DuplicatesShadowed)
    (hneeded : d.StopsNeeded) : (Draft.empty.submitAll d.restatement).freeze = d := by
  have hdistinct : ((d.entries.map Entry.declared).map (·.1)).Nodup :=
    List.pairwise_map.mpr (h.pairwise_declared.imp ne_of_lt)
  have hfirst : Draft.empty.submitAll (Draft.additions (d.entries.map Entry.declared)) =
      ⟨⟨d.entries.map Entry.declared⟩, .empty⟩ :=
    Draft.submitAll_first h.proper_of_mem_declared Draft.empty hdistinct
  -- what is set aside comes when its name is declared already, and does not outrank it
  have haside : ∀ p ∈ d.duplicates.flatten, p.2.span.Proper ∧ ∃ primary,
      (Register.mk (d.entries.map Entry.declared)).find? p.1 = some primary ∧
        Ranked.rank primary.kind ≤ Ranked.rank p.2.kind := by
    intro p hp
    obtain ⟨x, hx, hname, hrank⟩ := hshadowed.exists_entry_of_mem_flatten h hp
    refine ⟨h.proper_of_mem_flatten p hp, x.declaration, ?_, hrank⟩
    rw [← hname]
    exact (Register.find?_eq_some_iff hdistinct).mpr (List.mem_map_of_mem hx)
  have hgathered : Register.empty.pushAll d.duplicates.flatten = d.duplicates :=
    Register.pushAll_flatten _ h.distinct fun row hrow => (h.aside row hrow).1
  have hdraft : Draft.empty.submitAll d.restatement =
      ⟨⟨d.entries.map Entry.declared⟩, d.duplicates⟩ := by
    rw [restatement, Draft.submitAll, List.foldl_append, ← Draft.submitAll, ← Draft.submitAll,
      hfirst, Draft.submitAll_setAside _ haside, hgathered]
  have hsorted : (d.entries.map Entry.declared).mergeSort (fun a b => a.1 ≤ b.1) =
      d.entries.map Entry.declared :=
    List.mergeSort_of_pairwise (h.pairwise_declared.imp fun hlt => decide_eq_true hlt.le)
  rw [hdraft, Draft.freeze, hsorted]
  exact h.ofPrimaries_entries hneeded

end Restating

/-! ## What is drafted -/

theorem stopsNeeded_freeze [Ranked κ] (requests : List (Draft.Request κ)) :
    ((Draft.empty : Draft κ).submitAll requests).freeze.StopsNeeded := by
  have hsound := Draft.sound_submitAll requests
  exact stopsNeeded_ofPrimaries fun p hp => hsound.proper p (Draft.mem_sortedPrimaries.mp hp)

section Agreeing

variable [DecidableEq κ]

/-- Directories that agree have the same columns, and the same rows of duplicates. -/
theorem agrees_iff (h : d.WellFormed) (h' : d'.WellFormed) :
    d.agrees d' = true ↔ d.headings = d'.headings ∧ d.stops = d'.stops ∧
      d.duplicates.rows.Perm d'.duplicates.rows := by
  simp only [agrees, Bool.and_eq_true, decide_eq_true_iff,
    Register.sameContents_iff h.distinct h'.distinct, and_assoc]

theorem StopsNeeded.of_agrees (hneeded : d.StopsNeeded) (h : d.WellFormed) (h' : d'.WellFormed)
    (hagrees : d.agrees d' = true) : d'.StopsNeeded := by
  obtain ⟨headings, stops, duplicates⟩ := d'
  obtain ⟨rfl, rfl, -⟩ := (agrees_iff h h').mp hagrees
  exact hneeded

theorem DuplicatesShadowed.of_agrees [Ranked κ] (hshadowed : d.DuplicatesShadowed)
    (h : d.WellFormed) (h' : d'.WellFormed) (hagrees : d.agrees d' = true) :
    d'.DuplicatesShadowed := by
  obtain ⟨headings, stops, duplicates⟩ := d'
  obtain ⟨rfl, rfl, hperm⟩ := (agrees_iff h h').mp hagrees
  refine ⟨fun name hname => ?_, fun name x hx y hy => ?_⟩
  · exact hshadowed.declared name ((hperm.map _).mem_iff.mpr hname)
  · obtain ⟨items, hrow, hitem⟩ := (Register.mem_listOf_iff h'.distinct).mp hy
    exact hshadowed.rank_le name x hx y
      ((Register.mem_listOf_iff h.distinct).mpr ⟨items, hperm.mem_iff.mpr hrow, hitem⟩)

/-- **What agrees with a drafted directory** has its duplicates shadowed and no needless ends. -/
theorem WellFormed.of_agrees_freeze [Ranked κ] (h : d.WellFormed)
    {requests : List (Draft.Request κ)}
    (hagrees : (Draft.empty.submitAll requests).freeze.agrees d = true) :
    d.DuplicatesShadowed ∧ d.StopsNeeded := by
  have hdrafted := (Draft.sound_submitAll requests).freeze_wellFormed
  exact ⟨(duplicatesShadowed_freeze requests).of_agrees hdrafted h hagrees,
    (stopsNeeded_freeze requests).of_agrees hdrafted h hagrees⟩

/-! ## What is read -/

/-- **Which of the directories that are read can be drafted**: those whose duplicates are shadowed
and that store no ends without need. Each of them can be drafted exactly as it is, down to the order
of its duplicates. -/
theorem drafted_iff_of_ofBytes [Ranked κ] (bytes : List UInt8) (d : Directory κ)
    (hread : ofBytes bytes = .ok d) :
    List.TFAE [
      ∃ requests, (Draft.empty.submitAll requests).freeze.agrees d = true,
      ∃ requests, (Draft.empty.submitAll requests).freeze = d,
      d.DuplicatesShadowed ∧ d.StopsNeeded] := by
  have hwell : d.WellFormed := (Obtainable.read hread).wellFormed
  tfae_have 1 → 3 := fun ⟨_, hagrees⟩ => hwell.of_agrees_freeze hagrees
  tfae_have 3 → 2 := fun ⟨hshadowed, hneeded⟩ =>
    ⟨d.restatement, hwell.freeze_restatement hshadowed hneeded⟩
  tfae_have 2 → 1 := by
    rintro ⟨requests, heq⟩
    refine ⟨requests, ?_⟩
    rw [heq]
    exact (agrees_iff hwell hwell).mpr ⟨rfl, rfl, .refl _⟩
  tfae_finish

end Agreeing

theorem drafted_iff_of_ofBytes_two_declarations :
    ∃ d : Directory Kind,
      ofBytes [1, 1, 1, 97, 1, 0, 1, 0, 1, 1, 5, 1, 1, 97, 1, 20, 25] = .ok d ∧
      d.stops = some #[5] ∧ d.duplicatesOf "a" = [⟨.lexerRule, ⟨20, 25⟩⟩] ∧
      (∃ requests, (Draft.empty.submitAll requests).freeze = d) ∧
      d.DuplicatesShadowed ∧ d.StopsNeeded := by
  let d : Directory Kind :=
    { headings := #[⟨"a", .parserRule, 0⟩]
      stops := some #[5]
      duplicates := ⟨[("a", [⟨.lexerRule, ⟨20, 25⟩⟩])]⟩ }
  -- the primary declaration comes last, and displaces the one that is set aside
  let requests : List (Draft.Request Kind) :=
    [.add "a" ⟨.lexerRule, ⟨20, 25⟩⟩, .add "a" ⟨.parserRule, ⟨0, 5⟩⟩]
  have hread : ofBytes [1, 1, 1, 97, 1, 0, 1, 0, 1, 1, 5, 1, 1, 97, 1, 20, 25] = .ok d := by rfl
  have hdrafted : (Draft.empty.submitAll requests).freeze = d := by cbv
  have hiff := (drafted_iff_of_ofBytes _ d hread).out 1 2
  exact ⟨d, hread, rfl, by cbv, ⟨requests, hdrafted⟩, hiff.mp ⟨requests, hdrafted⟩⟩

/-- **Bytes that are accepted although nothing that can be drafted is like them**: a duplicate of a
name that is not declared, a duplicate that outranks its name, and ends that are all implied. -/
theorem accepted_undraftable_bytes :
    (∃ d : Directory Kind, ofBytes [1, 0, 0, 0, 0, 1, 1, 97, 0, 0, 5] = .ok d ∧
      d.duplicates.names = ["a"] ∧ d.contains "a" = false ∧
      ∀ requests, (Draft.empty.submitAll requests).freeze.agrees d = false) ∧
    (∃ d : Directory Kind, ofBytes [1, 1, 1, 97, 1, 1, 1, 0, 0, 1, 1, 97, 0, 0, 3] = .ok d ∧
      d.find? "a" = some ⟨0, "a", .lexerRule, ⟨0, 1⟩⟩ ∧
      d.duplicatesOf "a" = [⟨.parserRule, ⟨0, 3⟩⟩] ∧
      ∀ requests, (Draft.empty.submitAll requests).freeze.agrees d = false) ∧
    ∃ d : Directory Kind, ofBytes [1, 1, 1, 97, 1, 0, 1, 0, 1, 1, 1, 0] = .ok d ∧
      d.stops = some #[1] ∧ d.entries = [⟨0, "a", .parserRule, ⟨0, 1⟩⟩] ∧
      ∀ requests, (Draft.empty.submitAll requests).freeze.agrees d = false := by
  have hundrafted : ∀ {bytes : List UInt8} {d : Directory Kind}, ofBytes bytes = .ok d →
      ¬ (d.DuplicatesShadowed ∧ d.StopsNeeded) →
        ∀ requests, (Draft.empty.submitAll requests).freeze.agrees d = false :=
    fun hread hnot _ => Bool.eq_false_iff.mpr fun hagrees =>
      hnot ((Obtainable.read hread).wellFormed.of_agrees_freeze hagrees)
  refine ⟨?_, ?_, ?_⟩
  · let d : Directory Kind := ⟨#[], none, ⟨[("a", [⟨.parserRule, ⟨0, 5⟩⟩])]⟩⟩
    have hread : ofBytes [1, 0, 0, 0, 0, 1, 1, 97, 0, 0, 5] = .ok d := by rfl
    have hundeclared : d.contains "a" = false := by cbv
    refine ⟨d, hread, rfl, hundeclared, hundrafted hread fun h => ?_⟩
    have hdeclared := h.1.declared "a" (List.mem_singleton.mpr rfl)
    rw [hundeclared] at hdeclared
    exact absurd hdeclared (by simp)
  · let d : Directory Kind :=
      ⟨#[⟨"a", .lexerRule, 0⟩], none, ⟨[("a", [⟨.parserRule, ⟨0, 3⟩⟩])]⟩⟩
    have hread : ofBytes [1, 1, 1, 97, 1, 1, 1, 0, 0, 1, 1, 97, 0, 0, 3] = .ok d := by rfl
    have hfind : d.find? "a" = some ⟨0, "a", .lexerRule, ⟨0, 1⟩⟩ := by cbv
    have haside : d.duplicatesOf "a" = [⟨.parserRule, ⟨0, 3⟩⟩] := by cbv
    refine ⟨d, hread, hfind, haside, hundrafted hread fun h => ?_⟩
    have hrank := h.1.rank_le "a" _ hfind ⟨.parserRule, ⟨0, 3⟩⟩ (by simp [haside])
    exact absurd hrank (by decide)
  · let d : Directory Kind := ⟨#[⟨"a", .parserRule, 0⟩], some #[1], .empty⟩
    have hread : ofBytes [1, 1, 1, 97, 1, 0, 1, 0, 1, 1, 1, 0] = .ok d := by rfl
    have hentries : d.entries = [⟨0, "a", .parserRule, ⟨0, 1⟩⟩] := by cbv
    refine ⟨d, hread, rfl, hentries, hundrafted hread fun h => ?_⟩
    obtain ⟨x, hx, hne⟩ := h.2 (by simp [d])
    rw [hentries, List.mem_singleton] at hx
    rw [hx] at hne
    exact hne rfl

end Directory

end Gazetteer
