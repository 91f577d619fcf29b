import Gazetteer.Proofs.Directory.Editing
import Gazetteer.Proofs.Directory.Primacy
import Mathlib

/-!
# Declarations in the shadow of others

The duplicates of a name are the declarations that its primary one keeps in its shadow: the name is
declared, and none of them outranks what it is declared as (`DuplicatesShadowed`). A draft keeps it
so, whatever is requested (`duplicatesShadowed_freeze`).

An edit moves names and duplicates apart from each other. It keeps the kinds, and so no duplicate
comes to outrank the name. But it may drop a name and leave its duplicates behind, in the shadow of
nothing; it does so iff something is left of a duplicate and nothing of the name
(`duplicatesShadowed_edit_iff`).
-/

namespace Gazetteer.Directory

variable {κ : Type} [Ranked κ] {d d' : Directory κ} {e : Edit} {name : String}

/-- **Every duplicate is shadowed**: its name is declared, as something that it does not outrank. -/
structure DuplicatesShadowed (d : Directory κ) : Prop where
  declared : ∀ name ∈ d.duplicates.names, d.contains name = true
  rank_le : ∀ name x, d.find? name = some x →
    ∀ y ∈ d.duplicatesOf name, Ranked.rank x.kind ≤ Ranked.rank y.kind

/-! ## Drafts -/

/-- Nothing that is set aside for a name outranks its primary declaration. -/
theorem Draft.Follows.rank_le_of_mem_asideOf {requests : List (Draft.Request κ)} {draft : Draft κ}
    (h : Draft.Follows requests draft) {primary y : Declaration κ}
    (hprimary : draft.primaries.find? name = some primary) (hy : y ∈ draft.asideOf name) :
    Ranked.rank primary.kind ≤ Ranked.rank y.kind := by
  have hkinds := (h name).conserved primary hprimary κ (·.kind) (.inr fun _ _ => rfl)
  have hmem := hkinds.mem_iff.mp (List.mem_cons_of_mem _ (List.mem_map_of_mem hy))
  obtain ⟨z, hz, hzy⟩ := List.mem_map.mp hmem
  exact hzy ▸ ((h name).primary primary hprimary).rank_le z hz

/-- **What is drafted has its duplicates shadowed.** -/
theorem duplicatesShadowed_freeze (requests : List (Draft.Request κ)) :
    ((Draft.empty : Draft κ).submitAll requests).freeze.DuplicatesShadowed := by
  have hsound := Draft.sound_submitAll requests
  have hfollows := Draft.follows_submitAll requests
  generalize (Draft.empty : Draft κ).submitAll requests = draft at hsound hfollows
  refine ⟨fun name hname => ?_, fun name x hx y hy => ?_⟩
  · have haside : draft.asideOf name ≠ [] :=
      (Register.mem_names_iff_listOf_ne_nil hsound.distinct_aside
        fun row hrow => (hsound.aside row hrow).1).mp hname
    have hprimary : draft.primaries.find? name ≠ none := fun hnone =>
      haside ((hfollows name).absent hnone).2
    rw [hsound.freeze_wellFormed.contains_iff, Draft.Sound.mem_names_freeze]
    by_contra hnot
    exact hprimary (Register.find?_eq_none_iff.mpr hnot)
  · have hprimary := hsound.find?_freeze name
    rw [hx] at hprimary
    exact hfollows.rank_le_of_mem_asideOf hprimary.symm hy

/-! ## Edits -/

omit [Ranked κ] in
theorem WellFormed.mem_duplicates_names_iff (h : d.WellFormed) :
    name ∈ d.duplicates.names ↔ d.duplicatesOf name ≠ [] :=
  Register.mem_names_iff_listOf_ne_nil h.distinct fun row hrow => (h.aside row hrow).1

omit [Ranked κ] in
/-- What an edit leaves of the duplicates of a name. -/
theorem WellFormed.mem_duplicatesOf_edit_iff (h : d.WellFormed) (hedit : d.edit e = .ok d')
    {y : Declaration κ} :
    y ∈ d'.duplicatesOf name ↔ ∃ x ∈ d.duplicatesOf name, x.image? e = some y := by
  have hrows : d'.duplicates.rows = d.leftAside e := by
    rw [eq_of_edit hedit]
    rfl
  have hlisted : ∀ {d : Directory κ}, d.WellFormed → ∀ x,
      x ∈ d.duplicatesOf name ↔ ∃ items, (name, items) ∈ d.duplicates.rows ∧ x ∈ items :=
    fun h x => Register.mem_listOf_iff h.distinct
  simp only [hlisted (h.edit hedit), hlisted h, hrows, leftAside, List.mem_filter, List.mem_map]
  constructor
  · rintro ⟨items, ⟨⟨row, hrow, heq⟩, -⟩, hy⟩
    obtain ⟨rfl, rfl⟩ := Prod.mk.inj heq
    obtain ⟨x, hx, hxy⟩ := List.mem_filterMap.mp hy
    exact ⟨x, ⟨row.2, hrow, hx⟩, hxy⟩
  · rintro ⟨x, ⟨items, hrow, hx⟩, hxy⟩
    have hy : y ∈ items.filterMap (Declaration.image? e) := List.mem_filterMap.mpr ⟨x, hx, hxy⟩
    exact ⟨_, ⟨⟨_, hrow, rfl⟩, by simpa using List.ne_nil_of_mem hy⟩, hy⟩

omit [Ranked κ] in
/-- A name has duplicates after an edit iff something is left of one of them. -/
theorem WellFormed.mem_duplicates_names_edit_iff (h : d.WellFormed)
    (hedit : d.edit e = .ok d') :
    name ∈ d'.duplicates.names ↔
      ∃ y ∈ d.duplicatesOf name, ∃ s, e.mapSpan y.span = .ok (some s) := by
  rw [(h.edit hedit).mem_duplicates_names_iff]
  constructor
  · intro hne
    obtain ⟨y, hy⟩ := List.exists_mem_of_ne_nil _ hne
    obtain ⟨x, hx, hxy⟩ := (h.mem_duplicatesOf_edit_iff hedit).mp hy
    obtain ⟨s, hs, -⟩ := Option.map_eq_some_iff.mp hxy
    exact ⟨x, hx, s, Edit.image?_eq_some_iff.mp hs⟩
  · rintro ⟨x, hx, s, hs⟩
    have himage : x.image? e = some { x with span := s } :=
      congrArg (Option.map _) (Edit.image?_eq_some_iff.mpr hs)
    exact List.ne_nil_of_mem ((h.mem_duplicatesOf_edit_iff hedit).mpr ⟨x, hx, himage⟩)

/-- An edit keeps the kinds, and so it makes no duplicate outrank its name. -/
theorem DuplicatesShadowed.rank_le_edit (hshadowed : d.DuplicatesShadowed) (h : d.WellFormed)
    (hedit : d.edit e = .ok d') {x : Entry κ} (hx : d'.find? name = some x)
    {y : Declaration κ} (hy : y ∈ d'.duplicatesOf name) :
    Ranked.rank x.kind ≤ Ranked.rank y.kind := by
  obtain ⟨x₀, hx₀, hkind, -⟩ := (h.find?_edit_iff hedit).mp (congrArg (Option.map _) hx)
  obtain ⟨y₀, hy₀, himage⟩ := (h.mem_duplicatesOf_edit_iff hedit).mp hy
  obtain ⟨s, -, rfl⟩ := Option.map_eq_some_iff.mp himage
  have hle := hshadowed.rank_le name x₀ hx₀ y₀ hy₀
  rwa [← hkind] at hle

/-- **When duplicates are still shadowed after an edit.** None of them ever outranks its name. But
the name itself may be gone: its region has collapsed, or has landed on that of a name before it.
So they are all shadowed iff of every name that has a duplicate left something is left as well. -/
theorem duplicatesShadowed_edit_iff (requests : List (Draft.Request κ)) (e : Edit)
    (d' : Directory κ) (hedit : (Draft.empty.submitAll requests).freeze.edit e = .ok d') :
    let d := (Draft.empty.submitAll requests).freeze
    (∀ name x, d'.find? name = some x →
      ∀ y ∈ d'.duplicatesOf name, Ranked.rank x.kind ≤ Ranked.rank y.kind) ∧
    (d'.DuplicatesShadowed ↔
      ∀ x ∈ d.entries, (∃ y ∈ d.duplicatesOf x.name, ∃ s, e.mapSpan y.span = .ok (some s)) →
        ∃ s, d.Survives e x s) := by
  intro d
  have hwell : d.WellFormed := (Draft.sound_submitAll requests).freeze_wellFormed
  have hshadowed : d.DuplicatesShadowed := duplicatesShadowed_freeze requests
  have hrank : ∀ name x, d'.find? name = some x →
      ∀ y ∈ d'.duplicatesOf name, Ranked.rank x.kind ≤ Ranked.rank y.kind :=
    fun name x hx y hy => hshadowed.rank_le_edit hwell hedit hx hy
  refine ⟨hrank, fun h x hx hleft => ?_, fun h => ⟨fun name hname => ?_, hrank⟩⟩
  · have hname := (hwell.mem_duplicates_names_edit_iff hedit).mpr hleft
    obtain ⟨x', hx', hs⟩ := (hwell.contains_edit_iff hedit).mp (h.declared x.name hname)
    have hfind : d.find? x.name = some x :=
      hwell.find?_eq_some_iff.mpr ⟨mem_entries.mp hx, rfl⟩
    rwa [Option.some.inj (hx'.symm.trans hfind)] at hs
  · obtain ⟨y, hy, hleft⟩ := (hwell.mem_duplicates_names_edit_iff hedit).mp hname
    -- the name has been declared before the edit, and its entry is the one that is left
    have hbefore := hshadowed.declared name
      (hwell.mem_duplicates_names_iff.mpr (List.ne_nil_of_mem hy))
    obtain ⟨x, hx, hfind, rfl⟩ := hwell.exists_find?_of_mem (hwell.contains_iff.mp hbefore)
    exact (hwell.contains_edit_iff hedit).mpr ⟨x, hfind, h x hx ⟨y, hy, hleft⟩⟩

theorem duplicatesShadowed_edit_iff_of_deletion :
    ∃ d d' : Directory Kind, d.edit ⟨7, -5⟩ = .ok d' ∧ d'.DuplicatesShadowed ∧
      d.duplicatesOf "a" = [⟨.channel, ⟨8, 9⟩⟩, ⟨.lexerRule, ⟨20, 25⟩⟩] ∧
      d'.duplicatesOf "a" = [⟨.lexerRule, ⟨15, 20⟩⟩] ∧
      ∀ x ∈ d.entries, (∃ y ∈ d.duplicatesOf x.name, ∃ s,
        (Edit.mk 7 (-5)).mapSpan y.span = .ok (some s)) → ∃ s, d.Survives ⟨7, -5⟩ x s := by
  let requests : List (Draft.Request Kind) :=
    [.add "a" ⟨.channel, ⟨8, 9⟩⟩, .add "a" ⟨.parserRule, ⟨0, 8⟩⟩,
      .add "a" ⟨.lexerRule, ⟨20, 25⟩⟩]
  let d' : Directory Kind :=
    { headings := #[⟨"a", .parserRule, 0⟩]
      stops := some #[7]
      duplicates := ⟨[("a", [⟨.lexerRule, ⟨15, 20⟩⟩])]⟩ }
  have hedit : (Draft.empty.submitAll requests).freeze.edit ⟨7, -5⟩ = .ok d' := by cbv
  obtain ⟨hrank, hiff⟩ := duplicatesShadowed_edit_iff requests ⟨7, -5⟩ d' hedit
  have hdeclared : ∀ name ∈ d'.duplicates.names, d'.contains name = true := by
    intro name hname
    obtain rfl : name = "a" := List.mem_singleton.mp hname
    cbv
  have hshadowed : d'.DuplicatesShadowed := ⟨hdeclared, hrank⟩
  exact ⟨_, d', hedit, hshadowed, by cbv, by cbv, hiff.mp hshadowed⟩

/-- A deletion that removes the primary declaration alone leaves its duplicate in the shadow of
nothing. -/
theorem not_duplicatesShadowed_of_deletion :
    ∃ d' : Directory Kind,
      (Draft.empty.submitAll [.add "a" ⟨.parserRule, ⟨0, 5⟩⟩,
        .add "a" ⟨.lexerRule, ⟨20, 25⟩⟩]).freeze.edit ⟨0, -10⟩ = .ok d' ∧
      d'.duplicatesOf "a" = [⟨.lexerRule, ⟨10, 15⟩⟩] ∧ d'.contains "a" = false ∧
      ¬ d'.DuplicatesShadowed := by
  let d' : Directory Kind :=
    { headings := #[]
      stops := none
      duplicates := ⟨[("a", [⟨.lexerRule, ⟨10, 15⟩⟩])]⟩ }
  have hgone : d'.contains "a" = false := by cbv
  refine ⟨d', by cbv, by cbv, hgone, fun h => ?_⟩
  have hdeclared := h.declared "a" (List.mem_singleton.mpr rfl)
  rw [hgone] at hdeclared
  exact absurd hdeclared (by simp)

end Gazetteer.Directory
