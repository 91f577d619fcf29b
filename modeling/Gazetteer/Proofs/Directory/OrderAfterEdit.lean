import Gazetteer.Proofs.Directory.AsForest
import Gazetteer.Proofs.Directory.Succession
import Gazetteer.Proofs.Text.Order
import Mathlib

/-!
# Position order after an edit

Position order is worked out anew after an edit, from regions that may have collapsed onto each
other. Starts that have met no longer tell which region came first; then the longer region does, and
an edit may have made longer what was shorter. It does so only if the two straddle. Where no two
regions straddle (`Laminar`), of regions whose starts meet the first is around the second, and what
is left of it is around what is left of the second, or coincides with it and is all that is left.

* `Laminar.edit`: regions that do not straddle never come to straddle.
* `WellFormed.precedes_edit`: two names that are left have kept their order.
* `WellFormed.byPosition_edit`: so the names that are left are listed as they were before.
-/

namespace Gazetteer

/-- Spans that may follow each other and do not coincide are in position order. -/
theorem Span.Admits.precedes {s t : Span} (h : s.Admits t) (hs : s.Proper) (hne : s ≠ t)
    (i j : Nat) : (Placed.mk i s).Precedes ⟨j, t⟩ := by
  rcases h.1.lt_or_eq with hlt | hstart
  · exact Or.inl hlt
  · -- spans with the same start do not lie apart, so the first is around the second
    have hinside : t.stop ≤ s.stop := by
      refine h.2.resolve_left fun hapart => ?_
      exact absurd (hs.trans_le (hapart.trans hstart.ge)) (lt_irrefl _)
    have hstop : t.stop ≠ s.stop := fun heq => hne (congrArg₂ Span.mk hstart heq.symm)
    exact Or.inr ⟨hstart, Or.inl (lt_of_le_of_ne hinside hstop)⟩

namespace Directory

variable {κ : Type} {d d' : Directory κ} {e : Edit}

/-- **No two regions of the directory straddle.** -/
def Laminar (d : Directory κ) : Prop :=
  ∀ a ∈ d.entries, ∀ b ∈ d.entries, a.span.Nests b.span

/-- **Regions that do not straddle never come to straddle.** -/
theorem Laminar.edit (hlaminar : d.Laminar) (hedit : d.edit e = .ok d') : d'.Laminar := by
  intro a ha b hb
  obtain ⟨x, hx, -, -, hxa⟩ := exists_survives_of_mem hedit ha
  obtain ⟨y, hy, -, -, hyb⟩ := exists_survives_of_mem hedit hb
  exact Edit.nests_of_mapSpan (hlaminar x hx y hy) hxa.1 hyb.1

namespace WellFormed

variable (h : d.WellFormed)

include h

/-- A name is found iff it is declared, and under its own name. -/
theorem map_name_find? (name : String) :
    (d.find? name).map (·.name) = Option.guard d.contains name := by
  cases hfind : d.find? name with
  | none =>
    have hnot : ¬ d.contains name = true := fun hname =>
      h.find?_eq_none_iff.mp hfind (h.contains_iff.mp hname)
    simp [Option.guard, hnot]
  | some x =>
    obtain ⟨hx, rfl⟩ := h.find?_eq_some_iff.mp hfind
    have hname : d.contains x.name = true :=
      h.contains_iff.mpr (List.mem_of_getElem? (entry?_eq_some hx).2)
    simp [Option.guard, hname]

/-- What is found under the name of an entry after an edit is what the edit leaves of it. -/
theorem survives_of_find? (hedit : d.edit e = .ok d') {x y : Entry κ} (hx : x ∈ d.entries)
    (hy : d'.find? x.name = some y) : d.Survives e x y.span := by
  obtain ⟨x', hx', -, hs⟩ := (h.find?_edit_iff hedit).mp (congrArg (Option.map _) hy)
  have hfind : d.find? x.name = some x := h.find?_eq_some_iff.mpr ⟨mem_entries.mp hx, rfl⟩
  rwa [Option.some.inj (hx'.symm.trans hfind)] at hs

variable (hlaminar : d.Laminar)

include hlaminar

/-- **Two names that are left have kept their order.** -/
theorem precedes_edit {x y : Entry κ} (hx : x ∈ d.entries) (hy : y ∈ d.entries)
    (hxy : x.placed.Precedes y.placed) {s t : Span} (hs : d.Survives e x s)
    (ht : d.Survives e y t) (i j : Nat) : (Placed.mk i s).Precedes ⟨j, t⟩ := by
  have hadmits : x.span.Admits y.span :=
    (hxy.admits_iff_nests (h.proper_of_mem_entries hy)).mpr (hlaminar x hx y hy)
  have hproper : s.Proper := (Edit.mapSpan_eq_some_iff.mp hs.1).2.2
  -- if the first name had landed where the second has, the second would be gone
  have hne : s ≠ t := by
    rintro rfl
    exact ht.2 x hx hxy hs.1
  exact (Edit.admits_of_mapSpan hadmits hs.1 ht.1).precedes hproper hne i j

/-- **What is left is listed in the order in which it was listed before.** -/
theorem byPosition_edit (hedit : d.edit e = .ok d') :
    d'.byPosition = d.byPosition.filterMap fun x => d'.find? x.name := by
  have hwell : d'.WellFormed := h.edit hedit
  have hasymm : Std.Asymm fun a b : Entry κ => a.placed.Precedes b.placed :=
    ⟨fun _ _ => not_precedes_of_precedes⟩
  refine List.Pairwise.eq_of_mem_iff d'.pairwise_byPosition ?_ fun {y} => ?_
  · refine List.pairwise_filterMap.mpr
      (d.pairwise_byPosition.imp_of_mem fun {x x'} hx hx' hxx' y hy y' hy' => ?_)
    rw [d.byPosition_perm.mem_iff] at hx hx'
    exact h.precedes_edit hlaminar hx hx' hxx' (h.survives_of_find? hedit hx hy)
      (h.survives_of_find? hedit hx' hy') y.ordinal y'.ordinal
  · rw [d'.byPosition_perm.mem_iff, List.mem_filterMap]
    constructor
    · intro hy
      obtain ⟨x, hx, hname, -⟩ := exists_survives_of_mem hedit hy
      refine ⟨x, d.byPosition_perm.mem_iff.mpr hx, ?_⟩
      exact hwell.find?_eq_some_iff.mpr ⟨mem_entries.mp hy, hname.symm⟩
    · rintro ⟨x, -, hy⟩
      exact mem_entries.mpr (hwell.find?_eq_some_iff.mp hy).1

theorem map_name_byPosition_edit (hedit : d.edit e = .ok d') :
    d'.byPosition.map (·.name) = (d.byPosition.map (·.name)).filter d'.contains := by
  rw [h.byPosition_edit hlaminar hedit, List.map_filterMap, ← List.filterMap_eq_filter,
    List.filterMap_map]
  exact List.filterMap_congr fun x _ => (h.edit hedit).map_name_find? x.name

end WellFormed

/-- **An edit keeps the order of names by position**, if no two of their regions straddle: no two
do so after it, and the names that are left are listed by position as they were before, with those
that are gone left out. -/
theorem laminar_edit_keeps_order [Ranked κ] (h : d.Obtainable) (hlaminar : d.Laminar) (e : Edit)
    (hedit : d.edit e = .ok d') :
    d'.Laminar ∧
      d'.byPosition.map (·.name) = (d.byPosition.map (·.name)).filter d'.contains :=
  ⟨hlaminar.edit hedit, h.wellFormed.map_name_byPosition_edit hlaminar hedit⟩

/-- Regions that start at different places before the deletion start at one place after it; one of
them has landed on another, and one has collapsed. -/
theorem laminar_edit_keeps_order_where_starts_meet :
    ∃ d d' : Directory Kind, d.Obtainable ∧ d.Laminar ∧ d.edit ⟨2, -4⟩ = .ok d' ∧
      d.byPosition.map (·.name) = ["e", "c", "d", "a", "f", "b"] ∧
      d'.byPosition.map (·.name) = ["e", "c", "a", "b"] ∧ d'.Laminar ∧
      d'.byPosition.map (·.name) = (d.byPosition.map (·.name)).filter d'.contains := by
  let requests : List (Draft.Request Kind) :=
    [.add "a" ⟨.parserRule, ⟨4, 8⟩⟩, .add "b" ⟨.lexerRule, ⟨8, 9⟩⟩,
      .add "c" ⟨.parserRule, ⟨2, 9⟩⟩, .add "d" ⟨.fragment, ⟨3, 9⟩⟩,
      .add "e" ⟨.parserRule, ⟨0, 9⟩⟩, .add "f" ⟨.mode, ⟨4, 6⟩⟩]
  let d' : Directory Kind :=
    { headings := #[⟨"a", .parserRule, 2⟩, ⟨"b", .lexerRule, 4⟩, ⟨"c", .parserRule, 2⟩,
        ⟨"e", .parserRule, 0⟩]
      stops := some #[4, 5, 5, 5]
      duplicates := .empty }
  have hspans : (Draft.empty.submitAll requests).freeze.entries.map (·.span) =
      [⟨4, 8⟩, ⟨8, 9⟩, ⟨2, 9⟩, ⟨3, 9⟩, ⟨0, 9⟩, ⟨4, 6⟩] := by cbv
  have hnests : ∀ s ∈ (Draft.empty.submitAll requests).freeze.entries.map (·.span),
      ∀ t ∈ (Draft.empty.submitAll requests).freeze.entries.map (·.span), s.Nests t := by
    rw [hspans]
    decide
  have hobtainable := Obtainable.drafted requests
  have hlaminar : (Draft.empty.submitAll requests).freeze.Laminar := fun a ha b hb =>
    hnests _ (List.mem_map_of_mem ha) _ (List.mem_map_of_mem hb)
  have hedit : (Draft.empty.submitAll requests).freeze.edit ⟨2, -4⟩ = .ok d' := by cbv
  exact ⟨_, d', hobtainable, hlaminar, hedit, by cbv, by cbv,
    laminar_edit_keeps_order hobtainable hlaminar ⟨2, -4⟩ hedit⟩

-- where regions straddle, the second may have become the longer one
example :
    let d := (Draft.empty.submitAll
      [.add "a" ⟨Kind.parserRule, ⟨5, 12⟩⟩, .add "b" ⟨.parserRule, ⟨6, 20⟩⟩]).freeze
    d.byPosition.map (·.name) = ["a", "b"] ∧
      (d.edit ⟨5, -3⟩).map (fun d' => d'.byPosition.map (·.name)) = .ok ["b", "a"] := by
  cbv

end Directory

end Gazetteer
