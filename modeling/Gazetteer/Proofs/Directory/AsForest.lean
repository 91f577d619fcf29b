import Gazetteer.Proofs.Directory.Position
import Gazetteer.Proofs.Forest.Entries

/-!
# A directory as a forest

Regions around a position are found twice in this library: by the layout of a directory, which
takes regions as they come, and by a forest, which refuses what does not nest. Handed over in
position order, the entries of a directory make a forest exactly when a forest can be made of them,
and then both find the same.

* `admits_iff_nests`: in position order, a forest objects to a region iff it straddles another.
* `exists_addAll_byPosition_iff`: a forest takes all entries iff no two of them straddle.
* `lookup_byPosition_agrees`: this, and what both find at a position.
-/

namespace Gazetteer

namespace Placed.Precedes

variable {a b : Placed}

/-- Of two regions in position order, the first is around the second if the second is around it. -/
theorem encloses_of_encloses (h : a.Precedes b) (hba : b.span.Encloses a.span) :
    a.span.Encloses b.span := by
  rcases h with hlt | ⟨hstart, hlt | ⟨hstop, -⟩⟩
  · exact absurd hlt (not_lt.mpr hba.1)
  · exact ⟨hstart.le, hlt.le⟩
  · exact ⟨hstart.le, hstop.ge⟩

/-- **In position order, one region admits the next unless they straddle.** -/
theorem admits_iff_nests (h : a.Precedes b) (hb : b.span.Proper) :
    a.span.Admits b.span ↔ a.span.Nests b.span := by
  constructor
  · rintro ⟨hstart, hapart | hinside⟩
    · exact Or.inl hapart
    · exact Or.inr (Or.inr (Or.inl ⟨hstart, hinside⟩))
  · rintro (hapart | hbefore | hinside | haround)
    · exact ⟨h.start_le, Or.inl hapart⟩
    · -- the later region cannot end before the earlier one starts
      exact absurd (hb.trans_le (hbefore.trans h.start_le)) (lt_irrefl _)
    · exact ⟨h.start_le, Or.inr hinside.2⟩
    · exact ⟨h.start_le, Or.inr (h.encloses_of_encloses haround).2⟩

end Placed.Precedes

namespace Directory

variable {κ : Type} {d : Directory κ}

/-- The regions in position order, each with its ordinal as key: what a forest is made of. -/
def rowsByPosition (d : Directory κ) : List (Option Nat × Span) :=
  d.byPosition.map fun e => (some e.ordinal, e.span)

/-- **A forest takes the entries in position order iff no two of them straddle.** -/
theorem WellFormed.exists_addAll_byPosition_iff (h : d.WellFormed) :
    (∃ f, Forest.Draft.empty.addAll d.rowsByPosition = .ok f) ↔
      ∀ a ∈ d.entries, ∀ b ∈ d.entries, a.span.Nests b.span := by
  have hproper : ∀ e ∈ d.byPosition, e.span.Proper :=
    fun e he => h.proper_of_mem_entries (d.byPosition_perm.subset he)
  have hrows : ∀ c ∈ d.rowsByPosition, c.2.Proper := List.forall_mem_map.mpr hproper
  rw [Forest.Draft.exists_addAll_iff, and_iff_right hrows, rowsByPosition, List.pairwise_map]
  constructor
  · intro hadm a ha b hb
    have hnests : d.byPosition.Pairwise fun a b => a.span.Nests b.span := by
      refine (hadm.and d.pairwise_byPosition).imp_of_mem fun {a b} _ hb hab => ?_
      exact (hab.2.admits_iff_nests (hproper b hb)).mp hab.1
    have : Std.Symm fun a b : Entry κ => a.span.Nests b.span := ⟨fun _ _ => Span.Nests.symm⟩
    exact hnests.forall_of_forall (fun e _ => Span.Nests.refl e.span)
      (d.byPosition_perm.symm.subset ha) (d.byPosition_perm.symm.subset hb)
  · intro hnests
    refine d.pairwise_byPosition.imp_of_mem fun {a b} ha hb hab => ?_
    refine (hab.admits_iff_nests (hproper b hb)).mpr (hnests a ?_ b ?_)
    · exact d.byPosition_perm.subset ha
    · exact d.byPosition_perm.subset hb

/-- A row that says what an entry says has the ordinal of the entry for its key. -/
theorem map_key_eq {f : Forest Nat} {found : Option Nat} {entry : Option (Entry κ)}
    (hlt : ∀ i, found = some i → i < f.size)
    (h : found.bind (f.entries[·]?) = entry.map fun e => (some e.ordinal, e.span)) :
    (found.map fun i => (f.get? i).bind (·.key)) = entry.map fun e => some e.ordinal := by
  cases found with
  | none =>
    rw [Option.bind_none, eq_comm, Option.map_eq_none_iff] at h
    rw [h]
    rfl
  | some i =>
    obtain ⟨r, hr⟩ : ∃ r, f.get? i = some r := ⟨_, Array.getElem?_eq_getElem (hlt i rfl)⟩
    rw [Option.bind_some, Forest.entries_getElem?, hr, Option.map_some, eq_comm,
      Option.map_eq_some_iff] at h
    obtain ⟨e, rfl, he⟩ := h
    rw [Option.map_some, Option.map_some, hr, Option.bind_some, ← (Prod.mk.inj he).1]

variable [Ranked κ]

/-- **The two ways to look up a position agree.** A forest takes the entries of a directory, in
position order and keyed by ordinal, iff no two of them straddle. Then the innermost row around a
position is that of the innermost entry, and the first row that starts at it that of the first
entry; where one finds nothing, neither does the other. -/
theorem lookup_byPosition_agrees (h : d.Obtainable) :
    ((∃ f, Forest.Draft.empty.addAll d.rowsByPosition = .ok f) ↔
      ∀ a ∈ d.entries, ∀ b ∈ d.entries, a.span.Nests b.span) ∧
    ∀ f, Forest.Draft.empty.addAll d.rowsByPosition = .ok f → ∀ pos,
      ((f.freeze.innermost? pos).map fun i => (f.freeze.get? i).bind (·.key)) =
        (d.innermost? pos).map (fun e => some e.ordinal) ∧
      ((f.freeze.startingAt? pos).map fun i => (f.freeze.get? i).bind (·.key)) =
        (d.startingAt? pos).map (fun e => some e.ordinal) := by
  have hwf := h.wellFormed
  refine ⟨hwf.exists_addAll_byPosition_iff, fun f hf pos => ?_⟩
  obtain ⟨hinv, hentries⟩ := Forest.Draft.inv_empty.of_addAll hf
  have hrows : f.freeze.entries = d.byPosition.map fun e => (some e.ordinal, e.span) := hentries
  constructor
  · refine map_key_eq (fun i => hinv.wellFormed.lt_size_of_innermost? pos) ?_
    rw [← hinv.wellFormed.getLast?_entries, hwf.innermost?_eq, hrows, List.filter_map,
      List.getLast?_map]
    rfl
  · refine map_key_eq (fun i => Forest.lt_size_of_startingAt?) ?_
    rw [← hinv.wellFormed.find?_entries_start, d.startingAt?_eq, hrows, List.find?_map]
    rfl

/-- Two regions coincide, two others touch inside them, and one starts where they touch. -/
theorem lookup_byPosition_agrees_touching :
    ∃ (d : Directory Kind) (f : Forest.Draft Nat), d.Obtainable ∧
      Forest.Draft.empty.addAll d.rowsByPosition = .ok f ∧
      (d.byPosition.map (·.name)) = ["b", "d", "a", "e", "c"] ∧
      ((f.freeze.innermost? 5).map fun i => (f.freeze.get? i).bind (·.key)) = some (some 2) ∧
      ((f.freeze.startingAt? 4).map fun i => (f.freeze.get? i).bind (·.key)) = some (some 4) := by
  let requests : List (Draft.Request Kind) :=
    [.add "c" ⟨.parserRule, ⟨4, 6⟩⟩, .add "d" ⟨.parserRule, ⟨0, 10⟩⟩,
      .add "e" ⟨.lexerRule, ⟨4, 10⟩⟩, .add "b" ⟨.parserRule, ⟨0, 10⟩⟩,
      .add "a" ⟨.parserRule, ⟨0, 4⟩⟩]
  have hobtainable := Obtainable.drafted requests
  obtain ⟨hiff, hagrees⟩ := lookup_byPosition_agrees hobtainable
  have hspans : ((Draft.empty.submitAll requests).freeze.entries.map (·.span)) =
      [⟨0, 4⟩, ⟨0, 10⟩, ⟨4, 6⟩, ⟨0, 10⟩, ⟨4, 10⟩] := by cbv
  have hnests : ∀ s ∈ ((Draft.empty.submitAll requests).freeze.entries.map (·.span)),
      ∀ t ∈ ((Draft.empty.submitAll requests).freeze.entries.map (·.span)), s.Nests t := by
    rw [hspans]
    decide
  obtain ⟨f, hf⟩ := hiff.mpr fun a ha b hb =>
    hnests _ (List.mem_map_of_mem ha) _ (List.mem_map_of_mem hb)
  obtain ⟨hinnermost, -⟩ := hagrees f hf 5
  obtain ⟨-, hstarting⟩ := hagrees f hf 4
  exact ⟨_, f, hobtainable, hf, by cbv, hinnermost.trans (by cbv), hstarting.trans (by cbv)⟩

end Directory

end Gazetteer
