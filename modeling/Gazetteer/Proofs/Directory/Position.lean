import Gazetteer.Proofs.Directory.Obtainable
import Mathlib

/-!
# Directories by position

The regions of a directory nest, coincide or straddle as they like. Position order is a linear order
all the same, and what is found at a position is what a scan of all entries would find.

* `map_placed_byPosition`: the entries by position are their regions in order.
* `straddling_layout_iff`: when a scan is needed.
* `innermost?_eq`, `nearestBefore?_eq`, `startingAt?_eq`, `endingAt?_eq`: the answers.
* `positions_exact`: all of this for every directory that can be had.
-/

namespace Gazetteer

/-- The region of an entry, with its ordinal. -/
def Entry.placed {κ : Type} (e : Entry κ) : Placed := ⟨e.ordinal, e.span⟩

namespace Directory

variable {κ : Type} {d : Directory κ} {pos : Offset}

/-! ## Position order -/

theorem pairwise_placed (d : Directory κ) :
    (d.entries.map Entry.placed).Pairwise fun a b => a.index < b.index :=
  List.pairwise_map.mpr d.pairwise_entries

theorem map_placed_byPosition (d : Directory κ) :
    d.byPosition.map Entry.placed = Layout.inOrder (d.entries.map Entry.placed) := by
  have hplaced : ∀ r ∈ Layout.inOrder (d.entries.map Entry.placed),
      (d.entry? r.index).map Entry.placed = some r := by
    intro r hr
    obtain ⟨e, he, rfl⟩ := List.mem_map.mp (Layout.mem_inOrder.mp hr)
    rw [Entry.placed, mem_entries.mp he]
    rfl
  have horder : d.layout.order = (Layout.inOrder (d.entries.map Entry.placed)).map (·.index) :=
    Layout.order_ofRegions _
  rw [byPosition, horder, List.filterMap_map, List.map_filterMap]
  exact (List.filterMap_congr hplaced).trans List.filterMap_some

theorem pairwise_byPosition (d : Directory κ) :
    d.byPosition.Pairwise fun a b => a.placed.Precedes b.placed := by
  have hsorted := Layout.pairwise_inOrder d.pairwise_placed
  rwa [← map_placed_byPosition, List.pairwise_map] at hsorted

/-- The entry that an answer of the layout stands for. -/
theorem bind_entry?_ordinal {found : Option (Entry κ)} (h : ∀ e ∈ found, e ∈ d.entries) :
    (found.map fun e => e.placed.index).bind d.entry? = found := by
  cases found with
  | none => rfl
  | some e => exact mem_entries.mp (h e rfl)

theorem mem_entries_of_getLast? {test : Entry κ → Bool} {e : Entry κ}
    (h : (d.byPosition.filter test).getLast? = some e) : e ∈ d.entries :=
  d.byPosition_perm.subset (List.mem_of_mem_filter (List.mem_of_getLast? h))

/-- The last entry that passes a test is the answer if its region is the last in order. -/
theorem bind_entry?_getLast? (d : Directory κ) (test : Placed → Bool) :
    (((Layout.inOrder (d.entries.map Entry.placed)).filter test).getLast?.map (·.index)).bind
        d.entry? =
      (d.byPosition.filter fun e => test e.placed).getLast? := by
  rw [← map_placed_byPosition, List.filter_map, List.getLast?_map, Option.map_map]
  exact bind_entry?_ordinal fun e he => mem_entries_of_getLast? he

/-- Likewise the first one. -/
theorem bind_entry?_find? {entries : List (Entry κ)} (hentries : entries ⊆ d.entries)
    (test : Placed → Bool) :
    (((entries.map Entry.placed).find? test).map (·.index)).bind d.entry? =
      entries.find? fun e => test e.placed := by
  rw [List.find?_map, Option.map_map]
  exact bind_entry?_ordinal fun e he => hentries (List.mem_of_find?_eq_some he)

/-! ## What is found -/

theorem nearestBefore?_eq (d : Directory κ) (pos : Offset) :
    d.nearestBefore? pos = (d.byPosition.filter fun e => e.span.start ≤ pos).getLast? := by
  have hfound := Layout.nearestBefore?_ofRegions d.pairwise_placed pos
  exact (congrArg (Option.bind · d.entry?) hfound).trans
    (d.bind_entry?_getLast? fun r => r.span.start ≤ pos)

theorem startingAt?_eq (d : Directory κ) (pos : Offset) :
    d.startingAt? pos = d.byPosition.find? fun e => e.span.start = pos := by
  have hfound := Layout.startingAt?_ofRegions d.pairwise_placed pos
  rw [← map_placed_byPosition] at hfound
  exact (congrArg (Option.bind · d.entry?) hfound).trans
    (bind_entry?_find? d.byPosition_perm.subset fun r => r.span.start = pos)

theorem endingAt?_eq (d : Directory κ) (pos : Offset) :
    d.endingAt? pos = d.entries.find? fun e => e.span.stop = pos := by
  have hfound := Layout.endingAt?_ofRegions d.pairwise_placed pos
  exact (congrArg (Option.bind · d.entry?) hfound).trans
    (bind_entry?_find? (List.Subset.refl _) fun r => r.span.stop = pos)

namespace WellFormed

variable (h : d.WellFormed)

include h

theorem proper_placed : ∀ r ∈ d.entries.map Entry.placed, r.span.Proper :=
  List.forall_mem_map.mpr fun _ he => h.proper_of_mem_entries he

/-- **A scan is needed iff two entries straddle.** -/
theorem straddling_layout_iff :
    d.layout.straddling = true ↔
      ∃ a ∈ d.entries, ∃ b ∈ d.entries, a.span.Straddles b.span := by
  have hstraddling := Layout.straddling_iff d.pairwise_placed h.proper_placed
  simp only [List.mem_map, exists_exists_and_eq_and] at hstraddling
  exact hstraddling

/-- **The innermost entry around a position** is the last one in position order. -/
theorem innermost?_eq (pos : Offset) :
    d.innermost? pos = (d.byPosition.filter fun e => e.span.Contains pos).getLast? := by
  have hfound := Layout.innermost?_ofRegions d.pairwise_placed pos h.proper_placed
  exact (congrArg (Option.bind · d.entry?) hfound).trans
    (d.bind_entry?_getLast? fun r => r.span.Contains pos)

theorem innermost?_eq_none_iff :
    d.innermost? pos = none ↔ ∀ e ∈ d.entries, ¬ e.span.Contains pos := by
  rw [h.innermost?_eq, List.getLast?_eq_none_iff, List.filter_eq_nil_iff]
  simp only [d.byPosition_perm.mem_iff, decide_eq_true_eq]

/-- No entry around the position lies properly inside the innermost one. -/
theorem span_eq_of_innermost? {e x : Entry κ} (he : d.innermost? pos = some e)
    (hx : x ∈ d.entries) (hpos : x.span.Contains pos) (hinside : e.span.Encloses x.span) :
    x.span = e.span := by
  rw [h.innermost?_eq, List.getLast?_eq_some_iff] at he
  obtain ⟨before, hlast⟩ := he
  have hmem : x ∈ before ++ [e] := by
    rw [← hlast, List.mem_filter]
    exact ⟨d.byPosition_perm.mem_iff.mpr hx, decide_eq_true hpos⟩
  have hsorted := d.pairwise_byPosition.filter fun e => e.span.Contains pos
  rw [hlast, List.pairwise_append] at hsorted
  rcases List.mem_append.mp hmem with hbefore | hself
  · rcases hsorted.2.2 x hbefore e List.mem_cons_self with hlt | ⟨hstart, hlt | ⟨hstop, -⟩⟩
    · exact absurd hlt (not_lt.mpr hinside.1)
    · exact absurd hlt (not_lt.mpr hinside.2)
    · exact congrArg₂ Span.mk hstart hstop
  · rw [List.mem_singleton.mp hself]

/-- The entries come by ordinal, and every ordinal has its entry. -/
theorem map_ordinal_entries : d.entries.map (·.ordinal) = List.range d.size := by
  have hordinal : ∀ i ∈ List.range d.size, (d.entry? i).map (·.ordinal) = some i := by
    intro i hi
    obtain ⟨e, he, -⟩ := h.proper i (List.mem_range.mp hi)
    rw [he, Option.map_some, (entry?_eq_some he).1]
  rw [entries, List.map_filterMap]
  exact (List.filterMap_congr hordinal).trans List.filterMap_some

theorem getElem?_entries (i : Nat) : d.entries[i]? = d.entry? i := by
  have hordinal : d.entries[i]?.map (·.ordinal) = (List.range d.size)[i]? := by
    rw [← h.map_ordinal_entries, List.getElem?_map]
  by_cases hi : i < d.size
  · rw [List.getElem?_range hi] at hordinal
    obtain ⟨e, he, rfl⟩ := Option.map_eq_some_iff.mp hordinal
    rw [he, mem_entries.mp (List.mem_of_getElem? he)]
  · rw [(List.range d.size).getElem?_eq_none (by simpa using hi)] at hordinal
    rw [Option.map_eq_none_iff.mp hordinal, entry?_eq_none (not_lt.mp hi)]

/-- A column of the directory, read off the entries. -/
theorem map_entries_eq {α : Type} {f : Entry κ → α} {column : List α}
    (hlength : column.length = d.size)
    (hcolumn : ∀ i e, d.entry? i = some e → column[i]? = some (f e)) :
    d.entries.map f = column := by
  refine List.ext_getElem? fun i => ?_
  rw [List.getElem?_map, h.getElem?_entries]
  by_cases hi : i < d.size
  · obtain ⟨e, he, -⟩ := h.proper i hi
    rw [hcolumn i e he, he, Option.map_some]
  · rw [entry?_eq_none (not_lt.mp hi), column.getElem?_eq_none (by omega), Option.map_none]

theorem map_name_entries : d.entries.map (·.name) = d.names :=
  h.map_entries_eq d.length_names fun _ _ he => (entry?_eq_some he).2

end WellFormed

/-! ## Every directory that can be had -/

variable [Ranked κ]

/-- **What is found by position.** Entries are listed once each, in position order. At a position,
the last entry around it is found, the last one that starts at or before it, the first one that
starts at it, and the one with the least ordinal that ends at it. Parent links are climbed only if
no two entries straddle, and then a scan would find the same. -/
theorem positions_exact (h : d.Obtainable) (pos : Offset) :
    (d.byPosition.Perm d.entries ∧
      d.byPosition.Pairwise (fun a b => a.placed.Precedes b.placed) ∧
      d.entries.map (·.ordinal) = List.range d.size ∧
      d.entries.map (·.name) = d.names ∧ d.names.Nodup) ∧
    (d.innermost? pos = (d.byPosition.filter fun e => e.span.Contains pos).getLast? ∧
      (d.innermost? pos = none ↔ ∀ e ∈ d.entries, ¬ e.span.Contains pos) ∧
      ∀ e, d.innermost? pos = some e → ∀ x ∈ d.entries, x.span.Contains pos →
        e.span.Encloses x.span → x.span = e.span) ∧
    ((d.layout.straddling = true ↔
        ∃ a ∈ d.entries, ∃ b ∈ d.entries, a.span.Straddles b.span) ∧
      (d.layout.straddling = false →
        climb d.layout.parent? (d.layout.outlasts pos) (d.layout.startedBy pos) =
          (List.range (d.layout.startedBy pos)).reverse.find? (d.layout.outlasts pos))) ∧
    d.nearestBefore? pos = (d.byPosition.filter fun e => e.span.start ≤ pos).getLast? ∧
    d.startingAt? pos = d.byPosition.find? (fun e => e.span.start = pos) ∧
    d.endingAt? pos = d.entries.find? (fun e => e.span.stop = pos) := by
  have hwf := h.wellFormed
  refine ⟨⟨d.byPosition_perm, d.pairwise_byPosition, hwf.map_ordinal_entries,
    hwf.map_name_entries, hwf.ascending.imp ne_of_lt⟩, ⟨hwf.innermost?_eq pos,
    hwf.innermost?_eq_none_iff, fun e he x hx hpos hinside => ?_⟩,
    ⟨hwf.straddling_layout_iff, Layout.climb_eq_scan d.pairwise_placed hwf.proper_placed⟩,
    d.nearestBefore?_eq pos, d.startingAt?_eq pos, d.endingAt?_eq pos⟩
  exact hwf.span_eq_of_innermost? he hx hpos hinside

theorem positions_exact_straddling :
    ∃ d : Directory Kind, d.Obtainable ∧ d.layout.straddling = true ∧
      (d.byPosition.filter fun e => e.span.Contains 12).map (·.name) = ["c", "d"] ∧
      d.innermost? 12 = (d.byPosition.filter fun e => e.span.Contains 12).getLast? ∧
      d.nearestBefore? 12 = (d.byPosition.filter fun e => e.span.start ≤ 12).getLast? ∧
      d.startingAt? 12 = d.byPosition.find? (fun e => e.span.start = 12) ∧
      d.endingAt? 12 = d.entries.find? (fun e => e.span.stop = 12) := by
  -- two regions coincide, one straddles them, and one lies inside all three
  let requests : List (Draft.Request Kind) :=
    [.add "d" ⟨.parserRule, ⟨5, 15⟩⟩, .add "a" ⟨.parserRule, ⟨0, 10⟩⟩,
      .add "b" ⟨.lexerRule, ⟨6, 9⟩⟩, .add "c" ⟨.parserRule, ⟨5, 15⟩⟩]
  have hobtainable := Obtainable.drafted requests
  obtain ⟨-, ⟨hinnermost, -⟩, -, hothers⟩ := positions_exact hobtainable 12
  exact ⟨_, hobtainable, by cbv, by cbv, hinnermost, hothers⟩

end Directory

end Gazetteer
