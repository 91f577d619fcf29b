import Gazetteer.Directory.Layout
import Gazetteer.Proofs.Column
import Gazetteer.Proofs.Forest.Rebuilding
import Gazetteer.Proofs.Runs
import Mathlib.Data.Prod.Lex

/-!
# What a layout answers

Regions in position order are swept once, with a stack of open ones. As long as none of them
straddles the top of the stack this is how a forest is drafted, so the slots are the rows of a
forest (`rows_toForest`), and climbing finds what it finds there. If some region straddles, nothing
is known about the parent links, and nothing is needed: the scan asks every region.

* `straddling_iff`: a layout says that regions straddle iff two of them do.
* `placeAt?_eq_some_iff`: either way, the answer is the last region around the position.
* `innermost?_ofRegions`, `nearestBefore?_ofRegions`, `startingAt?_ofRegions`,
  `endingAt?_ofRegions`: what the bisections find is what a scan of all regions finds.
-/

namespace Gazetteer

/-- `b` starts inside `a` and ends after it. -/
def Span.Straddles (a b : Span) : Prop := a.start < b.start ∧ b.start < a.stop ∧ a.stop < b.stop

instance (a b : Span) : Decidable (a.Straddles b) :=
  inferInstanceAs (Decidable (a.start < b.start ∧ b.start < a.stop ∧ a.stop < b.stop))

/-- **Position order**: by start, of regions with the same start the longer first, of equal regions
by index. -/
def Placed.Precedes (a b : Placed) : Prop :=
  a.span.start < b.span.start ∨
    a.span.start = b.span.start ∧
      (b.span.stop < a.span.stop ∨ a.span.stop = b.span.stop ∧ a.index < b.index)

namespace Placed.Precedes

variable {a b : Placed}

theorem start_le (h : a.Precedes b) : a.span.start ≤ b.span.start := by
  rcases h with h | ⟨h, -⟩
  · exact h.le
  · exact h.le

/-- Of two regions in position order, the first admits the second unless the second straddles it. -/
theorem admits_iff (h : a.Precedes b) : a.span.Admits b.span ↔ ¬ a.span.Straddles b.span := by
  unfold Span.Admits Span.Straddles
  rcases h with h | ⟨h, hstop⟩
  · have hle := h.le
    simp only [hle, h, true_and, not_and, not_lt]
    exact ⟨fun hadm hopen => hadm.resolve_left (not_le.mpr hopen), fun himp =>
      (le_or_gt a.span.stop b.span.start).imp_right himp⟩
  · have hle : b.span.stop ≤ a.span.stop := by
      rcases hstop with hlt | ⟨heq, -⟩
      · exact hlt.le
      · exact heq.ge
    simp [h, hle]

end Placed.Precedes

namespace Layout

/-! ## Sorted regions -/

/-- The regions in position order. -/
def inOrder (regions : List Placed) : List Placed := regions.mergeSort positionLE

theorem mem_inOrder {regions : List Placed} {r : Placed} : r ∈ inOrder regions ↔ r ∈ regions :=
  (List.mergeSort_perm regions positionLE).mem_iff

/-- What position order compares: ends count downwards. -/
def positionKey (a : Placed) : Offset ×ₗ (Offsetᵒᵈ ×ₗ Nat) :=
  toLex (a.span.start, toLex (OrderDual.toDual a.span.stop, a.index))

theorem positionLE_iff (a b : Placed) : positionLE a b = true ↔ positionKey a ≤ positionKey b := by
  simp [positionLE, positionKey, Prod.Lex.toLex_le_toLex]

theorem precedes_iff (a b : Placed) : a.Precedes b ↔ positionKey a < positionKey b := by
  simp [Placed.Precedes, positionKey, Prod.Lex.toLex_lt_toLex]

/-- What the order by end compares. -/
def stopKey (a : Placed) : Offset ×ₗ Nat := toLex (a.span.stop, a.index)

theorem stopLE_iff (a b : Placed) : stopLE a b = true ↔ stopKey a ≤ stopKey b := by
  simp [stopLE, stopKey, Prod.Lex.toLex_le_toLex]

section Sorted

variable {regions : List Placed} (hindex : regions.Pairwise fun a b => a.index < b.index)

include hindex

theorem pairwise_inOrder : (inOrder regions).Pairwise Placed.Precedes := by
  have hindices : (regions.map (·.index)).Nodup := List.pairwise_map.mpr (hindex.imp ne_of_lt)
  have hkeys : (regions.map positionKey).Nodup := by
    refine List.Nodup.of_map (fun k => (ofLex (ofLex k).2).2) ?_
    rwa [List.map_map]
  exact (pairwise_lt_mergeSort positionLE_iff hkeys).imp fun {a b} => (precedes_iff a b).mpr

end Sorted

/-! ## The sweep -/

end Layout

/-- The region of a slot. -/
def Slot.region (s : Slot) : Placed := ⟨s.ordinal, s.span⟩

/-- A slot as the row of a forest, keyed by its ordinal. -/
def Slot.row (s : Slot) : Interval Nat := ⟨s.span, some s.ordinal, s.parent⟩

namespace Layout

variable {around pending : List Placed} {region : Placed}

theorem region_slotIn (around : List Placed) (region : Placed) :
    (slotIn around region).region = region := by
  unfold slotIn
  split
  · split <;> rfl
  · rfl

theorem straddles_slotIn (around : List Placed) (region : Placed) :
    (slotIn around region).straddles =
      around.head?.any fun top => top.span.stop < region.span.stop := by
  unfold slotIn
  split
  · rename_i top rest
    split
    · rename_i hle
      simp [hle]
    · rename_i hlt
      simpa using hlt
  · rfl

/-- A region that straddles nothing has the innermost open region for its parent. -/
theorem row_slotIn (h : (slotIn around region).straddles = false) :
    (slotIn around region).row = ⟨region.span, some region.index, around.head?.map (·.index)⟩ := by
  unfold slotIn at h ⊢
  split
  · rename_i top rest
    split
    · rfl
    · rename_i hlt
      simp [hlt] at h
  · rfl

/-- The slots are the regions in the same order. -/
theorem map_region_arrange (next : Nat) (pending regions : List Placed) :
    (arrange next pending regions).map Slot.region = regions := by
  induction regions generalizing next pending with
  | nil => rfl
  | cons region rest ih => rw [arrange, List.map_cons, region_slotIn, ih]

theorem mem_stillOpen {pos : Offset} {stack rest : List Placed} {top : Placed}
    (h : stillOpen pos stack = top :: rest) : top ∈ stack ∧ pos < top.span.stop := by
  have hhead := List.head?_dropWhile_not (fun o => decide (o.span.stop ≤ pos)) stack
  have hmem : top ∈ stillOpen pos stack := h ▸ List.mem_cons_self
  unfold stillOpen at h hmem
  rw [h] at hhead
  exact ⟨List.dropWhile_subset _ hmem, not_le.mp (of_decide_eq_false hhead)⟩

/-- Regions each of which admits all later ones do not straddle. -/
theorem straddles_arrange_eq_false {regions : List Placed} (next : Nat)
    (hpending : ∀ o ∈ pending, ∀ r ∈ regions, o.span.Admits r.span)
    (hpair : regions.Pairwise fun a b => a.span.Admits b.span) :
    ∀ s ∈ arrange next pending regions, s.straddles = false := by
  induction regions generalizing next pending with
  | nil => exact fun s hs => absurd hs List.not_mem_nil
  | cons region rest ih =>
    obtain ⟨hregion, hrest⟩ := List.pairwise_cons.mp hpair
    have hfirst : (slotIn (stillOpen region.span.start pending) region).straddles = false := by
      rw [straddles_slotIn]
      cases hopen : stillOpen region.span.start pending with
      | nil => rfl
      | cons top around =>
        obtain ⟨hmem, hlt⟩ := mem_stillOpen hopen
        rcases (hpending top hmem region List.mem_cons_self).2 with hapart | hinside
        · exact absurd hlt (not_lt.mpr hapart)
        · simpa using hinside
    intro s hs
    rcases List.mem_cons.mp hs with rfl | hs
    · exact hfirst
    · refine ih (next + 1) (fun o ho r hr => ?_) hrest s hs
      rcases List.mem_cons.mp ho with rfl | ho
      · exact hregion r hr
      · exact hpending o (List.dropWhile_subset _ ho) r (List.mem_cons_of_mem region hr)

/-! ## A layout without straddling regions is a forest -/

/-- A draft accepts a region that does not straddle the innermost open row. -/
theorem offer_eq_push {d : Forest.Draft Nat} (hproper : region.span.Proper)
    (hfrontier : d.frontier ≤ region.span.start)
    (h : (slotIn (d.scope region.span.start) region).straddles = false) :
    d.offer (some region.index) region.span = d.push (some region.index) region.span := by
  have hcrossing : d.crossing? region.span = none := by
    rw [Forest.Draft.crossing?_eq]
    rw [straddles_slotIn] at h
    cases hhead : (d.scope region.span.start).head? with
    | none => rfl
    | some top =>
      rw [hhead, Option.any_some, decide_eq_false_iff_not] at h
      exact if_neg h
  rw [Forest.Draft.offer, Forest.Draft.add, Forest.Draft.objection?_eq_crossing? hproper hfrontier,
    hcrossing]

theorem rows_push {d : Forest.Draft Nat}
    (h : (slotIn (d.scope region.span.start) region).straddles = false) :
    (d.push (some region.index) region.span).rows.toList =
      d.rows.toList ++ [(slotIn (d.scope region.span.start) region).row] := by
  rw [row_slotIn h]
  exact Array.toList_push

/-- **The sweep drafts a forest**, as long as nothing straddles: the stack of open regions is that
of the draft, and each slot is the row that the draft adds. -/
theorem rows_offerAll {regions : List Placed} (d : Forest.Draft Nat)
    (hproper : ∀ r ∈ regions, r.span.Proper)
    (hstart : regions.Pairwise fun a b => a.span.start ≤ b.span.start)
    (hfrontier : ∀ r ∈ regions, d.frontier ≤ r.span.start)
    (hnone : ∀ s ∈ arrange d.size d.pending regions, s.straddles = false) :
    (d.offerAll (regions.map fun r => (some r.index, r.span))).rows.toList =
      d.rows.toList ++ (arrange d.size d.pending regions).map Slot.row := by
  induction regions generalizing d with
  | nil => exact (List.append_nil _).symm
  | cons region rest ih =>
    obtain ⟨hbefore, hstart⟩ := List.pairwise_cons.mp hstart
    have hfirst : (slotIn (d.scope region.span.start) region).straddles = false :=
      hnone _ List.mem_cons_self
    have hoffer := offer_eq_push (hproper _ List.mem_cons_self) (hfrontier _ List.mem_cons_self)
      hfirst
    have hsize : (d.push (some region.index) region.span).size = d.size + 1 := Array.size_push ..
    have hrest := ih (d.push (some region.index) region.span)
      (fun r hr => hproper r (List.mem_cons_of_mem _ hr)) hstart
      (fun r hr => (d.frontier_push _ _).symm ▸ hbefore r hr)
      (fun s hs => hnone s (List.mem_cons_of_mem _ (hsize ▸ hs)))
    rw [rows_push hfirst, hsize, List.append_assoc] at hrest
    show ((d.offer (some region.index) region.span).offerAll _).rows.toList = _
    rw [hoffer, hrest]
    rfl

variable {regions : List Placed} {l : Layout}

/-- The forest that is drafted from regions in position order. -/
def toForest (regions : List Placed) : Forest Nat :=
  (Forest.Draft.empty.offerAll ((inOrder regions).map fun r => (some r.index, r.span))).freeze

theorem wellFormed_toForest (regions : List Placed) : (toForest regions).WellFormed :=
  (Forest.Draft.inv_empty.offerAll _).wellFormed

theorem map_region_slots (regions : List Placed) :
    (ofRegions regions).slots.toList.map Slot.region = inOrder regions :=
  map_region_arrange 0 [] _

theorem straddling_eq_false_iff :
    l.straddling = false ↔ ∀ s ∈ l.slots.toList, s.straddles = false := by
  rw [straddling, ← Array.any_toList, List.any_eq_false]
  simp only [Bool.not_eq_true]

section Sorted

variable (hindex : regions.Pairwise fun a b => a.index < b.index)
  (hproper : ∀ r ∈ regions, r.span.Proper)

include hindex hproper

/-- **The slots are the rows of a forest**, if no region straddles. -/
theorem rows_toForest (h : (ofRegions regions).straddling = false) :
    (toForest regions).rows.toList = (ofRegions regions).slots.toList.map Slot.row := by
  refine (rows_offerAll Forest.Draft.empty (fun r hr => hproper r (mem_inOrder.mp hr))
    ((pairwise_inOrder hindex).imp Placed.Precedes.start_le) (fun r _ => Nat.zero_le _)
    (straddling_eq_false_iff.mp h)).trans ?_
  exact List.nil_append _

/-- Nothing straddles iff each region admits all later ones. -/
theorem straddling_eq_false_iff_admits :
    (ofRegions regions).straddling = false ↔
      (inOrder regions).Pairwise fun a b => a.span.Admits b.span := by
  constructor
  · intro h
    have hadm := Forest.WellFormed.rows_admit (wellFormed_toForest regions)
    rw [rows_toForest hindex hproper h, List.pairwise_map] at hadm
    rw [← map_region_slots, List.pairwise_map]
    exact hadm
  · intro h
    refine straddling_eq_false_iff.mpr (straddles_arrange_eq_false 0 (fun o ho => ?_) h)
    exact absurd ho List.not_mem_nil

/-- **A layout says that regions straddle iff two of them do.** -/
theorem straddling_iff :
    (ofRegions regions).straddling = true ↔
      ∃ a ∈ regions, ∃ b ∈ regions, a.span.Straddles b.span := by
  have hsorted := pairwise_inOrder hindex
  rw [← Bool.not_eq_false, straddling_eq_false_iff_admits hindex hproper]
  constructor
  · intro hnot
    by_contra hno
    push Not at hno
    refine hnot (hsorted.imp_of_mem fun {a b} ha hb hab => hab.admits_iff.mpr ?_)
    exact hno a (mem_inOrder.mp ha) b (mem_inOrder.mp hb)
  · rintro ⟨a, ha, b, hb, hab⟩ hadm
    obtain ⟨i, hi, rfl⟩ := List.mem_iff_getElem.mp (mem_inOrder.mpr ha)
    obtain ⟨j, hj, rfl⟩ := List.mem_iff_getElem.mp (mem_inOrder.mpr hb)
    rcases lt_trichotomy i j with hij | rfl | hji
    · have hprecedes := List.pairwise_iff_getElem.mp hsorted i j hi hj hij
      exact hprecedes.admits_iff.mp (List.pairwise_iff_getElem.mp hadm i j hi hj hij) hab
    · exact lt_irrefl _ hab.1
    · have hprecedes := List.pairwise_iff_getElem.mp hsorted j i hj hi hji
      exact absurd hab.1 (not_lt.mpr hprecedes.start_le)

end Sorted

/-! ## Places -/

theorem getElem?_slots (regions : List Placed) (p : Nat) :
    (ofRegions regions).slots[p]?.map Slot.region = (inOrder regions)[p]? := by
  rw [← map_region_slots, List.getElem?_map, Array.getElem?_toList]

theorem size_ofRegions (regions : List Placed) :
    (ofRegions regions).size = (inOrder regions).length := by
  rw [← map_region_slots, List.length_map, Array.length_toList]
  rfl

theorem any_slots (regions : List Placed) (test : Placed → Bool) (p : Nat) :
    (ofRegions regions).slots[p]?.any (fun s => test s.region) =
      (inOrder regions)[p]?.any test := by
  rw [← getElem?_slots, Option.any_map]

/-- The ordinals stand in position order. -/
theorem order_ofRegions (regions : List Placed) :
    (ofRegions regions).order = (inOrder regions).map (·.index) := by
  rw [← map_region_slots, List.map_map]
  rfl

theorem ordinal?_ofRegions (regions : List Placed) (p : Nat) :
    (ofRegions regions).ordinal? p = (inOrder regions)[p]?.map (·.index) := by
  rw [← getElem?_slots, Option.map_map]
  rfl

/-- A bisection of the slots is one of the regions. -/
theorem bisect_slots (regions : List Placed) (test : Placed → Bool) :
    bisect (fun p => (ofRegions regions).slots[p]?.any fun s => test s.region) 0
        (ofRegions regions).size =
      bisect (fun p => (inOrder regions)[p]?.any test) 0 (inOrder regions).length := by
  rw [size_ofRegions, funext (any_slots regions test)]

theorem startedBy_ofRegions (regions : List Placed) (pos : Offset) :
    (ofRegions regions).startedBy pos =
      bisect (fun p => (inOrder regions)[p]?.any fun r => r.span.start ≤ pos) 0
        (inOrder regions).length :=
  bisect_slots regions fun r => r.span.start ≤ pos

theorem outlasts_ofRegions (regions : List Placed) (pos : Offset) (p : Nat) :
    (ofRegions regions).outlasts pos p =
      (inOrder regions)[p]?.any fun r => pos < r.span.stop :=
  any_slots regions (fun r => pos < r.span.stop) p

/-- The region at a place. -/
def span? (l : Layout) (p : Nat) : Option Span := l.slots[p]?.map (·.span)

theorem span?_ofRegions (regions : List Placed) (p : Nat) :
    (ofRegions regions).span? p = (inOrder regions)[p]?.map (·.span) := by
  rw [← getElem?_slots, Option.map_map]
  rfl

/-- The places of the regions around a position. -/
def placesAround (regions : List Placed) (pos : Offset) : Set Nat :=
  PlacesOf (inOrder regions) fun r => r.span.Contains pos

theorem mem_placesAround {pos : Offset} {p : Nat} :
    p ∈ placesAround regions pos ↔
      ∃ r, (inOrder regions)[p]? = some r ∧ r.span.Contains pos := by
  simp [placesAround, PlacesOf]

theorem covers_iff {pos : Offset} {p : Nat} :
    Covers (ofRegions regions).span? pos p ↔ p ∈ placesAround regions pos := by
  simp [Covers, mem_placesAround, span?_ofRegions]

section Sorted

variable (hindex : regions.Pairwise fun a b => a.index < b.index) {pos : Offset}

include hindex

theorem lt_startedBy_iff {p : Nat} :
    p < (ofRegions regions).startedBy pos ↔
      ∃ r, (inOrder regions)[p]? = some r ∧ r.span.start ≤ pos := by
  rw [startedBy_ofRegions, lt_bisect_column_iff]
  · simp only [decide_eq_true_eq]
  · refine (pairwise_inOrder hindex).imp fun {a b} hab hb => ?_
    exact decide_eq_true (hab.start_le.trans (of_decide_eq_true hb))

/-- Asking every region that has started finds the last one around the position. -/
theorem scan_eq_some_iff {p : Nat} :
    (List.range ((ofRegions regions).startedBy pos)).reverse.find?
        ((ofRegions regions).outlasts pos) = some p ↔
      IsGreatest (placesAround regions pos) p := by
  have hdesc : (((List.range ((ofRegions regions).startedBy pos)).reverse).filter
      ((ofRegions regions).outlasts pos)).Pairwise fun a b => b < a :=
    (List.pairwise_reverse.mpr List.pairwise_lt_range).filter _
  have hmem : ∀ j, j ∈ ((List.range ((ofRegions regions).startedBy pos)).reverse).filter
      ((ofRegions regions).outlasts pos) ↔ j ∈ placesAround regions pos := by
    intro j
    rw [List.mem_filter, List.mem_reverse, List.mem_range, lt_startedBy_iff hindex,
      outlasts_ofRegions, mem_placesAround, Option.any_eq_true]
    simp only [decide_eq_true_eq]
    constructor
    · rintro ⟨⟨r, hr, hstart⟩, r', hr', hstop⟩
      obtain rfl : r = r' := Option.some.inj (hr.symm.trans hr')
      exact ⟨r, hr, hstart, hstop⟩
    · rintro ⟨r, hr, hstart, hstop⟩
      exact ⟨⟨r, hr, hstart⟩, r, hr, hstop⟩
  rw [← List.head?_filter, head?_eq_some_iff_of_descending id hdesc]
  simp only [hmem, id_eq]
  rfl

variable (hproper : ∀ r ∈ regions, r.span.Proper)

include hproper

theorem nested_of_straddling_eq_false (h : (ofRegions regions).straddling = false) :
    Nested (ofRegions regions).span? (ofRegions regions).parent? := by
  have hget : ∀ p, (toForest regions).get? p = (ofRegions regions).slots[p]?.map Slot.row := by
    intro p
    rw [Forest.get?, ← Array.getElem?_toList, rows_toForest hindex hproper h, List.getElem?_map,
      Array.getElem?_toList]
  have hspan : (toForest regions).span? = (ofRegions regions).span? := by
    funext p
    rw [Forest.span?, hget, Option.map_map]
    rfl
  have hparent : (toForest regions).parent? = (ofRegions regions).parent? := by
    funext p
    rw [Forest.parent?, hget, Option.bind_map]
    rfl
  rw [← hspan, ← hparent]
  exact (wellFormed_toForest regions).toNested

/-- So does climbing, if no region straddles. -/
theorem climb_eq_some_iff (h : (ofRegions regions).straddling = false) {p : Nat} :
    climb (ofRegions regions).parent? ((ofRegions regions).outlasts pos)
        ((ofRegions regions).startedBy pos) = some p ↔
      IsGreatest (placesAround regions pos) p := by
  have hnested := nested_of_straddling_eq_false hindex hproper h
  rw [hnested.climb_eq_some_iff, hnested.innermost_iff]
  · simp only [covers_iff]
    rfl
  · intro i
    rw [lt_startedBy_iff hindex]
    simp [span?_ofRegions]
  · intro i s hs
    rw [span?_ofRegions, Option.map_eq_some_iff] at hs
    obtain ⟨r, hr, rfl⟩ := hs
    rw [outlasts_ofRegions, hr, Option.any_some, decide_eq_true_eq]

/-- **Climbing and scanning find the same**, if no region straddles. -/
theorem climb_eq_scan (h : (ofRegions regions).straddling = false) :
    climb (ofRegions regions).parent? ((ofRegions regions).outlasts pos)
        ((ofRegions regions).startedBy pos) =
      (List.range ((ofRegions regions).startedBy pos)).reverse.find?
        ((ofRegions regions).outlasts pos) := by
  ext p
  exact (climb_eq_some_iff hindex hproper h).trans (scan_eq_some_iff hindex).symm

/-- Whichever way is taken, the last region around the position is found. -/
theorem placeAt?_eq_some_iff {p : Nat} :
    (ofRegions regions).placeAt? pos = some p ↔ IsGreatest (placesAround regions pos) p := by
  unfold placeAt?
  cases h : (ofRegions regions).straddling with
  | true => exact scan_eq_some_iff hindex
  | false => exact climb_eq_some_iff hindex hproper h

/-! ## Answers -/

variable (pos)

theorem innermost?_ofRegions :
    (ofRegions regions).innermost? pos =
      ((inOrder regions).filter fun r => r.span.Contains pos).getLast?.map (·.index) := by
  have hplace : ∀ p, (ofRegions regions).placeAt? pos = some p ↔
      IsGreatest (placesAround regions pos) p :=
    fun _ => placeAt?_eq_some_iff hindex hproper
  rw [innermost?, getLast?_filter_eq_bind hplace, Option.map_bind]
  exact congrArg _ (funext (ordinal?_ofRegions regions))

omit hproper

theorem nearestBefore?_ofRegions :
    (ofRegions regions).nearestBefore? pos =
      ((inOrder regions).filter fun r => r.span.start ≤ pos).getLast?.map (·.index) := by
  have hplaces : PlacesOf (inOrder regions) (fun r => r.span.start ≤ pos) =
      {p | p < (ofRegions regions).startedBy pos} := by
    ext p
    simp [PlacesOf, lt_startedBy_iff hindex]
  unfold nearestBefore?
  cases hcount : (ofRegions regions).startedBy pos with
  | zero =>
    rw [filter_eq_nil_of_placesOf fun p hp => ?_]
    · rfl
    · rw [hplaces, hcount] at hp
      exact Nat.not_lt_zero p hp
  | succ last =>
    have hlast : ∀ p, some last = some p ↔
        IsGreatest (PlacesOf (inOrder regions) fun r => r.span.start ≤ pos) p := by
      intro p
      rw [hplaces, hcount, Option.some.injEq]
      have hgreatest : IsGreatest {p | p < last + 1} last :=
        ⟨Nat.lt_succ_self last, fun p hp => Nat.le_of_lt_succ hp⟩
      exact ⟨fun h => h ▸ hgreatest, fun h => hgreatest.unique h⟩
    rw [getLast?_filter_eq_bind hlast, Option.bind_some]
    exact ordinal?_ofRegions regions last

theorem startingAt?_ofRegions :
    (ofRegions regions).startingAt? pos =
      ((inOrder regions).find? fun r => r.span.start = pos).map (·.index) := by
  have hstart := (pairwise_inOrder hindex).imp Placed.Precedes.start_le
  have hplace := bisect_slots regions fun r => r.span.start < pos
  rw [map_find?_eq_bisect hstart pos, ← hplace, ← getElem?_slots, Option.bind_map]
  rfl

theorem endingAt?_ofRegions :
    (ofRegions regions).endingAt? pos =
      (regions.find? fun r => r.span.stop = pos).map (·.index) := by
  have hindices : (regions.map (·.index)).Nodup := List.pairwise_map.mpr (hindex.imp ne_of_lt)
  have hkeys : (regions.map stopKey).Nodup := by
    refine List.Nodup.of_map (fun k => (ofLex k).2) ?_
    rwa [List.map_map]
  have hsorted := pairwise_lt_mergeSort stopLE_iff hkeys
  -- of regions with the same end, both orders have the one with the lesser index first
  have hfind : (regions.mergeSort stopLE).find? (fun r => r.span.stop = pos) =
      regions.find? fun r => r.span.stop = pos := by
    refine find?_eq_of_perm (·.index) (List.mergeSort_perm regions stopLE) ?_ ?_
    · refine hsorted.imp fun {a b} hab ha hb => ?_
      have hstop : a.span.stop = b.span.stop :=
        (of_decide_eq_true ha).trans (of_decide_eq_true hb).symm
      simpa [stopKey, Prod.Lex.toLex_lt_toLex, hstop] using hab
    · exact hindex.imp fun hab _ _ => hab
  have hstop : (regions.mergeSort stopLE).Pairwise fun a b => a.span.stop ≤ b.span.stop := by
    refine hsorted.imp fun {a b} hab => ?_
    exact Prod.Lex.monotone_fst _ _ hab.le
  rw [← hfind, map_find?_eq_bisect hstop pos]
  simp only [endingAt?, ofRegions, List.getElem?_toArray, List.size_toArray]

end Sorted

end Layout

end Gazetteer
