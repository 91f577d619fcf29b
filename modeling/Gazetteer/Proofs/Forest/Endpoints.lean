import Gazetteer.Proofs.Column
import Gazetteer.Proofs.Forest.Lookup

/-!
# Looking up where rows start and stop

The starts of a forest ascend, its ends need not: a row that lies inside another one comes after it
and stops no later. What stops at a position is therefore searched for in two ways, by bisection
among the rows before the first nested one and by a scan of the rest. Up to there no row lies inside
another, so the ends do ascend (`WellFormed.stop_lt_of_lt_sortedEnds`), and the first row that is
found in either way is the first there is.

* `WellFormed.startingAt?_eq_some_iff`, `WellFormed.endingAt?_eq_some_iff`: the first row that
  starts, or stops, at a position.
* `WellFormed.within_eq_filter`: the rows inside a span, even one that covers nothing.
-/

namespace Gazetteer.Forest

variable {κ : Type} {f : Forest κ} {pos : Offset}

theorem lt_size_of_start? {i : Nat} {a : Offset} (hi : f.start? i = some a) : i < f.size := by
  obtain ⟨s, hs, -⟩ := start?_eq_some_iff.mp hi
  exact lt_size_of_span? hs

theorem lt_size_of_stop? {i : Nat} {a : Offset} (hi : f.stop? i = some a) : i < f.size := by
  obtain ⟨s, hs, -⟩ := stop?_eq_some_iff.mp hi
  exact lt_size_of_span? hs

theorem exists_stop?_of_lt {i : Nat} (hi : i < f.size) : ∃ a, f.stop? i = some a := by
  obtain ⟨s, hs⟩ := exists_span?_of_lt hi
  exact ⟨s.stop, stop?_eq_some_iff.mpr ⟨s, hs, rfl⟩⟩

namespace WellFormed

variable (h : f.WellFormed)

include h

/-! ## Starts -/

/-- **The first row that starts at a position.** -/
theorem startingAt?_eq_some_iff (i : Nat) :
    f.startingAt? pos = some i ↔ IsLeast {j | f.start? j = some pos} i := by
  have hsize : {j | f.start? j = some pos} = {j | j < f.size ∧ f.start? j = some pos} :=
    Set.ext fun j => (and_iff_right_of_imp lt_size_of_start?).symm
  have hvalue : ∀ i, i < f.size → ∃ a, f.start? i = some a := by
    intro i hi
    obtain ⟨s, hs⟩ := exists_span?_of_lt hi
    exact ⟨s.start, start?_eq_some_iff.mpr ⟨s, hs, rfl⟩⟩
  rw [hsize, isLeast_iff_bisect hvalue]
  · show (if f.start? (f.startedBefore pos) = some pos then some (f.startedBefore pos) else none)
      = some i ↔ f.startedBefore pos = i ∧ i < f.size ∧ f.start? i = some pos
    rw [Option.ite_none_right_eq_some, Option.some.injEq]
    constructor
    · rintro ⟨hstart, rfl⟩
      exact ⟨rfl, lt_size_of_start? hstart, hstart⟩
    · rintro ⟨rfl, -, hstart⟩
      exact ⟨hstart, rfl⟩
  · intro i j a b hij _ hi hj
    obtain ⟨s, hs, rfl⟩ := start?_eq_some_iff.mp hi
    obtain ⟨t, ht, rfl⟩ := start?_eq_some_iff.mp hj
    exact h.sorted hij hs ht

/-! ## Ends -/

/-- No row before the first nested one has a parent. -/
theorem parent?_eq_none_of_lt_sortedEnds {j : Nat} (hj : j < f.sortedEnds) :
    f.parent? j = none := by
  unfold sortedEnds at hj
  cases hn : f.nestingBegins with
  | none => exact h.nestingBegins_eq_none_iff.mp hn j
  | some n =>
    rw [hn, Option.getD_some] at hj
    obtain ⟨-, hmin⟩ := (h.nestingBegins_iff n).mp hn
    by_contra hp
    exact absurd (hmin (Option.isSome_iff_ne_none.mpr hp)) (not_le.mpr hj)

theorem sortedEnds_le_size : f.sortedEnds ≤ f.size := by
  unfold sortedEnds
  cases hn : f.nestingBegins with
  | none => exact le_refl _
  | some n =>
    obtain ⟨p, hp⟩ := Option.isSome_iff_exists.mp ((h.nestingBegins_iff n).mp hn).1
    exact (lt_size_of_parent? hp).le

/-- **Before the first nested row the ends ascend**, each strictly above the one before: none of
these rows lies inside another, so each starts where those before it have stopped. -/
theorem stop_lt_of_lt_sortedEnds {i j : Nat} {a b : Offset} (hij : i < j) (hj : j < f.sortedEnds)
    (hi : f.stop? i = some a) (hb : f.stop? j = some b) : a < b := by
  obtain ⟨s, hs, rfl⟩ := stop?_eq_some_iff.mp hi
  obtain ⟨t, ht, rfl⟩ := stop?_eq_some_iff.mp hb
  have hapart : ¬ Around f.span? i j :=
    (h.parent_eq_none_iff j).mp (h.parent?_eq_none_of_lt_sortedEnds hj) i hij
  rw [h.around_iff hij hs ht, not_lt] at hapart
  exact hapart.trans_lt (h.proper ht)

/-- **The first row that stops at a position.** -/
theorem endingAt?_eq_some_iff (i : Nat) :
    f.endingAt? pos = some i ↔ IsLeast {j | f.stop? j = some pos} i := by
  have hbisect := isLeast_iff_bisect
    (fun i hi => exists_stop?_of_lt (hi.trans_le h.sortedEnds_le_size))
    (fun hij hj hi hb => (h.stop_lt_of_lt_sortedEnds hij hj hi hb).le) pos
  unfold endingAt?
  generalize bisect (fun i => (f.stop? i).any (· < pos)) 0 f.sortedEnds = k at hbisect
  simp only
  by_cases hk : k < f.sortedEnds ∧ f.stop? k = some pos
  · obtain ⟨-, hmin⟩ := (hbisect k).mpr ⟨rfl, hk⟩
    have hleast : IsLeast {j | f.stop? j = some pos} k := by
      refine ⟨hk.2, fun j hj => ?_⟩
      by_cases hj' : j < f.sortedEnds
      · exact hmin ⟨hj', hj⟩
      · exact hk.1.le.trans (not_lt.mp hj')
    rw [if_pos hk, Option.some.injEq]
    exact ⟨fun e => e ▸ hleast, fun hi => hleast.unique hi⟩
  · -- nothing before the first nested row stops here, or bisection would have found it
    have hlate : ∀ j, f.stop? j = some pos → f.sortedEnds ≤ j := by
      intro j hj
      by_contra hlt
      have hex : ∃ j, j < f.sortedEnds ∧ f.stop? j = some pos := ⟨j, not_le.mp hlt, hj⟩
      obtain ⟨rfl, hfound⟩ := (hbisect _).mp (Nat.isLeast_find hex)
      exact hk hfound
    rw [if_neg hk, List.find?_range'_eq_some]
    simp only [decide_eq_true_eq, List.mem_range'_1, Bool.not_eq_true', decide_eq_false_iff_not]
    constructor
    · rintro ⟨hi, -, hno⟩
      refine ⟨hi, fun j hj => ?_⟩
      by_contra hlt
      exact hno j (hlate j hj) (not_le.mp hlt) hj
    · rintro ⟨hi, hmin⟩
      have hlt := lt_size_of_stop? hi
      refine ⟨hi, ⟨hlate i hi, by omega⟩, fun j _ hlt hj => ?_⟩
      exact absurd (hmin hj) (not_le.mpr hlt)

/-! ## Stretches of text -/

/-- **The rows inside a span**, ascending. -/
theorem within_eq_filter (span : Span) :
    f.within span = (List.range f.size).filter fun i =>
      (f.span? i).any fun s => span.Encloses s := by
  have hascending : (f.within span).Pairwise (· < ·) :=
    List.Pairwise.filter _ List.pairwise_lt_range'
  refine List.Pairwise.eq_of_mem_iff hascending (List.pairwise_lt_range.filter _) fun i => ?_
  unfold within
  have hrange : f.startedBefore span.start ≤ i ∧ i < f.startedBefore span.start +
      (f.startedBefore span.stop - f.startedBefore span.start) ↔
      ¬ i < f.startedBefore span.start ∧ i < f.startedBefore span.stop := by omega
  simp only [List.mem_filter, List.mem_range'_1, List.mem_range, Option.any_eq_true,
    decide_eq_true_eq, hrange, h.lt_startedBefore_iff, stop?_eq_some_iff]
  constructor
  · rintro ⟨⟨hstart, s, hs, -⟩, _, ⟨t, ht, rfl⟩, hstop⟩
    obtain rfl : s = t := Option.some.inj (hs.symm.trans ht)
    exact ⟨lt_size_of_span? hs, s, hs, not_lt.mp fun hlt => hstart ⟨s, hs, hlt⟩, hstop⟩
  · rintro ⟨-, s, hs, hle, hstop⟩
    refine ⟨⟨?_, s, hs, (h.proper hs).trans_le hstop⟩, s.stop, ⟨s, hs, rfl⟩, hstop⟩
    rintro ⟨t, ht, hlt⟩
    obtain rfl : s = t := Option.some.inj (hs.symm.trans ht)
    exact absurd hlt (not_lt.mpr hle)

end WellFormed

/-- **Looking up ends and stretches agrees with a scan of all rows**, in every forest that is
drafted:

* what is found to stop, or to start, at a position is the first row that does, and nothing is found
  iff no row does;
* the rows inside a span, which may cover nothing or be turned round, are listed in order;
* before the first row that has a parent the ends strictly ascend. -/
theorem endpoints_offerAll_exact (calls : List (Option κ × Span)) (pos : Offset) (span : Span) :
    let f := (Draft.empty.offerAll calls).freeze
    (∀ i, f.endingAt? pos = some i ↔ IsLeast {j | f.stop? j = some pos} i) ∧
    (f.endingAt? pos = none ↔ ∀ j, f.stop? j ≠ some pos) ∧
    (∀ i, f.startingAt? pos = some i ↔ IsLeast {j | f.start? j = some pos} i) ∧
    (f.startingAt? pos = none ↔ ∀ j, f.start? j ≠ some pos) ∧
    (f.within span = (List.range f.size).filter fun i =>
      (f.span? i).any fun s => span.start ≤ s.start ∧ s.stop ≤ span.stop) ∧
    ∀ i j a b, i < j → j < f.nestingBegins.getD f.size → f.stop? i = some a →
      f.stop? j = some b → a < b := by
  intro f
  have h : f.WellFormed := (Draft.inv_empty.offerAll calls).wellFormed
  exact ⟨h.endingAt?_eq_some_iff, eq_none_iff_of_isLeast h.endingAt?_eq_some_iff,
    h.startingAt?_eq_some_iff, eq_none_iff_of_isLeast h.startingAt?_eq_some_iff,
    h.within_eq_filter span, fun i j a b => h.stop_lt_of_lt_sortedEnds⟩

end Gazetteer.Forest
