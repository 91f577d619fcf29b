import Gazetteer.Forest.Lookup
import Gazetteer.Proofs.Forest.Drafting

/-!
# Looking up a position agrees with a scan

`innermost?` bisects the starts and climbs from the row it lands on; it never looks at the rows in
between. In a well-formed forest that misses nothing: a row around the position is open where the
last row at or before it starts, so it is in the lineage of that row.

* `innermost?_eq_some_iff`: the answer is the innermost row around the position.
* `containing_eq_scan`: the rows around a position are those that a scan of all rows finds.
-/

namespace Gazetteer.Forest

variable {κ : Type} {f : Forest κ} {pos : Offset}

/-- The rows around `pos`, found by asking every row, last row first. -/
def scan (f : Forest κ) (pos : Offset) : List Nat :=
  ((List.range f.size).filter fun i => (f.span? i).any fun s => s.Contains pos).reverse

theorem start?_eq_some_iff {i : Nat} {a : Offset} :
    f.start? i = some a ↔ ∃ s, f.span? i = some s ∧ s.start = a := by
  unfold start? span?
  cases f.get? i <;> simp

theorem stop?_eq_some_iff {i : Nat} {a : Offset} :
    f.stop? i = some a ↔ ∃ s, f.span? i = some s ∧ s.stop = a := by
  unfold stop? span?
  cases f.get? i <;> simp

theorem mem_scan {i : Nat} : i ∈ f.scan pos ↔ Covers f.span? pos i := by
  unfold scan Covers
  rw [List.mem_reverse, List.mem_filter, List.mem_range, Option.any_eq_true]
  simp only [decide_eq_true_eq]
  constructor
  · rintro ⟨-, s, hs, hc⟩
    exact ⟨s, hs, hc⟩
  · rintro ⟨s, hs, hc⟩
    exact ⟨lt_size_of_span? hs, s, hs, hc⟩

theorem scan_descending (f : Forest κ) (pos : Offset) :
    (f.scan pos).Pairwise fun a b => b < a := by
  unfold scan
  rw [List.pairwise_reverse]
  exact List.pairwise_lt_range.filter _

theorem any_start?_iff {p : Offset → Bool} {i : Nat} :
    (f.start? i).any p = true ↔ ∃ s, f.span? i = some s ∧ p s.start = true := by
  simp only [Option.any_eq_true, start?_eq_some_iff]
  constructor
  · rintro ⟨_, ⟨s, hs, rfl⟩, hp⟩
    exact ⟨s, hs, hp⟩
  · rintro ⟨s, hs, hp⟩
    exact ⟨s.start, ⟨s, hs, rfl⟩, hp⟩

namespace WellFormed

/-- The bisection of the starts counts the rows whose start passes a test, if a start passes it as
soon as a later one does. -/
theorem lt_bisect_start?_iff (h : f.WellFormed) {test : Offset → Bool}
    (htest : ∀ {a b}, a ≤ b → test b = true → test a = true) {i : Nat} :
    i < bisect (fun i => (f.start? i).any test) 0 f.size ↔
      ∃ s, f.span? i = some s ∧ test s.start = true := by
  have anti : ∀ i j, i ≤ j → j < f.size → (f.start? j).any test = true →
      (f.start? i).any test = true := by
    intro i j hij hj hstart
    obtain ⟨t, ht, hpass⟩ := any_start?_iff.mp hstart
    obtain ⟨s, hs⟩ := exists_span?_of_lt (hij.trans_lt hj)
    exact any_start?_iff.mpr ⟨s, hs, htest (h.start_le hij hs ht) hpass⟩
  rw [lt_bisect_iff anti, any_start?_iff, and_iff_right_iff_imp]
  rintro ⟨s, hs, -⟩
  exact lt_size_of_span? hs

/-- The rows that start at or before the position. -/
theorem lt_startedBy_iff (h : f.WellFormed) {i : Nat} :
    i < f.startedBy pos ↔ ∃ s, f.span? i = some s ∧ s.start ≤ pos := by
  unfold startedBy
  rw [h.lt_bisect_start?_iff fun hab hb => decide_eq_true (hab.trans (of_decide_eq_true hb))]
  simp only [decide_eq_true_eq]

/-- The rows that start before the position. -/
theorem lt_startedBefore_iff (h : f.WellFormed) {i : Nat} :
    i < f.startedBefore pos ↔ ∃ s, f.span? i = some s ∧ s.start < pos := by
  unfold startedBefore
  rw [h.lt_bisect_start?_iff fun hab hb => decide_eq_true (hab.trans_lt (of_decide_eq_true hb))]
  simp only [decide_eq_true_eq]

/-- **Bisecting and climbing finds the innermost row** around a position. -/
theorem innermost?_eq_some_iff (h : f.WellFormed) {i : Nat} :
    f.innermost? pos = some i ↔ Innermost f.span? pos i := by
  unfold innermost?
  refine h.climb_eq_some_iff (fun i => h.lt_startedBy_iff) (fun {i s} hs => ?_) i
  rw [stop?_eq_some_iff.mpr ⟨s, hs, rfl⟩]
  simp

theorem innermost?_eq_none_iff (h : f.WellFormed) :
    f.innermost? pos = none ↔ ∀ i, ¬ Covers f.span? pos i := by
  constructor
  · intro hnone i hi
    obtain ⟨m, hm⟩ := h.exists_innermost (fun i => span?_eq_none) hi
    rw [h.innermost?_eq_some_iff.mpr hm] at hnone
    exact absurd hnone (by simp)
  · intro hno
    cases hi : f.innermost? pos with
    | none => rfl
    | some i => exact absurd (h.innermost?_eq_some_iff.mp hi).1 (hno i)

theorem mem_containing (h : f.WellFormed) {i : Nat} :
    i ∈ f.containing pos ↔ Covers f.span? pos i := by
  unfold containing
  cases hm : f.innermost? pos with
  | none =>
    have hno := h.innermost?_eq_none_iff.mp hm
    simp [hno i]
  | some m => exact h.mem_lineage_innermost (h.innermost?_eq_some_iff.mp hm) i

/-- **The rows around a position** are those that a scan of all rows finds, in the same order. -/
theorem containing_eq_scan (h : f.WellFormed) (pos : Offset) : f.containing pos = f.scan pos := by
  have hdesc : (f.containing pos).Pairwise fun a b => b < a := by
    unfold containing
    cases f.innermost? pos with
    | none => exact List.Pairwise.nil
    | some i => exact (lineage_descending f.parent? i).2
  refine List.Pairwise.eq_of_mem_iff hdesc (f.scan_descending pos) fun i => ?_
  rw [h.mem_containing, mem_scan]

end WellFormed

theorem head?_containing (f : Forest κ) (pos : Offset) :
    (f.containing pos).head? = f.innermost? pos := by
  unfold containing
  cases f.innermost? pos with
  | none => rfl
  | some i =>
    show (lineage f.parent? i).head? = some i
    rw [lineage]
    split
    · split <;> rfl
    · rfl

/-- **Looking up a position agrees with a scan of all rows**, in every forest that is drafted: the
rows around the position are listed each once, last row first, each one inside those after it in
the list; the innermost row is the first of them, the last row around the position. -/
theorem lookup_offerAll_exact (calls : List (Option κ × Span)) (pos : Offset) :
    let f := (Draft.empty.offerAll calls).freeze
    f.containing pos = f.scan pos ∧
    (∀ i, i ∈ f.containing pos ↔ ∃ s, f.span? i = some s ∧ s.start ≤ pos ∧ pos < s.stop) ∧
    ((f.containing pos).Pairwise fun inner outer => outer < inner ∧ Around f.span? outer inner) ∧
    f.innermost? pos = (f.containing pos).head? ∧
    (∀ i, f.innermost? pos = some i ↔ IsGreatest {j | Covers f.span? pos j} i) ∧
    (f.innermost? pos = none ↔ ∀ i, ¬ Covers f.span? pos i) := by
  intro f
  have h : f.WellFormed := (Draft.inv_empty.offerAll calls).wellFormed
  refine ⟨h.containing_eq_scan pos, fun i => h.mem_containing, ?_, (f.head?_containing pos).symm,
    fun i => ?_, h.innermost?_eq_none_iff⟩
  · rw [h.containing_eq_scan pos]
    refine (f.scan_descending pos).imp_of_mem fun {a b} ha hb hlt => ?_
    exact ⟨hlt, h.around_of_covers hlt.le (mem_scan.mp hb) (mem_scan.mp ha)⟩
  · rw [h.innermost?_eq_some_iff, h.innermost_iff]

end Gazetteer.Forest
