import Gazetteer.Forest.Audit
import Gazetteer.Proofs.Nesting
import Mathlib.Order.Nat

/-!
# Well-formed forests

`WellFormed` is the rule book of a forest, stated over all pairs of rows: the table of its spans
and parents is `Nested`, and `nestingBegins` is the first row with a parent.

* `WellFormed.audit_eq_ok`: the audit, which compares a row only with the row before it and with
  its parent, has nothing to report about a well-formed forest.
* `WellFormed.parent_wellFounded`: every walk along parent links ends.
-/

namespace Gazetteer.Forest

variable {κ : Type} {f : Forest κ}

/-! ## Rows and their places -/

/-- The span of row `i`. -/
def span? (f : Forest κ) (i : Nat) : Option Span := (f.get? i).map (·.span)

theorem span?_eq_some_iff {i : Nat} {s : Span} :
    f.span? i = some s ↔ ∃ r, f.get? i = some r ∧ r.span = s :=
  Option.map_eq_some_iff

theorem span?_of_get? {i : Nat} {r : Interval κ} (h : f.get? i = some r) :
    f.span? i = some r.span :=
  span?_eq_some_iff.mpr ⟨r, h, rfl⟩

theorem lt_size_of_span? {i : Nat} {s : Span} (h : f.span? i = some s) : i < f.size := by
  obtain ⟨r, hr, -⟩ := span?_eq_some_iff.mp h
  exact (Array.getElem?_eq_some_iff.mp hr).1

theorem exists_span?_of_lt {i : Nat} (h : i < f.size) : ∃ s, f.span? i = some s :=
  ⟨_, span?_of_get? (Array.getElem?_eq_getElem h)⟩

theorem forall_span?_iff {P : Span → Prop} :
    (∀ i t, f.span? i = some t → P t) ↔ ∀ r ∈ f.rows, P r.span := by
  constructor
  · intro h r hr
    obtain ⟨i, hi⟩ := Array.mem_iff_getElem?.mp hr
    exact h i r.span (span?_of_get? hi)
  · intro h i t ht
    obtain ⟨r, hr, rfl⟩ := span?_eq_some_iff.mp ht
    exact h r (Array.mem_of_getElem? hr)

theorem span?_eq_none {i : Nat} (h : f.size ≤ i) : f.span? i = none := by
  rw [span?, get?, Array.getElem?_eq_none h]
  rfl

/-- The keys and spans of the rows. -/
def entries (f : Forest κ) : List (Option κ × Span) := f.rows.toList.map fun r => (r.key, r.span)

theorem entries_getElem? (f : Forest κ) (i : Nat) :
    f.entries[i]? = (f.get? i).map fun r => (r.key, r.span) := by
  simp [entries, get?]

theorem length_entries (f : Forest κ) : f.entries.length = f.size := by simp [entries, size]

theorem span?_eq_entries (f : Forest κ) (i : Nat) : f.span? i = f.entries[i]?.map (·.2) := by
  rw [entries_getElem?, Option.map_map]
  rfl

theorem parent?_eq_none {i : Nat} (h : f.size ≤ i) : f.parent? i = none := by
  rw [parent?, get?, Array.getElem?_eq_none h]
  rfl

theorem lt_size_of_parent? {i p : Nat} (h : f.parent? i = some p) : i < f.size := by
  by_contra hge
  rw [parent?_eq_none (not_lt.mp hge)] at h
  exact absurd h (by simp)

theorem mem_placed {p : Placed} : p ∈ f.placed ↔ f.span? p.index = some p.span := by
  rw [span?_eq_some_iff]
  simp only [placed, List.mem_map, Prod.exists, List.mem_zipIdx_iff_getElem?, get?,
    Array.getElem?_toList]
  constructor
  · rintro ⟨r, i, hr, rfl⟩
    exact ⟨r, hr, rfl⟩
  · rintro ⟨r, hr, hs⟩
    exact ⟨r, p.index, hr, by rw [hs]⟩

theorem map_index_placed (f : Forest κ) : f.placed.map (·.index) = List.range f.size := by
  simp only [placed, List.map_map]
  exact (List.zipIdx_map_snd 0 f.rows.toList).trans (by simp [List.range_eq_range', size])

theorem placed_ascending (f : Forest κ) :
    f.placed.Pairwise fun a b => a.index < b.index := by
  have := List.pairwise_lt_range (n := f.size)
  rw [← map_index_placed, List.pairwise_map] at this
  exact this

/-! ## The rules -/

/-- **A forest that keeps its rules.** -/
structure WellFormed (f : Forest κ) : Prop extends Nested f.span? f.parent? where
  /-- `nestingBegins` is the first row that has a parent. -/
  nestingBegins_iff : ∀ n, f.nestingBegins = some n ↔ IsLeast {j | (f.parent? j).isSome} n

namespace WellFormed

/-- Nesting begins nowhere exactly when no row has a parent. -/
theorem nestingBegins_eq_none_iff (h : f.WellFormed) :
    f.nestingBegins = none ↔ ∀ j, f.parent? j = none := by
  constructor
  · intro hnone j
    cases hp : f.parent? j with
    | none => rfl
    | some p =>
      have hex : ∃ j, (f.parent? j).isSome := ⟨j, by rw [hp]; rfl⟩
      rw [(h.nestingBegins_iff _).mpr (Nat.isLeast_find hex)] at hnone
      exact absurd hnone (by simp)
  · intro hall
    cases hn : f.nestingBegins with
    | none => rfl
    | some n =>
      have hmem : (f.parent? n).isSome := ((h.nestingBegins_iff n).mp hn).1
      rw [hall n] at hmem
      exact absurd hmem (by simp)

/-- **Every walk along parent links ends**: a parent stands before its children. -/
theorem parent_wellFounded (h : f.WellFormed) : WellFounded fun p j => f.parent? j = some p :=
  Subrelation.wf (fun hp => h.parent_lt hp) Nat.lt_wfRel.wf

/-! ## The audit -/

theorem parentBreach?_eq_none (h : f.WellFormed) {i : Nat} {r : Interval κ}
    (hr : f.get? i = some r) : f.parentBreach? i r = none := by
  unfold parentBreach?
  cases hp : r.parent with
  | none => rfl
  | some p =>
    have hparent : f.parent? i = some p := by rw [parent?, hr, Option.bind_some, hp]
    obtain ⟨s, t, hs, ht, hst⟩ := h.parent_around hparent
    obtain ⟨q, hq, rfl⟩ := span?_eq_some_iff.mp hs
    obtain rfl : r.span = t := Option.some.inj ((span?_of_get? hr).symm.trans ht)
    rw [Option.bind_some, hq]
    exact if_pos ⟨h.parent_lt hparent, hst⟩

theorem breachAfter?_eq_none (h : f.WellFormed) {i j : Nat} {q r : Interval κ} (hij : i < j)
    (hq : f.get? i = some q) (hr : f.get? j = some r) : f.breachAfter? q.span j r = none := by
  have hadm := h.admits hij (span?_of_get? hq) (span?_of_get? hr)
  have hstraddle : ¬ (r.span.start < q.span.stop ∧ q.span.stop < r.span.stop) := by
    rintro ⟨hopen, hcross⟩
    rcases hadm.2 with hapart | hinside
    · exact absurd hopen (not_lt.mpr hapart)
    · exact absurd hcross (not_lt.mpr hinside)
  unfold breachAfter?
  rw [if_neg (not_lt.mpr hadm.1), if_neg hstraddle]
  exact h.parentBreach?_eq_none hr

theorem breach?_eq_none (h : f.WellFormed) {i : Nat} {r : Interval κ} (hr : f.get? i = some r) :
    f.breach? i r = none := by
  unfold breach?
  rw [if_pos (h.proper (span?_of_get? hr))]
  cases i with
  | zero => rfl
  | succ j =>
    show ((f.get? j).bind fun last => f.breachAfter? last.span (j + 1) r) = none
    cases hq : f.get? j with
    | none => rfl
    | some q => exact h.breachAfter?_eq_none (Nat.lt_succ_self j) hq hr

/-- **The audit of a well-formed forest** reports nothing. -/
theorem audit_eq_ok (h : f.WellFormed) : f.audit = .ok () := by
  unfold audit
  split
  · rename_i e he
    obtain ⟨⟨r, i⟩, hri, hbreach⟩ := List.exists_of_findSome?_eq_some he
    rw [List.mem_zipIdx_iff_getElem?, Array.getElem?_toList] at hri
    exact absurd ((h.breach?_eq_none hri).symm.trans hbreach) (by simp)
  · rfl

end WellFormed

end Gazetteer.Forest
