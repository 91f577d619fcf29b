import Gazetteer.Proofs.Nesting
import Gazetteer.Text.Edit

/-!
# What an edit does to positions and spans

`mapStart_eq_ok_iff` gives the position after an edit in exact integers: a deletion takes `pos` to
`max offset (pos + delta)`. Everything else follows from it and from how `mapStop` differs:

* `mapStart_mono`, `mapStop_mono`, `mapStop_le_mapStart`: positions are never reordered, and an end
  never passes a start at or after it;
* `admits_of_mapSpan`: spans that lie apart or nest still do;
* `encloses_of_mapSpan_iff`: of what is left of two spans, one encloses the other iff it did before;
* `contains_of_mapSpan_iff`: what is left of a span contains a position that is kept iff the span
  did before;
* `eq_of_mapSpan`, `exists_mapSpan_eq_some`: an insertion moves no two spans to the same place, and
  none to nowhere.
-/

namespace Gazetteer.Edit

variable {e : Edit}

/-! ## Positions -/

theorem shift_eq_ok_iff {pos r : Offset} :
    e.shift pos = .ok r ↔ (r.val : Int) = pos.val + e.delta := by
  unfold shift
  rw [← Offset.ofInt?_eq_some_iff]
  cases Offset.ofInt? (pos.val + e.delta) <;> simp

theorem shift_eq_error {pos : Offset} {x : Error} (h : e.shift pos = .error x) :
    x = .offsetOverflow pos e.delta := by
  unfold shift at h
  split at h
  · exact absurd h (by simp)
  · exact (Except.error.inj h).symm

/-- **The position after an edit**, in exact integers. -/
theorem mapStart_eq_ok_iff {pos r : Offset} :
    e.mapStart pos = .ok r ↔
      if pos < e.offset ∨ e.delta = 0 then r = pos
      else if 0 < e.delta then (r.val : Int) = pos.val + e.delta
      else e.deletedEnd ≤ farthestEnd ∧
        (r.val : Int) = max (e.offset.val : Int) (pos.val + e.delta) := by
  unfold mapStart
  split_ifs with hkeep hins hfar hin
  · simp [eq_comm]
  · exact shift_eq_ok_iff
  · simp [not_le.mpr hfar]
  · unfold deletedEnd at hin
    rw [max_eq_left (by omega), Except.ok.injEq, Fin.ext_iff]
    simp only [not_lt.mp hfar, true_and]
    omega
  · unfold deletedEnd at hin
    rw [max_eq_right (by omega), shift_eq_ok_iff]
    simp only [not_lt.mp hfar, true_and]

theorem mapStart_eq_error {pos : Offset} {x : Error} (h : e.mapStart pos = .error x) :
    x = .offsetOverflow pos e.delta := by
  unfold mapStart at h
  split_ifs at h
  · exact shift_eq_error h
  · exact (Except.error.inj h).symm
  · exact shift_eq_error h

theorem mapStop_eq_error {pos : Offset} {x : Error} (h : e.mapStop pos = .error x) :
    x = .offsetOverflow pos e.delta := by
  unfold mapStop at h
  split_ifs at h
  exact mapStart_eq_error h

/-- **Starts are never reordered.** -/
theorem mapStart_mono {p q p' q' : Offset} (hpq : p ≤ q) (hp : e.mapStart p = .ok p')
    (hq : e.mapStart q = .ok q') : p' ≤ q' := by
  rw [mapStart_eq_ok_iff] at hp hq
  simp only [Fin.le_def, Fin.lt_def, Fin.ext_iff] at *
  split_ifs at hp hq <;> omega

/-- An end goes where a start goes, except that it stays where text is inserted. -/
theorem mapStop_eq_ok_iff {pos r : Offset} :
    e.mapStop pos = .ok r ↔
      if 0 < e.delta ∧ pos = e.offset then r = pos else e.mapStart pos = .ok r := by
  unfold mapStop
  split_ifs
  · simp [eq_comm]
  · exact Iff.rfl

/-- **An end never passes a start** at or after it. -/
theorem mapStop_le_mapStart {p q p' q' : Offset} (hpq : p ≤ q) (hp : e.mapStop p = .ok p')
    (hq : e.mapStart q = .ok q') : p' ≤ q' := by
  rw [mapStop_eq_ok_iff] at hp
  split_ifs at hp with hins
  · rw [mapStart_eq_ok_iff] at hq
    simp only [Fin.le_def, Fin.lt_def, Fin.ext_iff] at *
    split_ifs at hq <;> omega
  · exact mapStart_mono hpq hp hq

/-- **Ends are never reordered.** -/
theorem mapStop_mono {p q p' q' : Offset} (hpq : p ≤ q) (hp : e.mapStop p = .ok p')
    (hq : e.mapStop q = .ok q') : p' ≤ q' := by
  rw [mapStop_eq_ok_iff] at hq
  split_ifs at hq with hins
  · -- text is inserted at `q`, which stays; an end at or before it stays as well
    rw [mapStop_eq_ok_iff, mapStart_eq_ok_iff] at hp
    simp only [Fin.le_def, Fin.lt_def, Fin.ext_iff] at *
    split_ifs at hp <;> omega
  · exact mapStop_le_mapStart hpq hp hq

/-! ## Spans -/

theorem mapSpan_eq (e : Edit) (s : Span) :
    e.mapSpan s = (e.mapStart s.start).bind fun start => (e.mapStop s.stop).bind fun stop =>
      .ok (if start < stop then some ⟨start, stop⟩ else none) :=
  rfl

theorem mapSpan_eq_ok_iff {s : Span} {o : Option Span} :
    e.mapSpan s = .ok o ↔ ∃ start stop, e.mapStart s.start = .ok start ∧
      e.mapStop s.stop = .ok stop ∧ o = if start < stop then some ⟨start, stop⟩ else none := by
  rw [mapSpan_eq]
  cases e.mapStart s.start with
  | error x => simp [Except.bind]
  | ok start =>
    cases e.mapStop s.stop with
    | error x => simp [Except.bind]
    | ok stop => simp [Except.bind, eq_comm]

/-- Something is left of a span iff its ends are carried to a proper span. -/
theorem mapSpan_eq_some_iff {s t : Span} :
    e.mapSpan s = .ok (some t) ↔
      e.mapStart s.start = .ok t.start ∧ e.mapStop s.stop = .ok t.stop ∧ t.Proper := by
  rw [mapSpan_eq_ok_iff]
  constructor
  · rintro ⟨start, stop, hstart, hstop, ht⟩
    split_ifs at ht with hlt
    obtain rfl := Option.some.inj ht
    exact ⟨hstart, hstop, hlt⟩
  · rintro ⟨hstart, hstop, hlt⟩
    exact ⟨t.start, t.stop, hstart, hstop, (if_pos hlt).symm⟩

theorem mapSpan_eq_error {s : Span} {x : Error} (h : e.mapSpan s = .error x) :
    ∃ pos, x = .offsetOverflow pos e.delta := by
  rw [mapSpan_eq] at h
  cases hstart : e.mapStart s.start with
  | error y =>
    rw [hstart] at h
    obtain rfl : y = x := Except.error.inj h
    exact ⟨s.start, mapStart_eq_error hstart⟩
  | ok start =>
    cases hstop : e.mapStop s.stop with
    | error y =>
      rw [hstart, hstop] at h
      obtain rfl : y = x := Except.error.inj h
      exact ⟨s.stop, mapStop_eq_error hstop⟩
    | ok stop =>
      rw [hstart, hstop] at h
      exact absurd h (by simp [Except.bind])

/-- **An edit never makes spans straddle.** -/
theorem admits_of_mapSpan {s t s' t' : Span} (h : s.Admits t) (hs : e.mapSpan s = .ok (some s'))
    (ht : e.mapSpan t = .ok (some t')) : s'.Admits t' := by
  obtain ⟨hs1, hs2, -⟩ := mapSpan_eq_some_iff.mp hs
  obtain ⟨ht1, ht2, -⟩ := mapSpan_eq_some_iff.mp ht
  refine ⟨mapStart_mono h.1 hs1 ht1, ?_⟩
  rcases h.2 with hapart | hinside
  · exact Or.inl (mapStop_le_mapStart hapart hs2 ht1)
  · exact Or.inr (mapStop_mono hinside ht2 hs2)

/-- What is left of a span lies inside what is left of a span around it. -/
theorem exists_encloses_of_mapSpan {s t t' : Span} {o : Option Span} (h : s.Encloses t)
    (hs : e.mapSpan s = .ok o) (ht : e.mapSpan t = .ok (some t')) :
    ∃ s', o = some s' ∧ s'.Encloses t' := by
  obtain ⟨start, stop, hs1, hs2, ho⟩ := mapSpan_eq_ok_iff.mp hs
  obtain ⟨ht1, ht2, hproper⟩ := mapSpan_eq_some_iff.mp ht
  have hstart : start ≤ t'.start := mapStart_mono h.1 hs1 ht1
  have hstop : t'.stop ≤ stop := mapStop_mono h.2 ht2 hs2
  rw [if_pos ((hstart.trans_lt hproper).trans_le hstop)] at ho
  exact ⟨⟨start, stop⟩, ho, hstart, hstop⟩

/-- **Nesting is neither made nor lost**: of what is left of two spans, the first encloses the
second iff it did before the edit. -/
theorem encloses_of_mapSpan_iff {s t s' t' : Span} (h : s.Admits t)
    (hs : e.mapSpan s = .ok (some s')) (ht : e.mapSpan t = .ok (some t')) :
    s'.Encloses t' ↔ s.Encloses t := by
  constructor
  · intro henc
    rcases h.2 with hapart | hinside
    · -- spans that lie apart stay apart, and nothing encloses a proper span apart from it
      obtain ⟨-, hs2, -⟩ := mapSpan_eq_some_iff.mp hs
      obtain ⟨ht1, -, hproper⟩ := mapSpan_eq_some_iff.mp ht
      have hle : s'.stop ≤ t'.start := mapStop_le_mapStart hapart hs2 ht1
      exact absurd (hproper.trans_le henc.2) (not_lt.mpr hle)
    · exact ⟨h.1, hinside⟩
  · intro henc
    obtain ⟨u, hu, hut⟩ := exists_encloses_of_mapSpan henc hs ht
    rwa [Option.some.inj hu]

/-! ## Positions that are kept -/

variable {pos q : Offset}

/-- The edit does not remove the text at `pos`. -/
def Keeps (e : Edit) (pos : Offset) : Prop :=
  pos < e.offset ∨ 0 ≤ e.delta ∨ e.deletedEnd ≤ pos.val

instance (e : Edit) (pos : Offset) : Decidable (e.Keeps pos) :=
  inferInstanceAs (Decidable (pos < e.offset ∨ 0 ≤ e.delta ∨ e.deletedEnd ≤ pos.val))

/-- A start moves past no position that is kept. -/
theorem mapStart_le_iff (hpos : e.Keeps pos) (hq : e.mapStart pos = .ok q) {a b : Offset}
    (ha : e.mapStart a = .ok b) : b ≤ q ↔ a ≤ pos := by
  refine ⟨fun hle => ?_, fun hle => mapStart_mono hle ha hq⟩
  rw [mapStart_eq_ok_iff] at ha hq
  unfold Keeps deletedEnd at hpos
  simp only [Fin.le_def, Fin.lt_def, Fin.ext_iff] at *
  split_ifs at ha hq <;> omega

/-- An end stays after every kept position that it was after, and comes after no other one. -/
theorem lt_mapStop_iff (hpos : e.Keeps pos) (hq : e.mapStart pos = .ok q) {a b : Offset}
    (ha : e.mapStop a = .ok b) : q < b ↔ pos < a := by
  constructor
  · intro hlt
    by_contra hge
    exact absurd hlt (not_lt.mpr (mapStop_le_mapStart (not_lt.mp hge) ha hq))
  · rw [mapStop_eq_ok_iff, mapStart_eq_ok_iff] at ha
    rw [mapStart_eq_ok_iff] at hq
    unfold Keeps deletedEnd at hpos
    simp only [Fin.lt_def, Fin.ext_iff] at *
    split_ifs at ha hq <;> omega

/-- **Containment commutes with an edit**, at every position that is kept. -/
theorem contains_of_mapSpan_iff (hpos : e.Keeps pos) (hq : e.mapStart pos = .ok q) {s : Span}
    {o : Option Span} (hs : e.mapSpan s = .ok o) :
    (∃ t, o = some t ∧ t.Contains q) ↔ s.Contains pos := by
  obtain ⟨start, stop, hstart, hstop, rfl⟩ := mapSpan_eq_ok_iff.mp hs
  have hcontains : start ≤ q ∧ q < stop ↔ s.Contains pos :=
    and_congr (mapStart_le_iff hpos hq hstart) (lt_mapStop_iff hpos hq hstop)
  rw [← hcontains]
  constructor
  · rintro ⟨t, ht, hc⟩
    split_ifs at ht
    obtain rfl := Option.some.inj ht
    exact hc
  · intro hc
    exact ⟨⟨start, stop⟩, if_pos (hc.1.trans_lt hc.2), hc⟩

/-! ## Insertions -/

section Insertions

variable (hdelta : 0 ≤ e.delta)

include hdelta

theorem keeps_of_nonneg (pos : Offset) : e.Keeps pos := .inr (.inl hdelta)

theorem eq_of_mapStart {p : Offset} (hp : e.mapStart p = .ok q) (hpos : e.mapStart pos = .ok q) :
    p = pos :=
  le_antisymm ((mapStart_le_iff (keeps_of_nonneg hdelta pos) hpos hp).mp le_rfl)
    ((mapStart_le_iff (keeps_of_nonneg hdelta p) hp hpos).mp le_rfl)

theorem eq_of_mapStop {p : Offset} (hp : e.mapStop p = .ok q) (hpos : e.mapStop pos = .ok q) :
    p = pos := by
  rw [mapStop_eq_ok_iff, mapStart_eq_ok_iff] at hp hpos
  simp only [Fin.lt_def, Fin.ext_iff] at *
  split_ifs at hp hpos <;> omega

/-- **An insertion moves no two spans to the same place.** -/
theorem eq_of_mapSpan {s t u : Span} (hs : e.mapSpan s = .ok (some u))
    (ht : e.mapSpan t = .ok (some u)) : s = t := by
  obtain ⟨hs1, hs2, -⟩ := mapSpan_eq_some_iff.mp hs
  obtain ⟨ht1, ht2, -⟩ := mapSpan_eq_some_iff.mp ht
  exact congrArg₂ Span.mk (eq_of_mapStart hdelta hs1 ht1) (eq_of_mapStop hdelta hs2 ht2)

/-- **An insertion makes no span collapse.** -/
theorem exists_mapSpan_eq_some {s : Span} {o : Option Span} (hproper : s.Proper)
    (hs : e.mapSpan s = .ok o) : ∃ t, o = some t := by
  obtain ⟨start, stop, hstart, hstop, rfl⟩ := mapSpan_eq_ok_iff.mp hs
  have hlt : start < stop :=
    (lt_mapStop_iff (keeps_of_nonneg hdelta s.start) hstart hstop).mpr hproper
  exact ⟨⟨start, stop⟩, if_pos hlt⟩

end Insertions

end Gazetteer.Edit
