import Gazetteer.Nesting
import Mathlib.Data.List.Sort
import Mathlib.Data.Nat.SuccPred
import Mathlib.Order.Bounds.Basic

/-!
# Nested tables of spans

A table gives a span and a parent to each of its rows: `span? i` and `parent? i`. It is `Nested`
when its starts ascend, no two of its spans straddle, and the parent of a row is the last row
before it that encloses it.

What the walks of `Gazetteer.Nesting` find in a nested table does not depend on the parent links:

* `stillOpen_eq_filter`: dropping the closed spans from the top of a stack drops all of them;
* `Nested.mem_lineage`, `Nested.lineage_eq_scan`: the lineage of a row is every row around it, in
  the order in which a scan of the rows finds them, last row first;
* `Nested.climb_eq_some_iff`: climbing finds the innermost row around a position;
* `Nested.mem_lineage_innermost`: the lineage of that row is every row around the position;
* `skipNested_eq_filter`: skipping what starts inside a row that was kept skips exactly what lies
  inside some row.

`Nested.extend` adds a row to a nested table.
-/

namespace Gazetteer

/-! ## Spans -/

namespace Span

theorem Encloses.refl (s : Span) : s.Encloses s := ⟨le_refl _, le_refl _⟩

theorem Encloses.trans {a b c : Span} (hab : a.Encloses b) (hbc : b.Encloses c) : a.Encloses c :=
  ⟨hab.1.trans hbc.1, hbc.2.trans hab.2⟩

/-- What lies around a span lies around each of its positions. -/
theorem Encloses.contains {a b : Span} (h : a.Encloses b) {pos : Offset} (hb : b.Contains pos) :
    a.Contains pos :=
  ⟨h.1.trans hb.1, hb.2.trans_le h.2⟩

theorem Proper.contains_start {s : Span} (h : s.Proper) : s.Contains s.start := ⟨le_refl _, h⟩

/-- `next` may stand after `s` in a nested table: it starts no earlier, and it lies apart from `s`
or inside it. -/
def Admits (s next : Span) : Prop :=
  s.start ≤ next.start ∧ (s.stop ≤ next.start ∨ next.stop ≤ s.stop)

/-- Of two spans that may follow each other, the first encloses the second as soon as it is open
where the second starts. -/
theorem Admits.encloses_iff {s t : Span} (h : s.Admits t) (ht : t.Proper) :
    s.Encloses t ↔ t.start < s.stop := by
  constructor
  · intro he
    exact ht.trans_le he.2
  · intro hopen
    rcases h.2 with hapart | hinside
    · exact absurd hopen (not_lt.mpr hapart)
    · exact ⟨h.1, hinside⟩

/-- **The spans do not straddle**: they lie apart, or one of them encloses the other. -/
def Nests (a b : Span) : Prop :=
  a.stop ≤ b.start ∨ b.stop ≤ a.start ∨ a.Encloses b ∨ b.Encloses a

instance (a b : Span) : Decidable (a.Nests b) :=
  inferInstanceAs (Decidable (_ ∨ _ ∨ _ ∨ _))

theorem Nests.refl (a : Span) : a.Nests a := Or.inr (Or.inr (Or.inl (Encloses.refl a)))

theorem Nests.symm {a b : Span} (h : a.Nests b) : b.Nests a := by
  rcases h with h | h | h | h
  · exact Or.inr (Or.inl h)
  · exact Or.inl h
  · exact Or.inr (Or.inr (Or.inr h))
  · exact Or.inr (Or.inr (Or.inl h))

end Span

/-! ## Lists in descending order -/

/-- The head of a list in strictly descending order is its greatest element. -/
theorem head?_eq_some_iff_of_descending {α : Type} (key : α → Nat) {l : List α}
    (h : l.Pairwise fun a b => key b < key a) {x : α} :
    l.head? = some x ↔ x ∈ l ∧ ∀ y ∈ l, key y ≤ key x := by
  cases l with
  | nil => simp
  | cons a l =>
    obtain ⟨hlt, -⟩ := List.pairwise_cons.mp h
    rw [List.head?_cons, Option.some.injEq]
    constructor
    · rintro rfl
      refine ⟨List.mem_cons_self, fun y hy => ?_⟩
      rcases List.mem_cons.mp hy with rfl | hy
      · exact le_refl _
      · exact (hlt y hy).le
    · rintro ⟨hx, hmax⟩
      rcases List.mem_cons.mp hx with rfl | hx
      · rfl
      · exact absurd (hlt x hx) (not_lt.mpr (hmax a List.mem_cons_self))

/-! ## The stack of open spans -/

/-- On a stack whose ends ascend from the top, dropping the closed spans from the top drops all of
them. -/
theorem stillOpen_eq_filter {pos : Offset} {stack : List Placed}
    (h : stack.Pairwise fun a b => a.span.stop ≤ b.span.stop) :
    stillOpen pos stack = stack.filter fun o => pos < o.span.stop := by
  unfold stillOpen
  induction stack with
  | nil => rfl
  | cons o stack ih =>
    obtain ⟨hle, hrest⟩ := List.pairwise_cons.mp h
    by_cases ho : o.span.stop ≤ pos
    · rw [List.dropWhile_cons_of_pos (by simpa using ho), ih hrest,
        List.filter_cons_of_neg (by simpa using ho)]
    · rw [List.dropWhile_cons_of_neg (by simpa using ho)]
      have hopen : ∀ q ∈ o :: stack, pos < q.span.stop := by
        intro q hq
        rcases List.mem_cons.mp hq with rfl | hq
        · exact not_le.mp ho
        · exact (not_le.mp ho).trans_le (hle q hq)
      rw [List.filter_eq_self.mpr fun q hq => by simpa using hopen q hq]

/-! ## Nested tables -/

/-- Row `i` encloses row `j`. -/
def Around (span? : Nat → Option Span) (i j : Nat) : Prop :=
  ∃ s t, span? i = some s ∧ span? j = some t ∧ s.Encloses t

instance (span? : Nat → Option Span) (i j : Nat) : Decidable (Around span? i j) :=
  decidable_of_iff ((span? i).any fun s => (span? j).any fun t => s.Encloses t) <| by
    simp [Around, Option.any_eq_true]

/-- Row `i` lies around position `pos`. -/
def Covers (span? : Nat → Option Span) (pos : Offset) (i : Nat) : Prop :=
  ∃ s, span? i = some s ∧ s.Contains pos

/-- Row `i` is the innermost row around position `pos`: it comes after every other row around `pos`
and lies inside it. -/
def Innermost (span? : Nat → Option Span) (pos : Offset) (i : Nat) : Prop :=
  Covers span? pos i ∧ ∀ j, Covers span? pos j → j ≤ i ∧ Around span? j i

/-- **A nested table** of spans with parent links. -/
structure Nested (span? : Nat → Option Span) (parent? : Nat → Option Nat) : Prop where
  /-- Every row covers something. -/
  proper : ∀ {i s}, span? i = some s → s.Proper
  /-- The starts never descend. -/
  sorted : ∀ {i j s t}, i < j → span? i = some s → span? j = some t → s.start ≤ t.start
  /-- Of any two rows, the later one lies apart from the earlier one or inside it. -/
  laminar : ∀ {i j s t}, i < j → span? i = some s → span? j = some t →
    s.stop ≤ t.start ∨ t.stop ≤ s.stop
  /-- The parent of a row is the last row before it that encloses it. -/
  parent_iff : ∀ j p, parent? j = some p ↔ IsGreatest {i | i < j ∧ Around span? i j} p

namespace Nested

variable {span? : Nat → Option Span} {parent? : Nat → Option Nat}

/-- The table without rows. -/
theorem empty : Nested (fun _ => none) (fun _ => none) := by
  refine ⟨fun hi => absurd hi (by simp), fun _ hi => absurd hi (by simp),
    fun _ hi => absurd hi (by simp), fun j p => ?_⟩
  simp [IsGreatest, Around]

theorem start_le (h : Nested span? parent?) {i j : Nat} {s t : Span} (hij : i ≤ j)
    (hi : span? i = some s) (hj : span? j = some t) : s.start ≤ t.start := by
  rcases hij.eq_or_lt with rfl | hlt
  · rw [Option.some.inj (hi.symm.trans hj)]
  · exact h.sorted hlt hi hj

theorem admits (h : Nested span? parent?) {i j : Nat} {s t : Span} (hij : i < j)
    (hi : span? i = some s) (hj : span? j = some t) : s.Admits t :=
  ⟨h.sorted hij hi hj, h.laminar hij hi hj⟩

/-- A row lies around a later one iff it is still open where the later one starts. -/
theorem around_iff (h : Nested span? parent?) {i j : Nat} {s t : Span} (hij : i < j)
    (hi : span? i = some s) (hj : span? j = some t) : Around span? i j ↔ t.start < s.stop := by
  rw [← (h.admits hij hi hj).encloses_iff (h.proper hj)]
  simp [Around, hi, hj]

/-- Of two rows around one position, the earlier encloses the later. -/
theorem around_of_covers (h : Nested span? parent?) {pos : Offset} {i j : Nat} (hij : i ≤ j)
    (hi : Covers span? pos i) (hj : Covers span? pos j) : Around span? i j := by
  obtain ⟨s, hs, hsc⟩ := hi
  obtain ⟨t, ht, htc⟩ := hj
  rcases hij.eq_or_lt with rfl | hlt
  · exact ⟨s, s, hs, hs, Span.Encloses.refl s⟩
  · exact ⟨s, t, hs, ht,
      ((h.admits hlt hs ht).encloses_iff (h.proper ht)).mpr (htc.1.trans_lt hsc.2)⟩

/-- Of two rows around one row, the earlier encloses the later. -/
theorem around_of_around (h : Nested span? parent?) {i j k : Nat} (hij : i ≤ j)
    (hi : Around span? i k) (hj : Around span? j k) : Around span? i j := by
  obtain ⟨s, u, hs, hu, hsu⟩ := hi
  obtain ⟨t, u', ht, hu', htu⟩ := hj
  obtain rfl : u = u' := Option.some.inj (hu.symm.trans hu')
  have hstart := (h.proper hu).contains_start
  exact h.around_of_covers hij ⟨s, hs, hsu.contains hstart⟩ ⟨t, ht, htu.contains hstart⟩

/-- The innermost row around a position is the last one. -/
theorem innermost_iff (h : Nested span? parent?) {pos : Offset} {i : Nat} :
    Innermost span? pos i ↔ IsGreatest {j | Covers span? pos j} i := by
  constructor
  · rintro ⟨hi, hmax⟩
    exact ⟨hi, fun j hj => (hmax j hj).1⟩
  · rintro ⟨hi, hmax⟩
    exact ⟨hi, fun j hj => ⟨hmax hj, h.around_of_covers (hmax hj) hj hi⟩⟩

theorem parent_lt (h : Nested span? parent?) {j p : Nat} (hp : parent? j = some p) : p < j :=
  ((h.parent_iff j p).mp hp).1.1

theorem parent_around (h : Nested span? parent?) {j p : Nat} (hp : parent? j = some p) :
    Around span? p j :=
  ((h.parent_iff j p).mp hp).1.2

/-- A row has no parent exactly when no row before it encloses it. -/
theorem parent_eq_none_iff (h : Nested span? parent?) (j : Nat) :
    parent? j = none ↔ ∀ i, i < j → ¬ Around span? i j := by
  constructor
  · intro hnone i hij hi
    have hbdd : BddAbove {i | i < j ∧ Around span? i j} := ⟨j, fun i hi => hi.1.le⟩
    obtain ⟨p, hp⟩ := hbdd.exists_isGreatest_of_nonempty ⟨i, hij, hi⟩
    rw [(h.parent_iff j p).mpr hp] at hnone
    exact absurd hnone (by simp)
  · intro hno
    cases hp : parent? j with
    | none => rfl
    | some p => exact absurd (h.parent_around hp) (hno p (h.parent_lt hp))

/-- The parent of a row lies around it, and no row between the two does. -/
theorem parent_eq_some_iff (h : Nested span? parent?) (i j : Nat) :
    parent? j = some i ↔
      i < j ∧ Around span? i j ∧ ∀ k, i < k → k < j → ¬ Around span? k j := by
  rw [h.parent_iff]
  constructor
  · rintro ⟨⟨hij, hi⟩, hmax⟩
    exact ⟨hij, hi, fun k hik hkj hk => absurd (hmax ⟨hkj, hk⟩) (not_le.mpr hik)⟩
  · rintro ⟨hij, hi, hbetween⟩
    refine ⟨⟨hij, hi⟩, fun k hk => ?_⟩
    by_contra hlt
    exact hbetween k (not_le.mp hlt) hk.1 hk.2

/-! ## Walking outwards -/

/-- The lineage of a row begins with the row and goes on with the lineage of its parent. -/
theorem lineage_eq (h : Nested span? parent?) (i : Nat) :
    lineage parent? i = i :: ((parent? i).map (lineage parent?)).getD [] := by
  rw [lineage]
  cases hp : parent? i with
  | none => rfl
  | some p => simp [h.parent_lt hp]

/-- **The lineage of a row** is every row that encloses it. -/
theorem mem_lineage (h : Nested span? parent?) {i : Nat} {t : Span} (hi : span? i = some t)
    (j : Nat) : j ∈ lineage parent? i ↔ j ≤ i ∧ Around span? j i := by
  induction i using Nat.strong_induction_on generalizing t with
  | _ i ih =>
    have hself : Around span? i i := ⟨t, t, hi, hi, Span.Encloses.refl t⟩
    rw [h.lineage_eq, List.mem_cons]
    cases hp : parent? i with
    | none =>
      have hno := (h.parent_eq_none_iff i).mp hp
      simp only [Option.map_none, Option.getD_none, List.not_mem_nil, or_false]
      constructor
      · rintro rfl
        exact ⟨le_refl _, hself⟩
      · rintro ⟨hle, hj⟩
        exact hle.eq_of_not_lt fun hlt => hno j hlt hj
    | some p =>
      obtain ⟨⟨hpi, hpa⟩, hmax⟩ := (h.parent_iff i p).mp hp
      have ⟨s, t', hs, ht', hst⟩ := hpa
      rw [Option.map_some, Option.getD_some, ih p hpi hs]
      constructor
      · rintro (rfl | ⟨hle, r, s', hr, hs', hrs⟩)
        · exact ⟨le_refl _, hself⟩
        · obtain rfl : s' = s := Option.some.inj (hs'.symm.trans hs)
          exact ⟨hle.trans hpi.le, r, t', hr, ht', hrs.trans hst⟩
      · rintro ⟨hle, hj⟩
        rcases hle.eq_or_lt with rfl | hlt
        · exact Or.inl rfl
        · -- a row before `i` and around it is at most `p`, the last such row, so it is around `p`
          have hjp : j ≤ p := hmax ⟨hlt, hj⟩
          exact Or.inr ⟨hjp, h.around_of_around hjp hj hpa⟩

end Nested

/-- A lineage leads to ever smaller indices, whatever the links. -/
theorem lineage_descending (parent? : Nat → Option Nat) (i : Nat) :
    (∀ j ∈ lineage parent? i, j ≤ i) ∧ (lineage parent? i).Pairwise fun a b => b < a := by
  fun_induction lineage parent? i with
  | case1 i p hp hlt ih =>
    have hbelow : ∀ j ∈ lineage parent? p, j < i := fun j hj => (ih.1 j hj).trans_lt hlt
    refine ⟨fun j hj => ?_, List.pairwise_cons.mpr ⟨hbelow, ih.2⟩⟩
    rcases List.mem_cons.mp hj with rfl | hj
    · exact le_refl _
    · exact (hbelow j hj).le
  | case2 i p hp hlt => simp
  | case3 i hp => simp

namespace Nested

variable {span? : Nat → Option Span} {parent? : Nat → Option Nat}

/-- **The lineage of a row, as a scan finds it**: the row and all rows around it, last row first. -/
theorem lineage_eq_scan (h : Nested span? parent?) {i : Nat} {t : Span} (hi : span? i = some t) :
    lineage parent? i = ((List.range (i + 1)).filter fun j => Around span? j i).reverse := by
  have hscan : ((List.range (i + 1)).filter fun j => Around span? j i).reverse.Pairwise
      fun a b => b < a := by
    rw [List.pairwise_reverse]
    exact List.pairwise_lt_range.filter _
  refine List.Pairwise.eq_of_mem_iff (lineage_descending parent? i).2 hscan fun j => ?_
  rw [h.mem_lineage hi, List.mem_reverse, List.mem_filter, List.mem_range, decide_eq_true_eq,
    Nat.lt_succ_iff]

/-- The rows around a row, last row first, are its lineage without itself. -/
theorem tail_lineage_eq_scan (h : Nested span? parent?) {i : Nat} {t : Span}
    (hi : span? i = some t) :
    (lineage parent? i).tail = ((List.range i).filter fun j => Around span? j i).reverse := by
  have hself : Around span? i i := ⟨t, t, hi, hi, Span.Encloses.refl t⟩
  rw [h.lineage_eq_scan hi, List.range_succ, List.filter_append,
    List.filter_singleton, decide_eq_true hself]
  simp

/-- **The nearest row around a row that passes a test** is the last one before it that does. -/
theorem find?_tail_lineage_eq_some_iff (h : Nested span? parent?) {j : Nat} {t : Span}
    (hj : span? j = some t) {test : Nat → Bool} (i : Nat) :
    (lineage parent? j).tail.find? test = some i ↔
      IsGreatest {k | k < j ∧ Around span? k j ∧ test k = true} i := by
  have hdesc := ((lineage_descending parent? j).2.sublist (List.tail_sublist _)).filter test
  have hmem : ∀ k, k ∈ (lineage parent? j).tail.filter test ↔
      k < j ∧ Around span? k j ∧ test k = true := by
    intro k
    rw [h.tail_lineage_eq_scan hj]
    simp only [List.mem_filter, List.mem_reverse, List.mem_range, decide_eq_true_eq, and_assoc]
  rw [← List.head?_filter, head?_eq_some_iff_of_descending id hdesc]
  simp only [hmem, id_eq]
  rfl

/-- **Climbing finds the innermost row around a position**, if it begins at the last row that starts
at or before the position and the test is that a row stops after it. -/
theorem climb_eq_some_iff (h : Nested span? parent?) {pos : Offset} {test : Nat → Bool}
    {count : Nat} (hcount : ∀ i, i < count ↔ ∃ s, span? i = some s ∧ s.start ≤ pos)
    (htest : ∀ {i s}, span? i = some s → (test i = true ↔ pos < s.stop)) (i : Nat) :
    climb parent? test count = some i ↔ Innermost span? pos i := by
  rw [h.innermost_iff]
  cases count with
  | zero =>
    simp only [climb, reduceCtorEq, false_iff]
    rintro ⟨⟨s, hs, hc⟩, -⟩
    exact Nat.not_lt_zero i ((hcount i).mpr ⟨s, hs, hc.1⟩)
  | succ last =>
    obtain ⟨t, ht, htpos⟩ := (hcount last).mp (Nat.lt_succ_self last)
    have hmem : ∀ j, j ∈ (lineage parent? last).filter test ↔ Covers span? pos j := by
      intro j
      rw [List.mem_filter, h.mem_lineage ht]
      constructor
      · rintro ⟨⟨-, s, t', hs, ht', hst⟩, hj⟩
        obtain rfl : t' = t := Option.some.inj (ht'.symm.trans ht)
        exact ⟨s, hs, hst.1.trans htpos, (htest hs).mp hj⟩
      · rintro ⟨s, hs, hc⟩
        have hle : j ≤ last := Nat.le_of_lt_succ ((hcount j).mpr ⟨s, hs, hc.1⟩)
        -- whatever lies around `pos` is still open where the last row starts
        have hopen : s.Contains t.start := ⟨h.start_le hle hs ht, htpos.trans_lt hc.2⟩
        have hstart : t.Contains t.start := (h.proper ht).contains_start
        exact ⟨⟨hle, h.around_of_covers hle ⟨s, hs, hopen⟩ ⟨t, ht, hstart⟩⟩, (htest hs).mpr hc.2⟩
    have hdesc := (lineage_descending parent? last).2.filter test
    rw [climb, ← List.head?_filter, head?_eq_some_iff_of_descending id hdesc]
    simp only [hmem, id_eq]
    rfl

/-- The lineage of the innermost row around a position is every row around it. -/
theorem mem_lineage_innermost (h : Nested span? parent?) {pos : Offset} {i : Nat}
    (hi : Innermost span? pos i) (j : Nat) : j ∈ lineage parent? i ↔ Covers span? pos j := by
  obtain ⟨⟨t, ht, htc⟩, hmax⟩ := hi
  rw [h.mem_lineage ht]
  constructor
  · rintro ⟨-, s, t', hs, ht', hst⟩
    obtain rfl : t' = t := Option.some.inj (ht'.symm.trans ht)
    exact ⟨s, hs, hst.contains htc⟩
  · intro hj
    exact hmax j hj

end Nested

/-! ## Walking inwards -/

section Inwards

variable {reach : Offset} {rows : List Placed} {r x : Placed}

/-- Row `r` starts at or after `reach`, and of the rows before it that do so none is still open
where it starts. -/
def Surfaces (reach : Offset) (rows : List Placed) (r : Placed) : Prop :=
  reach ≤ r.span.start ∧
    ∀ a ∈ rows, a.index < r.index → reach ≤ a.span.start → a.span.stop ≤ r.span.start

instance (reach : Offset) (rows : List Placed) (r : Placed) : Decidable (Surfaces reach rows r) :=
  inferInstanceAs (Decidable (_ ∧ ∀ a ∈ rows, _))

theorem surfaces_zero_iff :
    Surfaces 0 rows r ↔ ∀ a ∈ rows, a.index < r.index → a.span.stop ≤ r.span.start := by
  simp [Surfaces]

/-- The first row surfaces if it starts at or after `reach`, and not otherwise. -/
theorem surfaces_head_iff (hindex : ∀ a ∈ rows, r.index < a.index) :
    Surfaces reach (r :: rows) r ↔ reach ≤ r.span.start := by
  refine and_iff_left fun a ha hlt => ?_
  rcases List.mem_cons.mp ha with rfl | ha
  · exact absurd hlt (lt_irrefl _)
  · exact absurd hlt (not_lt.mpr (hindex a ha).le)

/-- A row that was skipped makes no difference to those after it. -/
theorem surfaces_cons_of_lt (hr : r.span.start < reach) :
    Surfaces reach (r :: rows) x ↔ Surfaces reach rows x := by
  refine and_congr_right fun _ => ?_
  rw [List.forall_mem_cons, and_iff_right]
  exact fun _ hreach => absurd hr (not_lt.mpr hreach)

/-- After a row that was kept, its end takes the place of `reach`: what starts before it lies inside
the row and closes no later. -/
theorem surfaces_cons_of_le (hadm : ∀ a ∈ rows, r.span.Admits a.span) (hr : reach ≤ r.span.start)
    (hx : x ∈ rows) (hlt : r.index < x.index) :
    Surfaces reach (r :: rows) x ↔ Surfaces r.span.stop rows x := by
  have hlate : ∀ a ∈ rows, reach ≤ a.span.start := fun a ha => hr.trans (hadm a ha).1
  constructor
  · rintro ⟨-, hall⟩
    refine ⟨hall r List.mem_cons_self hlt hr, fun a ha hax _ => ?_⟩
    exact hall a (List.mem_cons_of_mem r ha) hax (hlate a ha)
  · rintro ⟨hrx, hall⟩
    refine ⟨hlate x hx, List.forall_mem_cons.mpr ⟨fun _ _ => hrx, fun a ha hax _ => ?_⟩⟩
    rcases (hadm a ha).2 with hapart | hinside
    · exact hall a ha hax hapart
    · exact hinside.trans hrx

/-- **Skipping what starts inside a row that was kept** leaves the rows that surface: of rows in
order, every row of which no earlier one is still open where it starts. -/
theorem skipNested_eq_filter (hindex : rows.Pairwise fun a b => a.index < b.index)
    (hadm : rows.Pairwise fun a b => a.span.Admits b.span) (reach : Offset) :
    skipNested reach rows = (rows.filter fun r => Surfaces reach rows r).map (·.index) := by
  induction rows generalizing reach with
  | nil => rfl
  | cons r rows ih =>
    obtain ⟨hrindex, hindex⟩ := List.pairwise_cons.mp hindex
    obtain ⟨hradm, hadm⟩ := List.pairwise_cons.mp hadm
    have hhead : Surfaces reach (r :: rows) r ↔ reach ≤ r.span.start := surfaces_head_iff hrindex
    unfold skipNested
    by_cases hr : reach ≤ r.span.start
    · rw [if_pos hr, List.filter_cons_of_pos (by simpa using hhead.mpr hr), List.map_cons,
        ih hindex hadm]
      congr 2
      refine List.filter_congr fun x hx => ?_
      rw [decide_eq_decide]
      exact (surfaces_cons_of_le hradm hr hx (hrindex x hx)).symm
    · rw [if_neg hr, List.filter_cons_of_neg (by simpa [hhead] using hr), ih hindex hadm]
      congr 1
      refine List.filter_congr fun x hx => ?_
      rw [decide_eq_decide]
      exact (surfaces_cons_of_lt (not_le.mp hr)).symm

end Inwards

/-! ## One row more -/

section Extend

open Function (update)

variable {span? : Nat → Option Span} {parent? : Nat → Option Nat} {n : Nat} {s : Span}

theorem lt_of_span? (hn : ∀ i, n ≤ i → span? i = none) {i : Nat} {t : Span}
    (hi : span? i = some t) : i < n := by
  by_contra hge
  rw [hn i (not_lt.mp hge)] at hi
  exact absurd hi (by simp)

/-- Where some row of a finite table lies around a position, one is the innermost. -/
theorem Nested.exists_innermost (h : Nested span? parent?) (hn : ∀ i, n ≤ i → span? i = none)
    {pos : Offset} {i : Nat} (hi : Covers span? pos i) : ∃ m, Innermost span? pos m := by
  have hbdd : BddAbove {j | Covers span? pos j} := by
    refine ⟨n, ?_⟩
    rintro j ⟨s, hs, -⟩
    exact (lt_of_span? hn hs).le
  obtain ⟨m, hm⟩ := hbdd.exists_isGreatest_of_nonempty ⟨i, hi⟩
  exact ⟨m, h.innermost_iff.mpr hm⟩

/-- Of two rows of the longer table, the earlier is an old one, and the later is an old one or the
new one. -/
theorem span?_update_of_lt (hn : ∀ i, n ≤ i → span? i = none) {i j : Nat} {t u : Span}
    (hij : i < j) (hi : update span? n (some s) i = some t)
    (hj : update span? n (some s) j = some u) :
    span? i = some t ∧ (span? j = some u ∨ (j = n ∧ u = s)) := by
  by_cases hjn : j = n
  · subst hjn
    rw [Function.update_self, Option.some.injEq] at hj
    rw [Function.update_of_ne hij.ne] at hi
    exact ⟨hi, Or.inr ⟨rfl, hj.symm⟩⟩
  · rw [Function.update_of_ne hjn] at hj
    rw [Function.update_of_ne (hij.trans (lt_of_span? hn hj)).ne] at hi
    exact ⟨hi, Or.inl hj⟩

/-- The rows around the new row are the rows around its start. -/
theorem around_update_self_iff (hn : ∀ i, n ≤ i → span? i = none) (hs : s.Proper)
    (hadm : ∀ i t, span? i = some t → t.Admits s) (i : Nat) :
    i < n ∧ Around (update span? n (some s)) i n ↔ Covers span? s.start i := by
  constructor
  · rintro ⟨hin, t, u, ht, hu, htu⟩
    rw [Function.update_self, Option.some.injEq] at hu
    rw [Function.update_of_ne hin.ne] at ht
    subst hu
    exact ⟨t, ht, htu.contains hs.contains_start⟩
  · rintro ⟨t, ht, htc⟩
    have hin := lt_of_span? hn ht
    refine ⟨hin, t, s, ?_, Function.update_self .., ?_⟩
    · rw [Function.update_of_ne hin.ne, ht]
    · exact ((hadm i t ht).encloses_iff hs).mpr htc.2

/-- The rows around an old row stay the same. -/
theorem around_update_of_ne_iff (hn : ∀ i, n ≤ i → span? i = none) {i j : Nat} (hij : i < j)
    (hjn : j ≠ n) : Around (update span? n (some s)) i j ↔ Around span? i j := by
  constructor
  · rintro ⟨t, u, ht, hu, htu⟩
    obtain ⟨ht, hu | ⟨hj, -⟩⟩ := span?_update_of_lt hn hij ht hu
    · exact ⟨t, u, ht, hu, htu⟩
    · exact absurd hj hjn
  · rintro ⟨t, u, ht, hu, htu⟩
    refine ⟨t, u, ?_, ?_, htu⟩
    · rw [Function.update_of_ne (lt_of_span? hn ht).ne, ht]
    · rw [Function.update_of_ne hjn, hu]

/-- **A nested table stays nested** when a proper span that every row admits is put last, with the
innermost row around its start for a parent. -/
theorem Nested.extend (h : Nested span? parent?) (hn : ∀ i, n ≤ i → span? i = none)
    (hs : s.Proper) (hadm : ∀ i t, span? i = some t → t.Admits s) {parent : Option Nat}
    (hparent : ∀ p, parent = some p ↔ Innermost span? s.start p) :
    Nested (update span? n (some s)) (update parent? n parent) := by
  have hadmits : ∀ {i j t u}, i < j → update span? n (some s) i = some t →
      update span? n (some s) j = some u → t.Admits u := by
    intro i j t u hij hi hj
    obtain ⟨ht, hu | ⟨-, hu⟩⟩ := span?_update_of_lt hn hij hi hj
    · exact h.admits hij ht hu
    · rw [hu]
      exact hadm i t ht
  refine ⟨fun {i t} hi => ?_, fun hij hi hj => (hadmits hij hi hj).1,
    fun hij hi hj => (hadmits hij hi hj).2, fun j p => ?_⟩
  · by_cases hin : i = n
    · rw [hin, Function.update_self, Option.some.injEq] at hi
      rwa [← hi]
    · rw [Function.update_of_ne hin] at hi
      exact h.proper hi
  · by_cases hjn : j = n
    · subst hjn
      rw [Function.update_self, hparent, h.innermost_iff]
      simp only [around_update_self_iff hn hs hadm]
    · rw [Function.update_of_ne hjn, h.parent_iff]
      have hset : {i | i < j ∧ Around (update span? n (some s)) i j} =
          {i | i < j ∧ Around span? i j} :=
        Set.ext fun i => and_congr_right fun hij => around_update_of_ne_iff hn hij hjn
      rw [hset]

end Extend

end Gazetteer
