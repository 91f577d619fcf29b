import Gazetteer.Forest.Family
import Gazetteer.Proofs.Column
import Gazetteer.Proofs.Forest.Drafting

/-!
# Two views of one forest

The rows around a row are found by following parent links; the rows inside it are found without
them, by a walk that skips everything that starts before the last row kept has ended. Both views
show the same forest.

* `WellFormed.children_eq_filter`, `WellFormed.topLevel_eq_filter`: what the walk inwards keeps are
  the rows that have the row for a parent, or no parent.
* `WellFormed.depth_eq_countP`, `WellFormed.outermost?_eq_some_iff`: how long the walk outwards is
  and where it ends, told by the spans alone.
* `WellFormed.perm_families`: every row is at top level or a child of one row, and only once.
-/

namespace Gazetteer.Forest

variable {κ : Type} {f : Forest κ}

/-! ## Rows in order -/

theorem getElem?_placed {k : Nat} {p : Placed} :
    f.placed[k]? = some p ↔ f.span? k = some p.span ∧ p.index = k := by
  simp only [placed, List.getElem?_map, List.getElem?_zipIdx, Array.getElem?_toList, span?, get?]
  cases f.rows[k]? with
  | none => simp
  | some r =>
    obtain ⟨index, span⟩ := p
    simp [and_comm, eq_comm]

theorem mem_drop_placed {n : Nat} {p : Placed} :
    p ∈ f.placed.drop n ↔ n ≤ p.index ∧ p ∈ f.placed := by
  rw [List.mem_iff_getElem?]
  simp only [List.getElem?_drop, getElem?_placed, mem_placed]
  constructor
  · rintro ⟨k, hspan, hindex⟩
    rw [hindex]
    exact ⟨Nat.le_add_right n k, hspan⟩
  · rintro ⟨hn, hspan⟩
    exact ⟨p.index - n, by rwa [Nat.add_sub_cancel' hn], by omega⟩

theorem drop_placed (f : Forest κ) (n : Nat) :
    f.placed.drop n = f.placed.filter fun p => n ≤ p.index := by
  have : Std.Irrefl fun a b : Placed => a.index < b.index := ⟨fun a => lt_irrefl a.index⟩
  refine List.Pairwise.eq_of_mem_iff ((placed_ascending f).sublist (List.drop_sublist n _))
    ((placed_ascending f).filter _) fun p => ?_
  rw [mem_drop_placed, List.mem_filter, decide_eq_true_eq, and_comm]

/-- Choosing rows by their indices. -/
theorem map_index_filter_placed (f : Forest κ) (p : Nat → Bool) :
    (f.placed.filter fun r => p r.index).map (·.index) = (List.range f.size).filter p := by
  rw [← map_index_placed, List.filter_map]
  rfl

namespace WellFormed

variable (h : f.WellFormed)

include h

theorem placed_admit : f.placed.Pairwise fun a b => a.span.Admits b.span :=
  (placed_ascending f).imp_of_mem fun ha hb hab =>
    h.admits hab (mem_placed.mp ha) (mem_placed.mp hb)

/-! ## Inwards -/

theorem surfaces_placed_iff {p : Placed} (hp : p ∈ f.placed) :
    Surfaces 0 f.placed p ↔ f.parent? p.index = none := by
  rw [surfaces_zero_iff, h.parent_eq_none_iff]
  constructor
  · rintro hall i hi haround
    have ⟨s, _, hs, _⟩ := haround
    have hclosed := hall ⟨i, s⟩ (mem_placed.mpr hs) hi
    exact absurd ((h.around_iff hi hs (mem_placed.mp hp)).mp haround) (not_lt.mpr hclosed)
  · intro hno a ha hlt
    rw [← not_lt, ← h.around_iff hlt (mem_placed.mp ha) (mem_placed.mp hp)]
    exact hno a.index hlt

/-- **The rows at top level** are those without a parent. -/
theorem topLevel_eq_filter :
    f.topLevel = (List.range f.size).filter fun j => f.parent? j = none := by
  unfold topLevel
  rw [skipNested_eq_filter (placed_ascending f) h.placed_admit, ← map_index_filter_placed]
  congr 1
  refine List.filter_congr fun p hp => ?_
  rw [decide_eq_decide]
  exact h.surfaces_placed_iff hp

/-- The rows that the walk into row `i` looks at. -/
theorem takeWhile_placed (stop : Offset) (i : Nat) :
    ((f.placed.drop (i + 1)).takeWhile fun p => p.span.start < stop) =
      f.placed.filter fun p => i < p.index ∧ p.span.start < stop := by
  rw [takeWhile_eq_filter, drop_placed, List.filter_filter]
  · refine List.filter_congr fun p _ => ?_
    rw [Bool.and_comm, ← Bool.decide_and]
    rfl
  · refine (h.placed_admit.sublist (List.drop_sublist _ _)).imp fun {a b} hab hb => ?_
    exact decide_eq_true (hab.1.trans_lt (of_decide_eq_true hb))

/-- Of the rows that start inside row `i`, those that surface are the ones whose parent it is. -/
theorem surfaces_inside_iff {i : Nat} {s : Span} (hi : f.span? i = some s) {p : Placed}
    (hp : p ∈ f.placed) :
    (Surfaces 0 (f.placed.filter fun q => i < q.index ∧ q.span.start < s.stop) p ∧
      i < p.index ∧ p.span.start < s.stop) ↔ f.parent? p.index = some i := by
  have hspan := mem_placed.mp hp
  rw [h.parent_eq_some_iff, surfaces_zero_iff, and_comm, and_assoc]
  refine and_congr_right fun hip => ?_
  rw [h.around_iff hip hi hspan]
  refine and_congr_right fun hopen => ?_
  simp only [List.mem_filter, decide_eq_true_eq]
  constructor
  · intro hall k hik hkp haround
    have ⟨t, _, ht, _⟩ := haround
    -- a row between the two starts no later than `p`, so it starts inside row `i` as well
    have hinside : t.start < s.stop := (h.sorted hkp ht hspan).trans_lt hopen
    have hclosed := hall ⟨k, t⟩ ⟨mem_placed.mpr ht, hik, hinside⟩ hkp
    exact absurd ((h.around_iff hkp ht hspan).mp haround) (not_lt.mpr hclosed)
  · rintro hbetween a ⟨ha, hia, -⟩ hap
    rw [← not_lt, ← h.around_iff hap (mem_placed.mp ha) hspan]
    exact hbetween a.index hia hap

/-- **The children of a row** are the rows whose parent it is. -/
theorem children_eq_filter (i : Nat) :
    f.children i = (List.range f.size).filter fun j => f.parent? j = some i := by
  unfold children stop?
  cases hi : f.get? i with
  | none =>
    symm
    refine List.filter_eq_nil_iff.mpr fun j _ hj => ?_
    obtain ⟨s, _, hs, _⟩ := h.parent_around (of_decide_eq_true hj)
    obtain ⟨r, hr, -⟩ := span?_eq_some_iff.mp hs
    rw [hi] at hr
    exact absurd hr (by simp)
  | some r =>
    have hinside := fun p (hp : p ∈ f.placed) => h.surfaces_inside_iff (span?_of_get? hi) hp
    show skipNested 0 ((f.placed.drop (i + 1)).takeWhile fun p => p.span.start < r.span.stop) = _
    rw [h.takeWhile_placed, skipNested_eq_filter ((placed_ascending f).filter _)
      (h.placed_admit.filter _), List.filter_filter, ← map_index_filter_placed]
    congr 1
    refine List.filter_congr fun p hp => ?_
    rw [← Bool.decide_and, decide_eq_decide]
    exact hinside p hp

/-! ## Outwards -/

/-- **The depth of a row** is the number of rows around it. -/
theorem depth_eq_countP (i : Nat) :
    f.depth i = (List.range i).countP fun j => Around f.span? j i := by
  unfold depth
  rw [← List.length_tail]
  cases hi : f.span? i with
  | none =>
    have hparent : f.parent? i = none :=
      (h.parent_eq_none_iff i).mpr fun j _ => by simp [Around, hi]
    rw [h.lineage_eq, hparent]
    simp [Around, hi]
  | some t => rw [h.tail_lineage_eq_scan hi, List.length_reverse, List.countP_eq_length_filter]

/-- **The outermost row around a row** is the first that encloses it. -/
theorem outermost?_eq_some_iff (i m : Nat) :
    f.outermost? i = some m ↔ IsLeast {j | j ≤ i ∧ Around f.span? j i} m := by
  unfold outermost?
  by_cases hi : i < f.size
  · obtain ⟨t, ht⟩ := exists_span?_of_lt hi
    rw [if_pos hi, h.lineage_eq_scan ht, List.getLast?_reverse, List.head?_filter,
      List.find?_range_eq_some]
    simp only [decide_eq_true_eq, List.mem_range, Nat.lt_succ_iff, Bool.not_eq_true',
      decide_eq_false_iff_not]
    constructor
    · rintro ⟨hm, hmi, hno⟩
      refine ⟨⟨hmi, hm⟩, fun j hj => ?_⟩
      by_contra hlt
      exact hno j (not_le.mp hlt) hj.2
    · rintro ⟨⟨hmi, hm⟩, hmin⟩
      exact ⟨hm, hmi, fun j hlt hj => absurd (hmin ⟨hlt.le.trans hmi, hj⟩) (not_le.mpr hlt)⟩
  · rw [if_neg hi]
    simp only [reduceCtorEq, false_iff]
    rintro ⟨⟨-, _, _, _, ht, -⟩, -⟩
    exact hi (lt_size_of_span? ht)

/-! ## All families together -/

theorem mem_children {i j : Nat} : j ∈ f.children i ↔ f.parent? j = some i := by
  rw [h.children_eq_filter, List.mem_filter, List.mem_range, decide_eq_true_eq,
    and_iff_right_iff_imp]
  exact lt_size_of_parent?

theorem mem_topLevel {j : Nat} : j ∈ f.topLevel ↔ j < f.size ∧ f.parent? j = none := by
  rw [h.topLevel_eq_filter, List.mem_filter, List.mem_range, decide_eq_true_eq]

/-- **Every row belongs to one family**: it is at top level or a child of one row, once. -/
theorem perm_families :
    (f.topLevel ++ (List.range f.size).flatMap f.children).Perm (List.range f.size) := by
  have htop : f.topLevel.Nodup := by
    rw [h.topLevel_eq_filter]
    exact List.nodup_range.filter _
  have hchildren : ∀ i, (f.children i).Nodup := by
    intro i
    rw [h.children_eq_filter]
    exact List.nodup_range.filter _
  -- a row has at most one parent
  have hapart : (List.range f.size).Pairwise fun i k => (f.children i).Disjoint (f.children k) := by
    refine List.nodup_range.imp fun {i k} hik j hi hk => hik ?_
    exact Option.some.inj ((h.mem_children.mp hi).symm.trans (h.mem_children.mp hk))
  refine (List.perm_ext_iff_of_nodup ?_ List.nodup_range).mpr fun j => ?_
  · refine List.nodup_append'.mpr
      ⟨htop, List.nodup_flatMap.mpr ⟨fun i _ => hchildren i, hapart⟩, fun j hj hj' => ?_⟩
    obtain ⟨i, -, hi⟩ := List.mem_flatMap.mp hj'
    rw [h.mem_children, (h.mem_topLevel.mp hj).2] at hi
    exact absurd hi (by simp)
  · simp only [List.mem_append, List.mem_flatMap, h.mem_topLevel, h.mem_children, List.mem_range]
    constructor
    · rintro (⟨hj, -⟩ | ⟨i, -, hi⟩)
      · exact hj
      · exact lt_size_of_parent? hi
    · intro hj
      cases hp : f.parent? j with
      | none => exact Or.inl ⟨hj, rfl⟩
      | some p => exact Or.inr ⟨p, (h.parent_lt hp).trans hj, rfl⟩

end WellFormed

/-- **Families, exactly**, in every forest that is drafted:

* the children of a row are the rows whose parent it is, ascending, so that whatever the walk
  inwards keeps has this row for a parent;
* its depth is the number of rows before it that enclose it, and the outermost row around it is the
  first row that encloses it; every row has one;
* the rows at top level are those without a parent, ascending;
* every row occurs once among the rows at top level and the children of all rows. -/
theorem family_offerAll_exact (calls : List (Option κ × Span)) :
    let f := (Draft.empty.offerAll calls).freeze
    (∀ i, f.children i = (List.range f.size).filter fun j => f.parent? j = some i) ∧
    (∀ i, f.depth i = (List.range i).countP fun j => Around f.span? j i) ∧
    (∀ i m, f.outermost? i = some m ↔ IsLeast {j | j ≤ i ∧ Around f.span? j i} m) ∧
    (∀ i, i < f.size → ∃ m, f.outermost? i = some m) ∧
    (f.topLevel = (List.range f.size).filter fun j => f.parent? j = none) ∧
    (f.topLevel ++ (List.range f.size).flatMap f.children).Perm (List.range f.size) := by
  intro f
  have h : f.WellFormed := (Draft.inv_empty.offerAll calls).wellFormed
  refine ⟨h.children_eq_filter, h.depth_eq_countP, h.outermost?_eq_some_iff, fun i hi => ?_,
    h.topLevel_eq_filter, h.perm_families⟩
  obtain ⟨t, ht⟩ := exists_span?_of_lt hi
  have hself : Around f.span? i i := ⟨t, t, ht, ht, Span.Encloses.refl t⟩
  have hex : ∃ j, j ≤ i ∧ Around f.span? j i := ⟨i, le_refl i, hself⟩
  exact ⟨_, (h.outermost?_eq_some_iff i _).mpr (Nat.isLeast_find hex)⟩

end Gazetteer.Forest
