import Gazetteer.Proofs.Digraph.Reach

/-!
# Distances

A node is looked for level by level, with a counter that starts at 1 and goes up after each level.
The first level may hold the node that the search starts from, so it is not true that a level holds
just the nodes at its distance; it is true of all other nodes, and the search is for one of them.

* `levelOf?_eq_some_iff`: the level at which a node is found is the length of a shortest walk.
* `length_levels_lt`: there are fewer levels than nodes, so the counter stays below the number of
  nodes.
* `searches_levelOf?`: the search ends by itself, and a counter of 32 bits never overflows.
-/

namespace Gazetteer

variable {n : Nat} {E : Nat → Nat → Prop} {rows : Array WordSet} {a b : Nat}

/-- The levels of a search from `a`. -/
def levelsFrom (rows : Array WordSet) (a : Nat) : List WordSet :=
  sweep rows rows.size ((WordSet.empty rows.size).insert a) (rowOf rows a)

theorem levelOf?_eq (rows : Array WordSet) (a b : Nat) :
    levelOf? rows a b = ((levelsFrom rows a).findIdx? (·.contains b)).map (· + 1) := rfl

theorem exists_isLeast_walk_iff : (∃ d, IsLeast {k | Walk E a k b} d) ↔
    Relation.ReflTransGen E a b := by
  rw [← Walk.exists_iff_reflTransGen]
  constructor
  · rintro ⟨d, hd⟩
    exact ⟨d, hd.1⟩
  · intro hex
    classical
    exact ⟨Nat.find hex, Nat.find_spec hex, fun k hk => Nat.find_min' hex hk⟩

theorem bit_insert_empty (ha : a < n) (i : Nat) :
    ((WordSet.empty n).insert a).bit i = true ↔ i = a := by
  simp [WordSet.bit_insert, ha, eq_comm]

theorem card_unseen_singleton_lt (ha : a < n) :
    (unseen n ((WordSet.empty n).insert a)).card < n := by
  have hsub : unseen n ((WordSet.empty n).insert a) ⊆ (Finset.range n).erase a := by
    intro i hi
    obtain ⟨hlt, hbit⟩ := mem_unseen.mp hi
    refine Finset.mem_erase.mpr ⟨?_, Finset.mem_range.mpr hlt⟩
    rintro rfl
    rw [(bit_insert_empty hlt i).mpr rfl] at hbit
    exact absurd hbit (by simp)
  calc _ ≤ ((Finset.range n).erase a).card := Finset.card_le_card hsub
    _ < (Finset.range n).card := Finset.card_erase_lt_of_mem (Finset.mem_range.mpr ha)
    _ = n := Finset.card_range n

namespace Represents

theorem walk_lt (h : Represents n E rows) (ha : a < n) {k i : Nat} (hw : Walk E a k i) : i < n := by
  cases hw with
  | nil => exact ha
  | snoc _ he => exact h.lt_right _ _ he

theorem walks_schedule (h : Represents n E rows) (ha : a < n) : Schedule n E (Walk E a) :=
  ⟨fun _ _ => Walk.succ_iff, fun _ _ => h.walk_lt ha⟩

theorem atRound_one (h : Represents n E rows) (ha : a < n) :
    AtRound n (Walk E a) 1 ((WordSet.empty n).insert a) (rowOf rows a) := by
  have hrow : ∀ i, (rowOf rows a).bit i = true ↔ Walk E a 1 i := fun i => by
    rw [h.bit_iff, Walk.succ_iff]
    simp [Walk.zero_iff]
  refine ⟨WordSet.capacity_insert _ a, h.capacity_eq a ha, fun i => ?_, fun i => (hrow i).mp,
    fun i hi => Or.inr ((hrow i).mpr hi)⟩
  rw [bit_insert_empty ha]
  simp [Walk.zero_iff]

theorem sweeps_levelsFrom (h : Represents n E rows) (ha : a < n) :
    Sweeps rows ((WordSet.empty n).insert a) (rowOf rows a) (levelsFrom rows a) := by
  rw [levelsFrom, h.size_eq]
  refine sweeps_sweep h n (WordSet.capacity_insert _ a) fun _ => ?_
  exact (Finset.card_le_card unseen_union_subset).trans_lt (card_unseen_singleton_lt ha)

/-- The level at place `t` holds only nodes at the end of a walk of `t + 1` edges, and all those to
which no shorter walk leads. -/
theorem contains_level (h : Represents n E rows) (ha : a < n) (hb : b < n) {t : Nat} {l : WordSet}
    (hl : (levelsFrom rows a)[t]? = some l) :
    (l.contains b = true → Walk E a (t + 1) b) ∧
      (Walk E a (t + 1) b → (∀ m, m ≤ t → ¬ Walk E a m b) → l.contains b = true) := by
  obtain ⟨s, hs⟩ := (h.sweeps_levelsFrom ha).atRound_getElem? h (h.walks_schedule ha)
    (h.atRound_one ha) hl
  rw [Nat.add_comm] at hs
  rw [WordSet.contains_eq_bit (hs.capacity_level.symm ▸ hb)]
  refine ⟨hs.reached b, fun hw hshort => (hs.fresh b hw).resolve_left fun hseen => ?_⟩
  obtain ⟨m, hm, hwm⟩ := (hs.seen_iff b).mp hseen
  exact hshort m (Nat.le_of_lt_succ hm) hwm

/-- A walk is no longer than the number of levels, if it is a shortest one. -/
theorem le_length_levelsFrom (h : Represents n E rows) (ha : a < n) {d : Nat}
    (hd : IsLeast {k | Walk E a k b} d) : d ≤ (levelsFrom rows a).length := by
  obtain ⟨m, hm, hw⟩ := (h.sweeps_levelsFrom ha).exists_lt_of_reached h (h.walks_schedule ha)
    (h.atRound_one ha) hd.1
  have hle := hd.2 hw
  omega

/-- **The level of a node** is the length of a shortest walk to it. -/
theorem levelOf?_eq_some_iff (h : Represents n E rows) (ha : a < n) (hb : b < n) (hab : a ≠ b)
    (d : Nat) : levelOf? rows a b = some d ↔ IsLeast {k | Walk E a k b} d := by
  have hzero : ¬ Walk E a 0 b := fun hw => hab (Walk.zero_iff.mp hw).symm
  rw [levelOf?_eq, Option.map_eq_some_iff]
  simp only [List.findIdx?_eq_some_iff_getElem]
  constructor
  · rintro ⟨t, ⟨ht, hin, hbefore⟩, rfl⟩
    have hlevel := List.getElem?_eq_getElem ht
    refine ⟨(h.contains_level ha hb hlevel).1 hin, fun m hm => ?_⟩
    -- no walk is shorter: a shortest one would have been found at its own level
    by_contra hlt
    obtain ⟨d, hd⟩ := exists_isLeast_walk_iff.mpr (Walk.exists_iff_reflTransGen.mp ⟨m, hm⟩)
    have hdm : d ≤ m := hd.2 hm
    cases d with
    | zero => exact hzero hd.1
    | succ k =>
      have hk : k < t := by omega
      have hlevel := List.getElem?_eq_getElem (hk.trans ht)
      refine hbefore k hk ((h.contains_level ha hb hlevel).2 hd.1 fun m hm hw => ?_)
      exact absurd (hd.2 hw) (by omega)
  · intro hd
    cases d with
    | zero => exact absurd hd.1 hzero
    | succ t =>
      have ht : t < (levelsFrom rows a).length := h.le_length_levelsFrom ha hd
      have hlevel := List.getElem?_eq_getElem ht
      refine ⟨t, ⟨ht, (h.contains_level ha hb hlevel).2 hd.1 fun m hm hw => ?_, fun k hk hin => ?_⟩,
        rfl⟩
      · exact absurd (hd.2 hw) (by omega)
      · have hw := (h.contains_level ha hb (List.getElem?_eq_getElem (hk.trans ht))).1 hin
        exact absurd (hd.2 hw) (by omega)

/-- **There are fewer levels than nodes**, as soon as there are two nodes. -/
theorem length_levels_lt (h : Represents n E rows) (ha : a < n) (hn : 2 ≤ n)
    {levels : List WordSet}
    (hs : Sweeps rows ((WordSet.empty n).insert a) (rowOf rows a) levels) :
    levels.length < n := by
  cases hs with
  | done _ => exact Nat.zero_lt_of_lt ha
  | @next _ _ levels _ hrest =>
    have hseen : ((WordSet.empty n).insert a).capacity = n := WordSet.capacity_insert _ a
    have hlen := hrest.length_le h hseen fun i hi => h.unseen_of_bit_diff hi
    rw [List.length_cons]
    cases hrest with
    | done _ => exact hn
    | next hmore _ =>
      -- the second level follows an edge from a node of the first that is not `a` itself
      have hround := (h.atRound_one ha).next h (h.walks_schedule ha)
      obtain ⟨i, hi⟩ := WordSet.isEmpty_eq_false_iff.mp hmore
      obtain ⟨j, hwj, hji⟩ := Walk.succ_iff.mp (hround.reached i hi)
      have hja : j ≠ a := by
        rintro rfl
        have hseen := (hround.seen_iff i).mpr ⟨1, by omega, Walk.nil.snoc hji⟩
        have hunseen := (mem_unseen.mp (h.unseen_of_bit_diff hi)).2
        rw [hseen] at hunseen
        exact absurd hunseen (by simp)
      have hj : (rowOf rows a).bit j = true :=
        ((h.atRound_one ha).fresh j hwj).resolve_left fun hold =>
          hja ((bit_insert_empty ha j).mp hold)
      have hjnew : j ∈ unseen n ((WordSet.empty n).insert a) := by
        refine mem_unseen.mpr ⟨h.walk_lt ha hwj, ?_⟩
        rw [← Bool.not_eq_true, bit_insert_empty ha]
        exact hja
      have hfewer := card_unseen_union_lt hseen hjnew hj
      have hstart := card_unseen_singleton_lt ha
      omega

end Represents

/-! ## A counter of 32 bits -/

/-- **The search for `target`, run to its end**: the answer is the counter at the level that holds
the target, `none` if a level is empty first. The counter goes up only where it has room to. -/
inductive Searches (rows : Array WordSet) (target : Nat) :
    (seen level : WordSet) → (counter : Nat) → Option Nat → Prop
  | exhausted {seen level : WordSet} {counter : Nat} : level.isEmpty = true →
      Searches rows target seen level counter none
  | found {seen level : WordSet} {counter : Nat} : level.isEmpty = false →
      level.contains target = true → Searches rows target seen level counter (some counter)
  | next {seen level : WordSet} {counter : Nat} {answer : Option Nat} : level.isEmpty = false →
      level.contains target = false → counter + 1 < 2 ^ 32 →
      Searches rows target (seen.union level) ((neighbours rows level).diff (seen.union level))
        (counter + 1) answer →
      Searches rows target seen level counter answer

theorem Sweeps.searches {seen level : WordSet} {levels : List WordSet}
    (h : Sweeps rows seen level levels) (target : Nat) {counter : Nat}
    (hroom : counter + levels.length < 2 ^ 32) :
    Searches rows target seen level counter
      ((levels.findIdx? (·.contains target)).map (· + counter)) := by
  induction h generalizing counter with
  | done hempty => exact .exhausted hempty
  | @next seen level levels hempty _ ih =>
    rw [List.length_cons] at hroom
    rw [List.findIdx?_cons]
    cases hin : level.contains target with
    | true =>
      simp only [if_true, Option.map_some, Nat.zero_add]
      exact .found hempty hin
    | false =>
      have hcount : ∀ t, t + 1 + counter = t + (counter + 1) := fun t => by omega
      simp only [Bool.false_eq_true, if_false, Option.map_map, Function.comp_def, hcount]
      exact .next hempty hin (by omega) (ih (by omega))

/-- **The search ends by itself and its counter never overflows.** -/
theorem Represents.searches_levelOf? (h : Represents n E rows) (ha : a < n) (hb : b < n)
    (hab : a ≠ b) (hn : n < 2 ^ 32) :
    Searches rows b ((WordSet.empty n).insert a) (rowOf rows a) 1 (levelOf? rows a b) := by
  have hs := h.sweeps_levelsFrom ha
  have hlt := h.length_levels_lt ha (by omega) hs
  exact hs.searches b (by omega)

namespace Digraph

theorem distance_eq (g : Digraph) (ha : a < g.size) (hb : b < g.size) :
    g.distance a b = .ok (if a = b then some 0 else levelOf? g.outbound a b) := by
  simp [distance, checkIndex, ha, hb, bind, Except.bind, pure, Except.pure]

theorem Holds.distance_eq_some_iff {g : Digraph} (h : g.Holds n E) (ha : a < n) (hb : b < n)
    (d : Nat) :
    (if a = b then some 0 else levelOf? g.outbound a b) = some d ↔
      IsLeast {k | Walk E a k b} d := by
  split
  · rename_i hab
    subst hab
    have hzero : IsLeast {k | Walk E a k a} 0 := ⟨.nil, fun k _ => Nat.zero_le k⟩
    rw [Option.some.injEq]
    exact ⟨fun e => e ▸ hzero, fun hd => hzero.unique hd⟩
  · rename_i hab
    exact h.outbound.levelOf?_eq_some_iff ha hb hab d

/-- **Distances, exactly.** In the graph of any sequence of requests over fewer than 2 ^ 32 nodes,
the distance of two nodes is the length of a shortest walk along accepted edges, 0 from a node to
itself, and there is none iff no walk leads there. It is less than the number of nodes; the search
for it ends by itself, and its counter of 32 bits never overflows. One node is reachable from
another iff the two are the same or it is a descendant. -/
theorem distance_offerEdges_exact {n : Nat} (hn : n < 2 ^ 32) (edges : List (Nat × Nat))
    {a b : Nat} (ha : a < n) (hb : b < n) :
    let g := (Digraph.empty n).offerEdges edges
    let E := Accepted n edges
    ∃ r, g.distance a b = .ok r ∧
      (∀ d, r = some d ↔ IsLeast {k | Walk E a k b} d) ∧
      (r = none ↔ ¬ Relation.ReflTransGen E a b) ∧
      (a = b → r = some 0) ∧
      (∀ d, r = some d → d ≤ n - 1) ∧
      (a ≠ b →
        Searches g.outbound b ((WordSet.empty n).insert a) (rowOf g.outbound a) 1 r) ∧
      ∃ s, g.descendants a = .ok s ∧ g.isReachable a b = .ok (decide (a = b) || s.contains b) := by
  intro g E
  have h : g.Holds n E := holds_offerEdges n edges
  have hsize := h.size_eq
  have hdist := g.distance_eq (hsize.symm ▸ ha) (hsize.symm ▸ hb)
  have hsome := h.distance_eq_some_iff ha hb
  have hnone : (if a = b then some 0 else levelOf? g.outbound a b) = none ↔
      ¬ Relation.ReflTransGen E a b := by
    rw [← exists_isLeast_walk_iff, Option.eq_none_iff_forall_ne_some]
    simp only [ne_eq, hsome, not_exists]
  refine ⟨_, hdist, hsome, hnone, fun hab => if_pos hab, fun d hd => ?_, fun hab => ?_,
    _, g.descendants_eq (hsize.symm ▸ ha), ?_⟩
  · by_cases hab : a = b
    · rw [if_pos hab, Option.some.injEq] at hd
      omega
    · have hle := h.outbound.le_length_levelsFrom ha ((hsome d).mp hd)
      have hlt := h.outbound.length_levels_lt ha (by omega) (h.outbound.sweeps_levelsFrom ha)
      omega
  · rw [if_neg hab]
    exact h.outbound.searches_levelOf? ha hb hab hn
  · have hreach : (if a = b then some 0 else levelOf? g.outbound a b).isSome =
        (decide (a = b) || (reachedFrom g.outbound a).contains b) := by
      rw [Bool.eq_iff_iff, Bool.or_eq_true, decide_eq_true_eq, h.outbound.contains_reachedFrom ha,
        ← Option.ne_none_iff_isSome, ne_eq, hnone, not_not,
        Relation.reflTransGen_iff_eq_or_transGen, eq_comm]
    rw [isReachable, hdist, ← hreach]
    rfl

/-- Around a cycle of three nodes, with a loop at the first, the last is two edges away. -/
theorem distance_around_cycle :
    let edges := [(0, 0), (0, 1), (1, 2), (2, 0), (2, 7)]
    ((Digraph.empty 3).offerEdges edges).distance 0 2 = .ok (some 2) ∧
      IsLeast {k | Walk (Accepted 3 edges) 0 k 2} 2 := by
  intro edges
  have hvalue : ((Digraph.empty 3).offerEdges edges).distance 0 2 = .ok (some 2) := by
    decide +kernel
  obtain ⟨r, hr, hsome, -⟩ :=
    distance_offerEdges_exact (by decide : 3 < 2 ^ 32) edges (by decide : 0 < 3) (by decide : 2 < 3)
  obtain rfl : r = some 2 := Except.ok.inj (hr.symm.trans hvalue)
  exact ⟨hvalue, (hsome 2).mp rfl⟩

end Digraph

end Gazetteer
