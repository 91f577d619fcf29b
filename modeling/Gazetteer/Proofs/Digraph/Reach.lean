import Gazetteer.Digraph.Reach
import Gazetteer.Proofs.Digraph.Drafting
import Mathlib.Data.Finset.Card
import Mathlib.Order.Bounds.Basic

/-!
# What a sweep reaches

A sweep is followed round by round. The invariant `AtRound` ties the state of the loop to walks:
the nodes seen are those reached in an earlier round, and the level holds every node reached in
this round for the first time. The level may also hold nodes that were seen before: a first level
is not purged of the node that the sweep starts from.

* `sweeps_sweep`: the loop ends by itself within the limit, on every graph; each level after the
  first brings a node that was not seen before.
* `bit_reachedFrom`: closures are exactly what a walk of one or more edges leads to.
* `levelOf?_eq_some_iff`: the level of a node is the length of a shortest walk to it.
-/

namespace Gazetteer

/-! ## Walks -/

/-- A walk of `k` edges from `a` to `b` is `Walk E a k b`. -/
inductive Walk (E : Nat → Nat → Prop) (a : Nat) : Nat → Nat → Prop
  | nil : Walk E a 0 a
  | snoc {k b c : Nat} : Walk E a k b → E b c → Walk E a (k + 1) c

namespace Walk

variable {E : Nat → Nat → Prop} {a b c k : Nat}

theorem zero_iff : Walk E a 0 b ↔ b = a :=
  ⟨fun h => by cases h; rfl, fun h => h ▸ nil⟩

theorem succ_iff : Walk E a (k + 1) c ↔ ∃ b, Walk E a k b ∧ E b c :=
  ⟨fun h => by cases h with | snoc hw he => exact ⟨_, hw, he⟩, fun ⟨_, hw, he⟩ => hw.snoc he⟩

theorem exists_iff_reflTransGen : (∃ k, Walk E a k b) ↔ Relation.ReflTransGen E a b := by
  constructor
  · rintro ⟨k, h⟩
    induction h with
    | nil => exact .refl
    | snoc _ he ih => exact ih.tail he
  · intro h
    induction h with
    | refl => exact ⟨0, nil⟩
    | tail _ he ih =>
      obtain ⟨k, hk⟩ := ih
      exact ⟨k + 1, hk.snoc he⟩

theorem exists_succ_iff_transGen : (∃ k, Walk E a (k + 1) b) ↔ Relation.TransGen E a b := by
  simp only [succ_iff, Relation.TransGen.tail'_iff]
  constructor
  · rintro ⟨k, c, hk, he⟩
    exact ⟨c, exists_iff_reflTransGen.mp ⟨k, hk⟩, he⟩
  · rintro ⟨c, hc, he⟩
    obtain ⟨k, hk⟩ := exists_iff_reflTransGen.mpr hc
    exact ⟨k, c, hk, he⟩

end Walk

/-! ## One round -/

variable {n : Nat} {E : Nat → Nat → Prop} {rows : Array WordSet} {seen level : WordSet}

theorem capacity_neighbours (rows : Array WordSet) (s : WordSet) :
    (neighbours rows s).capacity = rows.size :=
  WordSet.capacity_foldl_union (rowOf rows) s.toList (.empty rows.size)

theorem Represents.bit_foldl_union (h : Represents n E rows) {j : Nat} (l : List Nat)
    {acc : WordSet} (hacc : acc.capacity = n) :
    (l.foldl (fun acc i => acc.union (rowOf rows i)) acc).bit j = true ↔
      acc.bit j = true ∨ ∃ i ∈ l, E i j := by
  induction l generalizing acc with
  | nil => simp
  | cons i l ih =>
    have hfit : ∀ j, (rowOf rows i).bit j = true → j < acc.capacity := fun j hj =>
      hacc ▸ h.lt_right i j ((h.bit_iff i j).mp hj)
    have hacc' : (acc.union (rowOf rows i)).capacity = n := hacc
    rw [List.foldl_cons, ih hacc', WordSet.bit_union_iff hfit, h.bit_iff,
      List.exists_mem_cons_iff, or_assoc]

/-- The neighbours of a set are the nodes that an edge leads to from a member. -/
theorem Represents.bit_neighbours (h : Represents n E rows) {s : WordSet} {j : Nat} :
    (neighbours rows s).bit j = true ↔ ∃ i, s.bit i = true ∧ E i j := by
  unfold neighbours
  rw [h.bit_foldl_union s.toList h.size_eq, WordSet.bit_empty]
  simp only [WordSet.mem_toList, Bool.false_eq_true, false_or]

/-- The nodes that have not been seen. -/
def unseen (n : Nat) (seen : WordSet) : Finset Nat :=
  (Finset.range n).filter fun i => seen.bit i = false

theorem mem_unseen {i : Nat} : i ∈ unseen n seen ↔ i < n ∧ seen.bit i = false := by
  rw [unseen, Finset.mem_filter, Finset.mem_range]

/-- The level that follows holds only nodes of the graph that were not seen before. -/
theorem Represents.unseen_of_bit_diff (h : Represents n E rows) {i : Nat}
    (hi : ((neighbours rows level).diff seen).bit i = true) : i ∈ unseen n seen := by
  rw [WordSet.bit_diff, Bool.and_eq_true, Bool.not_eq_true'] at hi
  obtain ⟨j, -, hji⟩ := h.bit_neighbours.mp hi.1
  exact mem_unseen.mpr ⟨h.lt_right j i hji, hi.2⟩

/-- `R k i` says that node `i` is reached in round `k`: each round follows the edges from the one
before. -/
structure Schedule (n : Nat) (E R : Nat → Nat → Prop) : Prop where
  succ_iff : ∀ k i, R (k + 1) i ↔ ∃ j, R k j ∧ E j i
  lt : ∀ k i, R k i → i < n

/-- **The state of a sweep when round `k` begins.** -/
structure AtRound (n : Nat) (R : Nat → Nat → Prop) (k : Nat) (seen level : WordSet) : Prop where
  capacity_seen : seen.capacity = n
  capacity_level : level.capacity = n
  seen_iff : ∀ i, seen.bit i = true ↔ ∃ m, m < k ∧ R m i
  reached : ∀ i, level.bit i = true → R k i
  fresh : ∀ i, R k i → seen.bit i = true ∨ level.bit i = true

namespace AtRound

variable {R : Nat → Nat → Prop} {k : Nat}

theorem seen_union_iff (hR : Schedule n E R) (h : AtRound n R k seen level) (i : Nat) :
    (seen.union level).bit i = true ↔ ∃ m, m < k + 1 ∧ R m i := by
  have hfit : ∀ i, level.bit i = true → i < seen.capacity := fun i hi =>
    h.capacity_seen ▸ hR.lt k i (h.reached i hi)
  rw [WordSet.bit_union_iff hfit, h.seen_iff]
  constructor
  · rintro (⟨m, hm, hmi⟩ | hi)
    · exact ⟨m, Nat.lt_succ_of_lt hm, hmi⟩
    · exact ⟨k, Nat.lt_succ_self k, h.reached i hi⟩
  · rintro ⟨m, hm, hmi⟩
    rcases Nat.lt_succ_iff_lt_or_eq.mp hm with hlt | rfl
    · exact Or.inl ⟨m, hlt, hmi⟩
    · rw [← h.seen_iff]
      exact h.fresh i hmi

/-- **One round of a sweep.** -/
theorem next (hrows : Represents n E rows) (hR : Schedule n E R) (h : AtRound n R k seen level) :
    AtRound n R (k + 1) (seen.union level)
      ((neighbours rows level).diff (seen.union level)) := by
  have hseen := h.seen_union_iff hR
  refine ⟨h.capacity_seen, ?_, hseen, fun i hi => ?_, fun i hi => ?_⟩
  · rw [WordSet.capacity_diff, capacity_neighbours, hrows.size_eq]
  · rw [WordSet.bit_diff, Bool.and_eq_true] at hi
    obtain ⟨j, hj, hji⟩ := hrows.bit_neighbours.mp hi.1
    exact (hR.succ_iff k i).mpr ⟨j, h.reached j hj, hji⟩
  · obtain ⟨j, hj, hji⟩ := (hR.succ_iff k i).mp hi
    rcases h.fresh j hj with hold | hnew
    · -- what follows a node seen earlier has been seen by now
      obtain ⟨m, hm, hmj⟩ := (h.seen_iff j).mp hold
      exact Or.inl ((hseen i).mpr ⟨m + 1, Nat.succ_lt_succ hm, (hR.succ_iff m i).mpr ⟨j, hmj, hji⟩⟩)
    · rw [WordSet.bit_diff, hrows.bit_neighbours.mpr ⟨j, hnew, hji⟩]
      cases (seen.union level).bit i <;> simp

/-- When a level is empty, everything that is ever reached has been seen. -/
theorem seen_of_isEmpty (hR : Schedule n E R) (h : AtRound n R k seen level)
    (hempty : level.isEmpty = true) {m i : Nat} (hi : R m i) : seen.bit i = true := by
  have hnow : ∀ m i, m ≤ k → R m i → seen.bit i = true := by
    intro m i hm hi
    rcases Nat.lt_or_eq_of_le hm with hlt | rfl
    · exact (h.seen_iff i).mpr ⟨m, hlt, hi⟩
    · refine (h.fresh i hi).resolve_right ?_
      rw [WordSet.isEmpty_iff.mp hempty i]
      exact Bool.false_ne_true
  induction m generalizing i with
  | zero => exact hnow 0 i (Nat.zero_le k) hi
  | succ m ih =>
    obtain ⟨j, hj, hji⟩ := (hR.succ_iff m i).mp hi
    obtain ⟨m', hm', hj'⟩ := (h.seen_iff j).mp (ih hj)
    exact hnow (m' + 1) i hm' ((hR.succ_iff m' i).mpr ⟨j, hj', hji⟩)

end AtRound

/-! ## A sweep to its end -/

/-- **The levels of a sweep that runs until a level is empty**, whatever number of rounds that
takes. -/
inductive Sweeps (rows : Array WordSet) : (seen level : WordSet) → List WordSet → Prop
  | done {seen level : WordSet} : level.isEmpty = true → Sweeps rows seen level []
  | next {seen level : WordSet} {levels : List WordSet} : level.isEmpty = false →
      Sweeps rows (seen.union level) ((neighbours rows level).diff (seen.union level)) levels →
      Sweeps rows seen level (level :: levels)

namespace Sweeps

variable {R : Nat → Nat → Prop} {k : Nat} {levels : List WordSet}

/-- Every level of a sweep is that of its round. -/
theorem atRound_getElem? (h : Sweeps rows seen level levels) (hrows : Represents n E rows)
    (hR : Schedule n E R) (hk : AtRound n R k seen level) {t : Nat} {l : WordSet}
    (hl : levels[t]? = some l) : ∃ s, AtRound n R (k + t) s l := by
  induction h generalizing k t with
  | done _ => exact absurd hl (by simp)
  | @next seen level _ _ _ ih =>
    cases t with
    | zero => exact ⟨seen, Option.some.inj hl ▸ hk⟩
    | succ t =>
      obtain ⟨s, hs⟩ := ih (hk.next hrows hR) hl
      exact ⟨s, Nat.succ_add_eq_add_succ k t ▸ hs⟩

/-- A sweep ends in a round with an empty level. -/
theorem exists_atRound_end (h : Sweeps rows seen level levels) (hrows : Represents n E rows)
    (hR : Schedule n E R) (hk : AtRound n R k seen level) :
    ∃ last, last.isEmpty = true ∧
      AtRound n R (k + levels.length) (levels.foldl WordSet.union seen) last := by
  induction h generalizing k with
  | @done _ level hempty => exact ⟨level, hempty, hk⟩
  | @next _ _ levels _ _ ih =>
    obtain ⟨last, hempty, hlast⟩ := ih (hk.next hrows hR)
    exact ⟨last, hempty, Nat.succ_add_eq_add_succ k levels.length ▸ hlast⟩

/-- **What a sweep has seen at its end** is everything that is reached in some round. -/
theorem bit_foldl_union_iff (h : Sweeps rows seen level levels) (hrows : Represents n E rows)
    (hR : Schedule n E R) (hk : AtRound n R k seen level) (i : Nat) :
    (levels.foldl WordSet.union seen).bit i = true ↔ ∃ m, R m i := by
  obtain ⟨last, hempty, hlast⟩ := h.exists_atRound_end hrows hR hk
  constructor
  · intro hi
    obtain ⟨m, -, hm⟩ := (hlast.seen_iff i).mp hi
    exact ⟨m, hm⟩
  · rintro ⟨m, hm⟩
    exact hlast.seen_of_isEmpty hR hempty hm

/-- Whatever is reached is reached before a sweep ends. -/
theorem exists_lt_of_reached (h : Sweeps rows seen level levels) (hrows : Represents n E rows)
    (hR : Schedule n E R) (hk : AtRound n R k seen level) {m i : Nat} (hi : R m i) :
    ∃ m', m' < k + levels.length ∧ R m' i := by
  obtain ⟨last, hempty, hlast⟩ := h.exists_atRound_end hrows hR hk
  exact (hlast.seen_iff i).mp (hlast.seen_of_isEmpty hR hempty hi)

end Sweeps

/-! ## The end comes -/

theorem unseen_union_subset : unseen n (seen.union level) ⊆ unseen n seen := by
  intro i hi
  rw [mem_unseen, WordSet.bit_union, Bool.or_eq_false_iff] at hi
  exact mem_unseen.mpr ⟨hi.1, hi.2.1⟩

/-- A level with a node that was not seen leaves fewer nodes unseen. -/
theorem card_unseen_union_lt (hseen : seen.capacity = n) {i : Nat} (hi : i ∈ unseen n seen)
    (hlevel : level.bit i = true) :
    (unseen n (seen.union level)).card < (unseen n seen).card := by
  have hin : (seen.union level).bit i = true := by
    have hlt : i < seen.capacity := hseen ▸ (mem_unseen.mp hi).1
    simp [WordSet.bit_union, WordSet.div_lt_size hlt, hlevel]
  refine Finset.card_lt_card (Finset.ssubset_iff_subset_ne.mpr ⟨unseen_union_subset, fun heq => ?_⟩)
  rw [← heq, mem_unseen, hin] at hi
  exact absurd hi.2 (by simp)

/-- **The loop ends by itself**: a limit above the number of nodes that the first level leaves
unseen is never met. -/
theorem sweeps_sweep (h : Represents n E rows) (limit : Nat) (hseen : seen.capacity = n)
    (hlimit : level.isEmpty = false → (unseen n (seen.union level)).card < limit) :
    Sweeps rows seen level (sweep rows limit seen level) := by
  induction limit generalizing seen level with
  | zero =>
    cases hempty : level.isEmpty with
    | true => exact .done hempty
    | false => exact absurd (hlimit hempty) (Nat.not_lt_zero _)
  | succ limit ih =>
    rw [sweep]
    cases hempty : level.isEmpty with
    | true => exact .done hempty
    | false =>
      refine .next hempty (ih hseen fun hnext => ?_)
      obtain ⟨i, hi⟩ := WordSet.isEmpty_eq_false_iff.mp hnext
      have hseen' : (seen.union level).capacity = n := hseen
      have hless := card_unseen_union_lt hseen' (h.unseen_of_bit_diff hi) hi
      have hlimit := hlimit hempty
      omega

/-- A sweep whose levels bring only unseen nodes has no more levels than there are such nodes. -/
theorem Sweeps.length_le {levels : List WordSet} (hs : Sweeps rows seen level levels)
    (h : Represents n E rows) (hseen : seen.capacity = n)
    (hlevel : ∀ i, level.bit i = true → i ∈ unseen n seen) :
    levels.length ≤ (unseen n seen).card := by
  induction hs with
  | done _ => exact Nat.zero_le _
  | @next seen level levels hempty _ ih =>
    obtain ⟨i, hi⟩ := WordSet.isEmpty_eq_false_iff.mp hempty
    have hless := card_unseen_union_lt hseen (hlevel i hi) hi
    have hrest := ih hseen fun j hj => h.unseen_of_bit_diff hj
    rw [List.length_cons]
    omega

/-! ## Closures -/

theorem Represents.schedule (h : Represents n E rows) (a : Nat) :
    Schedule n E fun k => Walk E a (k + 1) :=
  ⟨fun _ _ => Walk.succ_iff, fun _ i hw => by
    obtain ⟨j, -, hji⟩ := Walk.succ_iff.mp hw
    exact h.lt_right j i hji⟩

theorem Represents.sweeps_from_nothing (h : Represents n E rows) (a : Nat) :
    Sweeps rows (.empty n) (rowOf rows a) (sweep rows n (.empty n) (rowOf rows a)) := by
  refine sweeps_sweep h n rfl fun hrow => ?_
  obtain ⟨i, hi⟩ := WordSet.isEmpty_eq_false_iff.mp hrow
  have hlt : i < n := h.lt_right a i ((h.bit_iff a i).mp hi)
  calc (unseen n ((WordSet.empty n).union (rowOf rows a))).card
      < (unseen n (.empty n)).card :=
        card_unseen_union_lt rfl (mem_unseen.mpr ⟨hlt, WordSet.bit_empty n i⟩) hi
    _ ≤ n := (Finset.card_filter_le _ _).trans (Finset.card_range n).le

/-- **Closures** are what a walk of one or more edges leads to. -/
theorem Represents.bit_reachedFrom (h : Represents n E rows) {a : Nat} (ha : a < n) (b : Nat) :
    (reachedFrom rows a).bit b = true ↔ Relation.TransGen E a b := by
  have hstart : AtRound n (fun k => Walk E a (k + 1)) 0 (.empty n) (rowOf rows a) := by
    have hrow : ∀ i, (rowOf rows a).bit i = true ↔ Walk E a 1 i := fun i => by
      rw [h.bit_iff, Walk.succ_iff]
      simp [Walk.zero_iff]
    exact ⟨rfl, h.capacity_eq a ha, fun i => by simp, fun i => (hrow i).mp,
      fun i hi => Or.inr ((hrow i).mpr hi)⟩
  rw [reachedFrom, h.size_eq,
    (h.sweeps_from_nothing a).bit_foldl_union_iff h (h.schedule a) hstart,
    Walk.exists_succ_iff_transGen]

theorem capacity_reachedFrom (rows : Array WordSet) (a : Nat) :
    (reachedFrom rows a).capacity = rows.size :=
  WordSet.capacity_foldl_union id _ (.empty rows.size)

theorem Represents.contains_reachedFrom (h : Represents n E rows) {a : Nat} (ha : a < n) (b : Nat) :
    (reachedFrom rows a).contains b = true ↔ Relation.TransGen E a b := by
  rw [WordSet.contains, capacity_reachedFrom, h.size_eq, Bool.and_eq_true, h.bit_reachedFrom ha,
    decide_eq_true_eq, and_iff_right_iff_imp]
  intro hab
  obtain ⟨c, -, hcb⟩ := Relation.TransGen.tail'_iff.mp hab
  exact h.lt_right c b hcb

namespace Digraph

variable {g : Digraph}

theorem descendants_eq (g : Digraph) {a : Nat} (ha : a < g.size) :
    g.descendants a = .ok (reachedFrom g.outbound a) := by
  simp [descendants, checkIndex, ha, bind, Except.bind, pure, Except.pure]

theorem ancestors_eq (g : Digraph) {a : Nat} (ha : a < g.size) :
    g.ancestors a = .ok (reachedFrom g.inbound a) := by
  simp [ancestors, checkIndex, ha, bind, Except.bind, pure, Except.pure]

/-- A query about a node that is not in the graph is refused. -/
theorem refused_of_size_le {a : Nat} (ha : g.size ≤ a) :
    g.descendants a = .error (.indexOutOfRange a g.size) ∧
    g.ancestors a = .error (.indexOutOfRange a g.size) ∧
    g.descendantCount a = .error (.indexOutOfRange a g.size) ∧
    g.isRecursive a = .error (.indexOutOfRange a g.size) := by
  have hcheck : checkIndex a g.size = .error (.indexOutOfRange a g.size) :=
    if_neg (Nat.not_lt.mpr ha)
  simp [descendants, ancestors, descendantCount, isRecursive, hcheck, bind, Except.bind]

theorem Holds.isRecursive_eq (h : g.Holds n E) {a : Nat} (ha : a < n) :
    ∃ r, g.isRecursive a = .ok r ∧ (r = true ↔ Relation.TransGen E a a) := by
  have hcheck : checkIndex a g.size = .ok a := if_pos (h.size_eq ▸ ha)
  refine ⟨(rowOf g.outbound a).contains a || (reachedFrom g.outbound a).contains a, ?_, ?_⟩
  · simp [isRecursive, hcheck, bind, Except.bind, pure, Except.pure]
  · rw [Bool.or_eq_true, h.outbound.contains_iff ha, h.outbound.contains_reachedFrom ha,
      or_iff_right_iff_imp]
    exact Relation.TransGen.single

/-- **Closures, exactly.** In the graph of any sequence of requests, the descendants of a node are
the nodes that one or more accepted edges lead to, its ancestors those from which they lead to it,
the descendants are counted right, a node is recursive iff it lies on a cycle, and both closure
loops run until a level is empty. A node that is not in the graph is refused. -/
theorem closure_offerEdges_exact (n : Nat) (edges : List (Nat × Nat)) :
    let g := (Digraph.empty n).offerEdges edges
    let E := Accepted n edges
    (∀ a, a < n →
      (∃ s, g.descendants a = .ok s ∧ ∀ b, s.contains b = true ↔ Relation.TransGen E a b) ∧
      (∃ s, g.ancestors a = .ok s ∧ ∀ b, s.contains b = true ↔ Relation.TransGen E b a) ∧
      g.descendantCount a = .ok {b | Relation.TransGen E a b}.ncard ∧
      (∃ r, g.isRecursive a = .ok r ∧ (r = true ↔ Relation.TransGen E a a)) ∧
      Sweeps g.outbound (.empty n) (rowOf g.outbound a)
        (sweep g.outbound n (.empty n) (rowOf g.outbound a)) ∧
      Sweeps g.inbound (.empty n) (rowOf g.inbound a)
        (sweep g.inbound n (.empty n) (rowOf g.inbound a))) ∧
    ∀ a, n ≤ a →
      g.descendants a = .error (.indexOutOfRange a n) ∧
      g.ancestors a = .error (.indexOutOfRange a n) ∧
      g.descendantCount a = .error (.indexOutOfRange a n) ∧
      g.isRecursive a = .error (.indexOutOfRange a n) := by
  intro g E
  have h : g.Holds n E := holds_offerEdges n edges
  refine ⟨fun a ha => ?_, fun a ha => ?_⟩
  · have hsize : a < g.size := h.size_eq ▸ ha
    have hdesc := g.descendants_eq hsize
    refine ⟨⟨_, hdesc, h.outbound.contains_reachedFrom ha⟩, ⟨_, g.ancestors_eq hsize, fun b => ?_⟩,
      ?_, h.isRecursive_eq ha, h.outbound.sweeps_from_nothing a, h.inbound.sweeps_from_nothing a⟩
    · rw [h.inbound.contains_reachedFrom ha, Relation.transGen_swap]
    · have hcount : (reachedFrom g.outbound a).count = {b | Relation.TransGen E a b}.ncard :=
        WordSet.count_eq_ncard (h.outbound.bit_reachedFrom ha)
      rw [descendantCount, hdesc, ← hcount]
      rfl
  · have hrefused := refused_of_size_le (g := g) (h.size_eq.symm ▸ ha)
    rwa [h.size_eq] at hrefused

end Digraph

end Gazetteer
