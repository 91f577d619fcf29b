import Gazetteer.Proofs.Digraph.Drafting
import Mathlib.Data.Prod.Lex

/-!
# A graph is a set of edges

The two tables of a graph are written by the same requests but never compared, edges are listed by
reading bits and counted by counting them, and whether a request brought something new is said by
one table alone. All of these agree, because a table is determined by the edges it represents
(`Represents.unique`): words, row by row, down to the last bit.

* `Holds.unique`: two graphs with the same edges are equal, however they were made.
* `Holds.mem_edges`, `pairwise_edges`, `edgeCount_eq_length`: the edges are listed once each, in
  order, and counted right.
* `Holds.addEdge_eq`: what a request is answered.
* `edges_offerEdges_exact`: all of this for every sequence of requests.
-/

namespace Gazetteer

/-! ## Tables -/

namespace Represents

variable {n : Nat} {E : Nat → Nat → Prop} {rows rows' : Array WordSet}

/-- **A table is determined by its edges.** -/
theorem unique (h : Represents n E rows) (h' : Represents n E rows') : rows = rows' := by
  refine Array.ext (h.size_eq.trans h'.size_eq.symm) fun i hi hi' => ?_
  rw [getElem_eq_rowOf hi, getElem_eq_rowOf hi']
  have hn : i < n := h.size_eq ▸ hi
  refine WordSet.eq_of_bit ((h.capacity_eq i hn).trans (h'.capacity_eq i hn).symm) fun j => ?_
  rw [Bool.eq_iff_iff, h.bit_iff, h'.bit_iff]

/-- An edge is new to its row iff it is not in the table. -/
theorem adds_iff (h : Represents n E rows) {a b : Nat} (ha : a < n) (hb : b < n) :
    (rowOf rows a).adds b = true ↔ ¬ E a b := by
  rw [WordSet.adds, h.capacity_eq a ha, Bool.and_eq_true, Bool.not_eq_true', ← Bool.not_eq_true,
    h.bit_iff, decide_eq_true_eq]
  exact and_iff_right hb

end Represents

namespace Digraph

variable {g g' : Digraph} {n : Nat} {E : Nat → Nat → Prop}

instance (n : Nat) (edges : List (Nat × Nat)) (a b : Nat) : Decidable (Accepted n edges a b) :=
  inferInstanceAs (Decidable ((a, b) ∈ edges ∧ a < n ∧ b < n))

/-- **A graph is determined by its edges.** -/
theorem Holds.unique (h : g.Holds n E) (h' : g'.Holds n E) : g = g' := by
  obtain ⟨outbound, inbound⟩ := g
  obtain ⟨outbound', inbound'⟩ := g'
  obtain rfl : outbound = outbound' := h.outbound.unique h'.outbound
  obtain rfl : inbound = inbound' := h.inbound.unique h'.inbound
  rfl

/-! ## Neighbours -/

theorem Holds.successors_eq (h : g.Holds n E) {a : Nat} (ha : a < n) :
    ∃ s, g.successors a = .ok s ∧ ∀ b, s.contains b = true ↔ E a b := by
  have hcheck : checkIndex a g.size = .ok a := if_pos (h.size_eq ▸ ha)
  refine ⟨rowOf g.outbound a, ?_, h.outbound.contains_iff ha⟩
  rw [successors, hcheck]
  rfl

theorem Holds.predecessors_eq (h : g.Holds n E) {b : Nat} (hb : b < n) :
    ∃ s, g.predecessors b = .ok s ∧ ∀ a, s.contains a = true ↔ E a b := by
  have hcheck : checkIndex b g.size = .ok b := if_pos (h.size_eq ▸ hb)
  refine ⟨rowOf g.inbound b, ?_, h.inbound.contains_iff hb⟩
  rw [predecessors, hcheck]
  rfl

/-- Neighbours of what is no node of the graph are refused. -/
theorem neighbours_of_size_le {a : Nat} (ha : g.size ≤ a) :
    g.successors a = .error (.indexOutOfRange a g.size) ∧
      g.predecessors a = .error (.indexOutOfRange a g.size) := by
  have hcheck : checkIndex a g.size = .error (.indexOutOfRange a g.size) :=
    if_neg (Nat.not_lt.mpr ha)
  rw [successors, predecessors, hcheck]
  exact ⟨rfl, rfl⟩

/-! ## Listing and counting -/

theorem mem_edges {a b : Nat} : (a, b) ∈ g.edges ↔ (rowOf g.outbound a).bit b = true := by
  simp only [edges, List.mem_flatMap, List.mem_map, Prod.mk.injEq, Prod.exists,
    List.mem_zipIdx_iff_getElem?, Array.getElem?_toList, WordSet.mem_toList]
  constructor
  · rintro ⟨row, i, hrow, j, hj, rfl, rfl⟩
    rwa [rowOf, hrow, Option.getD_some]
  · intro hbit
    cases hrow : g.outbound[a]? with
    | none =>
      rw [rowOf, hrow, Option.getD_none, WordSet.bit_empty] at hbit
      exact absurd hbit (by simp)
    | some row =>
      rw [rowOf, hrow, Option.getD_some] at hbit
      exact ⟨row, a, hrow, b, hbit, rfl, rfl⟩

theorem Holds.mem_edges (h : g.Holds n E) {a b : Nat} : (a, b) ∈ g.edges ↔ E a b :=
  Digraph.mem_edges.trans (h.outbound.bit_iff a b)

/-- **Edges are listed by source and then by target.** -/
theorem pairwise_edges (g : Digraph) : g.edges.Pairwise fun e f => toLex e < toLex f := by
  have hsources : g.outbound.toList.zipIdx.Pairwise fun p q => p.2 < q.2 := by
    have hplaces : (g.outbound.toList.zipIdx.map (·.2)).Pairwise (· < ·) := by
      rw [List.zipIdx_map_snd]
      exact List.pairwise_lt_range'
    exact List.pairwise_map.mp hplaces
  refine List.pairwise_flatMap.mpr ⟨fun p _ => ?_, hsources.imp fun {p q} hlt e he f hf => ?_⟩
  · refine List.pairwise_map.mpr (p.1.pairwise_toList.imp fun hlt => ?_)
    exact Prod.Lex.toLex_lt_toLex.mpr (Or.inr ⟨rfl, hlt⟩)
  · obtain ⟨a, -, rfl⟩ := List.mem_map.mp he
    obtain ⟨b, -, rfl⟩ := List.mem_map.mp hf
    exact Prod.Lex.toLex_lt_toLex.mpr (Or.inl hlt)

theorem nodup_edges (g : Digraph) : g.edges.Nodup := by
  refine g.pairwise_edges.imp fun {e f} hlt heq => ?_
  rw [heq] at hlt
  exact lt_irrefl _ hlt

/-- **The one-bits of the rows are the edges that are listed.** -/
theorem edgeCount_eq_length (g : Digraph) : g.edgeCount = g.edges.length := by
  have hrows : g.outbound.toList.map (·.count) =
      g.outbound.toList.zipIdx.map fun p => p.1.toList.length := by
    conv_lhs => rw [← List.zipIdx_map_fst 0 g.outbound.toList, List.map_map]
    exact List.map_congr_left fun p _ => p.1.count_eq_length_toList
  simp only [edges, List.length_flatMap, List.length_map, ← hrows]
  rfl

theorem Holds.edgeCount_eq (h : g.Holds n E) :
    g.edgeCount = {e : Nat × Nat | E e.1 e.2}.ncard := by
  rw [edgeCount_eq_length]
  exact length_eq_ncard g.nodup_edges fun _ => h.mem_edges

/-! ## Requests -/

/-- **What a request is answered**: the first node that is out of range, or whether the edge was
missing. -/
theorem Holds.addEdge_eq (h : g.Holds n E) [DecidableRel E] (a b : Nat) :
    g.addEdge a b =
      if n ≤ a then .error (.indexOutOfRange a n)
      else if n ≤ b then .error (.indexOutOfRange b n)
      else .ok (!decide (E a b), g.offerEdge (a, b)) := by
  split_ifs with ha hb
  · rw [addEdge, h.size_eq, checkIndex, if_neg (not_lt.mpr ha)]
    rfl
  · rw [addEdge, h.size_eq, checkIndex, if_pos (not_le.mp ha), checkIndex, if_neg (not_lt.mpr hb)]
    rfl
  · have ha := not_le.mp ha
    have hb := not_le.mp hb
    have hadds : (rowOf g.outbound a).adds b = !decide (E a b) := by
      rw [Bool.eq_iff_iff, h.outbound.adds_iff ha hb, Bool.not_eq_true', decide_eq_false_iff_not]
    rw [offerEdge_eq, h.size_eq, if_pos ⟨ha, hb⟩, ← hadds, addEdge, h.size_eq, checkIndex,
      if_pos ha, checkIndex, if_pos hb]
    rfl

theorem offerEdges_concat (g : Digraph) (edges : List (Nat × Nat)) (e : Nat × Nat) :
    g.offerEdges (edges ++ [e]) = (g.offerEdges edges).offerEdge e := by
  rw [offerEdges, List.foldl_append]
  rfl

/-- **A graph is the set of edges that it has accepted.** Whatever was requested, in whatever order
and how often:

* an edge is found, in the row of its source and in the row of its target, iff it was accepted, and
  neighbours of what is no node are refused;
* the accepted edges are listed once each, by source and then by target, and counted right;
* the next request is refused if one of its nodes is out of range, and otherwise it is answered with
  whether its edge is accepted for the first time;
* other requests make an equal graph iff they have the same edges accepted. -/
theorem edges_offerEdges_exact (n : Nat) (edges : List (Nat × Nat)) :
    let g := (Digraph.empty n).offerEdges edges
    let E := Accepted n edges
    (∀ a b, g.containsEdge a b = true ↔ E a b) ∧
    (∀ a, a < n →
      (∃ s, g.successors a = .ok s ∧ ∀ b, s.contains b = true ↔ E a b) ∧
      ∃ s, g.predecessors a = .ok s ∧ ∀ b, s.contains b = true ↔ E b a) ∧
    (∀ a, n ≤ a → g.successors a = .error (.indexOutOfRange a n) ∧
      g.predecessors a = .error (.indexOutOfRange a n)) ∧
    (g.edges.Pairwise (fun e f => toLex e < toLex f) ∧ ∀ a b, (a, b) ∈ g.edges ↔ E a b) ∧
    g.edgeCount = {e : Nat × Nat | E e.1 e.2}.ncard ∧
    (∀ a b, g.addEdge a b =
      if n ≤ a then .error (.indexOutOfRange a n)
      else if n ≤ b then .error (.indexOutOfRange b n)
      else .ok (!decide (E a b), (Digraph.empty n).offerEdges (edges ++ [(a, b)]))) ∧
    ∀ edges', (Digraph.empty n).offerEdges edges' = g ↔
      ∀ a b, Accepted n edges' a b ↔ E a b := by
  intro g E
  have h : g.Holds n E := holds_offerEdges n edges
  refine ⟨fun a b => h.containsEdge_iff, fun a ha => ⟨h.successors_eq ha, h.predecessors_eq ha⟩,
    fun a ha => ?_, ⟨g.pairwise_edges, fun a b => h.mem_edges⟩, h.edgeCount_eq, fun a b => ?_,
    fun edges' => ?_⟩
  · have hrefused := neighbours_of_size_le (g := g) (h.size_eq.symm ▸ ha)
    rwa [h.size_eq] at hrefused
  · rw [offerEdges_concat]
    exact h.addEdge_eq a b
  · have h' := holds_offerEdges n edges'
    constructor
    · intro heq a b
      rw [← h'.containsEdge_iff, heq, h.containsEdge_iff]
    · exact fun hsame => (h'.congr hsame).unique h

end Digraph

end Gazetteer
