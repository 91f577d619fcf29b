import Gazetteer.Proofs.Digraph.Drafting

/-!
# Roots and leaves

Whether a node is a root is not read off the edges to it. They are counted, the node itself is
subtracted if it is among them, and the rest has to be nothing. This is right because the one-bits
of a row are its neighbours, and because the node is subtracted iff it was counted
(`Represents.count_eq_others_add`): in rows of any width, and for an edge from a node to itself as
well. So the subtraction never falls short.

Headline: `levels_offerEdges_exact`, for every run of requests.
-/

namespace Gazetteer

namespace Represents

variable {n : Nat} {E : Nat → Nat → Prop} {rows : Array WordSet} {i : Nat}

/-! ## Counting neighbours -/

theorem finite (h : Represents n E rows) (i : Nat) : {j | E i j}.Finite :=
  (Set.finite_lt_nat n).subset fun j hj => h.lt_right i j hj

/-- **What is counted in a row**: the neighbours of its node apart from itself, and the node if it
is one of them. -/
theorem count_eq_others_add (h : Represents n E rows) (hi : i < n) :
    (rowOf rows i).count =
      {j | E i j ∧ j ≠ i}.ncard + if (rowOf rows i).contains i then 1 else 0 := by
  have hcount : (rowOf rows i).count = {j | E i j}.ncard := WordSet.count_eq_ncard (h.bit_iff i)
  have hothers : {j | E i j ∧ j ≠ i} = {j | E i j} \ {i} := rfl
  rw [hcount, hothers]
  by_cases hself : i ∈ {j | E i j}
  · rw [if_pos ((h.contains_iff hi i).mpr hself)]
    exact (Set.ncard_sdiff_singleton_add_one hself (h.finite i)).symm
  · rw [if_neg fun hc => hself ((h.contains_iff hi i).mp hc), Set.sdiff_singleton_eq_self hself]
    rfl

/-- Nothing is left iff the node has no neighbour but itself. -/
theorem others_eq_zero_iff (h : Represents n E rows) (hi : i < n) :
    (rowOf rows i).count - (if (rowOf rows i).contains i then 1 else 0) = 0 ↔
      ∀ j, E i j → j = i := by
  have hfinite : {j | E i j ∧ j ≠ i}.Finite := (h.finite i).subset fun j hj => hj.1
  rw [h.count_eq_others_add hi, Nat.add_sub_cancel, Set.ncard_eq_zero hfinite,
    Set.eq_empty_iff_forall_notMem]
  simp only [Set.mem_ofPred_eq, not_and, not_not]

/-! ## Nodes without other neighbours -/

theorem getElem?_eq (h : Represents n E rows) (hi : i < n) :
    rows[i]? = some (rowOf rows i) := by
  have hlt : i < rows.size := h.size_eq ▸ hi
  rw [Array.getElem?_eq_getElem hlt, getElem_eq_rowOf hlt]

theorem fits_lonely (h : Represents n E rows) : (Digraph.lonely rows).Fits n := by
  have hcapacity : (Digraph.lonely rows).capacity = n :=
    (WordSet.capacity_ofList rows.size _).trans h.size_eq
  refine ⟨hcapacity, fun i hi => ?_⟩
  rw [← h.size_eq]
  exact (WordSet.bit_ofList.mp hi).1

theorem bit_lonely (h : Represents n E rows) (i : Nat) :
    (Digraph.lonely rows).bit i = true ↔ i < n ∧ ∀ j, E i j → j = i := by
  rw [Digraph.lonely, WordSet.bit_ofList, h.size_eq]
  refine and_congr_right fun hi => ?_
  rw [← h.others_eq_zero_iff hi]
  simp only [List.mem_map, List.mem_filter, decide_eq_true_eq, Prod.exists, exists_eq_right,
    List.mem_zipIdx_iff_getElem?, Array.getElem?_toList, h.getElem?_eq hi, Option.some.injEq]
  constructor
  · rintro ⟨row, rfl, hzero⟩
    exact hzero
  · exact fun hzero => ⟨_, rfl, hzero⟩

theorem contains_lonely (h : Represents n E rows) (i : Nat) :
    (Digraph.lonely rows).contains i = true ↔ i < n ∧ ∀ j, E i j → j = i := by
  rw [h.fits_lonely.contains_iff, h.bit_lonely]

theorem mem_toList_lonely (h : Represents n E rows) (i : Nat) :
    i ∈ (Digraph.lonely rows).toList ↔ i < n ∧ ∀ j, E i j → j = i := by
  rw [WordSet.mem_toList, h.bit_lonely]

end Represents

namespace Digraph

/-- **Roots and leaves.** Whatever was requested of a graph:

* its roots are the nodes to which no edge leads but from themselves, and its leaves are those from
  which no edge leads but to themselves;
* what is subtracted from the count of a row was counted in it, and what is left is the number of
  the other nodes with an edge to the node, or from it. -/
theorem levels_offerEdges_exact (n : Nat) (edges : List (Nat × Nat)) :
    let g := (Digraph.empty n).offerEdges edges
    let E := Accepted n edges
    (∀ v, (g.roots.contains v = true ↔ v < n ∧ ∀ u, E u v → u = v) ∧
      (v ∈ g.roots.toList ↔ v < n ∧ ∀ u, E u v → u = v)) ∧
    (∀ v, (g.leaves.contains v = true ↔ v < n ∧ ∀ u, E v u → u = v) ∧
      (v ∈ g.leaves.toList ↔ v < n ∧ ∀ u, E v u → u = v)) ∧
    ∀ v, v < n →
      ((rowOf g.inbound v).count =
        {u | E u v ∧ u ≠ v}.ncard + if (rowOf g.inbound v).contains v then 1 else 0) ∧
      (rowOf g.outbound v).count =
        {u | E v u ∧ u ≠ v}.ncard + if (rowOf g.outbound v).contains v then 1 else 0 := by
  intro g E
  have h : g.Holds n E := holds_offerEdges n edges
  exact ⟨fun v => ⟨h.inbound.contains_lonely v, h.inbound.mem_toList_lonely v⟩,
    fun v => ⟨h.outbound.contains_lonely v, h.outbound.mem_toList_lonely v⟩,
    fun v hv => ⟨h.inbound.count_eq_others_add hv, h.outbound.count_eq_others_add hv⟩⟩

end Digraph

end Gazetteer
