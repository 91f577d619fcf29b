import Gazetteer.Proofs.Digraph.Distance
import Gazetteer.Proofs.Except
import Gazetteer.TwoSided

/-!
# Two sides in one graph

A node is named by its side, a place by a number. Every question about a two-sided graph goes from
nodes to places on the way in and from places to nodes on the way out, and the plain graph in
between knows nothing of sides. That nothing is lost on either way rests on two facts:

* `placeOf_eq_ok_iff_nodeAt`: nodes in range and places are in one-to-one correspondence;
* `split_mirrors`: a set of places in range, taken apart, has the same members and as many of them.

The rows and closures of a graph have only places in range (`Fits`), so its answers can be taken
apart without loss. Headline: `embedding_exact`, for every two catalogs and every run of requests.
-/

namespace Gazetteer

/-! ## Sets of places -/

namespace Represents

variable {n : Nat} {E : Nat → Nat → Prop} {rows : Array WordSet} {i : Nat}

theorem fits_rowOf (h : Represents n E rows) (hi : i < n) : (rowOf rows i).Fits n :=
  ⟨h.capacity_eq i hi, fun j hj => h.lt_right i j ((h.bit_iff i j).mp hj)⟩

theorem fits_reachedFrom (h : Represents n E rows) (hi : i < n) : (reachedFrom rows i).Fits n := by
  refine ⟨(capacity_reachedFrom rows i).trans h.size_eq, fun j hj => ?_⟩
  obtain ⟨k, -, hkj⟩ := Relation.TransGen.tail'_iff.mp ((h.bit_reachedFrom hi j).mp hj)
  exact h.lt_right k j hkj

end Represents

namespace Digraph

variable {g : Digraph} {n : Nat} {E : Nat → Nat → Prop} {p : Nat}

/-- **What a graph answers fits the graph**: a place in range has a row and a closure in both
directions. -/
theorem Holds.exists_fits (h : g.Holds n E) (hp : p < n) :
    (∃ s, g.successors p = .ok s ∧ s.Fits n) ∧ (∃ s, g.predecessors p = .ok s ∧ s.Fits n) ∧
    (∃ s, g.descendants p = .ok s ∧ s.Fits n) ∧ ∃ s, g.ancestors p = .ok s ∧ s.Fits n := by
  have hsize : p < g.size := h.size_eq ▸ hp
  have hcheck : checkIndex p g.size = .ok p := if_pos hsize
  refine ⟨⟨_, ?_, h.outbound.fits_rowOf hp⟩, ⟨_, ?_, h.inbound.fits_rowOf hp⟩,
    ⟨_, g.descendants_eq hsize, h.outbound.fits_reachedFrom hp⟩,
    ⟨_, g.ancestors_eq hsize, h.inbound.fits_reachedFrom hp⟩⟩
  · rw [successors, hcheck]
    rfl
  · rw [predecessors, hcheck]
    rfl

end Digraph

/-! ## Nodes -/

namespace Node

/-- The node names one of `m` items on the left or one of `n` on the right. -/
def InRange (m n : Nat) : Node → Prop
  | left i => i < m
  | right j => j < n

/-- The place of a node, if `m` items stand on the left. -/
def place (m : Nat) : Node → Nat
  | left i => i
  | right j => m + j

end Node

/-- **`s` has the members of `places`**: those below `m` on the left, the `n` places from `m` on
counted from 0 on the right, and no fewer in all. -/
structure SidedSet.Mirrors (s : SidedSet) (m n : Nat) (places : WordSet) : Prop where
  left_iff : ∀ i, s.left.contains i = true ↔ i < m ∧ places.contains i = true
  right_iff : ∀ j, s.right.contains j = true ↔ j < n ∧ places.contains (m + j) = true
  count_eq : s.count = places.count

namespace TwoSided

variable {γ δ α : Type} [Catalog γ α] [Catalog δ α] {t : TwoSided γ δ} {u v : Node} {p q : Nat}

/-! ## Nodes and places -/

theorem checkIndex_eq_error {i n : Nat} (h : n ≤ i) :
    checkIndex i n = .error (.indexOutOfRange i n) :=
  if_neg (not_lt.mpr h)

/-- **The place of a node**, and which nodes have one. -/
theorem placeOf_eq_ok_iff :
    t.placeOf u = .ok p ↔
      u.InRange (Catalog.size t.items.left) (Catalog.size t.items.right) ∧
        p = u.place (Catalog.size t.items.left) := by
  cases u with
  | left i =>
    rw [placeOf, checkIndex_eq_ok_iff, and_comm]
    rfl
  | right j =>
    rw [placeOf, bind_eq_ok_iff]
    simp only [checkIndex_eq_ok_iff]
    constructor
    · rintro ⟨_, ⟨rfl, hj⟩, hp⟩
      exact ⟨hj, (Except.ok.inj hp).symm⟩
    · rintro ⟨hj, rfl⟩
      exact ⟨j, ⟨rfl, hj⟩, rfl⟩

theorem nodeAt_eq_ok_iff :
    t.nodeAt p = .ok u ↔
      u.InRange (Catalog.size t.items.left) (Catalog.size t.items.right) ∧
        p = u.place (Catalog.size t.items.left) := by
  have hsize : Catalog.size t.items =
    Catalog.size t.items.left + Catalog.size t.items.right := rfl
  have hboundary : t.items.boundary = Catalog.size t.items.left := rfl
  rw [nodeAt, bind_eq_ok_iff]
  simp only [checkIndex_eq_ok_iff, hsize, hboundary]
  constructor
  · rintro ⟨_, ⟨rfl, hp⟩, hu⟩
    have hu := Except.ok.inj hu
    split at hu
    · rename_i hlt
      rw [← hu]
      exact ⟨hlt, rfl⟩
    · rename_i hge
      rw [← hu]
      simp only [Node.InRange, Node.place]
      omega
  · rintro ⟨hrange, rfl⟩
    cases u with
    | left i =>
      simp only [Node.InRange, Node.place] at hrange ⊢
      exact ⟨i, ⟨rfl, by omega⟩, congrArg Except.ok (if_pos hrange)⟩
    | right j =>
      simp only [Node.InRange, Node.place] at hrange ⊢
      refine ⟨_, ⟨rfl, by omega⟩, congrArg Except.ok ?_⟩
      rw [if_neg (by omega), Nat.add_sub_cancel_left]

/-- **Nodes and places correspond**: each is the other's only partner. -/
theorem placeOf_eq_ok_iff_nodeAt : t.placeOf u = .ok p ↔ t.nodeAt p = .ok u :=
  placeOf_eq_ok_iff.trans nodeAt_eq_ok_iff.symm

theorem placeOf_eq_of_items {t' : TwoSided γ δ} (h : t.items = t'.items) :
    t.placeOf = t'.placeOf := by
  funext u
  cases u <;> simp only [placeOf, h]

theorem placeOf_injective (hu : t.placeOf u = .ok p) (hv : t.placeOf v = .ok p) : u = v := by
  rw [placeOf_eq_ok_iff_nodeAt] at hu hv
  exact Except.ok.inj (hu.symm.trans hv)

theorem exists_placeOf_iff :
    (∃ p, t.placeOf u = .ok p) ↔
      u.InRange (Catalog.size t.items.left) (Catalog.size t.items.right) := by
  simp [placeOf_eq_ok_iff]

theorem placeOf_lt (h : t.placeOf u = .ok p) : p < Catalog.size t.items := by
  obtain ⟨i, hi, -⟩ := bind_eq_ok_iff.mp (placeOf_eq_ok_iff_nodeAt.mp h)
  exact (checkIndex_eq_ok_iff.mp hi).2

theorem exists_nodeAt_iff : (∃ u, t.nodeAt p = .ok u) ↔ p < Catalog.size t.items := by
  constructor
  · rintro ⟨u, hu⟩
    exact placeOf_lt (placeOf_eq_ok_iff_nodeAt.mpr hu)
  · intro hp
    rw [nodeAt, checkIndex, if_pos hp]
    exact ⟨_, rfl⟩

/-- The item of a node is the one that stands at its place. -/
theorem item?_eq_get? (h : t.nodeAt p = .ok u) : t.item? u = Catalog.get? t.items p := by
  obtain ⟨hrange, rfl⟩ := nodeAt_eq_ok_iff.mp h
  have hget : ∀ p, Catalog.get? t.items p =
      if p < Catalog.size t.items.left then Catalog.get? t.items.left p
      else Catalog.get? t.items.right (p - Catalog.size t.items.left) := fun _ => rfl
  rw [hget]
  cases u with
  | left i => exact (if_pos hrange).symm
  | right j =>
    have hge : ¬ Node.place (Catalog.size t.items.left) (.right j) < Catalog.size t.items.left := by
      simp [Node.place]
    rw [if_neg hge, Node.place, Nat.add_sub_cancel_left]
    rfl

/-! ## Taking a set apart -/

section Split

variable {m n : Nat} {places : WordSet}

theorem left_split (hm : Catalog.size t.items.left = m) (places : WordSet) :
    (t.split places).left = .ofList m (places.toList.filter (· < m)) := by
  simp [split, Concat.boundary, hm]

theorem right_split (hm : Catalog.size t.items.left = m) (hn : Catalog.size t.items.right = n)
    (places : WordSet) :
    (t.split places).right =
      .ofList n ((places.toList.filter fun i => !decide (i < m)).map (· - m)) := by
  simp [split, Concat.boundary, hm, hn, Function.comp_def]

theorem toList_left_split (hm : Catalog.size t.items.left = m) :
    (t.split places).left.toList = places.toList.filter (· < m) := by
  rw [left_split hm]
  refine WordSet.toList_ofList (places.pairwise_toList.filter _) fun i hi => ?_
  simpa using (List.mem_filter.mp hi).2

theorem toList_right_split (hm : Catalog.size t.items.left = m)
    (hn : Catalog.size t.items.right = n) (h : places.Fits (m + n)) :
    (t.split places).right.toList =
      (places.toList.filter fun i => !decide (i < m)).map (· - m) := by
  have hge : ∀ i ∈ places.toList.filter fun i => !decide (i < m), m ≤ i := by
    intro i hi
    simpa using (List.mem_filter.mp hi).2
  rw [right_split hm hn]
  refine WordSet.toList_ofList (List.pairwise_map.mpr ?_) (List.forall_mem_map.mpr fun i hi => ?_)
  · refine (places.pairwise_toList.filter _).imp_of_mem fun {i j} hi _ hij => ?_
    have := hge i hi
    omega
  · have hlt := h.lt_of_bit i (WordSet.mem_toList.mp (List.mem_of_mem_filter hi))
    have := hge i hi
    omega

/-- **A set of places in range loses nothing when it is taken apart.** -/
theorem split_mirrors (hm : Catalog.size t.items.left = m) (hn : Catalog.size t.items.right = n)
    (h : places.Fits (m + n)) : (t.split places).Mirrors m n places := by
  refine ⟨fun i => ?_, fun j => ?_, ?_⟩
  · rw [left_split hm, WordSet.contains_ofList, List.mem_filter, WordSet.mem_toList, h.contains_iff]
    simp only [decide_eq_true_eq]
    exact ⟨fun hi => ⟨hi.1, hi.2.1⟩, fun hi => ⟨hi.1, hi.2, hi.1⟩⟩
  · rw [right_split hm hn, WordSet.contains_ofList, List.mem_map, h.contains_iff]
    simp only [List.mem_filter, WordSet.mem_toList, Bool.not_eq_true', decide_eq_false_iff_not]
    refine and_congr_right fun _ => ⟨?_, fun hj => ⟨m + j, ⟨hj, by omega⟩, by omega⟩⟩
    rintro ⟨i, ⟨hi, hge⟩, rfl⟩
    rwa [Nat.add_sub_cancel' (not_lt.mp hge)]
  · calc (t.split places).count
        = (t.split places).left.toList.length + (t.split places).right.toList.length := by
          rw [SidedSet.count, WordSet.count_eq_length_toList, WordSet.count_eq_length_toList]
      _ = (places.toList.filter (· < m)).length +
            (places.toList.filter fun i => !decide (i < m)).length := by
          rw [toList_left_split hm, toList_right_split hm hn h, List.length_map]
      _ = places.toList.length := (List.length_eq_length_filter_add _).symm
      _ = places.count := places.count_eq_length_toList.symm

end Split

/-! ## Edges -/

/-- Asks for an edge; a refusal leaves the graph as it is. -/
def offerEdge (t : TwoSided γ δ) (edge : Node × Node) : TwoSided γ δ :=
  match t.addEdge edge.1 edge.2 with
  | .ok (_, t') => t'
  | .error _ => t

/-- Asks for edges, one after the other. -/
def offerEdges (t : TwoSided γ δ) (edges : List (Node × Node)) : TwoSided γ δ :=
  edges.foldl offerEdge t

/-- The places of an edge, if both of its nodes have one. -/
def places? (t : TwoSided γ δ) (edge : Node × Node) : Option (Nat × Nat) :=
  match t.placeOf edge.1, t.placeOf edge.2 with
  | .ok p, .ok q => some (p, q)
  | _, _ => none

theorem places?_eq_some_iff : t.places? (u, v) = some (p, q) ↔
    t.placeOf u = .ok p ∧ t.placeOf v = .ok q := by
  unfold places?
  cases t.placeOf u <;> cases t.placeOf v <;> simp

/-- A request is handed on with the places of its nodes. -/
theorem addEdge_eq (hu : t.placeOf u = .ok p) (hv : t.placeOf v = .ok q) :
    t.addEdge u v = (t.graph.addEdge p q).map fun answer =>
      (answer.1, { t with graph := answer.2 }) := by
  rw [addEdge, hu, hv]
  cases h : t.graph.addEdge p q <;> simp [bind, Except.bind, pure, Except.pure, Except.map, h]

/-- A request is refused iff one of its nodes has no place. -/
theorem exists_addEdge_iff (hsize : t.graph.size = Catalog.size t.items) :
    (∃ answer, t.addEdge u v = .ok answer) ↔
      (∃ p, t.placeOf u = .ok p) ∧ ∃ q, t.placeOf v = .ok q := by
  constructor
  · rintro ⟨answer, hadd⟩
    obtain ⟨p, hp, hadd⟩ := bind_eq_ok_iff.mp hadd
    obtain ⟨q, hq, -⟩ := bind_eq_ok_iff.mp hadd
    exact ⟨⟨p, hp⟩, ⟨q, hq⟩⟩
  · rintro ⟨⟨p, hp⟩, ⟨q, hq⟩⟩
    obtain ⟨added, hadd⟩ := Digraph.exists_addEdge_eq_ok (hsize.symm ▸ placeOf_lt hp)
      (hsize.symm ▸ placeOf_lt hq)
    rw [addEdge_eq hp hq, hadd]
    exact ⟨_, rfl⟩

/-- What a two-sided graph makes of a request is what the plain graph makes of it. -/
theorem offerEdge_eq (t : TwoSided γ δ) (edge : Node × Node) :
    t.offerEdge edge = { t with graph := t.graph.offerEdges (t.places? edge).toList } := by
  obtain ⟨u, v⟩ := edge
  unfold offerEdge places?
  cases hu : t.placeOf u with
  | error e => simp [addEdge, hu, bind, Except.bind, Digraph.offerEdges]
  | ok p =>
    cases hv : t.placeOf v with
    | error e => simp [addEdge, hu, hv, bind, Except.bind, Digraph.offerEdges]
    | ok q =>
      rw [addEdge_eq hu hv]
      show _ = { t with graph := t.graph.offerEdge (p, q) }
      unfold Digraph.offerEdge
      cases t.graph.addEdge p q <;> rfl

theorem offerEdges_eq (t : TwoSided γ δ) (edges : List (Node × Node)) :
    t.offerEdges edges = { t with graph := t.graph.offerEdges (edges.filterMap t.places?) } := by
  induction edges generalizing t with
  | nil => rfl
  | cons edge edges ih =>
    show (t.offerEdge edge).offerEdges edges = _
    have hplaces : (t.offerEdge edge).places? = t.places? := by
      rw [offerEdge_eq]
      rfl
    rw [ih, hplaces, offerEdge_eq, List.filterMap_cons]
    cases t.places? edge <;> rfl

/-- Some request is for an edge between the nodes at places `p` and `q`. -/
def Requested (t : TwoSided γ δ) (edges : List (Node × Node)) (p q : Nat) : Prop :=
  ∃ u v, (u, v) ∈ edges ∧ t.placeOf u = .ok p ∧ t.placeOf v = .ok q

/-- **The plain graph holds the edges that were asked for between nodes in range.** -/
theorem holds_offerEdges (left : γ) (right : δ) (edges : List (Node × Node)) :
    let t := (empty left right).offerEdges edges
    t.items = ⟨left, right⟩ ∧
      t.graph.Holds (Catalog.size left + Catalog.size right) (t.Requested edges) := by
  intro t
  have hrun := (empty left right).offerEdges_eq edges
  have hitems : t.items = ⟨left, right⟩ := congrArg TwoSided.items hrun
  have hgraph : t.graph = (Digraph.empty (Catalog.size left + Catalog.size right)).offerEdges
      (edges.filterMap (empty left right).places?) := congrArg TwoSided.graph hrun
  have hplace : t.placeOf = (empty left right).placeOf := placeOf_eq_of_items hitems
  refine ⟨hitems, hgraph ▸ (Digraph.holds_offerEdges _ _).congr fun p q => ?_⟩
  simp only [Digraph.Accepted, Requested, hplace, List.mem_filterMap, Prod.exists,
    places?_eq_some_iff]
  constructor
  · exact fun h => h.1
  · rintro ⟨u, v, hmem, hu, hv⟩
    exact ⟨⟨u, v, hmem, hu, hv⟩, placeOf_lt hu, placeOf_lt hv⟩

theorem containsEdge_iff {edges : List (Node × Node)} {k : Nat}
    (h : t.graph.Holds k (t.Requested edges)) :
    t.containsEdge u v = true ↔
      (u, v) ∈ edges ∧ (∃ p, t.placeOf u = .ok p) ∧ ∃ q, t.placeOf v = .ok q := by
  constructor
  · intro hedge
    unfold containsEdge at hedge
    split at hedge
    · rename_i p q hu hv
      obtain ⟨u', v', hmem, hu', hv'⟩ := h.containsEdge_iff.mp hedge
      rw [placeOf_injective hu hu', placeOf_injective hv hv']
      exact ⟨hmem, ⟨p, hu'⟩, ⟨q, hv'⟩⟩
    · exact absurd hedge (by simp)
  · rintro ⟨hmem, ⟨p, hu⟩, ⟨q, hv⟩⟩
    have hedge := h.containsEdge_iff.mpr ⟨u, v, hmem, hu, hv⟩
    simp only [containsEdge, hu, hv, hedge]

/-! ## Questions -/

/-- What is answered about a node is what is answered about its place. -/
def Mirrored (m n : Nat) (sided : Except Error SidedSet) (plain : Except Error WordSet) : Prop :=
  ∃ s places, sided = .ok s ∧ plain = .ok places ∧ s.Mirrors m n places

/-- A question about a node, asked of the plain graph. -/
def ask (t : TwoSided γ δ) (question : Nat → Except Error WordSet) (u : Node) :
    Except Error SidedSet := do
  return t.split (← question (← t.placeOf u))

theorem mirrored_ask {m n : Nat} {question : Nat → Except Error WordSet}
    (hm : Catalog.size t.items.left = m) (hn : Catalog.size t.items.right = n)
    (hu : t.placeOf u = .ok p) (h : ∃ s, question p = .ok s ∧ s.Fits (m + n)) :
    Mirrored m n (t.ask question u) (question p) := by
  obtain ⟨places, hplaces, hfits⟩ := h
  refine ⟨t.split places, places, ?_, hplaces, split_mirrors hm hn hfits⟩
  rw [ask, hu]
  show (do return t.split (← question p)) = _
  rw [hplaces]
  rfl

theorem ask_eq_error {question : Nat → Except Error WordSet} {e : Error}
    (hu : t.placeOf u = .error e) : t.ask question u = .error e := by
  rw [ask, hu]
  rfl

theorem distance_eq (hu : t.placeOf u = .ok p) (hv : t.placeOf v = .ok q) :
    t.distance u v = t.graph.distance p q := by
  rw [distance, hu, hv]
  rfl

/-- **Two catalogs in one graph, exactly.** Nodes in range and places correspond one to one, and a
node has the item of its place. A request is refused iff a node is out of range, and the graph has
the edges asked for between nodes in range. A question about a node is answered with the members of
the plain answer for its place, side by side and as many; a distance is that between the places. A
node out of range is refused by name, the first of two first. -/
theorem embedding_exact (left : γ) (right : δ) (edges : List (Node × Node)) :
    let t := (empty left right).offerEdges edges
    let m := Catalog.size left
    let n := Catalog.size right
    t.items = ⟨left, right⟩ ∧
    ((∀ u p, t.placeOf u = .ok p ↔ t.nodeAt p = .ok u) ∧
      (∀ u, (∃ p, t.placeOf u = .ok p) ↔ u.InRange m n) ∧
      (∀ p, (∃ u, t.nodeAt p = .ok u) ↔ p < m + n) ∧
      (∀ p u, t.nodeAt p = .ok u → t.item? u = Catalog.get? t.items p)) ∧
    ((∀ u v, (∃ answer, t.addEdge u v = .ok answer) ↔ u.InRange m n ∧ v.InRange m n) ∧
      (∀ u v, t.containsEdge u v = true ↔ (u, v) ∈ edges ∧ u.InRange m n ∧ v.InRange m n)) ∧
    (∀ u p, t.placeOf u = .ok p →
      Mirrored m n (t.successors u) (t.graph.successors p) ∧
      Mirrored m n (t.predecessors u) (t.graph.predecessors p) ∧
      Mirrored m n (t.descendants u) (t.graph.descendants p) ∧
      Mirrored m n (t.ancestors u) (t.graph.ancestors p) ∧
      (∀ v q, t.placeOf v = .ok q →
        ∃ answer, t.distance u v = .ok answer ∧ t.graph.distance p q = .ok answer) ∧
      ∀ v e, t.placeOf v = .error e → t.distance u v = .error e) ∧
    (∀ u e, t.placeOf u = .error e →
      t.successors u = .error e ∧ t.predecessors u = .error e ∧ t.descendants u = .error e ∧
      t.ancestors u = .error e ∧ ∀ v, t.distance u v = .error e) ∧
    (∀ i, m ≤ i → t.placeOf (.left i) = .error (.indexOutOfRange i m)) ∧
    ∀ j, n ≤ j → t.placeOf (.right j) = .error (.indexOutOfRange j n) := by
  intro t m n
  obtain ⟨hitems, hholds⟩ := holds_offerEdges left right edges
  have hm : Catalog.size t.items.left = m := by rw [hitems]
  have hn : Catalog.size t.items.right = n := by rw [hitems]
  have hsize : Catalog.size t.items = m + n := by rw [hitems]; rfl
  have hrange : ∀ u, (∃ p, t.placeOf u = .ok p) ↔ u.InRange m n := by
    intro u
    rw [exists_placeOf_iff, hm, hn]
  have hlt : ∀ {u p}, t.placeOf u = .ok p → p < t.graph.size := by
    intro u p hu
    rw [hholds.size_eq, ← hsize]
    exact placeOf_lt hu
  refine ⟨hitems, ⟨fun _ _ => placeOf_eq_ok_iff_nodeAt, hrange, fun p => ?_,
    fun _ _ => item?_eq_get?⟩, ⟨fun u v => ?_, fun u v => ?_⟩, fun u p hu => ?_, fun u e hu => ?_,
    fun i hi => ?_, fun j hj => ?_⟩
  · rw [exists_nodeAt_iff, hsize]
  · rw [exists_addEdge_iff (hholds.size_eq.trans hsize.symm), hrange, hrange]
  · rw [containsEdge_iff hholds, hrange, hrange]
  · have hp : p < m + n := hholds.size_eq ▸ hlt hu
    obtain ⟨hsucc, hpred, hdesc, hanc⟩ := hholds.exists_fits hp
    refine ⟨mirrored_ask hm hn hu hsucc, mirrored_ask hm hn hu hpred, mirrored_ask hm hn hu hdesc,
      mirrored_ask hm hn hu hanc, fun v q hv => ?_, fun v e hv => ?_⟩
    · have hdistance := t.graph.distance_eq (hlt hu) (hlt hv)
      exact ⟨_, (distance_eq hu hv).trans hdistance, hdistance⟩
    · rw [distance, hu, hv]
      rfl
  · refine ⟨ask_eq_error hu, ask_eq_error hu, ask_eq_error hu, ask_eq_error hu, fun v => ?_⟩
    rw [distance, hu]
    rfl
  · rw [placeOf, hm]
    exact checkIndex_eq_error hi
  · rw [placeOf, hn, checkIndex_eq_error hj]
    rfl

end TwoSided

end Gazetteer
