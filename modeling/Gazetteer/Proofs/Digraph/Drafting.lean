import Gazetteer.Digraph.Basic
import Gazetteer.Proofs.WordSet.Members
import Mathlib.Logic.Relation

/-!
# The edges of a graph

A graph is made by asking for edges, one after the other. A request is accepted iff both nodes are
in range; nothing else matters, so the edges of the graph can be read off the requests
(`Accepted`). Both tables of the graph hold exactly these edges, the second one from target to
source (`holds_offerEdges`).
-/

namespace Gazetteer

/-- **`rows` is a table of the edges `E`** over `n` nodes. -/
structure Represents (n : Nat) (E : Nat → Nat → Prop) (rows : Array WordSet) : Prop where
  size_eq : rows.size = n
  capacity_eq : ∀ i, i < n → (rowOf rows i).capacity = n
  bit_iff : ∀ i j, (rowOf rows i).bit j = true ↔ E i j
  lt_right : ∀ i j, E i j → j < n

namespace Represents

variable {n : Nat} {E : Nat → Nat → Prop} {rows : Array WordSet}

theorem congr {F : Nat → Nat → Prop} (h : Represents n E rows) (hEF : ∀ i j, E i j ↔ F i j) :
    Represents n F rows := by
  have heq : E = F := funext fun i => funext fun j => propext (hEF i j)
  exact heq ▸ h

theorem contains_iff (h : Represents n E rows) {i : Nat} (hi : i < n) (j : Nat) :
    (rowOf rows i).contains j = true ↔ E i j := by
  rw [WordSet.contains, Bool.and_eq_true, h.bit_iff, h.capacity_eq i hi, decide_eq_true_eq,
    and_iff_right_iff_imp]
  exact h.lt_right i j

theorem getElem_eq_rowOf {i : Nat} (hi : i < rows.size) : rows[i] = rowOf rows i := by
  rw [rowOf, Array.getElem?_eq_getElem hi, Option.getD_some]

theorem rowOf_modify {a : Nat} (ha : a < rows.size) (f : WordSet → WordSet) (i : Nat) :
    rowOf (rows.modify a f) i = if i = a then f (rowOf rows a) else rowOf rows i := by
  unfold rowOf
  rw [Array.getElem?_modify]
  by_cases hi : i = a
  · subst hi
    simp [ha]
  · simp [hi, Ne.symm hi]

/-- **One edge more**: a bit set in the row of its first node. -/
theorem insert (h : Represents n E rows) {a b : Nat} (ha : a < n) (hb : b < n) :
    Represents n (fun i j => E i j ∨ (i = a ∧ j = b)) (rows.modify a (·.insert b)) := by
  have hrow := rowOf_modify (h.size_eq.symm ▸ ha) (·.insert b)
  refine ⟨by rw [Array.size_modify, h.size_eq], fun i hi => ?_, fun i j => ?_, ?_⟩
  · rw [hrow]
    split
    · rw [WordSet.capacity_insert, h.capacity_eq a ha]
    · exact h.capacity_eq i hi
  · rw [hrow]
    split
    · rename_i hi
      rw [WordSet.bit_insert, h.capacity_eq a ha, Bool.or_eq_true, h.bit_iff, hi]
      simp [hb, eq_comm]
    · rename_i hi
      rw [h.bit_iff]
      simp [hi]
  · rintro i j (hij | ⟨-, rfl⟩)
    · exact h.lt_right i j hij
    · exact hb

/-- Without edges. -/
theorem empty (n : Nat) :
    Represents n (fun _ _ => False) (Array.replicate n (WordSet.empty n)) := by
  refine ⟨Array.size_replicate, fun i hi => ?_, fun i j => ?_, fun _ _ => False.elim⟩
  · simp [rowOf, hi]
  · by_cases hi : i < n <;> simp [rowOf, hi]

end Represents

namespace Digraph

/-- Asks for an edge; a refusal leaves the graph as it is. -/
def offerEdge (g : Digraph) (edge : Nat × Nat) : Digraph :=
  match g.addEdge edge.1 edge.2 with
  | .ok (_, g') => g'
  | .error _ => g

/-- Asks for edges, one after the other. -/
def offerEdges (g : Digraph) (edges : List (Nat × Nat)) : Digraph := edges.foldl offerEdge g

/-- The edge from `a` to `b` was asked for, and both are nodes of a graph of `n` nodes. -/
def Accepted (n : Nat) (edges : List (Nat × Nat)) (a b : Nat) : Prop :=
  (a, b) ∈ edges ∧ a < n ∧ b < n

/-- **The edges of `g` are `E`**, in both tables. -/
structure Holds (g : Digraph) (n : Nat) (E : Nat → Nat → Prop) : Prop where
  outbound : Represents n E g.outbound
  inbound : Represents n (fun b a => E a b) g.inbound

variable {g : Digraph} {n : Nat} {E : Nat → Nat → Prop}

theorem Holds.size_eq (h : g.Holds n E) : g.size = n := h.outbound.size_eq

/-- What a graph makes of a request. -/
theorem offerEdge_eq (g : Digraph) (a b : Nat) :
    g.offerEdge (a, b) =
      if a < g.size ∧ b < g.size then
        ⟨g.outbound.modify a (·.insert b), g.inbound.modify b (·.insert a)⟩
      else g := by
  unfold offerEdge addEdge checkIndex
  by_cases ha : a < g.size <;> by_cases hb : b < g.size <;>
    simp [ha, hb, bind, Except.bind, pure, Except.pure]

/-- Both nodes in range are all that a request needs. -/
theorem exists_addEdge_eq_ok {a b : Nat} (ha : a < g.size) (hb : b < g.size) :
    ∃ added, g.addEdge a b = .ok (added, g.offerEdge (a, b)) := by
  refine ⟨(rowOf g.outbound a).adds b, ?_⟩
  rw [offerEdge_eq, if_pos ⟨ha, hb⟩]
  unfold addEdge checkIndex
  rw [if_pos ha, if_pos hb]
  rfl

theorem Holds.congr {F : Nat → Nat → Prop} (h : g.Holds n E) (hEF : ∀ i j, E i j ↔ F i j) :
    g.Holds n F :=
  ⟨h.outbound.congr hEF, h.inbound.congr fun j i => hEF i j⟩

theorem Holds.containsEdge_iff (h : g.Holds n E) {a b : Nat} :
    g.containsEdge a b = true ↔ E a b := by
  by_cases ha : a < n
  · rw [← h.outbound.contains_iff ha, containsEdge, rowOf,
      Array.getElem?_eq_getElem (h.outbound.size_eq.symm ▸ ha)]
    rfl
  · have hnone : g.outbound[a]? = none :=
      Array.getElem?_eq_none (h.outbound.size_eq.symm ▸ not_lt.mp ha)
    rw [← h.outbound.bit_iff, containsEdge, rowOf, hnone]
    simp

/-- **One request**: the edge is added to both tables, or to none. -/
theorem Holds.offerEdge (h : g.Holds n E) (edge : Nat × Nat) :
    (g.offerEdge edge).Holds n fun i j => E i j ∨ Accepted n [edge] i j := by
  obtain ⟨a, b⟩ := edge
  rw [offerEdge_eq, h.size_eq]
  split
  · rename_i hab
    have hnew : ∀ i j, i = a ∧ j = b ↔ Accepted n [(a, b)] i j := by
      intro i j
      simp only [Accepted, List.mem_singleton, Prod.mk.injEq]
      exact ⟨fun e => ⟨e, e.1 ▸ hab.1, e.2 ▸ hab.2⟩, fun e => e.1⟩
    exact ⟨(h.outbound.insert hab.1 hab.2).congr fun i j => or_congr_right (hnew i j),
      (h.inbound.insert hab.2 hab.1).congr fun j i => or_congr_right (and_comm.trans (hnew i j))⟩
  · rename_i hab
    refine h.congr fun i j => (or_iff_left ?_).symm
    rintro ⟨hmem, hi, hj⟩
    obtain ⟨rfl, rfl⟩ := Prod.mk.inj (List.mem_singleton.mp hmem)
    exact hab ⟨hi, hj⟩

theorem Holds.offerEdges (h : g.Holds n E) (edges : List (Nat × Nat)) :
    (g.offerEdges edges).Holds n fun i j => E i j ∨ Accepted n edges i j := by
  induction edges generalizing g E with
  | nil => exact h.congr fun i j => by simp [Accepted]
  | cons edge edges ih =>
    refine (ih (h.offerEdge edge)).congr fun i j => ?_
    simp only [Accepted, List.mem_cons, List.mem_nil_iff, or_false]
    tauto

/-- **A graph holds the edges that it accepted**, whatever it refused on the way. -/
theorem holds_offerEdges (n : Nat) (edges : List (Nat × Nat)) :
    ((Digraph.empty n).offerEdges edges).Holds n (Accepted n edges) := by
  have hempty : (Digraph.empty n).Holds n fun _ _ => False :=
    ⟨Represents.empty n, Represents.empty n⟩
  exact (hempty.offerEdges edges).congr fun i j => by simp

end Digraph

end Gazetteer
