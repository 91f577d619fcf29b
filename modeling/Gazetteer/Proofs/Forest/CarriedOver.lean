import Gazetteer.Proofs.Forest.Rebuilding

/-!
# Rows carried over from one forest to another

A forest that is made from another one holds something of some of its rows, in the same order. Its
parent links are worked out afresh, and yet they follow from the old ones as soon as what is left of
two rows nests exactly if the rows did (`CarriedOver`): the parent of what is left of a row is what
is left of the nearest row around it of which anything is left (`CarriedOver.parent?_place`).
-/

namespace Gazetteer.Forest

variable {κ : Type} {f g : Forest κ} {remains? : Nat → Option (Option κ × Span)} {place : Nat → Nat}
  {i j : Nat} {b c : Option κ × Span}

/-- **`g` holds what is left of the rows of `f`**: of row `i` the key and span `remains? i`, if
anything, at `place i`. -/
structure CarriedOver (remains? : Nat → Option (Option κ × Span)) (place : Nat → Nat)
    (f g : Forest κ) : Prop where
  before : f.WellFormed
  after : g.WellFormed
  /-- What is left of a row stands at its place. -/
  entry : ∀ {i c}, remains? i = some c → g.entries[place i]? = some c
  /-- Nothing else stands anywhere. -/
  origin : ∀ {k c}, g.entries[k]? = some c → ∃ i, remains? i = some c ∧ place i = k
  /-- The rows stay in order. -/
  lt_iff : ∀ {i j c}, remains? i = some c → (place i < place j ↔ i < j)
  /-- What is left of two rows nests iff the rows do. -/
  around_iff : ∀ {i j b c}, i < j → remains? i = some b → remains? j = some c →
    (b.2.Encloses c.2 ↔ Around f.span? i j)

namespace CarriedOver

variable (h : CarriedOver remains? place f g)

include h

theorem span?_place (hi : remains? i = some c) : g.span? (place i) = some c.2 := by
  have hentry := h.entry hi
  rw [entries_getElem?, Option.map_eq_some_iff] at hentry
  obtain ⟨r, hr, rfl⟩ := hentry
  exact span?_of_get? hr

theorem exists_place {k : Nat} {s : Span} (hk : g.span? k = some s) :
    ∃ i c, remains? i = some c ∧ place i = k := by
  obtain ⟨r, hr, -⟩ := span?_eq_some_iff.mp hk
  have hentry : g.entries[k]? = some (r.key, r.span) := by
    rw [entries_getElem?, hr]
    rfl
  obtain ⟨i, hi, hplace⟩ := h.origin hentry
  exact ⟨i, _, hi, hplace⟩

theorem around_place_iff (hij : i < j) (hi : remains? i = some b) (hj : remains? j = some c) :
    Around g.span? (place i) (place j) ↔ Around f.span? i j := by
  rw [← h.around_iff hij hi hj]
  simp [Around, h.span?_place hi, h.span?_place hj]

/-- What lies before and around what is left of a row is left of a row before and around it. -/
theorem exists_around {k : Nat} (hj : remains? j = some c) (hk : k < place j)
    (haround : Around g.span? k (place j)) :
    ∃ i b, remains? i = some b ∧ i < j ∧ Around f.span? i j ∧ place i = k := by
  have ⟨s, _, hs, _⟩ := haround
  obtain ⟨i, b, hi, rfl⟩ := h.exists_place hs
  have hij := (h.lt_iff hi).mp hk
  exact ⟨i, b, hi, hij, (h.around_place_iff hij hi hj).mp haround, rfl⟩

/-- **The parent of what is left of a row** is what is left of the nearest row around it of which
anything is left. -/
theorem parent?_place {t : Span} (ht : f.span? j = some t) (hj : remains? j = some c) :
    g.parent? (place j) =
      ((lineage f.parent? j).tail.find? fun i => (remains? i).isSome).map place := by
  cases hfind : (lineage f.parent? j).tail.find? fun i => (remains? i).isSome with
  | none =>
    rw [Option.map_none, h.after.parent_eq_none_iff]
    intro k hk haround
    obtain ⟨i, b, hi, hij, hia, -⟩ := h.exists_around hj hk haround
    have hmem : i ∈ (lineage f.parent? j).tail := by
      rw [h.before.tail_lineage_eq_scan ht]
      simp [hij, hia]
    have hnone := List.find?_eq_none.mp hfind i hmem
    rw [hi] at hnone
    exact hnone rfl
  | some a =>
    obtain ⟨⟨haj, haa, hsome⟩, hmax⟩ := (h.before.find?_tail_lineage_eq_some_iff ht a).mp hfind
    obtain ⟨b, hb⟩ := Option.isSome_iff_exists.mp hsome
    rw [Option.map_some, h.after.parent_iff]
    refine ⟨⟨(h.lt_iff hb).mpr haj, (h.around_place_iff haj hb hj).mpr haa⟩, ?_⟩
    rintro k ⟨hk, haround⟩
    obtain ⟨i, d, hi, hij, hia, rfl⟩ := h.exists_around hj hk haround
    have hle : i ≤ a := hmax ⟨hij, hia, Option.isSome_iff_exists.mpr ⟨d, hi⟩⟩
    rcases hle.eq_or_lt with rfl | hlt
    · exact le_refl _
    · exact ((h.lt_iff hi).mpr hlt).le

/-- What is left of a row, as a row. -/
theorem get?_place {t : Span} (ht : f.span? j = some t) (hj : remains? j = some c) :
    g.get? (place j) = some ⟨c.2, c.1,
      ((lineage f.parent? j).tail.find? fun i => (remains? i).isSome).map place⟩ := by
  have hentry := h.entry hj
  rw [entries_getElem?, Option.map_eq_some_iff] at hentry
  obtain ⟨r, hr, rfl⟩ := hentry
  rw [← h.parent?_place ht hj, parent?, hr]
  rfl

end CarriedOver

end Gazetteer.Forest
