import Gazetteer.Catalog.Basic

/-!
# Two catalogs as one

The places of `Concat` are those of its left side, and after them, from `boundary` on, those of
its right side. An item that stands on both sides is found on the left.
-/

namespace Gazetteer

/-- A catalog followed by another. -/
structure Concat (γ δ : Type) where
  /-- The catalog that comes first. -/
  left : γ
  /-- The catalog that follows. -/
  right : δ

namespace Concat

variable {γ δ α : Type} [Catalog γ α] [Catalog δ α]

/-- The first place of the right side. -/
def boundary (c : Concat γ δ) : Nat := Catalog.size c.left

instance : Catalog (Concat γ δ) α where
  size c := Catalog.size c.left + Catalog.size c.right
  get? c i :=
    if i < c.boundary then Catalog.get? c.left i else Catalog.get? c.right (i - c.boundary)
  indexOf? c x :=
    (Catalog.indexOf? c.left x).or ((Catalog.indexOf? c.right x).map (c.boundary + ·))

end Concat

end Gazetteer
