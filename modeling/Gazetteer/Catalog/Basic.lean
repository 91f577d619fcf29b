import Gazetteer.WordSet.Members

/-!
# Catalogs

A **catalog** lists its items at consecutive places from 0. Word sets and graphs speak of places
only; the catalog they belong to says which item stands at a place, and at which place an item
stands.

The law of a catalog is that `indexOf? c x` is the least place at which `x` stands. The instances
of this folder reach it in different ways: `Lexicon` by bisection, `Listing` by a scan, `Concat`
through its two sides.
-/

namespace Gazetteer

/-- A finite collection addressed by place. -/
class Catalog (γ : Type) (α : outParam Type) where
  /-- The number of items. -/
  size : γ → Nat
  /-- The item at a place. -/
  get? : γ → Nat → Option α
  /-- The place of an item. -/
  indexOf? : γ → α → Option Nat

namespace Catalog

variable {γ α : Type} [Catalog γ α]

/-- The catalog lists nothing. -/
def isEmpty (c : γ) : Bool := size c == 0

/-- The items, by place. -/
def items (c : γ) : List α := (List.range (size c)).filterMap (get? c)

/-- The items at the places in `s`, by place; places that the catalog does not have are skipped. -/
def collect (c : γ) (s : WordSet) : List α := s.toList.filterMap (get? c)

end Catalog

end Gazetteer
