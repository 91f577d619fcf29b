import Gazetteer.Catalog.Basic

/-!
# Listings

A `Listing` holds items in any order and with repetitions; an item's place is its first one.
-/

namespace Gazetteer

/-- Items in the order given. -/
structure Listing (α : Type) where
  /-- The items. -/
  items : Array α
deriving DecidableEq

instance {α : Type} [DecidableEq α] : Catalog (Listing α) α where
  size l := l.items.size
  get? l i := l.items[i]?
  indexOf? l x := l.items.findIdx? (· = x)

end Gazetteer
