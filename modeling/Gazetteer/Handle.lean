/-!
# Handles

Two regions are the same region only if they belong to the same table: equal indices in two tables
say nothing. A `Handle` names the table along with the index.
-/

namespace Gazetteer

/-- A region of the table called `owner`. -/
structure Handle where
  /-- The table. -/
  owner : String
  /-- The index of the region in it. -/
  index : Nat
deriving DecidableEq

end Gazetteer
