import Gazetteer.Bisect
import Gazetteer.Catalog.Basic
import Gazetteer.Runs

/-!
# Lexicons

A `Lexicon` lists names in strictly ascending order. Names are ordered by code point, which is the
order of their UTF-8 bytes.
-/

namespace Gazetteer

/-- Each name is below the next one. -/
def ascending : List String → Bool
  | a :: b :: rest => a < b && ascending (b :: rest)
  | _ => true

/-- Where `name` stands in an ascending column of `size` names: bisection finds the first name
that is not below it. -/
def searchName (size : Nat) (name? : Nat → Option String) (name : String) : Option Nat :=
  let place := bisect (fun i => (name? i).any (· < name)) 0 size
  if name? place = some name then some place else none

/-- Names in strictly ascending order. -/
structure Lexicon where
  /-- The names. -/
  names : Array String
deriving DecidableEq

namespace Lexicon

/-- The lexicon of the given names, each listed once. -/
def ofList (names : List String) : Lexicon :=
  ⟨(firstOfRuns id (names.mergeSort fun a b => a ≤ b)).toArray⟩

/-- The lexicon of names that are already in order, `none` if they are not. -/
def ofAscending? (names : List String) : Option Lexicon :=
  if ascending names then some ⟨names.toArray⟩ else none

instance : Catalog Lexicon String where
  size l := l.names.size
  get? l i := l.names[i]?
  indexOf? l name := searchName l.names.size (l.names[·]?) name

end Lexicon

end Gazetteer
