import Gazetteer.Digraph.Reach
import Gazetteer.Directory.Draft
import Gazetteer.Forest.Draft

/-!
# Cross references

A `CrossReference` says where the names of a directory are used. Every **site**, an occurrence of
a name in the text, is either resolved, and then leads to the ordinal of a declared name, or
unresolved. A resolved site that lies in the body of a declaration is an edge from that declaration
to the one it names.

All ordinals and nodes are those of the one directory that the cross reference was made for.
-/

namespace Gazetteer

/-- A use of a name that is not declared. -/
structure Unresolved (κ : Type) where
  /-- The name used. -/
  name : String
  /-- The kind that the place of use calls for, if it is known. -/
  expected : Option κ
  /-- The place among the unresolved uses. -/
  ordinal : Nat
  /-- The declaration in whose body the use stands. -/
  container : Option Nat
deriving DecidableEq

/-- The uses of the names of a directory. -/
structure CrossReference (κ : Type) where
  /-- The declared names. -/
  names : Directory κ
  /-- The resolved sites, keyed by the ordinal they lead to. -/
  sites : Forest Nat
  /-- The resolved sites for each ordinal. -/
  byTarget : Array (List Nat)
  /-- The unresolved sites. -/
  unresolved : Forest (Unresolved κ)
  /-- The edges from declarations to the names that their bodies use. -/
  graph : Digraph

end Gazetteer
