/-!
# Registers

A `Register` holds a value for each of some names, in the order in which the names first came.
`alter` is the one way to change it: it changes the value of a name where the name stands, and puts
a new name last.

* `find?_alter`: reading after a change.
* `sameContents` compares two registers without regard to the order of their names.
-/

namespace Gazetteer

/-- Values by name, in order of first use. -/
structure Register (β : Type) where
  /-- The names with their values. -/
  rows : List (String × β)
deriving DecidableEq

namespace Register

variable {β : Type}

/-- The register without names. -/
def empty : Register β := ⟨[]⟩

/-- The number of names. -/
def size (r : Register β) : Nat := r.rows.length

/-- No name is registered. -/
def isEmpty (r : Register β) : Bool := r.rows.isEmpty

/-- The value of the first row for `name`. -/
def lookup (name : String) : List (String × β) → Option β
  | [] => none
  | (n, b) :: rest => if n = name then some b else lookup name rest

/-- Changes the first row for `name`, or puts a row for it last. -/
def amend (name : String) (f : Option β → β) : List (String × β) → List (String × β)
  | [] => [(name, f none)]
  | (n, b) :: rest => if n = name then (n, f (some b)) :: rest else (n, b) :: amend name f rest

/-- The value of `name`. -/
def find? (r : Register β) (name : String) : Option β := lookup name r.rows

/-- `name` is registered. -/
def contains (r : Register β) (name : String) : Bool := (r.find? name).isSome

/-- Gives `name` the value that `f` makes of its old one. -/
def alter (r : Register β) (name : String) (f : Option β → β) : Register β :=
  ⟨amend name f r.rows⟩

/-- Gives `name` the value `b`. -/
def insert (r : Register β) (name : String) (b : β) : Register β := r.alter name fun _ => b

/-- Puts `b` last in the list of `name`. -/
def push (r : Register (List β)) (name : String) (b : β) : Register (List β) :=
  r.alter name fun old => old.getD [] ++ [b]

/-- The names for which `keep` holds. -/
def filterNames (r : Register β) (keep : String → Bool) : Register β :=
  ⟨r.rows.filter fun (n, _) => keep n⟩

/-- Both registers give the same value to the same names. -/
def sameContents [DecidableEq β] (a b : Register β) : Bool :=
  a.size == b.size && a.rows.all fun (n, v) => b.find? n = some v

/-- **Reading after a change.** -/
theorem find?_alter (r : Register β) (name q : String) (f : Option β → β) :
    (r.alter name f).find? q = if q = name then some (f (r.find? name)) else r.find? q := by
  obtain ⟨rows⟩ := r
  simp only [find?, alter]
  induction rows with
  | nil => grind [amend, lookup]
  | cons row rest ih => grind [amend, lookup]

end Register

end Gazetteer
