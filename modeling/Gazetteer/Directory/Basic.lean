import Gazetteer.Catalog.Lexicon
import Gazetteer.Error
import Gazetteer.Kind
import Gazetteer.Register

/-!
# Directories of names

A `Directory` lists the declared names of a text in ascending order, each with the kind and the
region of its **primary** declaration. The place of a name in the list is its ordinal. The other
declarations of a name are its **duplicates**; they are kept aside, by name, in the order in which
they were set aside.

Often every region is exactly the text of its name. Then the directory stores no ends: the end of a
region is its start plus the length of the name (`impliedStop?`). If a single region is different,
all ends are stored.
-/

namespace Gazetteer

/-- One declaration of a name. -/
structure Declaration (κ : Type) where
  /-- What is declared. -/
  kind : κ
  /-- The text of the declaration. -/
  span : Span
deriving DecidableEq

/-- What a directory stores for each name, ends apart. -/
structure Heading (κ : Type) where
  /-- The name. -/
  name : String
  /-- The kind of its primary declaration. -/
  kind : κ
  /-- Where its region starts. -/
  start : Offset
deriving DecidableEq

/-- A name with its region, as a directory answers it. -/
structure Entry (κ : Type) where
  /-- The place of the name in the directory. -/
  ordinal : Nat
  /-- The name. -/
  name : String
  /-- The kind of its primary declaration. -/
  kind : κ
  /-- Its region. -/
  span : Span
deriving DecidableEq

/-- A table of declared names. -/
structure Directory (κ : Type) where
  /-- The names in ascending order, with kind and start. -/
  headings : Array (Heading κ)
  /-- The end of each region, unless all are implied by the names. -/
  stops : Option (Array Offset)
  /-- The declarations set aside for each name. -/
  duplicates : Register (List (Declaration κ))
deriving DecidableEq

/-- Where a region ends that starts at `start` and is exactly the text of `name`; `none` if the
name is empty or the end is out of range. -/
def impliedStop? (name : String) (start : Offset) : Option Offset :=
  if name.utf8ByteSize = 0 then none else Offset.ofNat? (start.val + name.utf8ByteSize)

namespace Entry

variable {κ : Type}

/-- Kind and region without the name. -/
def declaration (e : Entry κ) : Declaration κ := ⟨e.kind, e.span⟩

/-- The text `name:kind@start..stop`. -/
def render [Ranked κ] (e : Entry κ) : String :=
  e.name ++ ":" ++ Ranked.name e.kind ++ "@" ++ e.span.render

end Entry

namespace Directory

variable {κ : Type}

/-- The directory of primary declarations given in ascending order of their names. Ends are stored
if one of them is not implied. -/
def ofPrimaries (primaries : List (String × Declaration κ))
    (duplicates : Register (List (Declaration κ))) : Directory κ :=
  let implied := primaries.all fun (name, d) => impliedStop? name d.span.start = some d.span.stop
  { headings := (primaries.map fun (name, d) => ⟨name, d.kind, d.span.start⟩).toArray
    stops := if implied then none else some (primaries.map fun (_, d) => d.span.stop).toArray
    duplicates }

/-- The number of names. -/
def size (d : Directory κ) : Nat := d.headings.size

/-- Nothing is declared. -/
def isEmpty (d : Directory κ) : Bool := d.size == 0

/-- The ends of the regions are stored. -/
def hasStops (d : Directory κ) : Bool := d.stops.isSome

/-- The name at an ordinal. -/
def name? (d : Directory κ) (i : Nat) : Option String := d.headings[i]?.map (·.name)

/-- Where the region at an ordinal ends. -/
def stop? (d : Directory κ) (i : Nat) : Option Offset :=
  match d.stops with
  | some stops => stops[i]?
  | none => d.headings[i]?.bind fun h => impliedStop? h.name h.start

/-- The entry at an ordinal. -/
def entry? (d : Directory κ) (i : Nat) : Option (Entry κ) :=
  d.headings[i]?.bind fun h => (d.stop? i).map fun stop => ⟨i, h.name, h.kind, ⟨h.start, stop⟩⟩

/-- The entry at an ordinal, or the refusal of one that is out of range. -/
def entry (d : Directory κ) (i : Nat) : Except Error (Entry κ) :=
  match d.entry? i with
  | some e => .ok e
  | none => .error (.indexOutOfRange i d.size)

/-- All entries, by name. -/
def entries (d : Directory κ) : List (Entry κ) := (List.range d.size).filterMap d.entry?

/-- All names, ascending. -/
def names (d : Directory κ) : List String := d.headings.toList.map (·.name)

/-- The ordinal of a name. -/
def indexOf? (d : Directory κ) (name : String) : Option Nat := searchName d.size d.name? name

/-- The name is declared. -/
def contains (d : Directory κ) (name : String) : Bool := (d.indexOf? name).isSome

/-- The entry of a name. -/
def find? (d : Directory κ) (name : String) : Option (Entry κ) := (d.indexOf? name).bind d.entry?

/-- The entries of one kind, by name. -/
def ofKind [DecidableEq κ] (d : Directory κ) (kind : κ) : List (Entry κ) :=
  d.entries.filter (·.kind = kind)

/-- The declarations set aside for a name. -/
def duplicatesOf (d : Directory κ) (name : String) : List (Declaration κ) :=
  (d.duplicates.find? name).getD []

/-- Some name has duplicates. -/
def hasDuplicates (d : Directory κ) : Bool := !d.duplicates.isEmpty

/-- The directories agree in all but the order of the names that have duplicates. -/
def agrees [DecidableEq κ] (a b : Directory κ) : Bool :=
  a.headings = b.headings && a.stops = b.stops && a.duplicates.sameContents b.duplicates

instance : Catalog (Directory κ) String where
  size := size
  get? := name?
  indexOf? := indexOf?

end Directory

end Gazetteer
