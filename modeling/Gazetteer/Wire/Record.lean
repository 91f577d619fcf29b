import Gazetteer.Wire.Sequence

/-!
# The record of a directory

A directory is written as a `Record` of columns: a version, the names, the ranks of their kinds,
the starts, the stops unless they are implied, and all duplicates in one list.
-/

namespace Gazetteer.Wire

/-- A number below 2 ^ 16. -/
abbrev Short := Fin 65536

/-- A duplicate declaration. -/
structure DuplicateRecord where
  /-- The name declared. -/
  name : String
  /-- The rank of the kind. -/
  rank : Short
  /-- The region. -/
  span : Span
deriving DecidableEq

/-- The columns of a directory. -/
structure Record where
  /-- The version of the format. -/
  version : Short
  /-- The names, ascending. -/
  names : List String
  /-- The rank of each kind. -/
  ranks : List Short
  /-- Where each region starts. -/
  starts : List Offset
  /-- Where each region stops, unless all of them are implied. -/
  stops : Option (List Offset)
  /-- The duplicates of all names. -/
  duplicates : List DuplicateRecord
deriving DecidableEq

/-! ## Writing -/

/-- The bytes of a bounded number. -/
def writeFin {bound : Nat} (n : Fin bound) : List UInt8 := writeNumber n.val

/-- The bytes of a duplicate. -/
def DuplicateRecord.write (d : DuplicateRecord) : List UInt8 :=
  writeText d.name ++ writeFin d.rank ++ writeFin d.span.start ++ writeFin d.span.stop

/-- The bytes of a record. -/
def Record.write (r : Record) : List UInt8 :=
  writeFin r.version ++ writeList writeText r.names ++ writeList writeFin r.ranks
    ++ writeList writeFin r.starts ++ writeOption (writeList writeFin) r.stops
    ++ writeList DuplicateRecord.write r.duplicates

/-! ## Reading -/

/-- Reads a number below 2 ^ 16. -/
def readShort : Reader Short := readBelow .bits16 65536

/-- Reads an offset. -/
def readOffset : Reader Offset := readBelow .bits32 4294967296

/-- Reads a duplicate. -/
def DuplicateRecord.read : Reader DuplicateRecord := do
  let name ← readText
  let rank ← readShort
  let start ← readOffset
  let stop ← readOffset
  return ⟨name, rank, ⟨start, stop⟩⟩

/-- Reads a record. -/
def Record.read : Reader Record := do
  let version ← readShort
  let names ← readList readText
  let ranks ← readList readShort
  let starts ← readList readOffset
  let stops ← readOption (readList readOffset)
  let duplicates ← readList DuplicateRecord.read
  return ⟨version, names, ranks, starts, stops, duplicates⟩

end Gazetteer.Wire
