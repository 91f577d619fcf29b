import Gazetteer.Directory.Draft
import Gazetteer.Wire.Record

/-!
# Directories as bytes

`toBytes` writes a directory as a `Wire.Record`, `ofBytes` reads one back and checks it. A record
may come from anywhere, so reading trusts nothing: the columns must be equally long, the names
ascending, the ranks known and the regions proper. Whatever follows the record is ignored.

Duplicates are written as one list, name by name; reading gathers them by name again.
-/

namespace Gazetteer.Directory

open Wire

/-- The version of the format. -/
def formatVersion : Short := ⟨1, by decide⟩

variable {κ : Type}

/-! ## Checks -/

/-- All columns are as long as the list of names. -/
def columnsAgree (r : Record) : Bool :=
  r.ranks.length == r.names.length && r.starts.length == r.names.length &&
    r.stops.all fun stops => stops.length == r.names.length

/-- The first ordinal whose region covers nothing or cannot be worked out. -/
def emptyRegion? (d : Directory κ) : Option Nat :=
  (List.range d.size).find? fun i => !(d.entry? i).any (·.span.Proper)

/-- Declarations gathered by name. -/
def gather (decls : List (String × Declaration κ)) : Register (List (Declaration κ)) :=
  decls.foldl (fun r (name, x) => r.push name x) .empty

variable [Ranked κ]

/-! ## Writing -/

/-- The columns of a directory. -/
def toRecord (d : Directory κ) : Record :=
  { version := formatVersion
    names := d.names
    ranks := d.headings.toList.map fun h => Ranked.rank h.kind
    starts := d.headings.toList.map (·.start)
    stops := d.stops.map (·.toList)
    duplicates := d.duplicates.rows.flatMap fun (name, decls) =>
      decls.map fun x => ⟨name, Ranked.rank x.kind, x.span⟩ }

/-- The bytes of a directory. -/
def toBytes (d : Directory κ) : List UInt8 := d.toRecord.write

/-! ## Reading -/

/-- The kind of a rank. -/
def kindOf (rank : Short) : Except Fault κ :=
  match Ranked.ofRank? rank with
  | some kind => .ok kind
  | none => .error (.unknownKind rank.val)

/-- The name and declaration of a duplicate. -/
def duplicateOf (x : DuplicateRecord) : Except Fault (String × Declaration κ) :=
  if x.span.Proper then (kindOf x.rank).map fun kind => (x.name, ⟨kind, x.span⟩)
  else .error (.emptyDuplicate x.name)

/-- The directory of a record, after all checks. -/
def ofRecord (r : Record) : Except Fault (Directory κ) :=
  if r.version ≠ formatVersion then .error (.unsupportedVersion r.version.val)
  else if !columnsAgree r then .error .columnLengths
  else if !ascending r.names then .error .notAscending
  else do
    let kinds ← r.ranks.mapM kindOf
    let headings := (r.names.zip (kinds.zip r.starts)).map fun (name, kind, start) =>
      (⟨name, kind, start⟩ : Heading κ)
    let bare : Directory κ := ⟨headings.toArray, r.stops.map (·.toArray), .empty⟩
    match bare.emptyRegion? with
    | some i => .error (.emptyRegion i)
    | none =>
      let decls ← r.duplicates.mapM duplicateOf
      return { bare with duplicates := gather decls }

/-- The directory written at the front of the bytes. -/
def ofBytes (bytes : List UInt8) : Except Error (Directory κ) :=
  match Record.read.run bytes with
  | .ok (r, _) => (ofRecord r).mapError .decode
  | .error fault => .error (.decode fault)

end Gazetteer.Directory
