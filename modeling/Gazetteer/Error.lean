import Gazetteer.Text.Span

/-!
# What can go wrong

Every refusal of the library is an `Error`: a cause with the values that brought it about. The
wording of all of them is `Error.message`, so that no other module writes error text.

Broken source text is not an error. A repeated declaration and a reference to an undeclared name
are recorded as data; errors are for callers that break the rules of an operation.
-/

namespace Gazetteer

/-- Why a span does not fit the ones before it. -/
inductive Disorder where
  /-- It starts before the span that was added last. -/
  | precedesPrevious
  /-- It starts inside a span that is still open and ends after it. -/
  | straddlesEnclosing
  /-- Of two neighbouring rows the later starts first. -/
  | startsNotSorted
  /-- Of two neighbouring rows the later starts inside the earlier and ends after it. -/
  | straddlesPrevious
  /-- A row lies outside the row it names as its parent, or does not come after it. -/
  | parentNotEnclosing
deriving DecidableEq

/-- Why a byte string is no written directory. -/
inductive Fault where
  /-- The bytes ran out. -/
  | endOfInput
  /-- A number has too many groups or too large a last group. -/
  | unterminatedNumber
  /-- The bytes of a name are not UTF-8. -/
  | invalidUtf8
  /-- The byte that says whether a column follows is neither 0 nor 1. -/
  | badPresence
  /-- The record is of another version. -/
  | unsupportedVersion (version : Nat)
  /-- The columns are not all as long as the list of names. -/
  | columnLengths
  /-- The names are not strictly ascending. -/
  | notAscending
  /-- A number stands for no kind. -/
  | unknownKind (rank : Nat)
  /-- The region of the name at this ordinal covers nothing. -/
  | emptyRegion (ordinal : Nat)
  /-- A duplicate declaration of this name covers nothing. -/
  | emptyDuplicate (name : String)
  /-- A cause stated in words. -/
  | other (text : String)
deriving DecidableEq

/-- A refusal of an operation. -/
inductive Error where
  /-- A span that covers nothing was offered. -/
  | emptySpan (span : Span)
  /-- A span does not fit `against`, one of the spans before it. -/
  | outOfOrder (span against : Span) (reason : Disorder)
  /-- An index is not below the number of elements. -/
  | indexOutOfRange (index size : Nat)
  /-- An edit moves a position out of the text's range. -/
  | offsetOverflow (offset : Offset) (delta : Int)
  /-- A directory could not be written. -/
  | encode (text : String)
  /-- A directory could not be read. -/
  | decode (fault : Fault)
deriving DecidableEq

/-! ## Wording -/

/-- The wording of a reason. -/
def Disorder.message : Disorder → String
  | .precedesPrevious => "start precedes the previous interval's start"
  | .straddlesEnclosing => "straddles an enclosing interval"
  | .startsNotSorted => "starts are not sorted"
  | .straddlesPrevious => "straddles the previous interval"
  | .parentNotEnclosing => "parent does not enclose child"

/-- The wording of a fault. -/
def Fault.message : Fault → String
  | .endOfInput => "Hit the end of buffer, expected more data"
  | .unterminatedNumber =>
    "Found a varint that didn't terminate. Is the usize too big for this platform?"
  | .invalidUtf8 => "Tried to parse invalid utf-8"
  | .badPresence => "Found an Option discriminant that wasn't 0 or 1"
  | .unsupportedVersion version => "unsupported version " ++ toString version
  | .columnLengths => "column lengths differ"
  | .notAscending => "names are not strictly ascending"
  | .unknownKind rank => "unknown kind " ++ toString rank
  | .emptyRegion ordinal => "empty region at ordinal " ++ toString ordinal
  | .emptyDuplicate name => "empty duplicate of '" ++ name ++ "'"
  | .other text => text

/-- The wording of an error. -/
def Error.message : Error → String
  | .emptySpan span => "invalid range " ++ span.render ++ ": start must be less than end"
  | .outOfOrder span against reason =>
    "out-of-order insertion of " ++ span.render ++ " after " ++ against.render ++ ": "
      ++ reason.message
  | .indexOutOfRange index size =>
    "index " ++ toString index ++ " out of range for " ++ toString size ++ " elements"
  | .offsetOverflow offset delta =>
    "offset " ++ toString offset.val ++ " cannot be shifted by " ++ toString delta
  | .encode text => "encode error: " ++ text
  | .decode fault => "decode error: " ++ fault.message

/-! ## The two checks that every caller shares -/

/-- `index`, if it addresses one of `size` elements. -/
def checkIndex (index size : Nat) : Except Error Nat :=
  if index < size then .ok index else .error (.indexOutOfRange index size)

/-- Refuses a span that covers nothing. -/
def Span.check (span : Span) : Except Error Unit :=
  if span.Proper then .ok () else .error (.emptySpan span)

theorem checkIndex_eq_ok_iff {index size i : Nat} :
    checkIndex index size = .ok i ↔ i = index ∧ index < size := by
  unfold checkIndex
  split
  · rename_i h
    simp only [Except.ok.injEq, h, and_true]
    exact eq_comm
  · rename_i h
    simp [h]

theorem Span.check_eq_ok_iff {span : Span} : span.check = .ok () ↔ span.Proper := by
  unfold Span.check
  split <;> simp_all

end Gazetteer
