import Gazetteer.Wire.Number

/-!
# Lists, texts and columns that may be missing

A list is its length followed by its items, a text is its length in bytes followed by its UTF-8
bytes. A value that may be missing follows a byte that is 1 if it is there and 0 if not.
-/

namespace Gazetteer.Wire

variable {α : Type}

/-! ## Writing -/

/-- The bytes of a list. -/
def writeList (item : α → List UInt8) (xs : List α) : List UInt8 :=
  writeNumber xs.length ++ xs.flatMap item

/-- The bytes of a text. -/
def writeText (s : String) : List UInt8 := writeNumber s.utf8ByteSize ++ s.toUTF8.data.toList

/-- The bytes of a value that may be missing. -/
def writeOption (item : α → List UInt8) : Option α → List UInt8
  | some a => 1 :: item a
  | none => [0]

/-! ## Reading -/

/-- Reads `n` items. -/
def readMany (item : Reader α) : (n : Nat) → Reader (List α)
  | 0 => return []
  | n + 1 => do
    let a ← item
    let rest ← readMany item n
    return a :: rest

/-- Reads a list. -/
def readList (item : Reader α) : Reader (List α) := do
  let n ← readNumber .bits64
  readMany item n

/-- Reads a text. -/
def readText : Reader String := do
  let n ← readNumber .bits64
  let bytes ← takeBytes n
  match String.fromUTF8? ⟨bytes.toArray⟩ with
  | some s => return s
  | none => throw .invalidUtf8

/-- Reads a value that may be missing. -/
def readOption (item : Reader α) : Reader (Option α) := do
  let b ← nextByte
  if b = 0 then return none
  else if b = 1 then
    let a ← item
    return some a
  else throw .badPresence

end Gazetteer.Wire
