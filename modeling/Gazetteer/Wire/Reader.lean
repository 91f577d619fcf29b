import Gazetteer.Error

/-!
# Reading bytes

A `Reader` takes a value from the front of a byte string and leaves the rest. It never looks at
bytes that it does not take, so what follows a value does not matter.
-/

namespace Gazetteer.Wire

/-- Takes a value from the front of the bytes. -/
abbrev Reader (α : Type) := StateT (List UInt8) (Except Fault) α

/-- Takes one byte. -/
def nextByte : Reader UInt8 := fun bytes =>
  match bytes with
  | b :: rest => .ok (b, rest)
  | [] => .error .endOfInput

/-- Takes `n` bytes. -/
def takeBytes (n : Nat) : Reader (List UInt8) := fun bytes =>
  if n ≤ bytes.length then .ok (bytes.take n, bytes.drop n) else .error .endOfInput

end Gazetteer.Wire
