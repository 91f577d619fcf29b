import Gazetteer.Wire.Reader

/-!
# Numbers in groups of seven bits

A number is written in groups of seven bits, the lowest first. Every group but the last has the
eighth bit set. Writing uses as few groups as possible. Reading also accepts groups of zeros at the
end, as long as the number keeps within the groups that its width allows.
-/

namespace Gazetteer.Wire

/-- How large a number may be. -/
structure Width where
  /-- The largest number of groups. -/
  groups : Nat
  /-- The largest value of the last of so many groups. -/
  top : Nat
deriving DecidableEq

namespace Width

/-- Numbers below 2 ^ 16. -/
def bits16 : Width := ⟨3, 3⟩

/-- Numbers below 2 ^ 32. -/
def bits32 : Width := ⟨5, 15⟩

/-- Numbers below 2 ^ 64. -/
def bits64 : Width := ⟨10, 1⟩

end Width

/-- The groups of a number. -/
def writeNumber (n : Nat) : List UInt8 :=
  if n < 128 then [UInt8.ofNat n] else UInt8.ofNat (n % 128 + 128) :: writeNumber (n / 128)
termination_by n

/-- Reads at most `groups` groups, where a group in the last place is at most `top`. -/
def readGroups (top : Nat) : (groups : Nat) → Reader Nat
  | 0 => throw .unterminatedNumber
  | 1 => do
    let b ← nextByte
    if b.toNat ≤ top then return b.toNat else throw .unterminatedNumber
  | groups + 2 => do
    let b ← nextByte
    if b.toNat < 128 then return b.toNat
    else
      let high ← readGroups top (groups + 1)
      return b.toNat - 128 + 128 * high

/-- Reads a number of the given width. -/
def readNumber (w : Width) : Reader Nat := readGroups w.top w.groups

/-- Reads a number of the given width that is below `bound`. -/
def readBelow (w : Width) (bound : Nat) : Reader (Fin bound) := do
  let n ← readNumber w
  if h : n < bound then return ⟨n, h⟩ else throw .unterminatedNumber

end Gazetteer.Wire
