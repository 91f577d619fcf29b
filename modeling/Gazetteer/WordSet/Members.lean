import Gazetteer.WordSet.Basic

/-!
# The members of a word set

The members of a set are read one after the other by a `Scan`. It goes from word to word and gives
out the lowest bit of the word at hand, which it then clears; a word without bits is passed over.
`toList`, the view of a word set that its laws are stated in, is what a scan of the whole set gives
out until nothing is left.

A scan ends because the words it has not read, taken as one number, get less with every member
(`Scan.rest_lt_of_next?`).
-/

namespace Gazetteer.WordSet

/-! ## One member after the other -/

/-- A scan of the members that is under way. -/
structure Scan where
  /-- The place of the word at hand. -/
  place : Nat
  /-- The bits of this word that have not been given out. -/
  current : BitVec 64
  /-- The words after it. -/
  later : List (BitVec 64)

namespace Scan

/-- The next member in the words from `place` on, and the scan after it. -/
def nextIn (place : Nat) (current : BitVec 64) (later : List (BitVec 64)) : Option (Nat × Scan) :=
  if current = 0#64 then
    match later with
    | [] => none
    | word :: later => nextIn (place + 1) word later
  else
    -- `current &&& (current - 1)` is `current` without its lowest bit
    some (64 * place + current.ctz.toNat, ⟨place, current &&& (current - 1#64), later⟩)

/-- The next member, and the scan after it. -/
def next? (c : Scan) : Option (Nat × Scan) := nextIn c.place c.current c.later

/-- The words that have not been read, as one number. -/
def rest (c : Scan) : Nat := UInt64.size * c.later.length + c.current.toNat

theorem toNat_and_sub_one_lt {word : BitVec 64} (h : word ≠ 0#64) :
    (word &&& (word - 1#64)).toNat < word.toNat := by
  have hle : (word &&& (word - 1#64)).toNat ≤ (word - 1#64).toNat := by
    rw [BitVec.toNat_and]
    exact Nat.and_le_right
  bv_omega

theorem rest_lt_of_nextIn {place : Nat} {current : BitVec 64} {later : List (BitVec 64)} {i : Nat}
    {c : Scan} (h : nextIn place current later = some (i, c)) :
    c.rest < rest ⟨place, current, later⟩ := by
  fun_induction nextIn place current later with
  | case1 => exact absurd h (by simp)
  | case2 place word later ih =>
    have hlt := ih h
    have hword := word.isLt
    simp only [rest, UInt64.size, List.length_cons, BitVec.toNat_ofNat] at hlt ⊢
    omega
  | case3 later place current hcurrent =>
    obtain ⟨-, rfl⟩ := Prod.mk.inj (Option.some.inj h)
    exact Nat.add_lt_add_left (toNat_and_sub_one_lt hcurrent) _

theorem rest_lt_of_next? {c c' : Scan} {i : Nat} (h : c.next? = some (i, c')) :
    c'.rest < c.rest := rest_lt_of_nextIn h

/-- The members that are left. -/
def toList (c : Scan) : List Nat :=
  match _h : c.next? with
  | none => []
  | some (i, c') => i :: c'.toList
termination_by c.rest
decreasing_by exact rest_lt_of_next? _h

end Scan

/-- The scan of all members. -/
def scan (s : WordSet) : Scan := ⟨0, s.word 0, s.words.toList.tail⟩

/-- The members, ascending. -/
def toList (s : WordSet) : List Nat := s.scan.toList

/-! ## All members -/

/-- The set has no members. -/
def isEmpty (s : WordSet) : Bool := s.words.all (· == 0#64)

/-- The number of members: the one-bits of all words. -/
def count (s : WordSet) : Nat :=
  (s.words.toList.map fun w => w.cpop.toNat).foldr (· + ·) 0

/-- The least member. -/
def first? (s : WordSet) : Option Nat := s.scan.next?.map (·.1)

/-- The members between braces, such as `{1, 2}`. -/
def render (s : WordSet) : String :=
  "\x7b" ++ ", ".intercalate (s.toList.map toString) ++ "\x7d"

end Gazetteer.WordSet
