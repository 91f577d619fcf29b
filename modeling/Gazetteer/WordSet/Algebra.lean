import Gazetteer.WordSet.Basic

/-!
# Combining word sets

The operations of this module work on whole words and keep the word count and capacity of the
first set. Bits of the second set beyond the words of the first are left out.

What they do is stated on `bit`: `bit_union`, `bit_inter`, `bit_diff`.
-/

namespace Gazetteer.WordSet

/-- The members of either set. -/
def union (a b : WordSet) : WordSet := a.mapWords fun k w => w ||| b.word k

/-- The members of both sets. -/
def inter (a b : WordSet) : WordSet := a.mapWords fun k w => w &&& b.word k

/-- The members of `a` that are not in `b`. -/
def diff (a b : WordSet) : WordSet := a.mapWords fun k w => w &&& ~~~b.word k

/-- Whether the union with `b` changes a word of `a`. -/
def grows (a b : WordSet) : Bool := (a.union b).words != a.words

/-- Every member of `a` is one of `b`. -/
def isSubset (a b : WordSet) : Bool :=
  (List.range a.words.size).all fun k => a.word k &&& ~~~b.word k == 0#64

/-- Some member of `a` is one of `b`. -/
def intersects (a b : WordSet) : Bool :=
  (List.range a.words.size).any fun k => a.word k &&& b.word k != 0#64

/-! ## Bits -/

theorem bit_union (a b : WordSet) (i : Nat) :
    (a.union b).bit i = (a.bit i || (decide (i / 64 < a.words.size) && b.bit i)) := by
  rw [union, bit_mapWords]
  by_cases hk : i / 64 < a.words.size <;> simp [bit, word, hk]

theorem bit_inter (a b : WordSet) (i : Nat) : (a.inter b).bit i = (a.bit i && b.bit i) := by
  rw [inter, bit_mapWords]
  by_cases hk : i / 64 < a.words.size <;> simp [bit, word, hk]

theorem bit_diff (a b : WordSet) (i : Nat) : (a.diff b).bit i = (a.bit i && !b.bit i) := by
  rw [diff, bit_mapWords]
  by_cases hk : i / 64 < a.words.size <;> simp [bit, word, hk, Nat.mod_lt]

end Gazetteer.WordSet
