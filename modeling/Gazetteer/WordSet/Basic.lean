/-!
# Sets of indices in words

A `WordSet` is a set of indices below its `capacity`, kept as one bit for each index in words of 64
bits. `word` reads past the last word as zero, so that sets of different capacities can be
combined: the shorter one counts as filled up with zeros.

The words may have room for a few indices at or above the capacity, in the last word. No operation
on a single set ever puts one there; a union with a larger set can. `bit` and `toList` see such
indices, `contains` does not.

What each operation does is stated on `bit`: `bit_empty`, `bit_full`, `bit_insert`, `bit_erase`,
`bit_clear`.
-/

namespace Gazetteer

/-- The number of words for `capacity` indices. -/
def wordCount (capacity : Nat) : Nat := (capacity + 63) / 64

/-- A set of indices below `capacity`. -/
structure WordSet where
  /-- Bit `i % 64` of word `i / 64` says whether `i` is a member. -/
  words : Array (BitVec 64)
  /-- The number of indices that the set can hold. -/
  capacity : Nat
  /-- There are as many words as the capacity calls for. -/
  size_words : words.size = wordCount capacity
deriving DecidableEq

namespace WordSet

/-- The set of the given capacity with the words of another set changed one by one. -/
def mapWords (s : WordSet) (f : Nat → BitVec 64 → BitVec 64) : WordSet :=
  ⟨s.words.mapIdx f, s.capacity, by simp [s.size_words]⟩

/-- The set without members. -/
def empty (capacity : Nat) : WordSet :=
  ⟨Array.replicate (wordCount capacity) 0#64, capacity, by simp⟩

/-- The word of the lowest `n` bits. -/
def lowBits (n : Nat) : BitVec 64 := (BitVec.allOnes n).setWidth 64

/-- The set of all indices below `capacity`: full words, of which the last keeps only the bits
below the capacity. -/
def full (capacity : Nat) : WordSet :=
  let ones := Array.replicate (wordCount capacity) (BitVec.allOnes 64)
  if capacity % 64 = 0 then ⟨ones, capacity, by simp [ones]⟩
  else ⟨ones.modify (capacity / 64) (· &&& lowBits (capacity % 64)), capacity, by simp [ones]⟩

/-! ## One index -/

/-- Word `k`, zero past the last one. -/
def word (s : WordSet) (k : Nat) : BitVec 64 := s.words[k]?.getD 0#64

/-- The bit of index `i`. -/
def bit (s : WordSet) (i : Nat) : Bool := (s.word (i / 64)).getLsbD (i % 64)

/-- `i` is a member. -/
def contains (s : WordSet) (i : Nat) : Bool := i < s.capacity && s.bit i

/-- The set with the word of index `i` changed. -/
def modifyWord (s : WordSet) (i : Nat) (f : BitVec 64 → BitVec 64) : WordSet :=
  ⟨s.words.modify (i / 64) f, s.capacity, by simp [s.size_words]⟩

/-- The set with `i`; an index that is not below the capacity is ignored. -/
def insert (s : WordSet) (i : Nat) : WordSet :=
  if i < s.capacity then s.modifyWord i (· ||| BitVec.twoPow 64 (i % 64)) else s

/-- Whether inserting `i` changes the set. -/
def adds (s : WordSet) (i : Nat) : Bool := i < s.capacity && !s.bit i

/-- The set without `i`; an index that is not below the capacity is ignored. -/
def erase (s : WordSet) (i : Nat) : WordSet :=
  if i < s.capacity then s.modifyWord i (· &&& ~~~BitVec.twoPow 64 (i % 64)) else s

/-- Whether erasing `i` changes the set. -/
def removes (s : WordSet) (i : Nat) : Bool := s.contains i

/-- The set of the given indices that are below the capacity. -/
def ofList (capacity : Nat) (indices : List Nat) : WordSet := indices.foldl insert (empty capacity)

/-- The set of the same capacity without members. -/
def clear (s : WordSet) : WordSet := s.mapWords fun _ _ => 0#64

/-! ## Bits -/

theorem div_lt_size {s : WordSet} {i : Nat} (h : i < s.capacity) : i / 64 < s.words.size := by
  rw [s.size_words, wordCount]
  omega

theorem lt_of_bit {s : WordSet} {i : Nat} (h : s.bit i = true) : i < 64 * s.words.size := by
  by_cases hk : i / 64 < s.words.size
  · omega
  · rw [bit, word, Array.getElem?_eq_none (Nat.le_of_not_lt hk)] at h
    simp at h

@[simp] theorem bit_empty (n i : Nat) : (empty n).bit i = false := by
  rw [bit, word, empty]
  by_cases hk : i / 64 < wordCount n <;> simp [hk]

/-- Bits of a set after each of its words has been changed. -/
theorem bit_mapWords (s : WordSet) (f : Nat → BitVec 64 → BitVec 64) (i : Nat) :
    (s.mapWords f).bit i =
      (decide (i / 64 < s.words.size) && (f (i / 64) (s.word (i / 64))).getLsbD (i % 64)) := by
  rw [bit, word, word, mapWords]
  by_cases hk : i / 64 < s.words.size <;> simp [hk]

/-- Bits of a set after one of its words has been changed. -/
theorem bit_modifyWord {s : WordSet} {i : Nat} (hi : i < s.capacity) (f : BitVec 64 → BitVec 64)
    (j : Nat) :
    (s.modifyWord i f).bit j =
      if i / 64 = j / 64 then (f (s.word (j / 64))).getLsbD (j % 64) else s.bit j := by
  have hk := div_lt_size hi
  rw [bit, bit, word, word, modifyWord, Array.getElem?_modify]
  split
  · rename_i h
    rw [h] at hk
    simp [hk]
  · rfl

theorem bit_insert (s : WordSet) (i j : Nat) :
    (s.insert i).bit j = (s.bit j || (decide (i < s.capacity) && decide (i = j))) := by
  unfold insert
  split
  · rename_i hi
    rw [bit_modifyWord hi]
    split
    · rename_i h
      have : j % 64 = i % 64 ↔ i = j := by omega
      simp [bit, hi, this, Nat.mod_lt]
    · rename_i h
      have : i ≠ j := fun e => h (by rw [e])
      simp [this]
  · rename_i hi
    simp [hi]

theorem bit_erase (s : WordSet) (i j : Nat) :
    (s.erase i).bit j = (s.bit j && !(decide (i < s.capacity) && decide (i = j))) := by
  unfold erase
  split
  · rename_i hi
    rw [bit_modifyWord hi]
    split
    · rename_i h
      have : j % 64 = i % 64 ↔ i = j := by omega
      simp [bit, hi, this, Nat.mod_lt]
    · rename_i h
      have : i ≠ j := fun e => h (by rw [e])
      simp [this]
  · rename_i hi
    simp [hi]

@[simp] theorem bit_clear (s : WordSet) (i : Nat) : s.clear.bit i = false := by
  simp [clear, bit_mapWords]

theorem bit_full (n i : Nat) : (full n).bit i = decide (i < n) := by
  by_cases hn : n % 64 = 0
  · simp only [full, hn, if_true, bit, word]
    by_cases hk : i / 64 < wordCount n
    · have : i < n := by rw [wordCount] at hk; omega
      simp [-BitVec.reduceAllOnes, hk, this, Nat.mod_lt]
    · have : ¬ i < n := by rw [wordCount] at hk; omega
      simp [hk, this]
  · simp only [full, hn, if_false, bit, word, Array.getElem?_modify]
    by_cases hk : i / 64 < wordCount n
    · by_cases he : n / 64 = i / 64
      · have : i < n ↔ i % 64 < n % 64 := by omega
        simp [-BitVec.reduceAllOnes, he, hk, lowBits, this, Nat.mod_lt]
      · have : i < n := by rw [wordCount] at hk; omega
        simp [-BitVec.reduceAllOnes, he, hk, this, Nat.mod_lt]
    · have h1 : ¬ i < n := by rw [wordCount] at hk; omega
      have h2 : n / 64 ≠ i / 64 := by rw [wordCount] at hk; omega
      simp [hk, h1, h2]

end WordSet

end Gazetteer
