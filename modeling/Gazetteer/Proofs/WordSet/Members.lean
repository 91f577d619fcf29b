import Gazetteer.WordSet.Algebra
import Gazetteer.Proofs.WordSet.Scan
import Mathlib.Data.List.Basic
import Mathlib.Data.List.Sort
import Mathlib.Data.Set.Card

/-!
# Counting the members of a word set

`count` adds up the one-bits of the words and never looks at an index. It is the length of the list
of members all the same (`count_eq_length_toList`), because the members in one word are as many as
its one-bits (`length_filter_getLsbD`).

A set that is put together from a list has the members of the list that it has room for
(`bit_ofList`), and it is the list again if nothing was left out or out of order (`toList_ofList`).

A set is its capacity and its bits (`eq_of_bit`): nothing of how it was made is left in its words.
-/

namespace Gazetteer

/-- A list without repetitions is as long as the set of its members is large. -/
theorem length_eq_ncard {α : Type} [DecidableEq α] {l : List α} {S : Set α} (hl : l.Nodup)
    (h : ∀ a, a ∈ l ↔ a ∈ S) : l.length = S.ncard := by
  have hS : S = ↑l.toFinset := by
    ext a
    rw [← h a]
    simp
  rw [hS, Set.ncard_coe_finset, List.toFinset_card_of_nodup hl]

namespace WordSet

@[simp] theorem capacity_empty (n : Nat) : (empty n).capacity = n := rfl

@[simp] theorem capacity_insert (s : WordSet) (i : Nat) : (s.insert i).capacity = s.capacity := by
  unfold insert
  split <;> rfl

@[simp] theorem capacity_erase (s : WordSet) (i : Nat) : (s.erase i).capacity = s.capacity := by
  unfold erase
  split <;> rfl

@[simp] theorem capacity_full (n : Nat) : (full n).capacity = n := by
  unfold full
  simp only
  split <;> rfl

@[simp] theorem capacity_clear (s : WordSet) : s.clear.capacity = s.capacity := rfl

@[simp] theorem capacity_union (a b : WordSet) : (a.union b).capacity = a.capacity := rfl

@[simp] theorem capacity_inter (a b : WordSet) : (a.inter b).capacity = a.capacity := rfl

@[simp] theorem capacity_diff (a b : WordSet) : (a.diff b).capacity = a.capacity := rfl

theorem capacity_foldl_union {α : Type} (f : α → WordSet) (l : List α) (acc : WordSet) :
    (l.foldl (fun acc x => acc.union (f x)) acc).capacity = acc.capacity := by
  induction l generalizing acc with
  | nil => rfl
  | cons x l ih => exact ih (acc.union (f x))

theorem capacity_foldl_insert (l : List Nat) (s : WordSet) :
    (l.foldl insert s).capacity = s.capacity := by
  induction l generalizing s with
  | nil => rfl
  | cons i l ih => exact (ih (s.insert i)).trans (s.capacity_insert i)

/-! ## Membership -/

theorem contains_eq_bit {s : WordSet} {i : Nat} (h : i < s.capacity) : s.contains i = s.bit i := by
  simp [contains, h]

/-- **A set of places below `n`**, with room for all of them and for no others. -/
structure Fits (s : WordSet) (n : Nat) : Prop where
  capacity_eq : s.capacity = n
  lt_of_bit : ∀ i, s.bit i = true → i < n

theorem Fits.contains_iff {s : WordSet} {n i : Nat} (h : s.Fits n) :
    s.contains i = true ↔ s.bit i = true := by
  rw [contains, Bool.and_eq_true, decide_eq_true_eq, h.capacity_eq, and_iff_right_iff_imp]
  exact h.lt_of_bit i

/-- A union loses nothing of a set that fits. -/
theorem bit_union_iff {a b : WordSet} (hb : ∀ i, b.bit i = true → i < a.capacity) {i : Nat} :
    (a.union b).bit i = true ↔ a.bit i = true ∨ b.bit i = true := by
  rw [bit_union, Bool.or_eq_true, Bool.and_eq_true, decide_eq_true_eq]
  refine or_congr_right ⟨fun h => h.2, fun h => ⟨div_lt_size (hb i h), h⟩⟩

theorem word_eq_getElem {s : WordSet} {k : Nat} (hk : k < s.words.size) :
    s.word k = s.words[k] := by
  rw [word, Array.getElem?_eq_getElem hk, Option.getD_some]

/-- A word is made of the bits at its places. -/
theorem getLsbD_getElem {s : WordSet} {k j : Nat} (hk : k < s.words.size) (hj : j < 64) :
    s.words[k].getLsbD j = s.bit (64 * k + j) := by
  have hdiv : (64 * k + j) / 64 = k := by omega
  have hmod : (64 * k + j) % 64 = j := by omega
  rw [bit, hdiv, hmod, word_eq_getElem hk]

/-- A set is empty iff no bit of it is set. -/
theorem isEmpty_iff {s : WordSet} : s.isEmpty = true ↔ ∀ i, s.bit i = false := by
  unfold isEmpty
  rw [Array.all_eq_true_iff_forall_mem]
  constructor
  · intro h i
    unfold bit word
    cases hw : s.words[i / 64]? with
    | none => simp
    | some w =>
      have hzero : w = 0#64 := by simpa using h w (Array.mem_of_getElem? hw)
      simp [hzero]
  · intro h w hw
    obtain ⟨k, hk, rfl⟩ := Array.mem_iff_getElem.mp hw
    rw [beq_iff_eq]
    refine BitVec.eq_of_getLsbD_eq fun j hj => ?_
    rw [getLsbD_getElem hk hj, h, BitVec.getLsbD_zero]

/-- **Sets of one capacity with the same bits are equal**, word by word. -/
theorem eq_of_bit {s t : WordSet} (hcapacity : s.capacity = t.capacity)
    (h : ∀ i, s.bit i = t.bit i) : s = t := by
  have hwords : s.words = t.words := by
    refine Array.ext (by rw [s.size_words, t.size_words, hcapacity]) fun k hs ht => ?_
    refine BitVec.eq_of_getLsbD_eq fun j hj => ?_
    rw [getLsbD_getElem hs hj, getLsbD_getElem ht hj, h]
  obtain ⟨words, capacity, hsize⟩ := s
  obtain ⟨words', capacity', hsize'⟩ := t
  obtain rfl : words = words' := hwords
  obtain rfl : capacity = capacity' := hcapacity
  rfl

theorem isEmpty_eq_false_iff {s : WordSet} : s.isEmpty = false ↔ ∃ i, s.bit i = true := by
  rw [← Bool.not_eq_true, isEmpty_iff]
  simp

/-! ## Sets of listed indices -/

/-- Inserting indices one after the other adds those below the capacity. -/
theorem bit_foldl_insert (l : List Nat) (s : WordSet) (i : Nat) :
    (l.foldl insert s).bit i = true ↔ s.bit i = true ∨ i < s.capacity ∧ i ∈ l := by
  induction l generalizing s with
  | nil => simp
  | cons j l ih =>
    rw [List.foldl_cons, ih, bit_insert, capacity_insert, List.mem_cons]
    simp only [Bool.or_eq_true, Bool.and_eq_true, decide_eq_true_eq]
    constructor
    · rintro ((hi | ⟨hj, rfl⟩) | ⟨hi, hmem⟩)
      · exact Or.inl hi
      · exact Or.inr ⟨hj, Or.inl rfl⟩
      · exact Or.inr ⟨hi, Or.inr hmem⟩
    · rintro (hi | ⟨hi, rfl | hmem⟩)
      · exact Or.inl (Or.inl hi)
      · exact Or.inl (Or.inr ⟨hi, rfl⟩)
      · exact Or.inr ⟨hi, hmem⟩

@[simp] theorem capacity_ofList (n : Nat) (l : List Nat) : (ofList n l).capacity = n :=
  capacity_foldl_insert l (empty n)

theorem bit_ofList {n i : Nat} {l : List Nat} : (ofList n l).bit i = true ↔ i < n ∧ i ∈ l := by
  rw [ofList, bit_foldl_insert, bit_empty, capacity_empty]
  simp

theorem contains_ofList {n i : Nat} {l : List Nat} :
    (ofList n l).contains i = true ↔ i < n ∧ i ∈ l := by
  rw [contains, Bool.and_eq_true, decide_eq_true_eq, capacity_ofList, bit_ofList]
  exact ⟨fun h => h.2, fun h => ⟨h.1, h⟩⟩

/-- A list in ascending order is what the set made of it lists, if the set has room for all. -/
theorem toList_ofList {n : Nat} {l : List Nat} (hl : l.Pairwise (· < ·)) (hn : ∀ i ∈ l, i < n) :
    (ofList n l).toList = l := by
  refine List.Pairwise.eq_of_mem_iff (pairwise_toList _) hl fun i => ?_
  rw [mem_toList, bit_ofList]
  exact ⟨fun h => h.2, fun h => ⟨hn i h, h⟩⟩

/-! ## Counting -/

/-- The one-bits among the lowest `m` of a word. -/
theorem length_filter_getLsbD (w : BitVec 64) (m : Nat) :
    ((List.range m).filter w.getLsbD).length = w.cpopNatRec m 0 := by
  induction m with
  | zero => rfl
  | succ m ih =>
    rw [BitVec.cpopNatRec_succ, BitVec.cpopNatRec_eq, ← ih, List.range_succ, List.filter_append]
    cases hm : w.getLsbD m <;> simp [hm]

/-- The members in a list of words are as many as its one-bits. -/
theorem length_filter_bits (ws : List (BitVec 64)) :
    ((List.range (64 * ws.length)).filter fun i =>
      (ws[i / 64]?.getD 0#64).getLsbD (i % 64)).length = (ws.map fun w => w.cpop.toNat).sum := by
  induction ws with
  | nil => rfl
  | cons w ws ih =>
    have hfirst : ((List.range 64).filter fun i =>
        ((w :: ws)[i / 64]?.getD 0#64).getLsbD (i % 64)) = (List.range 64).filter w.getLsbD := by
      refine List.filter_congr fun i hi => ?_
      have hi := List.mem_range.mp hi
      rw [Nat.div_eq_of_lt hi, Nat.mod_eq_of_lt hi]
      rfl
    have hrest : ∀ i, (64 + i) / 64 = i / 64 + 1 := fun i => by omega
    rw [List.length_cons, Nat.mul_succ, Nat.add_comm, List.range_add, List.filter_append,
      List.length_append, hfirst, length_filter_getLsbD, List.filter_map, List.length_map,
      List.map_cons, List.sum_cons, ← ih, BitVec.toNat_cpop]
    simp only [Function.comp_def, hrest, List.getElem?_cons_succ, Nat.add_mod_left]

/-- What a scan gives out is what a test of every bit would find. -/
theorem toList_eq_filter (s : WordSet) :
    s.toList = (List.range (64 * s.words.size)).filter s.bit := by
  refine s.pairwise_toList.eq_of_mem_iff (List.pairwise_lt_range.filter _) fun i => ?_
  rw [mem_toList, List.mem_filter, List.mem_range]
  exact ⟨fun h => ⟨lt_of_bit h, h⟩, fun h => h.2⟩

/-- **The number of members** is the number of one-bits of all words. -/
theorem count_eq_length_toList (s : WordSet) : s.count = s.toList.length := by
  have h := length_filter_bits s.words.toList
  simp only [Array.length_toList, Array.getElem?_toList] at h
  rw [toList_eq_filter]
  exact h.symm

/-- The number of members of a set that is given by its members. -/
theorem count_eq_ncard {s : WordSet} {S : Set Nat} (h : ∀ i, s.bit i = true ↔ i ∈ S) :
    s.count = S.ncard := by
  have hnodup : s.toList.Nodup := s.pairwise_toList.imp fun hlt => Nat.ne_of_lt hlt
  rw [count_eq_length_toList, length_eq_ncard hnodup fun i => mem_toList.trans (h i)]

end WordSet

end Gazetteer
