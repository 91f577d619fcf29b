import Gazetteer.Proofs.WordSet.Members
import Mathlib

/-!
# Word sets as finite sets

Every operation on word sets is an operation on finite sets of numbers, done a word at a time. Two
things could come between: a set of other capacity has fewer or more words, and the last word has
room for indices at or above the capacity.

The first does no harm. Whatever the capacities, the members of a combined set are what they should
be, up to the last word of the set that is changed (`combine_exact`).

The second does, after a union with a larger set: then there are members that `contains` denies.
Where every set takes in sets of at most its own capacity this never happens (`Made.fits`), and
every set is the finite set that the same operations make of finite sets (`made_exact`).
-/

namespace Gazetteer.WordSet

variable {a b s t : WordSet} {i : Nat}

/-! ## Members -/

/-- The members as a finite set. -/
def members (s : WordSet) : Finset Nat := s.toList.toFinset

@[simp] theorem mem_members : i ∈ s.members ↔ s.bit i = true := by
  rw [members, List.mem_toFinset, mem_toList]

theorem members_eq_iff_toList_eq : s.members = t.members ↔ s.toList = t.toList := by
  refine ⟨fun h => ?_, fun h => congrArg List.toFinset h⟩
  refine s.pairwise_toList.eq_of_mem_iff t.pairwise_toList fun i => ?_
  rw [← List.mem_toFinset, ← List.mem_toFinset]
  exact Finset.ext_iff.mp h i

/-- **Sets of one capacity are equal iff they have the same members.** -/
theorem eq_iff_members_eq (h : s.capacity = t.capacity) : s = t ↔ s.members = t.members := by
  refine ⟨congrArg members, fun hmembers => eq_of_bit h fun i => ?_⟩
  rw [Bool.eq_iff_iff, ← mem_members, ← mem_members, hmembers]

theorem isEmpty_iff_members : s.isEmpty = true ↔ s.members = ∅ := by
  simp [isEmpty_iff, Finset.eq_empty_iff_forall_notMem]

/-! ## Sets that are combined -/

/-- The words of a set have room for this many indices. -/
theorem room_eq (s : WordSet) : 64 * s.words.size = 64 * (s.capacity ⌈/⌉ 64) := by
  rw [s.size_words, wordCount, Nat.ceilDiv_eq_add_pred_div, Nat.add_sub_assoc (by decide)]

theorem members_union (a b : WordSet) :
    (a.union b).members = a.members ∪ {i ∈ b.members | i < 64 * (a.capacity ⌈/⌉ 64)} := by
  ext i
  have hroom : i / 64 < a.words.size ↔ i < 64 * (a.capacity ⌈/⌉ 64) := by
    rw [← room_eq]
    omega
  simp [bit_union, hroom, and_comm]

theorem members_inter (a b : WordSet) : (a.inter b).members = a.members ∩ b.members := by
  ext i
  simp [bit_inter]

theorem members_diff (a b : WordSet) : (a.diff b).members = a.members \ b.members := by
  ext i
  simp [bit_diff]

/-- Whether a union changes a word is whether it brings a member. -/
theorem grows_iff : a.grows b = true ↔ (a.union b).members ≠ a.members := by
  have hwords : (a.union b).words = a.words ↔ a.union b = a := by
    refine ⟨fun h => eq_of_bit (capacity_union a b) fun i => ?_, congrArg words⟩
    rw [bit, bit, word, word, h]
  rw [grows, bne_iff_ne, ne_eq, hwords, eq_iff_members_eq (capacity_union a b)]

/-- A test of all words for a bit that is left is a test for members of the set they make up. -/
theorem isEmpty_mapWords (s : WordSet) (f : Nat → BitVec 64 → BitVec 64) :
    (s.mapWords f).isEmpty = (List.range s.words.size).all fun k => f k (s.word k) == 0#64 := by
  rw [Bool.eq_iff_iff, isEmpty, mapWords, Array.all_eq_true, List.all_eq_true]
  simp only [Array.size_mapIdx, Array.getElem_mapIdx, List.mem_range]
  refine forall_congr' fun k => forall_congr' fun hk => ?_
  rw [word_eq_getElem hk]

theorem isSubset_iff : a.isSubset b = true ↔ a.members ⊆ b.members := by
  have htest : a.isSubset b = (a.diff b).isEmpty := by
    rw [diff, isEmpty_mapWords]
    rfl
  rw [htest, isEmpty_iff_members, members_diff, Finset.sdiff_eq_empty_iff_subset]

theorem intersects_iff : a.intersects b = true ↔ (a.members ∩ b.members).Nonempty := by
  have htest : a.intersects b = !(a.inter b).isEmpty := by
    rw [inter, isEmpty_mapWords, List.not_all_eq_any_not]
    rfl
  rw [htest, Bool.not_eq_true', ← Bool.not_eq_true, isEmpty_iff_members, members_inter,
    Finset.nonempty_iff_ne_empty]

theorem contains_iff_members : a.contains i = true ↔ i < a.capacity ∧ i ∈ a.members := by
  rw [contains, Bool.and_eq_true, decide_eq_true_eq, mem_members]

/-- **Sets of any two capacities** are combined as their members are, up to the last word of the
first, and compared as their members are. -/
theorem combine_exact (a b : WordSet) :
    (a.union b).members = a.members ∪ {i ∈ b.members | i < 64 * (a.capacity ⌈/⌉ 64)} ∧
    (a.grows b = true ↔ (a.union b).members ≠ a.members) ∧
    (a.inter b).members = a.members ∩ b.members ∧
    (a.diff b).members = a.members \ b.members ∧
    (a.isSubset b = true ↔ a.members ⊆ b.members) ∧
    (a.intersects b = true ↔ ∃ i, i ∈ a.members ∧ i ∈ b.members) ∧
    ∀ i, a.contains i = true ↔ i < a.capacity ∧ i ∈ a.members := by
  refine ⟨members_union a b, grows_iff, members_inter a b, members_diff a b, isSubset_iff, ?_,
    fun i => contains_iff_members⟩
  rw [intersects_iff, Finset.Nonempty]
  simp only [Finset.mem_inter]

/-! ## Sets of one index more or less -/

theorem members_insert (s : WordSet) (i : Nat) :
    (s.insert i).members = if i < s.capacity then Insert.insert i s.members else s.members := by
  ext j
  by_cases hi : i < s.capacity
  · simp [bit_insert, hi, or_comm, @eq_comm _ i j]
  · simp [bit_insert, hi]

theorem members_erase (s : WordSet) (i : Nat) :
    (s.erase i).members = if i < s.capacity then s.members.erase i else s.members := by
  ext j
  by_cases hi : i < s.capacity
  · simp [bit_erase, hi, and_comm, @eq_comm _ i j]
  · simp [bit_erase, hi]

theorem adds_iff_members : s.adds i = true ↔ (s.insert i).members ≠ s.members := by
  rw [members_insert, adds, Bool.and_eq_true, decide_eq_true_eq]
  by_cases hi : i < s.capacity
  · simp [hi]
  · simp [hi]

theorem removes_iff : s.removes i = true ↔ (s.erase i).members ≠ s.members := by
  rw [members_erase, removes, contains_iff_members]
  by_cases hi : i < s.capacity
  · simp [hi]
  · simp [hi]

/-! ## Sets that take in no larger ones -/

/-- **The ways to come by a set** that never takes in a larger one, each with the finite set that it
should be. -/
inductive Made : WordSet → Finset Nat → Prop
  | empty (capacity : Nat) : Made (empty capacity) ∅
  | full (capacity : Nat) : Made (full capacity) (Finset.range capacity)
  | ofList (capacity : Nat) (indices : List Nat) :
      Made (ofList capacity indices) {i ∈ indices.toFinset | i < capacity}
  | insert {s : WordSet} {S : Finset Nat} (i : Nat) :
      Made s S → Made (s.insert i) (if i < s.capacity then Insert.insert i S else S)
  | erase {s : WordSet} {S : Finset Nat} (i : Nat) : Made s S → Made (s.erase i) (S.erase i)
  | clear {s : WordSet} {S : Finset Nat} : Made s S → Made s.clear ∅
  | union {a b : WordSet} {A B : Finset Nat} :
      Made a A → Made b B → b.capacity ≤ a.capacity → Made (a.union b) (A ∪ B)
  | inter {a b : WordSet} {A B : Finset Nat} : Made a A → Made b B → Made (a.inter b) (A ∩ B)
  | diff {a b : WordSet} {A B : Finset Nat} : Made a A → Made b B → Made (a.diff b) (A \ B)

namespace Made

variable {S : Finset Nat}

/-- **No index at or above the capacity** is ever a member. -/
theorem fits (h : Made s S) : s.Fits s.capacity := by
  refine ⟨rfl, ?_⟩
  induction h with
  | empty => simp
  | full capacity => simp [bit_full]
  | ofList capacity indices =>
    intro j hj
    rw [capacity_ofList]
    exact (bit_ofList.mp hj).1
  | insert i _ ih =>
    intro j hj
    rw [bit_insert, Bool.or_eq_true, Bool.and_eq_true, decide_eq_true_eq, decide_eq_true_eq] at hj
    rw [capacity_insert]
    rcases hj with hj | ⟨hi, rfl⟩
    · exact ih j hj
    · exact hi
  | erase i _ ih =>
    intro j hj
    rw [bit_erase, Bool.and_eq_true] at hj
    rw [capacity_erase]
    exact ih j hj.1
  | clear => simp
  | union _ _ hle iha ihb =>
    intro j hj
    rw [bit_union_iff fun k hk => (ihb k hk).trans_le hle] at hj
    exact hj.elim (iha j) fun hj => (ihb j hj).trans_le hle
  | inter _ _ iha _ =>
    intro j hj
    rw [bit_inter, Bool.and_eq_true] at hj
    exact iha j hj.1
  | diff _ _ iha _ =>
    intro j hj
    rw [bit_diff, Bool.and_eq_true] at hj
    exact iha j hj.1

/-- **The operations are those of finite sets.** -/
theorem members_eq (h : Made s S) : s.members = S := by
  induction h with
  | empty => ext; simp
  | full => ext; simp [bit_full]
  | ofList => ext; simp [bit_ofList, and_comm]
  | insert i _ ih => rw [members_insert, ih]
  | @erase s _ i h ih =>
    rw [members_erase, ih]
    split
    · rfl
    · -- an index that is ignored is no member
      rename_i hi
      refine (Finset.erase_eq_of_notMem fun hmem => hi ?_).symm
      exact h.fits.lt_of_bit i (mem_members.mp (ih ▸ hmem))
  | clear => ext; simp
  | union ha hb hle iha ihb =>
    ext j
    rw [mem_members, bit_union_iff fun k hk => (hb.fits.lt_of_bit k hk).trans_le hle,
      ← mem_members, ← mem_members, iha, ihb, Finset.mem_union]
  | inter _ _ iha ihb => rw [members_inter, iha, ihb]
  | diff _ _ iha ihb => rw [members_diff, iha, ihb]

end Made

/-- **A set is the finite set that it should be.** Whatever was done to a set and to the sets that it
was combined with, as long as none took in a larger one:

* a scan of it ends, and gives out its members in ascending order: the indices that it contains, all
  below the capacity, and those of the finite set that the same operations make;
* it is counted right, the first index is the least, and it is empty iff there is none;
* one more index, one less, and a union are answered with whether they change the members;
* sets of one capacity are equal iff their scans give out the same. -/
theorem made_exact {S : Finset Nat} (h : Made s S) :
    (s.scan.Gives s.toList ∧ s.toList.Pairwise (· < ·) ∧
      (∀ i, i ∈ s.toList ↔ s.contains i = true) ∧ (∀ i ∈ s.toList, i < s.capacity) ∧
      ∀ i, i ∈ s.toList ↔ i ∈ S) ∧
    (s.count = s.toList.length ∧ s.first? = s.toList.head? ∧
      (s.isEmpty = true ↔ s.toList = [])) ∧
    (∀ i, (s.adds i = true ↔ (s.insert i).toList ≠ s.toList) ∧
      (s.removes i = true ↔ (s.erase i).toList ≠ s.toList)) ∧
    ∀ {t : WordSet} {T : Finset Nat}, Made t T →
      (t.capacity ≤ s.capacity → (s.grows t = true ↔ (s.union t).toList ≠ s.toList)) ∧
      (s.capacity = t.capacity → (s = t ↔ s.toList = t.toList)) := by
  refine ⟨⟨s.gives_toList, s.pairwise_toList, fun i => ?_, fun i hi => ?_, fun i => ?_⟩,
    ⟨s.count_eq_length_toList, s.first?_eq_head?, ?_⟩, fun i => ⟨?_, ?_⟩, fun _ => ⟨fun _ => ?_, ?_⟩⟩
  · rw [mem_toList, h.fits.contains_iff]
  · exact h.fits.lt_of_bit i (mem_toList.mp hi)
  · rw [← h.members_eq, mem_members, mem_toList]
  · rw [isEmpty_iff_members, members, List.toFinset_eq_empty_iff]
  · rw [adds_iff_members, ne_eq, members_eq_iff_toList_eq]
  · rw [removes_iff, ne_eq, members_eq_iff_toList_eq]
  · rw [grows_iff, ne_eq, members_eq_iff_toList_eq]
  · exact fun hcapacity => (eq_iff_members_eq hcapacity).trans members_eq_iff_toList_eq

theorem made_exact_partial_word :
    let s := (((full 66).diff (ofList 200 [1, 64, 130])).erase 0).union (ofList 65 [64, 70])
    let t := full 66
    (∃ S, Made s S) ∧ (∃ T, Made t T) ∧ t.capacity ≤ s.capacity ∧ s.capacity = t.capacity ∧
      s.toList = (List.range 66).drop 2 ∧ (∀ i, i ∈ s.toList ↔ s.contains i = true) ∧
      s.count = s.toList.length ∧ s.first? = s.toList.head? ∧
      (s.adds 1 = true ↔ (s.insert 1).toList ≠ s.toList) ∧
      (s.grows t = true ↔ (s.union t).toList ≠ s.toList) ∧ (s = t ↔ s.toList = t.toList) := by
  intro s t
  have hs : Made s _ :=
    .union (.erase 0 (.diff (.full 66) (.ofList 200 [1, 64, 130]))) (.ofList 65 [64, 70]) (by decide)
  have ht : Made t _ := .full 66
  have hcapacity : s.capacity = t.capacity := by decide
  obtain ⟨⟨-, -, hcontains, -⟩, ⟨hcount, hfirst, -⟩, hone, hother⟩ := made_exact hs
  exact ⟨⟨_, hs⟩, ⟨_, ht⟩, hcapacity.ge, hcapacity, by decide +kernel, hcontains, hcount, hfirst,
    (hone 1).1, (hother ht).1 hcapacity.ge, (hother ht).2 hcapacity⟩

end Gazetteer.WordSet
