import Gazetteer.WordSet.Members
import Mathlib.Algebra.Group.Nat.Defs

/-!
# What a scan gives out

A scan never compares two indices. It gives out the lowest bit of a word, clears it by an
arithmetical trick, and passes over words that are used up. All the same it gives out every member
once, in ascending order, and then ends.

* `getLsbD_and_sub_one`: the trick clears the lowest bit of a word and no other.
* `next?_eq_some`, `next?_eq_none`: one step gives out the least member that is left, and leaves
  all others.
* `Scan.gives_toList`: step after step the scan comes to its end.
* `mem_toList`, `pairwise_toList`: what the scan of a set gives out.
-/

namespace Gazetteer.WordSet

/-! ## The lowest bit of a word -/

/-- A number is its lowest bit and what is above it. -/
theorem eq_add_two_pow {n t : Nat} (hbit : n.testBit t = true)
    (hlow : ∀ i, i < t → n.testBit i = false) : n = 2 ^ (t + 1) * (n / 2 ^ (t + 1)) + 2 ^ t := by
  have hmod : n % 2 ^ (t + 1) = 2 ^ t := by
    refine Nat.eq_of_testBit_eq fun i => ?_
    rw [Nat.testBit_mod_two_pow, Nat.testBit_two_pow]
    rcases Nat.lt_trichotomy i t with hlt | rfl | hgt
    · simp [hlow i hlt, Nat.ne_of_gt hlt]
    · simp [hbit]
    · simp [Nat.ne_of_lt hgt, show ¬ i < t + 1 by omega]
  conv => lhs; rw [← Nat.div_add_mod n (2 ^ (t + 1)), hmod]

/-- Less one, the lowest bit of a number is cleared and the bits above it are as they were. -/
theorem testBit_sub_one {t q i : Nat} (h : t ≤ i) :
    (2 ^ (t + 1) * q + 2 ^ t - 1).testBit i =
      ((2 ^ (t + 1) * q + 2 ^ t).testBit i && decide (i ≠ t)) := by
  -- nothing is borrowed from `q`: what is left of `2 ^ t` is all below `t`
  have hpos : 1 ≤ 2 ^ t := Nat.two_pow_pos t
  have hlt : 2 ^ t < 2 ^ (t + 1) := Nat.pow_lt_pow_right (by decide) (Nat.lt_succ_self t)
  rw [Nat.add_sub_assoc hpos, Nat.testBit_two_pow_mul_add _ (Nat.lt_of_le_of_lt (Nat.sub_le _ _) hlt),
    Nat.testBit_two_pow_mul_add _ hlt]
  rcases Nat.eq_or_lt_of_le h with rfl | hgt
  · simp
  · simp [show ¬ i < t + 1 by omega, Nat.ne_of_gt hgt]

/-- **Clearing the lowest bit** of a word leaves all others. -/
theorem getLsbD_and_sub_one {word : BitVec 64} (h : word ≠ 0#64) (i : Nat) :
    (word &&& (word - 1#64)).getLsbD i = (word.getLsbD i && decide (i ≠ word.ctz.toNat)) := by
  have hbit : word.toNat.testBit word.ctz.toNat = true := BitVec.getLsbD_true_ctz_of_ne_zero h
  have hlow : ∀ i, i < word.ctz.toNat → word.toNat.testBit i = false :=
    fun i hi => BitVec.getLsbD_false_of_lt_ctz hi
  have hsub : (word - 1#64).toNat = word.toNat - 1 := by bv_omega
  rw [BitVec.getLsbD_and, ← BitVec.testBit_toNat, ← BitVec.testBit_toNat, hsub]
  -- below the lowest bit `word - 1` is all ones, but there `word` has none
  by_cases hi : i < word.ctz.toNat
  · rw [hlow i hi, Bool.false_and, Bool.false_and]
  · rw [eq_add_two_pow hbit hlow, testBit_sub_one (Nat.le_of_not_lt hi), ← Bool.and_assoc,
      Bool.and_self]

/-! ## One step -/

namespace Scan

/-- Word `k` of what is left: nothing before the word at hand, and nothing after the last one. -/
def word (c : Scan) (k : Nat) : BitVec 64 :=
  if k < c.place then 0#64 else (c.current :: c.later)[k - c.place]?.getD 0#64

/-- The bit of index `i` in what is left. -/
def bit (c : Scan) (i : Nat) : Bool := (c.word (i / 64)).getLsbD (i % 64)

/-- A word that is used up can be passed over. -/
theorem word_next (place : Nat) (next : BitVec 64) (later : List (BitVec 64)) :
    word ⟨place, 0#64, next :: later⟩ = word ⟨place + 1, next, later⟩ := by
  funext k
  unfold word
  rcases Nat.lt_trichotomy k place with hlt | rfl | hgt
  · simp [hlt, Nat.lt_succ_of_lt hlt]
  · simp
  · have hsub : k - place = k - (place + 1) + 1 := by omega
    rw [if_neg (Nat.lt_asymm hgt), if_neg (Nat.not_lt.mpr hgt), hsub, List.getElem?_cons_succ]

theorem bit_next (place : Nat) (next : BitVec 64) (later : List (BitVec 64)) :
    bit ⟨place, 0#64, next :: later⟩ = bit ⟨place + 1, next, later⟩ := by
  funext i
  rw [bit, bit, word_next]

/-- A scan that is at its last word, which is used up, has nothing left. -/
theorem bit_done (place i : Nat) : bit ⟨place, 0#64, []⟩ i = false := by
  unfold bit word
  split
  · simp
  · cases hk : i / 64 - place <;> simp

/-- **What a step does** that gives out `i`: it is the least index that is left, and all others
stay. -/
structure Advances (c : Scan) (i : Nat) (c' : Scan) : Prop where
  bit_self : c.bit i = true
  least : ∀ j, c.bit j = true → i ≤ j
  bit_iff : ∀ j, c'.bit j = true ↔ c.bit j = true ∧ j ≠ i

/-- The bits of the word at hand. -/
theorem bit_current {place j : Nat} {current : BitVec 64} {later : List (BitVec 64)}
    (h : j / 64 = place) : bit ⟨place, current, later⟩ j = current.getLsbD (j % 64) := by
  simp [bit, word, h]

/-- The bits of other words do not depend on the word at hand. -/
theorem bit_of_ne {place j : Nat} {current : BitVec 64} {later : List (BitVec 64)}
    (h : j / 64 ≠ place) (other : BitVec 64) :
    bit ⟨place, current, later⟩ j = bit ⟨place, other, later⟩ j := by
  unfold bit word
  split
  · rfl
  · rename_i hge
    have hsub : j / 64 - place = j / 64 - (place + 1) + 1 := by
      simp only at hge
      omega
    simp only [hsub, List.getElem?_cons_succ]

theorem place_le_of_bit {c : Scan} {j : Nat} (h : c.bit j = true) : c.place ≤ j / 64 := by
  unfold bit word at h
  split at h
  · simp at h
  · rename_i hge
    exact Nat.le_of_not_lt hge

/-- A step within the word at hand. -/
theorem advances_current {current : BitVec 64} (hcurrent : current ≠ 0#64) (place : Nat)
    (later : List (BitVec 64)) :
    Advances ⟨place, current, later⟩ (64 * place + current.ctz.toNat)
      ⟨place, current &&& (current - 1#64), later⟩ := by
  have hbit : current.getLsbD current.ctz.toNat = true :=
    BitVec.getLsbD_true_ctz_of_ne_zero hcurrent
  have hlt : current.ctz.toNat < 64 := BitVec.lt_of_getLsbD hbit
  refine ⟨?_, fun j hj => ?_, fun j => ?_⟩
  · rw [bit_current (by omega)]
    rwa [show (64 * place + current.ctz.toNat) % 64 = current.ctz.toNat by omega]
  · have hplace : place ≤ j / 64 := place_le_of_bit hj
    by_cases hword : j / 64 = place
    · rw [bit_current hword] at hj
      have hle : current.ctz.toNat ≤ j % 64 := by
        refine Nat.le_of_not_lt fun hlow => ?_
        rw [BitVec.getLsbD_false_of_lt_ctz hlow] at hj
        exact absurd hj (by simp)
      omega
    · omega
  · by_cases hword : j / 64 = place
    · have hne : j % 64 ≠ current.ctz.toNat ↔ j ≠ 64 * place + current.ctz.toNat := by omega
      rw [bit_current hword, bit_current hword, getLsbD_and_sub_one hcurrent, Bool.and_eq_true,
        decide_eq_true_eq, hne]
    · have hne : j ≠ 64 * place + current.ctz.toNat := by omega
      rw [bit_of_ne hword current, and_iff_left hne]

theorem advances_of_nextIn {place i : Nat} {current : BitVec 64} {later : List (BitVec 64)}
    {c : Scan} (h : nextIn place current later = some (i, c)) :
    Advances ⟨place, current, later⟩ i c := by
  fun_induction nextIn place current later with
  | case1 => exact absurd h (by simp)
  | case2 place next later ih =>
    obtain ⟨hself, hleast, hiff⟩ := ih h
    rw [← bit_next] at hself hleast hiff
    exact ⟨hself, hleast, hiff⟩
  | case3 later place current hcurrent =>
    obtain ⟨rfl, rfl⟩ := Prod.mk.inj (Option.some.inj h)
    exact advances_current hcurrent place later

theorem bit_of_nextIn_eq_none {place : Nat} {current : BitVec 64} {later : List (BitVec 64)}
    (h : nextIn place current later = none) (i : Nat) :
    bit ⟨place, current, later⟩ i = false := by
  fun_induction nextIn place current later with
  | case1 place => exact bit_done place i
  | case2 place next later ih =>
    rw [bit_next]
    exact ih h
  | case3 => exact absurd h (by simp)

variable {c c' : Scan} {i : Nat}

/-- **One step** gives out the least index that is left. -/
theorem next?_eq_some (h : c.next? = some (i, c')) : Advances c i c' := advances_of_nextIn h

/-- A scan ends when nothing is left. -/
theorem next?_eq_none (h : c.next? = none) (i : Nat) : c.bit i = false :=
  bit_of_nextIn_eq_none h i

/-! ## All steps -/

/-- **The scan gives out `l` and ends.** -/
inductive Gives : Scan → List Nat → Prop
  | done {c : Scan} : c.next? = none → Gives c []
  | more {c c' : Scan} {i : Nat} {l : List Nat} :
      c.next? = some (i, c') → Gives c' l → Gives c (i :: l)

/-- **Every scan ends.** -/
theorem gives_toList (c : Scan) : c.Gives c.toList := by
  fun_induction toList c with
  | case1 c h => exact .done h
  | case2 c i c' h ih => exact .more h ih

theorem Gives.mem_iff {l : List Nat} (h : c.Gives l) : i ∈ l ↔ c.bit i = true := by
  induction h with
  | done hnone => simp [next?_eq_none hnone]
  | more hsome _ ih =>
    have hstep := next?_eq_some hsome
    rw [List.mem_cons, ih, hstep.bit_iff]
    constructor
    · rintro (rfl | ⟨hi, -⟩)
      · exact hstep.bit_self
      · exact hi
    · exact fun hi => (Decidable.em (_ = _)).imp_right fun hne => ⟨hi, hne⟩

theorem Gives.pairwise {l : List Nat} (h : c.Gives l) : l.Pairwise (· < ·) := by
  induction h with
  | done => exact List.Pairwise.nil
  | more hsome hrest ih =>
    have hstep := next?_eq_some hsome
    refine List.pairwise_cons.mpr ⟨fun j hj => ?_, ih⟩
    obtain ⟨hbit, hne⟩ := (hstep.bit_iff j).mp (hrest.mem_iff.mp hj)
    exact Nat.lt_of_le_of_ne (hstep.least j hbit) (Ne.symm hne)

theorem Gives.head? {l : List Nat} (h : c.Gives l) : c.next?.map (·.1) = l.head? := by
  cases h with
  | done hnone => rw [hnone]; rfl
  | more hsome _ => rw [hsome]; rfl

end Scan

/-! ## The scan of a set -/

variable {s : WordSet} {i : Nat}

theorem word_scan (s : WordSet) (k : Nat) : s.scan.word k = s.word k := by
  cases k with
  | zero => rfl
  | succ k => simp [Scan.word, scan, WordSet.word]

theorem bit_scan (s : WordSet) (i : Nat) : s.scan.bit i = s.bit i := by
  rw [Scan.bit, word_scan, bit]

theorem gives_toList (s : WordSet) : s.scan.Gives s.toList := s.scan.gives_toList

theorem mem_toList : i ∈ s.toList ↔ s.bit i = true := by
  rw [s.gives_toList.mem_iff, bit_scan]

theorem pairwise_toList (s : WordSet) : s.toList.Pairwise (· < ·) := s.gives_toList.pairwise

theorem first?_eq_head? (s : WordSet) : s.first? = s.toList.head? := s.gives_toList.head?

end Gazetteer.WordSet
