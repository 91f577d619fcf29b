/-!
# Bisection

`bisect p lo hi` looks for the place where a test that holds at first stops holding. Sorted columns
are searched with it: the rows that start at or before a position, the names below a name.

Main results:
* `bisect_eq_of_holds` fixes the answer of `bisect` for every test that holds below some place and
  fails from there on.
* `lt_bisect_iff`: the places below the answer are exactly those at which the test holds, for every
  test that keeps failing once it fails.
-/

namespace Gazetteer

/-- The first index of `lo..hi` at which `p` fails, `hi` if there is none.

This is the answer for a test that keeps failing once it fails; the range is halved at every
step. -/
def bisect (p : Nat → Bool) (lo hi : Nat) : Nat :=
  if lo < hi then
    if p ((lo + hi) / 2) then bisect p ((lo + hi) / 2 + 1) hi else bisect p lo ((lo + hi) / 2)
  else lo
termination_by hi - lo

/-- **The answer of a bisection**: the place `n` at which `p` turns from holding to failing. -/
theorem bisect_eq_of_holds {p : Nat → Bool} {lo hi n : Nat} (hlo : lo ≤ n) (hhi : n ≤ hi)
    (holds : ∀ i, lo ≤ i → i < n → p i = true) (fails : ∀ i, n ≤ i → i < hi → p i = false) :
    bisect p lo hi = n := by
  fun_induction bisect p lo hi with
  | case1 lo hi hlt hp ih =>
    have hn : (lo + hi) / 2 + 1 ≤ n := by
      by_cases h : (lo + hi) / 2 < n
      · omega
      · have := fails ((lo + hi) / 2) (by omega) (by omega)
        simp_all
    exact ih hn hhi (fun i h1 h2 => holds i (by omega) h2) fails
  | case2 lo hi hlt hp ih =>
    have hn : n ≤ (lo + hi) / 2 := by
      by_cases h : n ≤ (lo + hi) / 2
      · exact h
      · have := holds ((lo + hi) / 2) (by omega) (by omega)
        simp_all
    exact ih hlo hn holds (fun i h1 h2 => fails i h1 (by omega))
  | case3 lo hi hlt => omega

/-- A test that keeps failing once it fails turns at some place. -/
theorem exists_turn {p : Nat → Bool} :
    ∀ hi, (∀ i j, i ≤ j → j < hi → p j = true → p i = true) →
      ∃ n, n ≤ hi ∧ (∀ i, i < n → p i = true) ∧ ∀ i, n ≤ i → i < hi → p i = false
  | 0, _ => ⟨0, Nat.le_refl 0, fun i h => by omega, fun i _ h => by omega⟩
  | hi + 1, anti => by
    obtain ⟨n, hn, holds, fails⟩ :=
      exists_turn hi fun i j hij hj => anti i j hij (Nat.lt_succ_of_lt hj)
    cases hp : p hi with
    | true =>
      have all : ∀ i, i < hi + 1 → p i = true := fun i h =>
        anti i hi (Nat.le_of_lt_succ h) (Nat.lt_succ_self hi) hp
      exact ⟨hi + 1, Nat.le_refl _, all, fun i h1 h2 => by omega⟩
    | false =>
      refine ⟨n, Nat.le_succ_of_le hn, holds, fun i h1 h2 => ?_⟩
      by_cases h : i = hi
      · rw [h, hp]
      · exact fails i h1 (by omega)

/-- **The places below the answer of a bisection** are those at which the test holds. -/
theorem lt_bisect_iff {p : Nat → Bool} {hi i : Nat}
    (anti : ∀ i j, i ≤ j → j < hi → p j = true → p i = true) :
    i < bisect p 0 hi ↔ i < hi ∧ p i = true := by
  obtain ⟨n, hn, holds, fails⟩ := exists_turn hi anti
  rw [bisect_eq_of_holds (Nat.zero_le n) hn (fun i _ => holds i) fails]
  constructor
  · intro h
    exact ⟨Nat.lt_of_lt_of_le h hn, holds i h⟩
  · rintro ⟨h, hp⟩
    by_cases hin : i < n
    · exact hin
    · have := fails i (Nat.le_of_not_lt hin) h
      rw [hp] at this
      exact absurd this (by simp)

end Gazetteer
