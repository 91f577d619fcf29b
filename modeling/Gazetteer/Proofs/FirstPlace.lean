import Gazetteer.Proofs.Column
import Mathlib.Data.List.Nodup

/-!
# First places

An item of a list may stand at several places. Searches answer with the first of them, and they
come by it in different ways: by a scan, by bisection where no item is repeated, or by asking for
the first of two parts and only then for the second. `FirstIn` says what they have in common.

* `firstIn_findIdx?`: a scan.
* `firstIn_of_nodup`: any search of a list without repetitions.
* `FirstIn.append`: a search of two lists one after the other.
-/

namespace Gazetteer

variable {α : Type} {xs ys : List α} {x : α} {p q : Option Nat}

/-- **The first place of `x` in `xs`** is what `place?` says, and `x` is not in `xs` if it says
nothing. -/
def FirstIn (xs : List α) (x : α) (place? : Option Nat) : Prop :=
  ∀ i, place? = some i ↔ IsLeast {j | xs[j]? = some x} i

theorem firstIn_findIdx? [DecidableEq α] (xs : List α) (x : α) :
    FirstIn xs x (xs.findIdx? (· = x)) := by
  intro i
  rw [List.findIdx?_eq_some_iff_getElem]
  simp only [decide_eq_true_eq]
  constructor
  · rintro ⟨hi, hx, hbefore⟩
    refine ⟨List.getElem?_eq_some_iff.mpr ⟨hi, hx⟩, fun j hj => ?_⟩
    obtain ⟨_, hjx⟩ := List.getElem?_eq_some_iff.mp hj
    by_contra hlt
    exact hbefore j (not_le.mp hlt) hjx
  · rintro ⟨hi, hmin⟩
    obtain ⟨hlt, hx⟩ := List.getElem?_eq_some_iff.mp hi
    refine ⟨hlt, hx, fun j hji hjx => ?_⟩
    exact absurd (hmin (List.getElem?_eq_some_iff.mpr ⟨hji.trans hlt, hjx⟩)) (not_le.mpr hji)

/-- In a list without repetitions the only place of an item is the first. -/
theorem firstIn_of_nodup (h : xs.Nodup) (hp : ∀ i, p = some i ↔ xs[i]? = some x) :
    FirstIn xs x p := by
  intro i
  rw [hp i]
  constructor
  · intro hi
    refine ⟨hi, fun j hj => ?_⟩
    have hlt := (List.getElem?_eq_some_iff.mp hi).1
    exact ((List.getElem?_inj hlt h).mp (hi.trans hj.symm)).le
  · exact fun hi => hi.1

namespace FirstIn

theorem eq_none_iff (h : FirstIn xs x p) : p = none ↔ x ∉ xs := by
  rw [eq_none_iff_of_isLeast h, List.mem_iff_getElem?, not_exists]

/-- **Two lists one after the other**: an item that is in the first one is found there, and only an
item that is not is looked for in the second. -/
theorem append (hp : FirstIn xs x p) (hq : FirstIn ys x q) :
    FirstIn (xs ++ ys) x (p.or (q.map (xs.length + ·))) := by
  intro i
  cases p with
  | some k =>
    obtain ⟨hk, hmin⟩ := (hp k).mp rfl
    have hlt : k < xs.length := (List.getElem?_eq_some_iff.mp hk).1
    have hleast : IsLeast {j | (xs ++ ys)[j]? = some x} k := by
      refine ⟨(List.getElem?_append_left hlt).trans hk, fun j hj => ?_⟩
      by_contra hjk
      have hjlt : j < xs.length := (not_le.mp hjk).trans hlt
      exact hjk (hmin ((List.getElem?_append_left hjlt).symm.trans hj))
    rw [Option.some_or, Option.some.injEq]
    exact ⟨fun heq => heq ▸ hleast, fun hi => hleast.unique hi⟩
  | none =>
    have hnot : x ∉ xs := hp.eq_none_iff.mp rfl
    -- so every place of `x` lies in the second list
    have hplace : ∀ j, (xs ++ ys)[j]? = some x ↔ ∃ k, ys[k]? = some x ∧ xs.length + k = j := by
      intro j
      rcases lt_or_ge j xs.length with hlt | hge
      · rw [List.getElem?_append_left hlt]
        refine ⟨fun hj => absurd (List.mem_of_getElem? hj) hnot, ?_⟩
        rintro ⟨k, -, rfl⟩
        omega
      · rw [List.getElem?_append_right hge]
        refine ⟨fun hj => ⟨_, hj, by omega⟩, ?_⟩
        rintro ⟨k, hk, rfl⟩
        rwa [Nat.add_sub_cancel_left]
    simp only [Option.none_or, Option.map_eq_some_iff, hq _]
    constructor
    · rintro ⟨k, ⟨hk, hmin⟩, rfl⟩
      refine ⟨(hplace _).mpr ⟨k, hk, rfl⟩, fun j hj => ?_⟩
      obtain ⟨l, hl, rfl⟩ := (hplace j).mp hj
      exact Nat.add_le_add_left (hmin hl) _
    · rintro ⟨hi, hmin⟩
      obtain ⟨k, hk, rfl⟩ := (hplace i).mp hi
      refine ⟨k, ⟨hk, fun l hl => ?_⟩, rfl⟩
      exact Nat.le_of_add_le_add_left (hmin ((hplace _).mpr ⟨l, hl, rfl⟩))

end FirstIn

end Gazetteer
