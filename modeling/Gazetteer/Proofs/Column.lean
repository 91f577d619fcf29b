import Gazetteer.Bisect
import Mathlib.Data.List.Sort
import Mathlib.Data.Nat.SuccPred
import Mathlib.Order.Bounds.Basic
import Mathlib.Order.Nat

/-!
# Searching a column

What a search of a column finds is what a scan of all of it would find.

* `getLast?_filter_eq_bind`: the greatest place of an item that passes a test is the place of the
  last such item.
* `map_snd_filter_zipIdx`: the places of the items that pass a test.
* `takeWhile_eq_filter`: a column cut at the first item that fails a test.
* `lt_bisect_column_iff`, `find?_eq_bisect`: a bisection of a sorted column counts the items that
  pass a test, and finds the first item with a given value.
* `isLeast_iff_bisect`: the same by places, for a column that ascends only up to some place.
* `find?_eq_of_perm`: in which order a column is searched for its least item does not matter.
* `find?_eq_some_iff_of_pairwise`: the first item that passes a test, by the order of the column.
-/

namespace Gazetteer

variable {α : Type} {xs : List α}

/-! ## The last item that passes a test -/

/-- The places of the items that pass a test. -/
def PlacesOf (xs : List α) (p : α → Bool) : Set Nat := {i | ∃ x, xs[i]? = some x ∧ p x = true}

theorem filter_eq_nil_of_placesOf {p : α → Bool} (h : ∀ i, i ∉ PlacesOf xs p) :
    xs.filter p = [] := by
  refine List.filter_eq_nil_iff.mpr fun x hx hpx => ?_
  obtain ⟨i, hi⟩ := List.mem_iff_getElem?.mp hx
  exact h i ⟨x, hi, hpx⟩

/-- **The last item that passes a test** stands at the greatest place of such an item. -/
theorem getLast?_filter_eq_bind {p : α → Bool} {place? : Option Nat}
    (h : ∀ i, place? = some i ↔ IsGreatest (PlacesOf xs p) i) :
    (xs.filter p).getLast? = place?.bind (xs[·]?) := by
  cases place? with
  | none =>
    have hbdd : BddAbove (PlacesOf xs p) := by
      refine ⟨xs.length, ?_⟩
      rintro i ⟨x, hx, -⟩
      exact (List.getElem?_eq_some_iff.mp hx).1.le
    have hempty : ∀ i, i ∉ PlacesOf xs p := by
      intro i hi
      obtain ⟨m, hm⟩ := hbdd.exists_isGreatest_of_nonempty ⟨i, hi⟩
      exact absurd ((h m).mpr hm) (by simp)
    rw [filter_eq_nil_of_placesOf hempty]
    rfl
  | some i =>
    obtain ⟨⟨x, hx, hpx⟩, hmax⟩ := (h i).mp rfl
    obtain ⟨hlt, hget⟩ := List.getElem?_eq_some_iff.mp hx
    -- after place `i` nothing passes the test
    have hafter : (xs.drop (i + 1)).filter p = [] := by
      refine filter_eq_nil_of_placesOf ?_
      rintro j ⟨y, hy, hpy⟩
      rw [List.getElem?_drop] at hy
      have hle : i + 1 + j ≤ i := hmax ⟨y, hy, hpy⟩
      omega
    have hsplit : xs = xs.take i ++ x :: xs.drop (i + 1) := by
      rw [← hget, ← List.drop_eq_getElem_cons hlt, List.take_append_drop]
    have hfilter : xs.filter p = (xs.take i).filter p ++ [x] := by
      conv_lhs => rw [hsplit]
      rw [List.filter_append, List.filter_cons_of_pos hpx, hafter]
    rw [hfilter, List.getLast?_concat, Option.bind_some, hx]

/-- The places of the items that pass a test, ascending. -/
theorem map_snd_filter_zipIdx (xs : List α) (p : α → Bool) :
    (xs.zipIdx.filter fun x => p x.1).map (·.2) =
      (List.range xs.length).filter fun i => xs[i]?.any p := by
  have hascending : ((xs.zipIdx.filter fun x => p x.1).map (·.2)).Pairwise (· < ·) := by
    have hplaces : (xs.zipIdx.map (·.2)).Pairwise (· < ·) := by
      rw [List.zipIdx_map_snd]
      exact List.pairwise_lt_range'
    exact hplaces.sublist (List.filter_sublist.map _)
  refine List.Pairwise.eq_of_mem_iff hascending (List.pairwise_lt_range.filter _) fun i => ?_
  rw [List.mem_filter, List.mem_range, List.mem_map, Option.any_eq_true]
  constructor
  · rintro ⟨⟨x, j⟩, hx, rfl⟩
    obtain ⟨hget, hp⟩ := List.mem_filter.mp hx
    rw [List.mem_zipIdx_iff_getElem?] at hget
    exact ⟨(List.getElem?_eq_some_iff.mp hget).1, x, hget, hp⟩
  · rintro ⟨-, x, hget, hp⟩
    exact ⟨(x, i), List.mem_filter.mpr ⟨List.mem_zipIdx_iff_getElem?.mpr hget, hp⟩, rfl⟩

/-! ## Columns that pass a test at first -/

/-- Of a column in which, once an item fails a test, all later ones do, the items up to the first
failure are all that pass. -/
theorem takeWhile_eq_filter {p : α → Bool} (h : xs.Pairwise fun a b => p b = true → p a = true) :
    xs.takeWhile p = xs.filter p := by
  induction xs with
  | nil => rfl
  | cons x xs ih =>
    obtain ⟨hx, hrest⟩ := List.pairwise_cons.mp h
    by_cases hpx : p x = true
    · rw [List.takeWhile_cons_of_pos hpx, List.filter_cons_of_pos hpx, ih hrest]
    · have hnone : xs.filter p = [] :=
        List.filter_eq_nil_iff.mpr fun y hy hpy => hpx (hx y hy hpy)
      rw [List.takeWhile_cons_of_neg hpx, List.filter_cons_of_neg hpx, hnone]

/-! ## Bisecting a column -/

/-- The bisection of a column counts the items that pass a test which, once failed, is failed by
all later items. -/
theorem lt_bisect_column_iff {p : α → Bool} (h : xs.Pairwise fun a b => p b = true → p a = true)
    {i : Nat} :
    i < bisect (fun i => xs[i]?.any p) 0 xs.length ↔ ∃ x, xs[i]? = some x ∧ p x = true := by
  rw [lt_bisect_iff, Option.any_eq_true, and_iff_right_iff_imp]
  · rintro ⟨x, hx, -⟩
    exact (List.getElem?_eq_some_iff.mp hx).1
  · intro i j hij hj hpj
    rw [Option.any_eq_true] at hpj ⊢
    obtain ⟨y, hy, hpy⟩ := hpj
    have hx := List.getElem?_eq_getElem (hij.trans_lt hj)
    refine ⟨_, hx, ?_⟩
    rcases hij.eq_or_lt with rfl | hlt
    · rwa [Option.some.inj (hx.symm.trans hy)]
    · obtain ⟨_, rfl⟩ := List.getElem?_eq_some_iff.mp hy
      exact List.pairwise_iff_getElem.mp h i j _ _ hlt hpy

/-- **Bisection finds the first item with a value** of a column that is sorted by this value. -/
theorem find?_eq_bisect {β : Type} [LinearOrder β] {value : α → β}
    (h : xs.Pairwise fun a b => value a ≤ value b) (v : β) :
    xs.find? (fun x => value x = v) =
      xs[bisect (fun i => xs[i]?.any (value · < v)) 0 xs.length]?.bind fun x =>
        if value x = v then some x else none := by
  have hplace : ∀ i, i < bisect (fun i => xs[i]?.any (value · < v)) 0 xs.length ↔
      ∃ x, xs[i]? = some x ∧ value x < v := by
    intro i
    rw [lt_bisect_column_iff]
    · simp only [decide_eq_true_eq]
    · refine h.imp fun {a b} hab hb => ?_
      exact decide_eq_true (hab.trans_lt (of_decide_eq_true hb))
  generalize bisect (fun i => xs[i]?.any (value · < v)) 0 xs.length = n at hplace
  have hbefore : (xs.take n).find? (fun x => value x = v) = none := by
    refine List.find?_eq_none.mpr fun x hx => ?_
    obtain ⟨i, hi⟩ := List.mem_iff_getElem?.mp hx
    rw [List.getElem?_take] at hi
    split at hi
    · rename_i hin
      obtain ⟨y, hy, hlt⟩ := (hplace i).mp hin
      rw [Option.some.inj (hi.symm.trans hy), decide_eq_true_eq]
      exact hlt.ne
    · exact absurd hi (by simp)
  conv_lhs => rw [← List.take_append_drop n xs]
  rw [List.find?_append, hbefore, Option.none_or]
  cases hx : xs[n]? with
  | none =>
    rw [List.drop_eq_nil_of_le (List.getElem?_eq_none_iff.mp hx)]
    rfl
  | some x =>
    obtain ⟨hlt, hget⟩ := List.getElem?_eq_some_iff.mp hx
    have hdrop : xs.drop n = x :: xs.drop (n + 1) := by rw [← hget, ← List.drop_eq_getElem_cons]
    rw [hdrop, List.find?_cons, Option.bind_some]
    by_cases hv : value x = v
    · simp [hv]
    · -- the value of `x` is above `v`, and so are those after it
      have hle : v ≤ value x := not_lt.mp fun hbelow =>
        absurd ((hplace n).mpr ⟨x, hx, hbelow⟩) (lt_irrefl n)
      have hrest : ∀ y ∈ xs.drop (n + 1), value x ≤ value y :=
        (List.pairwise_cons.mp (hdrop ▸ h.sublist (List.drop_sublist n xs))).1
      have hnone : (xs.drop (n + 1)).find? (fun y => value y = v) = none := by
        refine List.find?_eq_none.mpr fun y hy => ?_
        rw [decide_eq_true_eq]
        exact ((lt_of_le_of_ne hle (Ne.symm hv)).trans_le (hrest y hy)).ne'
      simp [hv, hnone]

/-- **Bisection finds the least place of a value** among the first `n` places of a column whose
values ascend up to there. -/
theorem isLeast_iff_bisect {β : Type} [LinearOrder β] {value? : Nat → Option β} {n : Nat}
    (hvalue : ∀ i, i < n → ∃ a, value? i = some a)
    (hmono : ∀ {i j a b}, i < j → j < n → value? i = some a → value? j = some b → a ≤ b) (v : β)
    (i : Nat) :
    IsLeast {j | j < n ∧ value? j = some v} i ↔
      bisect (fun j => (value? j).any (· < v)) 0 n = i ∧ i < n ∧ value? i = some v := by
  have hplace : ∀ j, j < bisect (fun j => (value? j).any (· < v)) 0 n ↔
      j < n ∧ ∃ a, value? j = some a ∧ a < v := by
    intro j
    rw [lt_bisect_iff, Option.any_eq_true]
    · simp only [decide_eq_true_eq]
    · intro i j hij hj hlt
      rw [Option.any_eq_true] at hlt ⊢
      rcases hij.eq_or_lt with rfl | hij
      · exact hlt
      · obtain ⟨b, hb, hbv⟩ := hlt
        obtain ⟨a, ha⟩ := hvalue i (hij.trans hj)
        exact ⟨a, ha, decide_eq_true ((hmono hij hj ha hb).trans_lt (of_decide_eq_true hbv))⟩
  generalize bisect (fun j => (value? j).any (· < v)) 0 n = k at hplace
  have hbelow : ∀ {j}, value? j = some v → k ≤ j := by
    intro j hj
    by_contra hlt
    obtain ⟨-, a, ha, hav⟩ := (hplace j).mp (not_le.mp hlt)
    rw [Option.some.inj (ha.symm.trans hj)] at hav
    exact lt_irrefl v hav
  constructor
  · rintro ⟨⟨hin, hi⟩, hmin⟩
    refine ⟨?_, hin, hi⟩
    by_contra hne
    have hki : k < i := lt_of_le_of_ne (hbelow hi) hne
    obtain ⟨a, ha⟩ := hvalue k (hki.trans hin)
    have hva : v ≤ a := by
      by_contra hlt
      exact lt_irrefl k ((hplace k).mpr ⟨hki.trans hin, a, ha, not_le.mp hlt⟩)
    have hav : a = v := le_antisymm (hmono hki hin ha hi) hva
    rw [hav] at ha
    exact absurd (hmin ⟨hki.trans hin, ha⟩) (not_le.mpr hki)
  · rintro ⟨rfl, hk, hv⟩
    exact ⟨⟨hk, hv⟩, fun j hj => hbelow hj.2⟩

/-- What is found at the least place there is, if there is one, is not found iff there is none. -/
theorem eq_none_iff_of_isLeast {place? : Option Nat} {P : Nat → Prop}
    (h : ∀ i, place? = some i ↔ IsLeast {j | P j} i) : place? = none ↔ ∀ j, ¬ P j := by
  constructor
  · intro hnone j hj
    classical
    have hex : ∃ j, P j := ⟨j, hj⟩
    rw [(h _).mpr (Nat.isLeast_find hex)] at hnone
    exact absurd hnone (by simp)
  · intro hno
    cases hi : place? with
    | none => rfl
    | some i => exact absurd ((h i).mp hi).1 (hno i)

/-- What is read off the item that bisection finds. -/
theorem map_find?_eq_bisect {β γ : Type} [LinearOrder β] {value : α → β} {out : α → γ}
    (h : xs.Pairwise fun a b => value a ≤ value b) (v : β) :
    (xs.find? fun x => value x = v).map out =
      xs[bisect (fun i => xs[i]?.any (value · < v)) 0 xs.length]?.bind fun x =>
        if value x = v then some (out x) else none := by
  rw [find?_eq_bisect h v, Option.map_bind]
  refine congrArg _ (funext fun x => ?_)
  exact apply_ite (Option.map out) (value x = v) (some x) none

/-! ## Columns in another order -/

/-- Two columns with the same items have the same first item that passes a test, if both list the
items that pass it in ascending order. -/
theorem find?_eq_of_perm {ys : List α} {p : α → Bool} (key : α → Nat) (hperm : xs.Perm ys)
    (hx : xs.Pairwise fun a b => p a = true → p b = true → key a < key b)
    (hy : ys.Pairwise fun a b => p a = true → p b = true → key a < key b) :
    xs.find? p = ys.find? p := by
  have hsorted : ∀ {zs : List α}, zs.Pairwise (fun a b => p a = true → p b = true → key a < key b) →
      (zs.filter p).Pairwise fun a b => key a < key b := by
    intro zs hzs
    refine List.pairwise_filter.mpr (hzs.imp fun {a b} hab ha hb => hab ha hb)
  have hfilter : xs.filter p = ys.filter p := by
    refine (hperm.filter p).eq_of_pairwise (fun a b _ _ hab hba => ?_) (hsorted hx) (hsorted hy)
    exact absurd hab (not_lt.mpr hba.le)
  rw [← List.head?_filter, ← List.head?_filter, hfilter]

/-- **The first item that passes a test**: no item before it in the order of the column does. -/
theorem find?_eq_some_iff_of_pairwise {R : α → α → Prop} {p : α → Bool} (h : xs.Pairwise R)
    (hasymm : ∀ a b, R a b → ¬ R b a) {x : α} :
    xs.find? p = some x ↔ x ∈ xs ∧ p x = true ∧ ∀ y ∈ xs, R y x → p y = false := by
  constructor
  · intro hfind
    obtain ⟨hpx, before, after, rfl, hbefore⟩ := List.find?_eq_some_iff_append.mp hfind
    refine ⟨by simp, hpx, fun y hy hyx => ?_⟩
    rw [List.mem_append, List.mem_cons] at hy
    rcases hy with hy | rfl | hy
    · simpa using hbefore y hy
    · exact absurd hyx (hasymm y y hyx)
    · have hxy := (List.pairwise_cons.mp (List.pairwise_append.mp h).2.1).1 y hy
      exact absurd hyx (hasymm x y hxy)
  · rintro ⟨hx, hpx, hall⟩
    obtain ⟨before, after, rfl⟩ := List.append_of_mem hx
    refine List.find?_eq_some_iff_append.mpr ⟨hpx, before, after, rfl, fun y hy => ?_⟩
    have hyx := (List.pairwise_append.mp h).2.2 y hy x List.mem_cons_self
    rw [hall y (List.mem_append_left _ hy) hyx]
    rfl

end Gazetteer
