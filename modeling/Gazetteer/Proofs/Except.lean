import Mathlib.Data.List.Forall2

/-!
# Computations that may be refused

A computation in steps gives a result iff every step does.

* `mapM_eq_ok_iff`: a step for each item of a list gives a list of results iff each step gives the
  result at the same place.
* `exists_kept_of_mapM`: if a step may leave nothing of an item, what is left belongs to some of
  the items, in their order; `filterMap_of_mapM` says what it is.
* `refusal?_mapM`: the first step that is refused is the refusal of them all.
-/

namespace Gazetteer

variable {ε α β γ : Type}

theorem bind_eq_ok_iff {x : Except ε α} {f : α → Except ε β} {b : β} :
    (x >>= f) = .ok b ↔ ∃ a, x = .ok a ∧ f a = .ok b := by
  cases x with
  | error e => simp [bind, Except.bind]
  | ok a => simp [bind, Except.bind]

theorem map_eq_ok_iff {x : Except ε α} {f : α → β} {b : β} :
    x.map f = .ok b ↔ ∃ a, x = .ok a ∧ f a = b := by
  cases x with
  | error e => simp [Except.map]
  | ok a => simp [Except.map]

/-- **A step for each item**, all of them taken. -/
theorem mapM_eq_ok_iff {f : α → Except ε β} {xs : List α} {ys : List β} :
    xs.mapM f = .ok ys ↔ List.Forall₂ (fun x y => f x = .ok y) xs ys := by
  induction xs generalizing ys with
  | nil =>
    rw [List.mapM_nil, List.forall₂_nil_left_iff]
    exact ⟨fun h => (Except.ok.inj h).symm, fun h => congrArg Except.ok h.symm⟩
  | cons x xs ih =>
    rw [List.mapM_cons, bind_eq_ok_iff, List.forall₂_cons_left_iff]
    simp only [bind_eq_ok_iff, ih]
    constructor
    · rintro ⟨y, hy, rest, hrest, h⟩
      exact ⟨y, rest, hy, hrest, (Except.ok.inj h).symm⟩
    · rintro ⟨y, rest, hy, hrest, rfl⟩
      exact ⟨y, hy, rest, hrest, rfl⟩

/-- Steps that are all taken give, of each item, what `g` says. -/
theorem mapM_map_eq_ok {f : β → Except ε γ} {h : α → β} {g : α → γ} {xs : List α}
    (hf : ∀ x ∈ xs, f (h x) = .ok (g x)) : (xs.map h).mapM f = .ok (xs.map g) := by
  rw [mapM_eq_ok_iff, List.forall₂_map_left_iff, List.forall₂_map_right_iff]
  exact List.forall₂_same.mpr hf

/-! ## Steps that may leave nothing -/

theorem exists_kept_of_mapM {f : α → Except ε (Option β)} {xs : List α} {left : List (Option β)}
    (h : xs.mapM f = .ok left) :
    ∃ kept, kept.Sublist xs ∧
      List.Forall₂ (fun x y => f x = .ok (some y)) kept (left.filterMap id) := by
  rw [mapM_eq_ok_iff] at h
  induction h with
  | nil => exact ⟨[], .slnil, .nil⟩
  | @cons x o xs left hx _ ih =>
    obtain ⟨kept, hsublist, hkept⟩ := ih
    cases o with
    | none => exact ⟨kept, hsublist.cons x, hkept⟩
    | some y => exact ⟨x :: kept, hsublist.cons_cons x, .cons hx hkept⟩

/-- What a step leaves, nothing if it is refused. -/
def left? : Except ε (Option β) → Option β
  | .ok o => o
  | .error _ => none

theorem filterMap_of_mapM {f : α → Except ε (Option β)} {xs : List α} {left : List (Option β)}
    (h : xs.mapM f = .ok left) : left.filterMap id = xs.filterMap fun x => left? (f x) := by
  rw [mapM_eq_ok_iff] at h
  induction h with
  | nil => rfl
  | @cons x o xs left hx _ ih =>
    rw [List.filterMap_cons, List.filterMap_cons, hx, ih]
    rfl

theorem forall_of_forall₂ {R : α → β → Prop} {P : β → Prop} {xs : List α} {ys : List β}
    (h : List.Forall₂ R xs ys) (hP : ∀ x ∈ xs, ∀ y, R x y → P y) : ∀ y ∈ ys, P y := by
  induction h with
  | nil => exact fun y hy => absurd hy List.not_mem_nil
  | @cons x y xs ys hxy _ ih =>
    have hrest := ih fun a ha => hP a (List.mem_cons_of_mem x ha)
    intro b hb
    rcases List.mem_cons.mp hb with rfl | hb
    · exact hP x List.mem_cons_self b hxy
    · exact hrest b hb

theorem map_eq_map_of_forall₂ {R : α → β → Prop} {f : α → γ} {g : β → γ} {xs : List α}
    {ys : List β} (h : List.Forall₂ R xs ys) (hR : ∀ x y, R x y → g y = f x) :
    ys.map g = xs.map f := by
  induction h with
  | nil => rfl
  | @cons x y xs ys hxy _ ih => rw [List.map_cons, List.map_cons, hR x y hxy, ih]

/-! ## Refusals -/

/-- Why a computation is refused, `none` if it gives a result. -/
def refusal? : Except ε α → Option ε
  | .ok _ => none
  | .error x => some x

theorem refusal?_eq_some_iff {c : Except ε α} {x : ε} : refusal? c = some x ↔ c = .error x := by
  cases c <;> simp [refusal?]

/-- A refusal of the first part comes before one of the rest. -/
theorem refusal?_bind {c : Except ε α} {f : α → Except ε β} {rest : Option ε}
    (h : ∀ a, c = .ok a → refusal? (f a) = rest) :
    refusal? (c >>= f) = (refusal? c).or rest := by
  cases c with
  | error x => rfl
  | ok a => exact h a rfl

theorem refusal?_bind_pure {c : Except ε α} {f : α → β} :
    refusal? (c >>= fun a => pure (f a)) = refusal? c := by
  cases c <;> rfl

/-- **The first step that is refused** is the refusal of them all. -/
theorem refusal?_mapM (f : α → Except ε β) (xs : List α) :
    refusal? (xs.mapM f) = xs.findSome? fun x => refusal? (f x) := by
  induction xs with
  | nil => rfl
  | cons x xs ih =>
    rw [List.mapM_cons, refusal?_bind fun _ _ => refusal?_bind_pure, ih, List.findSome?_cons]
    cases refusal? (f x) <;> rfl

end Gazetteer
