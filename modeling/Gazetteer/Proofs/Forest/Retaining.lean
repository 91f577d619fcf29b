import Gazetteer.Forest.Rebuild
import Gazetteer.Proofs.Forest.CarriedOver

/-!
# Retaining some rows of a forest

`retain` offers the rows that it keeps to a draft, and a row that was refused there would be lost
without a word. None is: whatever rows are left out, those that are kept still admit each other, and
this is all that a draft asks for (`WellFormed.exists_addAll_keptEntries`).

A row whose parent is left out moves up to the nearest row around it that is kept
(`WellFormed.carriedOver_retain`).
-/

namespace Gazetteer.Forest

variable {κ : Type} {f : Forest κ} {keep : Nat → Interval κ → Bool}

/-- Row `i` is kept. -/
def keeps (f : Forest κ) (keep : Nat → Interval κ → Bool) (i : Nat) : Bool :=
  (f.get? i).any (keep i)

/-- The keys and spans of the rows that are kept, in order. -/
def keptEntries (f : Forest κ) (keep : Nat → Interval κ → Bool) : List (Option κ × Span) :=
  (f.rows.toList.zipIdx.filter fun x => keep x.2 x.1).map fun x => (x.1.key, x.1.span)

/-- What is kept of a row, given with its index. -/
def keptRow? (keep : Nat → Interval κ → Bool) (x : Interval κ × Nat) : Option (Option κ × Span) :=
  if keep x.2 x.1 then some (x.1.key, x.1.span) else none

/-- What is kept of row `i`. -/
def kept? (f : Forest κ) (keep : Nat → Interval κ → Bool) (i : Nat) : Option (Option κ × Span) :=
  (f.get? i).bind fun r => keptRow? keep (r, i)

/-- The place of row `i` among the rows that are kept: the number of rows kept before it. -/
def placeKept (f : Forest κ) (keep : Nat → Interval κ → Bool) (i : Nat) : Nat :=
  keptBefore (keptRow? keep) f.rows.toList.zipIdx i

/-- The nearest of the rows around row `i` that is kept. -/
def nearestKept? (f : Forest κ) (keep : Nat → Interval κ → Bool) (i : Nat) : Option Nat :=
  (lineage f.parent? i).tail.find? (f.keeps keep)

/-! ## What is kept -/

theorem kept?_of_get? {i : Nat} {r : Interval κ} (hi : f.get? i = some r)
    (hkeep : keep i r = true) : f.kept? keep i = some (r.key, r.span) := by
  rw [kept?, hi, Option.bind_some, keptRow?, if_pos hkeep]

theorem span?_of_kept? {i : Nat} {c : Option κ × Span} (hi : f.kept? keep i = some c) :
    f.span? i = some c.2 := by
  obtain ⟨r, hr, hc⟩ := Option.bind_eq_some_iff.mp hi
  obtain ⟨-, hrow⟩ := Option.ite_none_right_eq_some.mp hc
  cases hrow
  exact span?_of_get? hr

theorem isSome_kept? (f : Forest κ) (keep : Nat → Interval κ → Bool) (i : Nat) :
    (f.kept? keep i).isSome = f.keeps keep i := by
  unfold kept? keeps keptRow?
  cases f.get? i with
  | none => rfl
  | some r => cases hkeep : keep i r <;> simp [hkeep]

theorem getElem?_zipIdx_bind (f : Forest κ) (keep : Nat → Interval κ → Bool) (i : Nat) :
    f.rows.toList.zipIdx[i]?.bind (keptRow? keep) = f.kept? keep i := by
  rw [List.getElem?_zipIdx, Array.getElem?_toList, kept?, get?, Nat.zero_add, Option.bind_map]
  rfl

theorem keptEntries_eq_filterMap (f : Forest κ) (keep : Nat → Interval κ → Bool) :
    f.keptEntries keep = f.rows.toList.zipIdx.filterMap (keptRow? keep) := by
  rw [keptEntries, ← List.filterMap_eq_map, List.filterMap_filter]
  rfl

theorem keptEntries_sublist (f : Forest κ) (keep : Nat → Interval κ → Bool) :
    (f.keptEntries keep).Sublist f.entries := by
  have hall : f.entries = f.rows.toList.zipIdx.map fun x => (x.1.key, x.1.span) := by
    conv_lhs => rw [entries, ← List.zipIdx_map_fst 0 f.rows.toList, List.map_map]
    rfl
  rw [hall]
  exact List.filter_sublist.map _

/-! ## The draft refuses nothing -/

namespace WellFormed

variable (h : f.WellFormed) (keep : Nat → Interval κ → Bool)

include h

/-- **No row that is kept is refused**: the draft accepts them whole, and they become the forest. -/
theorem exists_addAll_keptEntries :
    ∃ d, Draft.empty.addAll (f.keptEntries keep) = .ok d ∧ d.freeze = f.retain keep := by
  have hproper : ∀ c ∈ f.entries, c.2.Proper := by
    refine List.forall_mem_map.mpr fun r hr => ?_
    exact forall_span?_iff.mp (fun i t => h.proper) r (Array.mem_toList_iff.mp hr)
  have hadm : f.entries.Pairwise fun a b => a.2.Admits b.2 := List.pairwise_map.mpr h.rows_admit
  have hsublist := f.keptEntries_sublist keep
  obtain ⟨d, hd⟩ := Draft.exists_addAll_iff.mpr
    ⟨fun c hc => hproper c (hsublist.subset hc), hadm.sublist hsublist⟩
  refine ⟨d, hd, ?_⟩
  rw [← Draft.offerAll_of_addAll hd, Draft.offerAll, keptEntries, List.foldl_map]
  rfl

theorem retain_wellFormed : (f.retain keep).WellFormed := by
  obtain ⟨d, hd, hfreeze⟩ := h.exists_addAll_keptEntries keep
  rw [← hfreeze]
  exact (Draft.inv_empty.of_addAll hd).1.wellFormed

/-- **The rows of the result** are the rows that are kept, in order. -/
theorem entries_retain : (f.retain keep).entries = f.keptEntries keep := by
  obtain ⟨d, hd, hfreeze⟩ := h.exists_addAll_keptEntries keep
  rw [← hfreeze, (Draft.inv_empty.of_addAll hd).2]
  rfl

/-! ## Parents -/

/-- Rows that are kept are carried over as they are. -/
theorem carriedOver_retain :
    CarriedOver (f.kept? keep) (f.placeKept keep) f (f.retain keep) where
  before := h
  after := h.retain_wellFormed keep
  entry hi := by
    rw [← getElem?_zipIdx_bind] at hi
    rw [h.entries_retain, keptEntries_eq_filterMap]
    exact getElem?_keptBefore hi
  origin hk := by
    rw [h.entries_retain, keptEntries_eq_filterMap] at hk
    obtain ⟨i, hi, hplace⟩ := exists_keptBefore hk
    rw [getElem?_zipIdx_bind] at hi
    exact ⟨i, hi, hplace⟩
  lt_iff hi := by
    rw [← getElem?_zipIdx_bind] at hi
    exact keptBefore_lt_iff hi
  around_iff _ hi hj := by
    simp [Around, span?_of_kept? hi, span?_of_kept? hj]

/-- **A row that is kept** has its key and its span, and for a parent the nearest row around it that
is kept. -/
theorem get?_placeKept {i : Nat} {r : Interval κ} (hi : f.get? i = some r)
    (hkeep : keep i r = true) :
    (f.retain keep).get? (f.placeKept keep i) =
      some ⟨r.span, r.key, (f.nearestKept? keep i).map (f.placeKept keep)⟩ := by
  have hrow := (h.carriedOver_retain keep).get?_place (span?_of_get? hi) (kept?_of_get? hi hkeep)
  rw [funext (f.isSome_kept? keep)] at hrow
  exact hrow

end WellFormed

/-- **Retaining rows, exactly**, in every forest that is drafted and for every choice of rows:

* no row that is kept is refused when it is added again, and the rows of the result are the rows
  that are kept, in order, with their spans and keys;
* the result is well-formed;
* a row that is kept has for a parent the nearest row around it that is kept, and none iff no row
  around it is kept. -/
theorem retain_offerAll_exact (calls : List (Option κ × Span)) (keep : Nat → Interval κ → Bool) :
    let f := (Draft.empty.offerAll calls).freeze
    let kept := (f.rows.toList.zipIdx.filter fun x => keep x.2 x.1).map fun x =>
      (x.1.key, x.1.span)
    (∃ d, Draft.empty.addAll kept = .ok d ∧ d.freeze = f.retain keep) ∧
    (f.retain keep).entries = kept ∧
    (f.retain keep).WellFormed ∧
    ∀ i r, f.get? i = some r → keep i r = true →
      (f.retain keep).get? (f.placeKept keep i) =
        some ⟨r.span, r.key, (f.nearestKept? keep i).map (f.placeKept keep)⟩ ∧
      ((f.retain keep).parent? (f.placeKept keep i) = none ↔
        ∀ a ∈ (lineage f.parent? i).tail, f.keeps keep a = false) := by
  intro f kept
  have h : f.WellFormed := (Draft.inv_empty.offerAll calls).wellFormed
  refine ⟨h.exists_addAll_keptEntries keep, h.entries_retain keep, h.retain_wellFormed keep,
    fun i r hi hkeep => ?_⟩
  have hrow := h.get?_placeKept keep hi hkeep
  refine ⟨hrow, ?_⟩
  rw [parent?, hrow, Option.bind_some, Option.map_eq_none_iff, nearestKept?, List.find?_eq_none]
  simp only [Bool.not_eq_true]

end Gazetteer.Forest
