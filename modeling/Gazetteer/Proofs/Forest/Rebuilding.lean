import Gazetteer.Proofs.Except
import Gazetteer.Proofs.Forest.Drafting

/-!
# Drafting a forest from a list

Operations that make a forest from a forest draft it anew from some of the old rows.

* `Draft.Inv.addAll`: a list of proper spans, each admitted by those before it, is accepted whole,
  and the rows are the list. So a rebuild never refuses what it takes from a well-formed forest in
  order.
* `Draft.exists_addAll_iff`: no other list is accepted whole.
* `keptBefore` is the place of an element among those that are kept; `getElem?_keptBefore` and
  `exists_keptBefore` say that this is where it stands, and that nothing else stands there.
-/

namespace Gazetteer.Forest

variable {κ : Type} {f : Forest κ}

theorem WellFormed.rows_admit (h : f.WellFormed) :
    f.rows.toList.Pairwise fun q r => q.span.Admits r.span := by
  rw [List.pairwise_iff_getElem]
  intro i j hi hj hij
  have hq : f.get? i = some f.rows.toList[i] := by
    rw [get?, ← Array.getElem?_toList, List.getElem?_eq_getElem hi]
  have hr : f.get? j = some f.rows.toList[j] := by
    rw [get?, ← Array.getElem?_toList, List.getElem?_eq_getElem hj]
  exact h.admits hij (span?_of_get? hq) (span?_of_get? hr)

namespace Draft

variable {d : Draft κ}

/-! ## Adding a whole list -/

/-- Adds rows one after the other, up to the first refusal. -/
def addAll (d : Draft κ) (calls : List (Option κ × Span)) : Except Error (Draft κ) :=
  calls.foldlM (fun d c => d.add c.1 c.2) d

theorem Inv.add_eq_push (h : d.Inv) (key : Option κ) {span : Span} (hs : span.Proper)
    (hadm : ∀ i t, d.freeze.span? i = some t → t.Admits span) :
    d.add key span = .ok (d.push key span) :=
  add_eq_ok_iff.mpr ⟨h.objection?_eq_none_iff.mpr ⟨hs, h.admits_iff.mp hadm⟩, rfl⟩

/-- To offer what is accepted whole is to add it. -/
theorem offerAll_of_addAll {calls : List (Option κ × Span)} {d' : Draft κ}
    (hd : d.addAll calls = .ok d') : d.offerAll calls = d' := by
  induction calls generalizing d with
  | nil => exact Except.ok.inj hd
  | cons c calls ih =>
    rw [Draft.addAll, List.foldlM_cons] at hd
    obtain ⟨next, hadd, hrest⟩ := bind_eq_ok_iff.mp hd
    show (d.offer c.1 c.2).offerAll calls = d'
    rw [offer, hadd]
    exact ih hrest

theorem accepted_of_addAll {calls : List (Option κ × Span)} {d' : Draft κ}
    (hd : d.addAll calls = .ok d') : d.accepted calls = calls := by
  induction calls generalizing d with
  | nil => rfl
  | cons c calls ih =>
    rw [Draft.addAll, List.foldlM_cons] at hd
    obtain ⟨next, hadd, hrest⟩ := bind_eq_ok_iff.mp hd
    rw [accepted, hadd]
    exact congrArg (c :: ·) (ih hrest)

/-- What is accepted whole becomes the rows. -/
theorem Inv.of_addAll (h : d.Inv) {calls : List (Option κ × Span)} {d' : Draft κ}
    (hd : d.addAll calls = .ok d') : d'.Inv ∧ d'.freeze.entries = d.freeze.entries ++ calls := by
  have hentries := d.entries_offerAll calls
  rw [accepted_of_addAll hd, offerAll_of_addAll hd] at hentries
  exact ⟨offerAll_of_addAll hd ▸ h.offerAll calls, hentries⟩

/-- **A list is accepted whole** if its spans are proper and each is admitted by the rows and by
the spans before it. -/
theorem Inv.addAll (h : d.Inv) {calls : List (Option κ × Span)}
    (hproper : ∀ c ∈ calls, c.2.Proper)
    (hold : ∀ i t, d.freeze.span? i = some t → ∀ c ∈ calls, t.Admits c.2)
    (hpair : calls.Pairwise fun a b => a.2.Admits b.2) :
    ∃ d', d.addAll calls = .ok d' ∧ d'.Inv ∧ d'.freeze.entries = d.freeze.entries ++ calls := by
  suffices hwhole : ∃ d', d.addAll calls = .ok d' by
    obtain ⟨d', hd⟩ := hwhole
    exact ⟨d', hd, h.of_addAll hd⟩
  induction calls generalizing d with
  | nil => exact ⟨d, rfl⟩
  | cons c calls ih =>
    obtain ⟨hc, hpair⟩ := List.pairwise_cons.mp hpair
    have hs := hproper c List.mem_cons_self
    have hadm : ∀ i t, d.freeze.span? i = some t → t.Admits c.2 :=
      fun i t ht => hold i t ht c List.mem_cons_self
    have hnext : ∀ i t, (d.push c.1 c.2).freeze.span? i = some t →
        ∀ b ∈ calls, t.Admits b.2 := by
      intro i t ht b hb
      rw [span?_freeze_push] at ht
      by_cases hi : i = d.size
      · rw [hi, Function.update_self, Option.some.injEq] at ht
        rw [← ht]
        exact hc b hb
      · rw [Function.update_of_ne hi] at ht
        exact hold i t ht b (List.mem_cons_of_mem c hb)
    obtain ⟨d', hd'⟩ := ih (h.push c.1 hs hadm)
      (fun b hb => hproper b (List.mem_cons_of_mem c hb)) hnext hpair
    refine ⟨d', ?_⟩
    rw [Draft.addAll, List.foldlM_cons, h.add_eq_push c.1 hs hadm]
    exact hd'

/-- **Which lists are accepted whole**: those of proper spans, each admitted by all before it. -/
theorem exists_addAll_iff {calls : List (Option κ × Span)} :
    (∃ d', (Draft.empty : Draft κ).addAll calls = .ok d') ↔
      (∀ c ∈ calls, c.2.Proper) ∧ calls.Pairwise fun a b => a.2.Admits b.2 := by
  constructor
  · rintro ⟨d', hd⟩
    obtain ⟨hinv, hentries⟩ := inv_empty.of_addAll hd
    have hcalls : calls = d'.freeze.rows.toList.map fun r => (r.key, r.span) := hentries.symm
    rw [hcalls, List.pairwise_map]
    refine ⟨List.forall_mem_map.mpr fun r hr => ?_, hinv.wellFormed.rows_admit⟩
    exact forall_span?_iff.mp (fun i t => hinv.wellFormed.proper) r (Array.mem_toList_iff.mp hr)
  · rintro ⟨hproper, hpair⟩
    have hnone : ∀ i t, (Draft.empty : Draft κ).freeze.span? i = some t →
        ∀ c ∈ calls, t.Admits c.2 := by
      intro i t ht
      exact absurd (lt_size_of_span? ht) (Nat.not_lt_zero i)
    obtain ⟨d', hd, -⟩ := inv_empty.addAll hproper hnone hpair
    exact ⟨d', hd⟩

end Draft

/-! ## Places among what is kept -/

section Kept

variable {α β : Type} {g : α → Option β} {l : List α} {i j : Nat} {b : β}

/-- The number of elements that `g` keeps among the first `i`. -/
def keptBefore (g : α → Option β) (l : List α) (i : Nat) : Nat := ((l.take i).filterMap g).length

theorem keptBefore_cons_succ (g : α → Option β) (a : α) (l : List α) (i : Nat) :
    keptBefore g (a :: l) (i + 1) = keptBefore g l i + (g a).toList.length := by
  unfold keptBefore
  rw [List.take_succ_cons, List.filterMap_cons]
  cases g a with
  | none => simp
  | some b => simp

/-- What is kept of an element stands at its place. -/
theorem getElem?_keptBefore (h : l[i]?.bind g = some b) :
    (l.filterMap g)[keptBefore g l i]? = some b := by
  induction l generalizing i with
  | nil => exact absurd h (by simp)
  | cons x l ih =>
    cases i with
    | zero =>
      have hx : g x = some b := by simpa using h
      simp [keptBefore, hx]
    | succ i =>
      have hrest := ih (i := i) (by simpa using h)
      rw [keptBefore_cons_succ, List.filterMap_cons]
      cases g x with
      | none => simpa using hrest
      | some y => simpa using hrest

/-- Nothing but what is kept of an element stands anywhere. -/
theorem exists_keptBefore {k : Nat} (h : (l.filterMap g)[k]? = some b) :
    ∃ i, l[i]?.bind g = some b ∧ keptBefore g l i = k := by
  induction l generalizing k with
  | nil => exact absurd h (by simp)
  | cons x l ih =>
    rw [List.filterMap_cons] at h
    cases hx : g x with
    | none =>
      rw [hx] at h
      obtain ⟨i, hi, hk⟩ := ih h
      refine ⟨i + 1, by simpa using hi, ?_⟩
      rw [keptBefore_cons_succ, hx, hk]
      rfl
    | some y =>
      rw [hx] at h
      cases k with
      | zero => exact ⟨0, by simpa [hx] using h, rfl⟩
      | succ k =>
        obtain ⟨i, hi, hk⟩ := ih (k := k) (by simpa using h)
        refine ⟨i + 1, by simpa using hi, ?_⟩
        rw [keptBefore_cons_succ, hx, hk]
        rfl

theorem keptBefore_mono (g : α → Option β) (l : List α) (hij : i ≤ j) :
    keptBefore g l i ≤ keptBefore g l j :=
  ((List.take_sublist_take_left hij).filterMap g).length_le

/-- Places keep the order of the elements that are kept. -/
theorem keptBefore_lt_iff (h : l[i]?.bind g = some b) :
    keptBefore g l i < keptBefore g l j ↔ i < j := by
  constructor
  · intro hlt
    by_contra hge
    exact absurd hlt (not_lt.mpr (keptBefore_mono g l (not_lt.mp hge)))
  · intro hij
    obtain ⟨a, ha, hb⟩ := Option.bind_eq_some_iff.mp h
    have hsucc : keptBefore g l (i + 1) = keptBefore g l i + 1 := by
      unfold keptBefore
      rw [List.take_add_one, ha, Option.toList_some, List.filterMap_append]
      simp [hb]
    have hle : keptBefore g l (i + 1) ≤ keptBefore g l j := keptBefore_mono g l hij
    omega

end Kept

end Gazetteer.Forest
