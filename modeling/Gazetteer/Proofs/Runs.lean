import Gazetteer.Runs
import Mathlib.Data.List.Sort

/-!
# Sorting, and the first of each run

* `pairwise_le_mergeSort`, `pairwise_lt_mergeSort`: items sorted by key ascend, and strictly if
  their keys differ.
* `firstOfRuns_sublist`: taking the first of each run keeps the order.
* `mem_map_firstOfRuns`: no key is lost.
* `pairwise_lt_firstOfRuns`: in a list sorted by key, the first of each run ascend strictly.
* `mem_firstOfRuns`: in a list sorted by key and then by rank, the first of a run is the item of
  least rank with its key.
-/

namespace Gazetteer

variable {α β γ : Type}

theorem pairwise_le_mergeSort [LinearOrder β] {key : α → β} {le : α → α → Bool}
    (hle : ∀ a b, le a b = true ↔ key a ≤ key b) (xs : List α) :
    (xs.mergeSort le).Pairwise fun a b => key a ≤ key b := by
  refine (List.pairwise_mergeSort (fun a b c hab hbc => ?_) (fun a b => ?_) xs).imp
    fun {a b} hab => (hle a b).mp hab
  · exact (hle a c).mpr (((hle a b).mp hab).trans ((hle b c).mp hbc))
  · rw [Bool.or_eq_true, hle, hle]
    exact le_total (key a) (key b)

theorem pairwise_lt_mergeSort [LinearOrder β] {key : α → β} {le : α → α → Bool}
    (hle : ∀ a b, le a b = true ↔ key a ≤ key b) {xs : List α} (h : (xs.map key).Nodup) :
    (xs.mergeSort le).Pairwise fun a b => key a < key b := by
  have hne : (xs.mergeSort le).Pairwise fun a b => key a ≠ key b :=
    List.pairwise_map.mp (((List.mergeSort_perm xs le).map key).nodup_iff.mpr h)
  exact (pairwise_le_mergeSort hle xs).imp₂ (fun _ _ hab hne => lt_of_le_of_ne hab hne) hne

variable [DecidableEq β]

theorem firstOfRunsAfter_sublist (key : α → β) (last : Option β) (xs : List α) :
    (firstOfRunsAfter key last xs).Sublist xs := by
  induction xs generalizing last with
  | nil => exact .slnil
  | cons a xs ih =>
    unfold firstOfRunsAfter
    split
    · exact (ih last).cons a
    · exact (ih (some (key a))).cons_cons a

theorem firstOfRuns_sublist (key : α → β) (xs : List α) : (firstOfRuns key xs).Sublist xs :=
  firstOfRunsAfter_sublist key none xs

theorem mem_map_firstOfRunsAfter (key : α → β) (last : Option β) (xs : List α) {k : β} :
    k ∈ last.toList ++ (firstOfRunsAfter key last xs).map key ↔
      k ∈ last.toList ++ xs.map key := by
  induction xs generalizing last with
  | nil => rfl
  | cons a xs ih =>
    have hnext := ih (some (key a))
    simp only [Option.toList_some, List.mem_append, List.mem_singleton] at hnext
    unfold firstOfRunsAfter
    split
    · -- `a` goes on with the run before it, whose key is counted already
      rename_i hrun
      rw [ih last, hrun]
      simp
    · simp only [List.map_cons, List.mem_append, List.mem_cons, hnext]

/-- **Every key is kept.** -/
theorem mem_map_firstOfRuns (key : α → β) (xs : List α) {k : β} :
    k ∈ (firstOfRuns key xs).map key ↔ k ∈ xs.map key :=
  mem_map_firstOfRunsAfter key none xs

section Sorted

variable [LinearOrder γ] {key : α → β} {place : β → γ} {rank : α → Nat} {xs : List α} {a : α}

theorem pairwise_lt_firstOfRunsAfter (hplace : Function.Injective place) (last : Option β)
    (h : (last.toList ++ xs.map key).Pairwise fun a b => place a ≤ place b) :
    (last.toList ++ (firstOfRunsAfter key last xs).map key).Pairwise fun a b =>
      place a < place b := by
  induction xs generalizing last with
  | nil => cases last <;> simp [firstOfRunsAfter]
  | cons x xs ih =>
    obtain ⟨-, hrest, hlast⟩ := List.pairwise_append.mp h
    unfold firstOfRunsAfter
    split
    · exact ih last (h.sublist ((List.sublist_cons_self _ _).append_left _))
    · rename_i hrun
      have htail := ih (some (key x)) hrest
      refine List.pairwise_append.mpr ⟨by cases last <;> simp, htail, fun k hk => ?_⟩
      have hfirst : place k < place (key x) := by
        refine lt_of_le_of_ne (hlast k hk _ List.mem_cons_self) fun heq => hrun ?_
        rw [Option.mem_toList.mp hk, hplace heq]
      refine List.forall_mem_cons.mpr ⟨hfirst, fun l hl => hfirst.trans ?_⟩
      exact (List.pairwise_cons.mp htail).1 l hl

/-- **The first of each run ascend strictly**, in a list that is sorted by key. -/
theorem pairwise_lt_firstOfRuns (hplace : Function.Injective place)
    (h : (xs.map key).Pairwise fun a b => place a ≤ place b) :
    ((firstOfRuns key xs).map key).Pairwise fun a b => place a < place b :=
  pairwise_lt_firstOfRunsAfter hplace none h

theorem mem_firstOfRunsAfter (hplace : Function.Injective place)
    (h : xs.Pairwise fun a b =>
      place (key a) < place (key b) ∨ key a = key b ∧ rank a < rank b)
    {last : Option β} (hlast : ∀ k, last = some k → ∀ b ∈ xs, place k ≤ place (key b)) :
    a ∈ firstOfRunsAfter key last xs ↔
      a ∈ xs ∧ last ≠ some (key a) ∧ ∀ b ∈ xs, key b = key a → rank a ≤ rank b := by
  induction xs generalizing last with
  | nil => simp [firstOfRunsAfter]
  | cons x xs ih =>
    obtain ⟨hx, hxs⟩ := List.pairwise_cons.mp h
    unfold firstOfRunsAfter
    by_cases hrun : last = some (key x)
    · -- `x` goes on with the run before it, so it has the key of no item that is kept
      rw [if_pos hrun, ih hxs fun k hk b hb => hlast k hk b (List.mem_cons_of_mem x hb)]
      constructor
      · rintro ⟨ha, hne, hrank⟩
        refine ⟨List.mem_cons_of_mem x ha, hne, fun b hb hkey => ?_⟩
        rcases List.mem_cons.mp hb with rfl | hb
        · exact absurd (hkey ▸ hrun) hne
        · exact hrank b hb hkey
      · rintro ⟨ha, hne, hrank⟩
        rcases List.mem_cons.mp ha with rfl | ha
        · exact absurd hrun hne
        · exact ⟨ha, hne, fun b hb => hrank b (List.mem_cons_of_mem x hb)⟩
    · have hle : ∀ b ∈ xs, place (key x) ≤ place (key b) := fun b hb =>
        (hx b hb).elim le_of_lt fun heq => (congrArg place heq.1).le
      rw [if_neg hrun, List.mem_cons, ih hxs fun k hk b hb => Option.some.inj hk ▸ hle b hb]
      constructor
      · rintro (rfl | ⟨ha, hne, hrank⟩)
        · refine ⟨List.mem_cons_self, hrun, fun b hb hkey => ?_⟩
          rcases List.mem_cons.mp hb with rfl | hb
          · exact le_refl _
          · rcases hx b hb with hlt | ⟨-, hlt⟩
            · exact absurd (congrArg place hkey) hlt.ne'
            · exact hlt.le
        · refine ⟨List.mem_cons_of_mem x ha, fun hk => ?_, fun b hb hkey => ?_⟩
          · have hback := hlast _ hk x List.mem_cons_self
            exact hne (congrArg some (hplace ((hle a ha).antisymm hback)))
          · rcases List.mem_cons.mp hb with rfl | hb
            · exact absurd (congrArg some hkey) hne
            · exact hrank b hb hkey
      · rintro ⟨ha, -, hrank⟩
        rcases List.mem_cons.mp ha with rfl | ha
        · exact Or.inl rfl
        · refine Or.inr ⟨ha, fun hk => ?_, fun b hb => hrank b (List.mem_cons_of_mem x hb)⟩
          have hkey : key x = key a := Option.some.inj hk
          rcases hx a ha with hlt | ⟨-, hlt⟩
          · exact absurd (congrArg place hkey) hlt.ne
          · exact absurd (hrank x List.mem_cons_self hkey) (not_le.mpr hlt)

/-- **The first of each run**, in a list that is sorted by key and then by rank. -/
theorem mem_firstOfRuns (hplace : Function.Injective place)
    (h : xs.Pairwise fun a b =>
      place (key a) < place (key b) ∨ key a = key b ∧ rank a < rank b) :
    a ∈ firstOfRuns key xs ↔ a ∈ xs ∧ ∀ b ∈ xs, key b = key a → rank a ≤ rank b := by
  rw [firstOfRuns, mem_firstOfRunsAfter hplace h fun k hk => absurd hk (by simp)]
  simp

end Sorted

end Gazetteer
