import Gazetteer.Proofs.Directory.Draftable
import Mathlib

/-!
# Layers of declarations

The duplicates of a directory make a directory of their own, with duplicates of its own. Going on
like this uncovers one declaration of each name after another. `layer` counts how far one has gone;
what is found there for a name is what it is declared as in that layer (`primaryOf`).

A layer is drafted from lists that earlier drafts have already put into another order, but all that
matters is carried from layer to layer. The declaration that is uncovered is the first of the best
in the list above (`primaryOf_shadowed`), and the list below has lost this one and no other
(`perm_shadowed`). So lists get shorter until there is nothing left (`length_duplicatesOf_layer`),
nothing is lost or doubled on the way (`promoted_perm`), and ranks never fall (`rank_le_layer`).
-/

namespace Gazetteer

open scoped List

/-- The least element comes first if all before it are greater and none after it is less. -/
theorem argmin_append_cons {α β : Type} [LinearOrder β] {f : α → β} {before after : List α} {a : α}
    (hbefore : ∀ x ∈ before, f a < f x) (hafter : ∀ x ∈ after, f a ≤ f x) :
    (before ++ a :: after).argmin f = some a := by
  induction before with
  | nil =>
    rw [List.nil_append, List.argmin_cons]
    cases hmin : after.argmin f with
    | none => rfl
    | some c => exact if_neg (not_lt.mpr (hafter c (List.argmin_mem hmin)))
  | cons b before ih =>
    rw [List.cons_append, List.argmin_cons,
      ih fun x hx => hbefore x (List.mem_cons_of_mem b hx)]
    exact if_pos (hbefore b List.mem_cons_self)

namespace Directory

variable {κ : Type} {d : Directory κ} {name : String}

/-- What a name is declared as. -/
def primaryOf (d : Directory κ) (name : String) : Option (Declaration κ) :=
  (d.find? name).map Entry.declaration

theorem WellFormed.size_eq_zero_iff (h : d.WellFormed) :
    d.size = 0 ↔ ∀ name, d.primaryOf name = none := by
  rw [← length_names, List.length_eq_zero_iff, List.eq_nil_iff_forall_not_mem]
  refine forall_congr' fun name => ?_
  rw [primaryOf, Option.map_eq_none_iff, h.find?_eq_none_iff]

variable [Ranked κ]

/-! ## One layer -/

/-- The duplicates are put into a draft one after the other, name by name. -/
theorem shadowed_eq_freeze (d : Directory κ) :
    d.shadowed = (Draft.empty.submitAll (Draft.additions d.duplicates.flatten)).freeze := by
  rw [Draft.additions, Draft.submitAll, List.foldl_map]
  rfl

/-- What the next layer holds for a name is what a draft makes of its duplicates. -/
theorem chronicle_shadowed (d : Directory κ) (name : String) :
    Draft.Chronicle (Draft.additions d.duplicates.flatten) name (d.shadowed.primaryOf name)
      (d.shadowed.duplicatesOf name) := by
  have hfollows := Draft.follows_submitAll (Draft.additions d.duplicates.flatten) name
  rw [← (Draft.sound_submitAll _).find?_freeze name] at hfollows
  rw [shadowed_eq_freeze]
  exact hfollows

omit [Ranked κ] in
theorem relocations_additions (name : String) (decls : List (String × Declaration κ)) :
    Draft.relocations name (Draft.additions decls) = [] := by
  rw [Draft.relocations, Draft.additions, List.filterMap_map]
  exact List.filterMap_eq_nil_iff.mpr fun _ _ => rfl

namespace WellFormed

variable (h : d.WellFormed)

include h

omit [Ranked κ] in
/-- Of all duplicates taken together, those of a name are the ones listed for it. -/
theorem filterMap_flatten_duplicates (name : String) :
    (d.duplicates.flatten.filterMap fun p => if p.1 = name then some p.2 else none) =
      d.duplicatesOf name :=
  d.duplicates.filterMap_flatten h.distinct name

omit [Ranked κ] in
/-- All duplicates of a name are declared again, in the order in which they were set aside. -/
theorem declared_additions (name : String) :
    Draft.declared name (Draft.additions d.duplicates.flatten) = d.duplicatesOf name := by
  rw [← h.filterMap_flatten_duplicates, Draft.declared, Draft.additions, List.filterMap_map]
  refine List.filterMap_congr fun p hp => ?_
  have hdeclared : (Draft.Request.add p.1 p.2).declared? = some (p.1, p.2) :=
    if_pos (h.proper_of_mem_flatten p hp)
  rw [Function.comp_apply, Draft.Request.declares, hdeclared, Option.bind_some]

/-- **What is uncovered is the first of the best** in the list above. -/
theorem primaryOf_shadowed (name : String) :
    d.shadowed.primaryOf name =
      (d.duplicatesOf name).argmin fun x => Ranked.rank x.kind := by
  have hchronicle := d.chronicle_shadowed name
  cases hprimary : d.shadowed.primaryOf name with
  | none =>
    have hnil := (hchronicle.absent hprimary).1
    rw [h.declared_additions] at hnil
    rw [hnil, List.argmin_nil]
  | some p =>
    obtain ⟨before, r, after, decl, hrequests, hr, hbefore, hafter, rfl⟩ :=
      hchronicle.primary p hprimary
    have hreloc : Draft.relocations name after = [] := by
      have hnone := relocations_additions name d.duplicates.flatten
      rw [hrequests, Draft.relocations, List.filterMap_append, List.filterMap_cons_none
        (Draft.Request.relocates_eq_none hr), List.append_eq_nil_iff] at hnone
      exact hnone.2
    rw [← h.declared_additions, hrequests, Draft.declared, List.filterMap_append,
      List.filterMap_cons_some hr, hreloc]
    exact (argmin_append_cons hbefore hafter).symm

/-- **The list below has lost what is uncovered, and nothing else.** -/
theorem perm_shadowed (name : String) :
    (d.shadowed.primaryOf name).toList ++ d.shadowed.duplicatesOf name ~ d.duplicatesOf name := by
  have hchronicle := d.chronicle_shadowed name
  rw [← h.declared_additions]
  cases hprimary : d.shadowed.primaryOf name with
  | none =>
    obtain ⟨hnil, haside⟩ := hchronicle.absent hprimary
    rw [hnil, haside]
    exact .refl _
  | some p =>
    have hwhole := hchronicle.conserved p hprimary _ id (.inl (relocations_additions name _))
    rwa [List.map_id, List.map_id] at hwhole

theorem length_duplicatesOf_shadowed (name : String) :
    (d.shadowed.duplicatesOf name).length = (d.duplicatesOf name).length - 1 := by
  have hlength := (h.perm_shadowed name).length_eq
  rw [List.length_append] at hlength
  cases hprimary : d.shadowed.primaryOf name with
  | none =>
    have hnil := List.argmin_eq_none.mp ((h.primaryOf_shadowed name).symm.trans hprimary)
    rw [hprimary, hnil] at hlength
    simp only [Option.toList_none, List.length_nil] at hlength
    rw [hnil, List.length_nil]
    omega
  | some p =>
    rw [hprimary, Option.toList_some, List.length_singleton] at hlength
    omega

end WellFormed

/-! ## All layers -/

/-- The directory after `i` steps from a directory to that of its duplicates. -/
def layer (d : Directory κ) (i : Nat) : Directory κ := shadowed^[i] d

theorem layer_succ (d : Directory κ) (i : Nat) : d.layer (i + 1) = (d.layer i).shadowed :=
  Function.iterate_succ_apply' shadowed i d

/-- The declarations of a name that are uncovered by the first `k` layers, in this order. -/
def promoted (d : Directory κ) (name : String) (k : Nat) : List (Declaration κ) :=
  (List.range k).filterMap fun i => (d.layer i).primaryOf name

theorem promoted_succ (d : Directory κ) (name : String) (k : Nat) :
    d.promoted name (k + 1) = d.promoted name k ++ ((d.layer k).primaryOf name).toList := by
  unfold promoted
  rw [List.range_succ, List.filterMap_append]
  cases hk : (d.layer k).primaryOf name <;> simp [hk]

theorem WellFormed.layer (h : d.WellFormed) (i : Nat) : (d.layer i).WellFormed := by
  cases i with
  | zero => exact h
  | succ i =>
    rw [layer_succ]
    exact shadowed_wellFormed _

theorem DuplicatesShadowed.layer (hshadowed : d.DuplicatesShadowed) (i : Nat) :
    (d.layer i).DuplicatesShadowed := by
  cases i with
  | zero => exact hshadowed
  | succ i =>
    rw [layer_succ, shadowed_eq_freeze]
    exact duplicatesShadowed_freeze _

section Layers

variable (h : d.WellFormed)

include h

/-- **Each layer takes one declaration off the list of a name.** -/
theorem length_duplicatesOf_layer (name : String) (k : Nat) :
    ((d.layer k).duplicatesOf name).length = (d.duplicatesOf name).length - k := by
  induction k with
  | zero => rfl
  | succ k ih =>
    rw [layer_succ, (h.layer k).length_duplicatesOf_shadowed, ih]
    omega

/-- **No declaration is lost or doubled**: those that are uncovered, that of this layer, and those
that are still covered are all that there were. -/
theorem promoted_perm (name : String) (k : Nat) :
    d.promoted name k ++ (((d.layer k).primaryOf name).toList ++ (d.layer k).duplicatesOf name) ~
      (d.primaryOf name).toList ++ d.duplicatesOf name := by
  induction k with
  | zero => exact .refl _
  | succ k ih =>
    refine .trans ?_ ih
    rw [promoted_succ, List.append_assoc, layer_succ]
    exact (((h.layer k).perm_shadowed name).append_left _).append_left _

theorem duplicatesOf_layer_subset (name : String) {i j : Nat} (hij : i ≤ j) :
    (d.layer j).duplicatesOf name ⊆ (d.layer i).duplicatesOf name := by
  induction j, hij using Nat.le_induction with
  | base => exact List.Subset.refl _
  | succ j _ ih =>
    intro x hx
    rw [layer_succ] at hx
    exact ih (((h.layer j).perm_shadowed name).subset (List.mem_append_right _ hx))

/-- **Ranks never fall**: what is uncovered later was a duplicate of what is uncovered earlier. -/
theorem rank_le_layer (hshadowed : d.DuplicatesShadowed) {i j : Nat} (hij : i ≤ j)
    {a b : Declaration κ} (ha : (d.layer i).primaryOf name = some a)
    (hb : (d.layer j).primaryOf name = some b) : Ranked.rank a.kind ≤ Ranked.rank b.kind := by
  rcases hij.eq_or_lt with rfl | hlt
  · rw [Option.some.inj (ha.symm.trans hb)]
  · obtain ⟨j, rfl⟩ : ∃ m, j = m + 1 := ⟨j - 1, by omega⟩
    rw [layer_succ, (h.layer j).primaryOf_shadowed] at hb
    have hmem : b ∈ (d.layer i).duplicatesOf name :=
      duplicatesOf_layer_subset h name (Nat.le_of_lt_succ hlt) (List.argmin_mem hb)
    obtain ⟨x, hx, rfl⟩ := Option.map_eq_some_iff.mp ha
    exact (hshadowed.layer i).rank_le name x hx b hmem

/-- There are layers without names: no list is longer than all of them together. -/
theorem exists_size_layer_eq_zero : ∃ k, (d.layer k).size = 0 := by
  refine ⟨d.duplicates.flatten.length + 1, (h.layer _).size_eq_zero_iff.mpr fun name => ?_⟩
  have hle : (d.duplicatesOf name).length ≤ d.duplicates.flatten.length := by
    rw [← h.filterMap_flatten_duplicates]
    exact List.length_filterMap_le _ _
  rw [layer_succ, (h.layer _).primaryOf_shadowed, List.argmin_eq_none, ← List.length_eq_zero_iff,
    length_duplicatesOf_layer h]
  omega

/-- In a layer without names nothing is covered any more. -/
theorem promoted_perm_of_size_eq_zero (hshadowed : d.DuplicatesShadowed) {k : Nat}
    (hk : (d.layer k).size = 0) (name : String) :
    d.promoted name k ~ (d.primaryOf name).toList ++ d.duplicatesOf name := by
  have hwell := h.layer k
  have hprimary := hwell.size_eq_zero_iff.mp hk name
  have haside : (d.layer k).duplicatesOf name = [] := by
    by_contra hne
    have hdeclared := (hshadowed.layer k).declared name (hwell.mem_duplicates_names_iff.mpr hne)
    obtain ⟨x, -, hx, -⟩ := hwell.exists_find?_of_mem (hwell.contains_iff.mp hdeclared)
    rw [primaryOf, hx] at hprimary
    exact absurd hprimary (by simp)
  have hperm := promoted_perm h name k
  rwa [hprimary, haside, Option.toList_none, List.append_nil, List.append_nil] at hperm

end Layers

/-- **The layers of a directory that was drafted.** They come to an end. Before they do, they have
uncovered every declaration of a name exactly once: its primary one and all of its duplicates. No
declaration is uncovered after one that it outranks, and each is the first of the best among the
duplicates of its name in the layer above. -/
theorem layers_freeze_exact (requests : List (Draft.Request κ)) :
    let d := ((Draft.empty : Draft κ).submitAll requests).freeze
    (∃ k, (d.layer k).size = 0) ∧
    (∀ k, (d.layer k).size = 0 → ∀ name,
      d.promoted name k ~ (d.primaryOf name).toList ++ d.duplicatesOf name) ∧
    (∀ name i j a b, i ≤ j → (d.layer i).primaryOf name = some a →
      (d.layer j).primaryOf name = some b → Ranked.rank a.kind ≤ Ranked.rank b.kind) ∧
    ∀ name i, (d.layer (i + 1)).primaryOf name =
      ((d.layer i).duplicatesOf name).argmin fun x => Ranked.rank x.kind := by
  intro d
  have hwell : d.WellFormed := (Draft.sound_submitAll requests).freeze_wellFormed
  have hshadowed : d.DuplicatesShadowed := duplicatesShadowed_freeze requests
  refine ⟨exists_size_layer_eq_zero hwell,
    fun k hk name => promoted_perm_of_size_eq_zero hwell hshadowed hk name,
    fun name i j a b hij ha hb => rank_le_layer hwell hshadowed hij ha hb, fun name i => ?_⟩
  rw [layer_succ]
  exact (hwell.layer i).primaryOf_shadowed name

end Directory

end Gazetteer
