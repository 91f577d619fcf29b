import Gazetteer.Forest.KeyTable
import Gazetteer.Proofs.FirstPlace
import Gazetteer.Proofs.WordSet.Members

/-!
# What a key table holds

A key table is filled in one pass over the rows. A row without a key leaves it as it is; a row with
a key takes a vacant place or is counted as a collision. So after any number of rows the table has
each value with its first row, and has counted each row with a key once, as an entry or as a
collision (`KeyTable.Holds`). Nothing is asked of the forest or of the property: rows need not be
in order, and keys that differ may have the same value.

* `KeyTable.get?_insert`: an insertion moves no entry.
* `KeyTable.Holds.skip`, `KeyTable.Holds.insert`: one more row, without a key and with one.
* `Forest.holds_keyTable`: all rows.

Headline: `Forest.keyTable_exact`.
-/

namespace Gazetteer

namespace KeyTable

variable {β : Type} [Ord β] {t : KeyTable β} {b : β} {i : Nat} {values : List (Option β)}

/-- **The table of a column of values**, some of which are missing. -/
structure Holds (t : KeyTable β) (values : List (Option β)) : Prop where
  first : ∀ b, FirstIn values (some b) (t.get? b)
  counted : t.size + t.collisions = values.countP (·.isSome)

/-- A missing value leaves the table as it is. -/
theorem Holds.skip (h : t.Holds values) : t.Holds (values ++ [none]) where
  first b := by
    have hnone : FirstIn [(none : Option β)] (some b) none :=
      firstIn_of_nodup (List.nodup_singleton _) fun i => by simp [List.getElem?_singleton]
    simpa using (h.first b).append hnone
  counted := by simp [h.counted]

/-! ## One insertion -/

theorem insert_of_contains (h : t.contains b = true) :
    t.insert b i = { t with collisions := t.collisions + 1 } := if_pos h

theorem insert_of_not_contains (h : t.contains b = false) :
    t.insert b i = { t with byKey := t.byKey.insert b i } := if_neg (Bool.not_eq_true _ ▸ h)

variable [Std.TransOrd β]

theorem contains_eq_isSome_get? (t : KeyTable β) (b : β) : t.contains b = (t.get? b).isSome :=
  Std.TreeMap.contains_eq_isSome_getElem?

/-- **An insertion fills a vacancy**, and moves no entry. -/
theorem get?_insert (t : KeyTable β) (b c : β) (i : Nat) :
    (t.insert b i).get? c = (t.get? c).or (if compare b c = .eq then some i else none) := by
  cases hb : t.contains b with
  | true =>
    rw [insert_of_contains hb]
    show t.get? c = _
    split
    · rename_i hbc
      have hc : t.contains c = true := (Std.TreeMap.contains_congr hbc).symm.trans hb
      rw [contains_eq_isSome_get?] at hc
      rw [Option.or_of_isSome hc]
    · rw [Option.or_none]
  | false =>
    have hinsert : (t.insert b i).get? c = if compare b c = .eq then some i else t.get? c := by
      rw [insert_of_not_contains hb]
      exact Std.TreeMap.getElem?_insert
    rw [hinsert]
    split
    · rename_i hbc
      have hc : t.contains c = false := (Std.TreeMap.contains_congr hbc).symm.trans hb
      rw [contains_eq_isSome_get?, Option.isSome_eq_false_iff, Option.isNone_iff_eq_none] at hc
      rw [hc, Option.none_or]
    · rw [Option.or_none]

/-- Whatever is inserted is counted, as an entry or as a collision. -/
theorem size_add_collisions_insert (t : KeyTable β) (b : β) (i : Nat) :
    (t.insert b i).size + (t.insert b i).collisions = t.size + t.collisions + 1 := by
  cases hb : t.contains b with
  | true =>
    rw [insert_of_contains hb]
    exact (Nat.add_assoc _ _ _).symm
  | false =>
    have hsize : (t.byKey.insert b i).size = t.byKey.size + 1 :=
      Std.TreeMap.size_insert.trans (if_neg (Bool.not_eq_true _ ▸ hb))
    rw [insert_of_not_contains hb]
    show (t.byKey.insert b i).size + t.collisions = t.byKey.size + t.collisions + 1
    omega

theorem holds_empty : (empty : KeyTable β).Holds [] where
  first b i := by
    have hget : (empty : KeyTable β).get? b = none := Std.TreeMap.getElem?_emptyc
    simp [hget, IsLeast]
  counted := rfl

variable [Std.LawfulEqOrd β]

/-- A value is entered with the place at which it stands, unless it stands at an earlier one. -/
theorem Holds.insert (h : t.Holds values) (b : β) :
    (t.insert b values.length).Holds (values ++ [some b]) where
  first c := by
    have hone : FirstIn [some b] (some c) (if compare b c = .eq then some 0 else none) := by
      refine firstIn_of_nodup (List.nodup_singleton _) fun i => ?_
      rw [Option.ite_none_right_eq_some, Std.LawfulEqOrd.compare_eq_iff_eq,
        List.getElem?_singleton, Option.ite_none_right_eq_some]
      simp only [Option.some.injEq]
      tauto
    have happend := (h.first c).append hone
    rw [get?_insert]
    split_ifs at happend ⊢ <;> exact happend
  counted := by rw [size_add_collisions_insert, h.counted]; simp

/-! ## Entries -/

theorem mem_toList : (b, i) ∈ t.toList ↔ t.get? b = some i :=
  Std.TreeMap.mem_toList_iff_getElem?_eq_some

theorem mem_map_fst_toList : b ∈ t.toList.map (·.1) ↔ ∃ i, t.get? b = some i := by
  simp only [← mem_toList, List.mem_map, Prod.exists, exists_and_right, exists_eq_right]

omit [Std.LawfulEqOrd β] in
theorem pairwise_toList (t : KeyTable β) :
    t.toList.Pairwise fun x y => compare x.1 y.1 = .lt :=
  Std.TreeMap.ordered_keys_toList

theorem size_eq_ncard {S : Set β} (h : ∀ b, (∃ i, t.get? b = some i) ↔ b ∈ S) :
    t.size = S.ncard := by
  have hnodup : (t.toList.map (·.1)).Nodup := by
    refine List.pairwise_map.mpr (t.pairwise_toList.imp fun {x y} hlt heq => ?_)
    rw [heq, Std.ReflOrd.compare_self] at hlt
    exact absurd hlt (by simp)
  classical
  rw [← length_eq_ncard hnodup fun b => mem_map_fst_toList.trans (h b), List.length_map]
  exact Std.TreeMap.length_toList.symm

end KeyTable

namespace Forest

variable {κ β : Type}

/-- The property of the key of row `i`, `none` if there is no such row or it has no key. -/
def value? (f : Forest κ) (project : κ → β) (i : Nat) : Option β :=
  (f.get? i).bind fun r => r.key.map project

theorem getElem?_values (f : Forest κ) (project : κ → β) (i : Nat) (b : β) :
    (f.rows.toList.map fun r => r.key.map project)[i]? = some (some b) ↔
      f.value? project i = some b := by
  rw [List.getElem?_map, Array.getElem?_toList, Option.map_eq_some_iff, value?,
    Option.bind_eq_some_iff]
  rfl

variable [Ord β] [Std.TransOrd β] [Std.LawfulEqOrd β]

theorem holds_keyTable (f : Forest κ) (project : κ → β) :
    (f.keyTable project).Holds (f.rows.toList.map fun r => r.key.map project) := by
  unfold keyTable
  -- a row is entered with the number of rows before it, so the induction adds rows at the end
  induction f.rows.toList using List.reverseRecOn with
  | nil => exact KeyTable.holds_empty
  | append_singleton rows r ih =>
    rw [List.zipIdx_append, List.foldl_append, List.map_append, Nat.zero_add]
    cases hkey : r.key with
    | none => simpa [hkey] using ih.skip
    | some k => simpa [hkey] using ih.insert (project k)

/-- **A key table, exactly**, for every forest and every property of its keys:

* there is one entry for each value that some row has;
* what is found under a value is the first row that has it, and nothing is found iff no row has it;
* entries are listed by strictly ascending value;
* each row that has a key is an entry or a collision. -/
theorem keyTable_exact (f : Forest κ) (project : κ → β) :
    let t := f.keyTable project
    (t.size = {b | ∃ i, f.value? project i = some b}.ncard ∧ t.toList.length = t.size ∧
      ∀ b, b ∈ t.toList.map (·.1) ↔ ∃ i, f.value? project i = some b) ∧
    (∀ b,
      (∀ i, t.get? b = some i ↔ IsLeast {j | f.value? project j = some b} i) ∧
      (t.get? b = none ↔ ∀ j, f.value? project j ≠ some b) ∧
      t.contains b = (t.get? b).isSome) ∧
    (t.toList.Pairwise (fun x y => compare x.1 y.1 = .lt) ∧
      ∀ b i, (b, i) ∈ t.toList ↔ t.get? b = some i) ∧
    t.size + t.collisions = f.rows.toList.countP (·.key.isSome) := by
  intro t
  have h := f.holds_keyTable project
  have hfirst : ∀ b i, t.get? b = some i ↔ IsLeast {j | f.value? project j = some b} i := by
    intro b i
    rw [h.first b i]
    simp only [getElem?_values]
  have hnone : ∀ b, t.get? b = none ↔ ∀ j, f.value? project j ≠ some b :=
    fun b => eq_none_iff_of_isLeast (hfirst b)
  have hfound : ∀ b, (∃ i, t.get? b = some i) ↔ ∃ i, f.value? project i = some b := by
    intro b
    rw [← Option.ne_none_iff_exists', Ne, hnone b, not_forall_not]
  refine ⟨⟨KeyTable.size_eq_ncard hfound, Std.TreeMap.length_toList, fun b => ?_⟩,
    fun b => ⟨hfirst b, hnone b, t.contains_eq_isSome_get? b⟩,
    ⟨t.pairwise_toList, fun b i => KeyTable.mem_toList⟩, ?_⟩
  · rw [KeyTable.mem_map_fst_toList, hfound b]
  · rw [h.counted, List.countP_map]
    simp only [Function.comp_def, Option.isSome_map]

theorem keyTable_exact_by_length :
    let f : Forest String :=
      { rows := #[⟨⟨0, 9⟩, some "ab", none⟩, ⟨⟨1, 8⟩, none, some 0⟩, ⟨⟨2, 3⟩, some "x", some 1⟩,
          ⟨⟨4, 6⟩, some "cd", some 1⟩, ⟨⟨9, 10⟩, some "y", none⟩]
        nestingBegins := some 1 }
    let t := f.keyTable String.length
    t.toList = [(1, 2), (2, 0)] ∧ t.collisions = 2 ∧
      {b | ∃ i, f.value? String.length i = some b}.ncard = 2 ∧
      IsLeast {j | f.value? String.length j = some 1} 2 ∧
      (∀ j, f.value? String.length j ≠ some 3) ∧
      t.toList.Pairwise (fun x y => compare x.1 y.1 = .lt) ∧
      t.size + t.collisions = 4 := by
  intro f t
  obtain ⟨⟨hsize, -, -⟩, hfind, ⟨hordered, -⟩, hcount⟩ := keyTable_exact f String.length
  exact ⟨rfl, rfl, hsize.symm, ((hfind 1).1 2).mp rfl, (hfind 3).2.1.mp rfl, hordered, hcount⟩

end Forest

end Gazetteer
