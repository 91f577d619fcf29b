import Gazetteer.Register
import Mathlib.Data.List.Nodup
import Mathlib.Data.List.Perm.Subperm

/-!
# Registers with one row for each name

A register that is only ever changed by `alter` has one row for each of its names (`Distinct`), so
reading a name and finding its row are the same thing (`find?_eq_some_iff`). Rows of different names
do not touch each other: leaving names out and changing other ones can be done in any order
(`filterNames_alter`).
-/

namespace Gazetteer.Register

variable {β : Type} {r : Register β} {name : String} {b : β} {f : Option β → β}

/-- The names, in order of first use. -/
def names (r : Register β) : List String := r.rows.map (·.1)

/-- No name has two rows. -/
def Distinct (r : Register β) : Prop := r.names.Nodup

theorem distinct_empty : (empty : Register β).Distinct := List.nodup_nil

/-! ## Reading -/

theorem lookup_eq_none_iff {rows : List (String × β)} :
    lookup name rows = none ↔ name ∉ rows.map (·.1) := by
  induction rows with
  | nil => simp [lookup]
  | cons row rows ih =>
    obtain ⟨n, c⟩ := row
    by_cases hn : n = name
    · simp [lookup, hn]
    · simp [lookup, hn, ih, Ne.symm hn]

theorem mem_of_lookup_eq_some {rows : List (String × β)} (h : lookup name rows = some b) :
    (name, b) ∈ rows := by
  induction rows with
  | nil => exact absurd h (by simp [lookup])
  | cons row rows ih =>
    obtain ⟨n, c⟩ := row
    unfold lookup at h
    split at h
    · rename_i hn
      rw [hn, Option.some.inj h]
      exact List.mem_cons_self
    · exact List.mem_cons_of_mem _ (ih h)

theorem find?_eq_none_iff : r.find? name = none ↔ name ∉ r.names := lookup_eq_none_iff

/-- **Reading a name is finding its row.** -/
theorem find?_eq_some_iff (h : r.Distinct) : r.find? name = some b ↔ (name, b) ∈ r.rows := by
  refine ⟨mem_of_lookup_eq_some, fun hmem => ?_⟩
  have hname : name ∈ r.names := List.mem_map.mpr ⟨_, hmem, rfl⟩
  obtain ⟨c, hc⟩ := Option.ne_none_iff_exists'.mp fun hnone => find?_eq_none_iff.mp hnone hname
  have hrow := List.inj_on_of_nodup_map h (mem_of_lookup_eq_some hc) hmem rfl
  rw [hc, (Prod.mk.inj hrow).2]

/-- **Registers with the same contents** have the same rows, in whatever order. -/
theorem sameContents_iff [DecidableEq β] {r s : Register β} (hr : r.Distinct) (hs : s.Distinct) :
    r.sameContents s = true ↔ r.rows.Perm s.rows := by
  have hrows : r.sameContents s = true ↔
      r.rows.length = s.rows.length ∧ ∀ row ∈ r.rows, row ∈ s.rows := by
    simp only [sameContents, size, Bool.and_eq_true, beq_iff_eq, List.all_eq_true,
      decide_eq_true_iff, find?_eq_some_iff hs]
  rw [hrows]
  constructor
  · rintro ⟨hlength, hsubset⟩
    have hnodup : r.rows.Nodup := List.Nodup.of_map _ hr
    exact (List.subperm_of_subset hnodup hsubset).perm_of_length_le (Nat.le_of_eq hlength.symm)
  · exact fun hperm => ⟨hperm.length_eq, fun _ => hperm.mem_iff.mp⟩

/-! ## Changing -/

theorem amend_append_of_notMem {rows later : List (String × β)} (h : name ∉ rows.map (·.1)) :
    amend name f (rows ++ later) = rows ++ amend name f later := by
  induction rows with
  | nil => rfl
  | cons row rows ih =>
    obtain ⟨n, c⟩ := row
    rw [List.map_cons, List.mem_cons, not_or] at h
    rw [List.cons_append, amend, if_neg (Ne.symm h.1), ih h.2]
    rfl

theorem amend_of_notMem {rows : List (String × β)} (h : name ∉ rows.map (·.1)) :
    amend name f rows = rows ++ [(name, f none)] := by
  have hlast : amend name f (rows ++ []) = rows ++ amend name f [] := amend_append_of_notMem h
  rw [List.append_nil] at hlast
  exact hlast

theorem map_fst_amend (rows : List (String × β)) :
    (amend name f rows).map (·.1) =
      if name ∈ rows.map (·.1) then rows.map (·.1) else rows.map (·.1) ++ [name] := by
  induction rows with
  | nil => rfl
  | cons row rows ih =>
    obtain ⟨n, c⟩ := row
    by_cases hn : n = name
    · simp [amend, hn]
    · simp only [amend, if_neg hn, List.map_cons, ih, List.mem_cons, Ne.symm hn, false_or]
      split <;> rfl

theorem Distinct.alter (h : r.Distinct) (name : String) (f : Option β → β) :
    (r.alter name f).Distinct := by
  show ((amend name f r.rows).map (·.1)).Nodup
  rw [map_fst_amend]
  split
  · exact h
  · rename_i hmem
    exact List.nodup_append.mpr ⟨h, List.nodup_singleton name, fun a ha b hb => by
      rw [List.mem_singleton.mp hb]
      exact fun e => hmem (e ▸ ha)⟩

/-- What holds of every row still does after a change that keeps it. -/
theorem forall_rows_alter {P : String × β → Prop} (h : ∀ row ∈ r.rows, P row)
    (hnone : P (name, f none)) (hsome : ∀ b, P (name, b) → P (name, f (some b))) :
    ∀ row ∈ (r.alter name f).rows, P row := by
  obtain ⟨rows⟩ := r
  show ∀ row ∈ amend name f rows, P row
  induction rows with
  | nil =>
    intro row hrow
    rw [List.mem_singleton.mp hrow]
    exact hnone
  | cons first rows ih =>
    obtain ⟨n, c⟩ := first
    have hrest := ih fun row hrow => h row (List.mem_cons_of_mem _ hrow)
    have hfirst : P (n, c) := h (n, c) List.mem_cons_self
    intro row hrow
    unfold amend at hrow
    split at hrow
    · rename_i hn
      subst hn
      rcases List.mem_cons.mp hrow with rfl | hrow
      · exact hsome c hfirst
      · exact h row (List.mem_cons_of_mem _ hrow)
    · rcases List.mem_cons.mp hrow with rfl | hrow
      · exact hfirst
      · exact hrest row hrow

/-- Lists that are not empty and hold nothing but `P` stay so when another `P` is put last. -/
theorem forall_rows_push {P : β → Prop} {r : Register (List β)}
    (h : ∀ row ∈ r.rows, row.2 ≠ [] ∧ ∀ x ∈ row.2, P x) (hb : P b) :
    ∀ row ∈ (r.push name b).rows, row.2 ≠ [] ∧ ∀ x ∈ row.2, P x := by
  refine forall_rows_alter h ?_ fun old hold => ?_
  · exact ⟨by simp, fun x hx => List.mem_singleton.mp hx ▸ hb⟩
  · refine ⟨by simp, fun x hx => ?_⟩
    rcases List.mem_append.mp hx with hx | hx
    · exact hold.2 x hx
    · exact List.mem_singleton.mp hx ▸ hb

theorem find?_insert (r : Register β) (name q : String) (b : β) :
    (r.insert name b).find? q = if q = name then some b else r.find? q :=
  find?_alter r name q fun _ => b

/-- The list of a name, empty if it has none. -/
def listOf (r : Register (List β)) (name : String) : List β := (r.find? name).getD []

theorem listOf_push (r : Register (List β)) (name q : String) (b : β) :
    (r.push name b).listOf q = if q = name then r.listOf q ++ [b] else r.listOf q := by
  unfold listOf push
  rw [find?_alter]
  split
  · rename_i hq
    rw [hq]
    rfl
  · rfl

theorem mem_listOf_iff {r : Register (List β)} (h : r.Distinct) :
    b ∈ r.listOf name ↔ ∃ items, (name, items) ∈ r.rows ∧ b ∈ items := by
  simp only [← find?_eq_some_iff h, listOf]
  cases r.find? name <;> simp

/-- Where no list is empty, the names are those that have something in their list. -/
theorem mem_names_iff_listOf_ne_nil {r : Register (List β)} (h : r.Distinct)
    (hitems : ∀ row ∈ r.rows, row.2 ≠ []) : name ∈ r.names ↔ r.listOf name ≠ [] := by
  unfold listOf
  cases hfind : r.find? name with
  | none => simpa using find?_eq_none_iff.mp hfind
  | some items =>
    have hrow := (find?_eq_some_iff h).mp hfind
    exact iff_of_true (List.mem_map.mpr ⟨_, hrow, rfl⟩) (hitems _ hrow)

/-! ## Leaving names out -/

section FilterNames

variable {keep : String → Bool}

theorem find?_filterNames (r : Register β) (hkeep : keep name = true) :
    (r.filterNames keep).find? name = r.find? name := by
  obtain ⟨rows⟩ := r
  show lookup name (rows.filter fun row => keep row.1) = lookup name rows
  induction rows with
  | nil => rfl
  | cons row rows ih =>
    obtain ⟨n, c⟩ := row
    by_cases hn : n = name
    · simp [lookup, hn, hkeep]
    · by_cases hrow : keep n = true
      · simp [lookup, hn, hrow, ih]
      · simp [lookup, hn, hrow, ih]

/-- A name that is kept can be changed before or after the others are left out. -/
theorem filterNames_alter (r : Register β) (f : Option β → β) (hkeep : keep name = true) :
    (r.alter name f).filterNames keep = (r.filterNames keep).alter name f := by
  obtain ⟨rows⟩ := r
  refine congrArg Register.mk ?_
  show (amend name f rows).filter (fun row => keep row.1) =
    amend name f (rows.filter fun row => keep row.1)
  induction rows with
  | nil => simp [amend, hkeep]
  | cons row rows ih =>
    obtain ⟨n, c⟩ := row
    by_cases hn : n = name
    · simp [amend, hn, hkeep]
    · by_cases hrow : keep n = true
      · simp [amend, hn, hrow, ih]
      · simp [amend, hn, hrow, ih]

/-- A name that is left out need not have been changed before. -/
theorem filterNames_alter_of_not (r : Register β) (f : Option β → β)
    (hkeep : ¬ keep name = true) : (r.alter name f).filterNames keep = r.filterNames keep := by
  obtain ⟨rows⟩ := r
  refine congrArg Register.mk ?_
  show (amend name f rows).filter (fun row => keep row.1) = rows.filter fun row => keep row.1
  induction rows with
  | nil => simp [amend, hkeep]
  | cons row rows ih =>
    obtain ⟨n, c⟩ := row
    by_cases hn : n = name
    · simp [amend, hn, hkeep]
    · simp [amend, hn, List.filter_cons, ih]

end FilterNames

/-! ## Lists as one list -/

/-- All items with their names, name by name. -/
def flatten (r : Register (List β)) : List (String × β) :=
  r.rows.flatMap fun (n, items) => items.map (n, ·)

theorem mem_flatten {r : Register (List β)} :
    (name, b) ∈ r.flatten ↔ ∃ items, (name, items) ∈ r.rows ∧ b ∈ items := by
  simp only [flatten, List.mem_flatMap, List.mem_map]
  constructor
  · rintro ⟨⟨n, items⟩, hrow, x, hx, heq⟩
    obtain ⟨rfl, rfl⟩ := Prod.mk.inj heq
    exact ⟨items, hrow, hx⟩
  · rintro ⟨items, hrow, hb⟩
    exact ⟨(name, items), hrow, b, hb, rfl⟩

/-- The list of a name, read off the items of all names. -/
theorem filterMap_flatten (r : Register (List β)) (h : r.Distinct) (name : String) :
    (r.flatten.filterMap fun p => if p.1 = name then some p.2 else none) = r.listOf name := by
  obtain ⟨rows⟩ := r
  simp only [flatten, listOf, find?]
  induction rows with
  | nil => rfl
  | cons row rows ih =>
    obtain ⟨n, items⟩ := row
    obtain ⟨hnew, hrest⟩ := List.nodup_cons.mp h
    rw [List.flatMap_cons, List.filterMap_append, ih hrest, List.filterMap_map]
    by_cases hn : n = name
    · -- no other row has the name
      subst hn
      rw [lookup_eq_none_iff.mpr hnew]
      simp [lookup]
    · simp [lookup, hn]

theorem findSome?_flatten {γ : Type} (r : Register (List β)) (f : β → Option γ) :
    (r.flatten.findSome? fun p => f p.2) = r.rows.findSome? fun row => row.2.findSome? f := by
  obtain ⟨rows⟩ := r
  simp only [flatten]
  induction rows with
  | nil => rfl
  | cons row rows ih =>
    have hitems : ((row.2.map (row.1, ·)).findSome? fun p => f p.2) = row.2.findSome? f :=
      List.findSome?_map
    rw [List.flatMap_cons, List.findSome?_append, hitems, ih, List.findSome?_cons]
    cases row.2.findSome? f <;> rfl

/-- The register after every item has been put last in the list of its name. -/
def pushAll (r : Register (List β)) (items : List (String × β)) : Register (List β) :=
  items.foldl (fun r (n, b) => r.push n b) r

theorem pushAll_append (r : Register (List β)) (items more : List (String × β)) :
    r.pushAll (items ++ more) = (r.pushAll items).pushAll more :=
  List.foldl_append

/-- Items of the name that came last join its list. -/
theorem pushAll_last {rows : List (String × List β)} (h : name ∉ rows.map (·.1))
    (items more : List β) :
    pushAll ⟨rows ++ [(name, items)]⟩ (more.map (name, ·)) = ⟨rows ++ [(name, items ++ more)]⟩ := by
  induction more generalizing items with
  | nil =>
    rw [List.append_nil]
    rfl
  | cons b more ih =>
    have hpush : push ⟨rows ++ [(name, items)]⟩ name b = ⟨rows ++ [(name, items ++ [b])]⟩ := by
      rw [push, alter, amend_append_of_notMem h, amend, if_pos rfl, Option.getD_some]
    have hrest := ih (items ++ [b])
    rw [List.append_assoc, List.singleton_append] at hrest
    rw [← hrest, ← hpush]
    rfl

/-- Items of a new name make a row at the end. -/
theorem pushAll_new {rows : List (String × List β)} (h : name ∉ rows.map (·.1)) {items : List β}
    (hitems : items ≠ []) :
    pushAll ⟨rows⟩ (items.map (name, ·)) = ⟨rows ++ [(name, items)]⟩ := by
  obtain ⟨first, more, rfl⟩ := List.exists_cons_of_ne_nil hitems
  have hfirst : push ⟨rows⟩ name first = ⟨rows ++ [(name, [first])]⟩ := by
    rw [push, alter, amend_of_notMem h]
    rfl
  have hmore := pushAll_last h [first] more
  rw [← hfirst] at hmore
  exact hmore

/-- **Items put down name by name make the same register again**, if each name has some. -/
theorem pushAll_flatten (r : Register (List β)) (hdistinct : r.Distinct)
    (hitems : ∀ row ∈ r.rows, row.2 ≠ []) : empty.pushAll r.flatten = r := by
  obtain ⟨rows⟩ := r
  suffices h : ∀ done : List (String × List β), ((done ++ rows).map (·.1)).Nodup →
      pushAll ⟨done⟩ (flatten ⟨rows⟩) = ⟨done ++ rows⟩ from h [] hdistinct
  clear hdistinct
  -- each row comes after the rows that are done, and none of these has its name
  induction rows with
  | nil =>
    intro done _
    rw [List.append_nil]
    rfl
  | cons row rows ih =>
    intro done hnodup
    obtain ⟨n, items⟩ := row
    have hnew : n ∉ done.map (·.1) := fun hmem => by
      rw [List.map_append, List.nodup_append] at hnodup
      exact hnodup.2.2 n hmem n List.mem_cons_self rfl
    have hrow := pushAll_new hnew (hitems _ List.mem_cons_self)
    have hrest := ih (fun row hrow => hitems row (List.mem_cons_of_mem _ hrow))
      (done ++ [(n, items)]) (by rwa [List.append_assoc])
    rw [List.append_assoc, List.singleton_append, ← hrow, ← pushAll_append] at hrest
    exact hrest

/-- A register that items are put into has one row for each name, and no empty list. -/
theorem distinct_pushAll {P : β → Prop} {r : Register (List β)} (hdistinct : r.Distinct)
    (hrows : ∀ row ∈ r.rows, row.2 ≠ [] ∧ ∀ x ∈ row.2, P x) {items : List (String × β)}
    (hitems : ∀ item ∈ items, P item.2) :
    (r.pushAll items).Distinct ∧
      ∀ row ∈ (r.pushAll items).rows, row.2 ≠ [] ∧ ∀ x ∈ row.2, P x := by
  induction items generalizing r with
  | nil => exact ⟨hdistinct, hrows⟩
  | cons item items ih =>
    exact ih (hdistinct.alter item.1 _)
      (forall_rows_push hrows (hitems item List.mem_cons_self))
      fun x hx => hitems x (List.mem_cons_of_mem _ hx)

end Gazetteer.Register
