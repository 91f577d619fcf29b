import Gazetteer.Forest.Rebuild
import Gazetteer.Proofs.Forest.CarriedOver
import Gazetteer.Proofs.Text.Edit

/-!
# Editing a forest

An edit drafts the forest anew from what is left of its rows. Because an edit neither reorders
positions nor makes spans straddle, the draft refuses nothing: only a position out of range makes
an edit fail (`edit_eq_error_iff`). Because it neither makes nor loses nesting, its rows are carried
over (`LeftBy.carriedOver`), and because with a row everything around it is left, the parent of what
is left of a row is what is left of its parent (`LeftBy.get?_placeAfter`).
-/

namespace Gazetteer

/-- What an edit leaves of a row, if anything: its key with its new span. -/
def Interval.image? {κ : Type} (e : Edit) (r : Interval κ) : Option (Option κ × Span) :=
  match e.mapSpan r.span with
  | .ok (some s) => some (r.key, s)
  | _ => none

theorem Interval.image?_eq_some_iff {κ : Type} {e : Edit} {r : Interval κ} {c : Option κ × Span} :
    r.image? e = some c ↔ e.mapSpan r.span = .ok (some c.2) ∧ c.1 = r.key := by
  unfold Interval.image?
  split
  · rename_i s hs
    rw [hs, Option.some.injEq, Except.ok.injEq, Option.some.injEq, Prod.ext_iff]
    exact ⟨fun h => ⟨h.2, h.1.symm⟩, fun h => ⟨h.2.symm, h.1⟩⟩
  · rename_i hno
    simp only [reduceCtorEq, false_iff, not_and]
    intro h
    exact absurd h (hno c.2)

namespace Forest

variable {κ : Type} {f g : Forest κ} {e : Edit}

/-! ## When an edit fails -/

theorem addEdited_eq_error {d : Draft κ} {r : Interval κ} {x : Error}
    (h : e.mapSpan r.span = .error x) : d.addEdited e r = .error x := by
  unfold Draft.addEdited
  rw [h]
  rfl

/-- As long as positions stay in range, an edit adds what is left of the rows. -/
theorem foldlM_addEdited_eq {rows : List (Interval κ)}
    (hok : ∀ r ∈ rows, ∃ o, e.mapSpan r.span = .ok o) (d : Draft κ) :
    rows.foldlM (Draft.addEdited e) d = d.addAll (rows.filterMap (Interval.image? e)) := by
  induction rows generalizing d with
  | nil => rfl
  | cons r rows ih =>
    have ih := ih fun q hq => hok q (List.mem_cons_of_mem r hq)
    obtain ⟨o, ho⟩ := hok r List.mem_cons_self
    rw [List.foldlM_cons]
    unfold Draft.addEdited
    rw [ho]
    cases o with
    | none =>
      have hnone : r.image? e = none := by rw [Interval.image?, ho]
      rw [List.filterMap_cons_none hnone]
      exact ih d
    | some s =>
      have hsome : r.image? e = some (r.key, s) := by rw [Interval.image?, ho]
      rw [List.filterMap_cons_some hsome, Draft.addAll, List.foldlM_cons]
      exact congrArg _ (funext ih)

/-- **The draft refuses nothing that an edit leaves.** -/
theorem exists_foldlM_addEdited {rows : List (Interval κ)}
    (hadm : rows.Pairwise fun q r => q.span.Admits r.span)
    (hok : ∀ r ∈ rows, ∃ o, e.mapSpan r.span = .ok o) :
    ∃ d, rows.foldlM (Draft.addEdited e) Draft.empty = .ok d ∧ d.Inv ∧
      d.freeze.entries = rows.filterMap (Interval.image? e) := by
  rw [foldlM_addEdited_eq hok]
  refine Draft.inv_empty.addAll (fun c hc => ?_) (fun i t ht => ?_) ?_
  · obtain ⟨r, -, hr⟩ := List.mem_filterMap.mp hc
    exact (Edit.mapSpan_eq_some_iff.mp (Interval.image?_eq_some_iff.mp hr).1).2.2
  · exact absurd (lt_size_of_span? ht) (Nat.not_lt_zero i)
  · refine hadm.filterMap _ fun q r hqr a ha b hb => ?_
    have ha := (Interval.image?_eq_some_iff.mp ha).1
    have hb := (Interval.image?_eq_some_iff.mp hb).1
    exact Edit.admits_of_mapSpan hqr ha hb

/-- Either no row fails, or one is the first to fail. -/
theorem all_ok_or_first_failure (e : Edit) :
    ∀ rows : List (Interval κ), (∀ r ∈ rows, ∃ o, e.mapSpan r.span = .ok o) ∨
      ∃ before r after x, rows = before ++ r :: after ∧
        (∀ q ∈ before, ∃ o, e.mapSpan q.span = .ok o) ∧ e.mapSpan r.span = .error x
  | [] => Or.inl fun _ hr => absurd hr List.not_mem_nil
  | r :: rows => by
    cases hr : e.mapSpan r.span with
    | error x => exact Or.inr ⟨[], r, rows, x, rfl, fun _ hq => absurd hq List.not_mem_nil, hr⟩
    | ok o =>
      have hcons : ∀ {qs : List (Interval κ)}, (∀ q ∈ qs, ∃ o, e.mapSpan q.span = .ok o) →
          ∀ q ∈ r :: qs, ∃ o, e.mapSpan q.span = .ok o := by
        intro qs hqs q hq
        rcases List.mem_cons.mp hq with rfl | hq
        · exact ⟨o, hr⟩
        · exact hqs q hq
      rcases all_ok_or_first_failure e rows with hall | ⟨before, q, after, x, rfl, hbefore, hq⟩
      · exact Or.inl (hcons hall)
      · exact Or.inr ⟨r :: before, q, after, x, rfl, hcons hbefore, hq⟩

theorem edit_eq_error_of_first {before after : List (Interval κ)} {r : Interval κ} {x : Error}
    (h : f.WellFormed) (hrows : f.rows.toList = before ++ r :: after)
    (hbefore : ∀ q ∈ before, ∃ o, e.mapSpan q.span = .ok o) (hr : e.mapSpan r.span = .error x) :
    f.edit e = .error x := by
  have hadm := h.rows_admit
  rw [hrows, List.pairwise_append] at hadm
  obtain ⟨d, hd, -, -⟩ := exists_foldlM_addEdited hadm.1 hbefore
  have hfold : f.rows.toList.foldlM (Draft.addEdited e) Draft.empty = .error x := by
    rw [hrows, List.foldlM_append, hd]
    show (r :: after).foldlM (Draft.addEdited e) d = .error x
    rw [List.foldlM_cons, addEdited_eq_error hr]
    rfl
  unfold edit
  rw [hfold]
  rfl

theorem exists_edit_of_all_ok (h : f.WellFormed)
    (hok : ∀ r ∈ f.rows.toList, ∃ o, e.mapSpan r.span = .ok o) :
    ∃ g, f.edit e = .ok g ∧ g.WellFormed ∧
      g.entries = f.rows.toList.filterMap (Interval.image? e) := by
  obtain ⟨d, hd, hinv, hentries⟩ := exists_foldlM_addEdited h.rows_admit hok
  refine ⟨d.freeze, ?_, hinv.wellFormed, hentries⟩
  unfold edit
  rw [hd]
  rfl

/-- **An edit fails exactly where a position leaves the range**, with the error of the first row
that fails. -/
theorem edit_eq_error_iff (h : f.WellFormed) {x : Error} :
    f.edit e = .error x ↔ ∃ before r after, f.rows.toList = before ++ r :: after ∧
      (∀ q ∈ before, ∃ o, e.mapSpan q.span = .ok o) ∧ e.mapSpan r.span = .error x := by
  constructor
  · intro hx
    rcases all_ok_or_first_failure e f.rows.toList with
      hall | ⟨before, r, after, y, hrows, hbefore, hr⟩
    · obtain ⟨g, hg, -, -⟩ := exists_edit_of_all_ok h hall
      rw [hg] at hx
      exact absurd hx (by simp)
    · have hy := edit_eq_error_of_first h hrows hbefore hr
      obtain rfl : y = x := Except.error.inj (hy.symm.trans hx)
      exact ⟨before, r, after, hrows, hbefore, hr⟩
  · rintro ⟨before, r, after, hrows, hbefore, hr⟩
    exact edit_eq_error_of_first h hrows hbefore hr

/-! ## What an edit leaves -/

/-- What an edit leaves of row `i`, if anything. -/
def image? (f : Forest κ) (e : Edit) (i : Nat) : Option (Option κ × Span) :=
  (f.get? i).bind (Interval.image? e)

theorem image?_of_get? {i : Nat} {r : Interval κ} {s : Span} (hi : f.get? i = some r)
    (hs : e.mapSpan r.span = .ok (some s)) : f.image? e i = some (r.key, s) := by
  rw [image?, hi, Option.bind_some]
  exact Interval.image?_eq_some_iff.mpr ⟨hs, rfl⟩

theorem span?_of_image? {i : Nat} {c : Option κ × Span} (h : f.image? e i = some c) :
    ∃ s, f.span? i = some s ∧ e.mapSpan s = .ok (some c.2) := by
  obtain ⟨r, hr, hc⟩ := Option.bind_eq_some_iff.mp h
  exact ⟨r.span, span?_of_get? hr, (Interval.image?_eq_some_iff.mp hc).1⟩

/-- The place of row `i` after an edit: the number of rows before it of which something is left. -/
def placeAfter (f : Forest κ) (e : Edit) (i : Nat) : Nat :=
  keptBefore (Interval.image? e) f.rows.toList i

/-- **`g` is what the edit `e` leaves of `f`.** -/
structure LeftBy (e : Edit) (f g : Forest κ) : Prop where
  before : f.WellFormed
  after : g.WellFormed
  in_range : ∀ r ∈ f.rows.toList, ∃ o, e.mapSpan r.span = .ok o
  entries_eq : g.entries = f.rows.toList.filterMap (Interval.image? e)

theorem leftBy_of_edit (h : f.WellFormed) (hg : f.edit e = .ok g) : LeftBy e f g := by
  rcases all_ok_or_first_failure e f.rows.toList with
    hall | ⟨before, r, after, x, hrows, hbefore, hr⟩
  · obtain ⟨g', hg', hw, hentries⟩ := exists_edit_of_all_ok h hall
    obtain rfl : g = g' := Except.ok.inj (hg.symm.trans hg')
    exact ⟨h, hw, hall, hentries⟩
  · rw [edit_eq_error_of_first h hrows hbefore hr] at hg
    exact absurd hg (by simp)

namespace LeftBy

variable {i j : Nat} {b c : Option κ × Span}

theorem placeAfter_lt_iff (hi : f.image? e i = some c) :
    f.placeAfter e i < f.placeAfter e j ↔ i < j := by
  refine keptBefore_lt_iff (b := c) ?_
  rw [Array.getElem?_toList]
  exact hi

/-- What an edit leaves of the rows is carried over: it nests as the rows did. -/
theorem carriedOver (h : LeftBy e f g) : CarriedOver (f.image? e) (f.placeAfter e) f g where
  before := h.before
  after := h.after
  entry hi := by
    rw [h.entries_eq]
    refine getElem?_keptBefore ?_
    rw [Array.getElem?_toList]
    exact hi
  origin hk := by
    rw [h.entries_eq] at hk
    obtain ⟨i, hi, hplace⟩ := exists_keptBefore hk
    rw [Array.getElem?_toList] at hi
    exact ⟨i, hi, hplace⟩
  lt_iff := placeAfter_lt_iff
  around_iff hij hi hj := by
    obtain ⟨s, hs, hb⟩ := span?_of_image? hi
    obtain ⟨t, ht, hc⟩ := span?_of_image? hj
    rw [Edit.encloses_of_mapSpan_iff (h.before.admits hij hs ht) hb hc]
    simp [Around, hs, ht]

theorem span?_placeAfter (h : LeftBy e f g) (hi : f.image? e i = some c) :
    g.span? (f.placeAfter e i) = some c.2 :=
  h.carriedOver.span?_place hi

/-- Nothing else is left. -/
theorem exists_placeAfter (h : LeftBy e f g) {k : Nat} {s : Span} (hk : g.span? k = some s) :
    ∃ i c, f.image? e i = some c ∧ f.placeAfter e i = k :=
  h.carriedOver.exists_place hk

/-- With a row, every row around it is left. -/
theorem exists_image?_of_around (h : LeftBy e f g) (hj : f.image? e j = some c)
    (hij : Around f.span? i j) : ∃ b, f.image? e i = some b := by
  obtain ⟨u, v, hu, hv, huv⟩ := hij
  obtain ⟨t, ht, hc⟩ := span?_of_image? hj
  obtain rfl : t = v := Option.some.inj (ht.symm.trans hv)
  obtain ⟨q, hq, rfl⟩ := span?_eq_some_iff.mp hu
  obtain ⟨o, ho⟩ := h.in_range q (Array.mem_toList_iff.mpr (Array.mem_of_getElem? hq))
  obtain ⟨s, rfl, -⟩ := Edit.exists_encloses_of_mapSpan huv ho hc
  exact ⟨_, image?_of_get? hq ho⟩

/-- The nearest row around a row of which anything is left is its parent. -/
theorem find?_tail_lineage (h : LeftBy e f g) (hj : f.image? e j = some c) :
    ((lineage f.parent? j).tail.find? fun i => (f.image? e i).isSome) = f.parent? j := by
  rw [h.before.lineage_eq, List.tail_cons]
  cases hp : f.parent? j with
  | none => rfl
  | some p =>
    obtain ⟨b, hb⟩ := h.exists_image?_of_around hj (h.before.parent_around hp)
    rw [Option.map_some, Option.getD_some, h.before.lineage_eq, List.find?_cons_of_pos]
    rw [hb, Option.isSome_some]

/-- **What is left of a row**, with its key; its parent is what is left of its parent. -/
theorem get?_placeAfter (h : LeftBy e f g) {r : Interval κ} {s : Span} (hi : f.get? i = some r)
    (hs : e.mapSpan r.span = .ok (some s)) :
    g.get? (f.placeAfter e i) = some ⟨s, r.key, r.parent.map (f.placeAfter e)⟩ := by
  have himage := image?_of_get? hi hs
  have hparent : f.parent? i = r.parent := by rw [parent?, hi, Option.bind_some]
  rw [h.carriedOver.get?_place (span?_of_get? hi) himage, h.find?_tail_lineage himage, hparent]

end LeftBy

/-- **Editing a forest, exactly.** In every forest that is drafted, an edit fails only because a
position leaves the range, with the error of the first row to fail. When it succeeds, the rows are
what is left of the old rows, in order; with a row, all rows around it are left, and its parent is
what is left of its old parent. -/
theorem edit_offerAll_exact (calls : List (Option κ × Span)) (e : Edit) :
    let f := (Draft.empty.offerAll calls).freeze
    ((∃ g, f.edit e = .ok g) ↔ ∀ r ∈ f.rows.toList, ∃ o, e.mapSpan r.span = .ok o) ∧
    (∀ x, f.edit e = .error x ↔ ∃ before r after, f.rows.toList = before ++ r :: after ∧
      (∀ q ∈ before, ∃ o, e.mapSpan q.span = .ok o) ∧ e.mapSpan r.span = .error x) ∧
    (∀ x, f.edit e = .error x → ∃ pos, x = .offsetOverflow pos e.delta) ∧
    ∀ g, f.edit e = .ok g →
      g.entries = f.rows.toList.filterMap (Interval.image? e) ∧
      ∀ i r s, f.get? i = some r → e.mapSpan r.span = .ok (some s) →
        g.get? (f.placeAfter e i) = some ⟨s, r.key, r.parent.map (f.placeAfter e)⟩ ∧
        ∀ a ∈ lineage f.parent? i, ∃ q t, f.get? a = some q ∧ e.mapSpan q.span = .ok (some t) := by
  intro f
  have h : f.WellFormed := (Draft.inv_empty.offerAll calls).wellFormed
  refine ⟨⟨?_, fun hok => ?_⟩, fun x => edit_eq_error_iff h, fun x hx => ?_, fun g hg => ?_⟩
  · rintro ⟨g, hg⟩
    exact (leftBy_of_edit h hg).in_range
  · obtain ⟨g, hg, -, -⟩ := exists_edit_of_all_ok h hok
    exact ⟨g, hg⟩
  · obtain ⟨before, r, after, -, -, hr⟩ := (edit_eq_error_iff h).mp hx
    exact Edit.mapSpan_eq_error hr
  · have hleft := leftBy_of_edit h hg
    refine ⟨hleft.entries_eq, fun i r s hi hs => ⟨hleft.get?_placeAfter hi hs, fun a ha => ?_⟩⟩
    have ha := (h.mem_lineage (span?_of_get? hi) a).mp ha
    obtain ⟨b, hb⟩ := hleft.exists_image?_of_around (image?_of_get? hi hs) ha.2
    obtain ⟨q, hq, hqb⟩ := Option.bind_eq_some_iff.mp hb
    exact ⟨q, b.2, hq, (Interval.image?_eq_some_iff.mp hqb).1⟩

end Forest

end Gazetteer
