import Gazetteer.Proofs.Except
import Gazetteer.Proofs.Text.Edit

/-!
# Edits in succession

One edit after another moves positions twice. `Composes first second whole` says that the two
together do what `whole` does: wherever `first` and `whole` lead a position, `second` leads it on
from the one place to the other. Nothing is said of positions that `first` or `whole` cannot move.

* `composes_undo`: an insertion and the deletion of what was inserted do nothing.
* `splits_insertion`, `splits_deletion`: an insertion goes on where the text inserted so far ends, a
  deletion where it began. Both are `Splits`: what the whole can move, its first part can.
* `Composes.bind_left?_mapSpan`: what holds of positions holds of spans, also where the first edit
  leaves nothing of one.
* `start_eq_or_stop_eq_of_mapSpan`: spans that an edit brings to the same place have started or
  stopped at the same place, so another edit does not bring them there in a different order.
-/

namespace Gazetteer.Edit

variable {first second whole e : Edit}

/-! ## One edit after another -/

/-- **Two edits do what one does**, wherever the first of them and the one lead. -/
structure Composes (first second whole : Edit) : Prop where
  mapStart : ∀ {pos mid pos' : Offset}, first.mapStart pos = .ok mid →
    whole.mapStart pos = .ok pos' → second.mapStart mid = .ok pos'
  mapStop : ∀ {pos mid pos' : Offset}, first.mapStop pos = .ok mid →
    whole.mapStop pos = .ok pos' → second.mapStop mid = .ok pos'

/-- **An edit is made in two steps**: they do what it does, and the first leads wherever it does. -/
structure Splits (whole first second : Edit) : Prop extends Composes first second whole where
  exists_mapStart : ∀ {pos pos' : Offset}, whole.mapStart pos = .ok pos' →
    ∃ mid, first.mapStart pos = .ok mid
  exists_mapStop : ∀ {pos pos' : Offset}, whole.mapStop pos = .ok pos' →
    ∃ mid, first.mapStop pos = .ok mid

/-! ## Spans -/

namespace Composes

variable {s t : Span} {o : Option Span}

theorem mapSpan_of_some (h : Composes first second whole)
    (hfirst : first.mapSpan s = .ok (some t)) (hwhole : whole.mapSpan s = .ok o) :
    second.mapSpan t = .ok o := by
  obtain ⟨hstart, hstop, -⟩ := mapSpan_eq_some_iff.mp hfirst
  obtain ⟨start, stop, hstart', hstop', ho⟩ := mapSpan_eq_ok_iff.mp hwhole
  exact mapSpan_eq_ok_iff.mpr
    ⟨start, stop, h.mapStart hstart hstart', h.mapStop hstop hstop', ho⟩

/-- Of what the first edit leaves nothing, the whole leaves nothing. -/
theorem eq_none_of_none (h : Composes first second whole) (hfirst : first.mapSpan s = .ok none)
    (hwhole : whole.mapSpan s = .ok o) : o = none := by
  obtain ⟨start₁, stop₁, hstart₁, hstop₁, hempty⟩ := mapSpan_eq_ok_iff.mp hfirst
  obtain ⟨start, stop, hstart, hstop, rfl⟩ := mapSpan_eq_ok_iff.mp hwhole
  have hle : stop₁ ≤ start₁ := by
    by_contra hlt
    rw [if_pos (not_le.mp hlt)] at hempty
    exact absurd hempty (by simp)
  -- the second edit does not part ends that have met
  have hle' : stop ≤ start :=
    mapStop_le_mapStart hle (h.mapStop hstop₁ hstop) (h.mapStart hstart₁ hstart)
  exact if_neg (not_lt.mpr hle')

/-- **What two edits leave of a span** is what the one leaves of it. -/
theorem bind_left?_mapSpan (h : Composes first second whole) {o₁ : Option Span}
    (hfirst : first.mapSpan s = .ok o₁) (hwhole : whole.mapSpan s = .ok o) :
    ((left? (first.mapSpan s)).bind fun t => left? (second.mapSpan t)) =
      left? (whole.mapSpan s) := by
  rw [hfirst, hwhole]
  cases o₁ with
  | none => exact (h.eq_none_of_none hfirst hwhole).symm
  | some t => exact congrArg left? (h.mapSpan_of_some hfirst hwhole)

end Composes

theorem Splits.exists_mapSpan (h : Splits whole first second) {s : Span} {o : Option Span}
    (hwhole : whole.mapSpan s = .ok o) : ∃ o₁, first.mapSpan s = .ok o₁ := by
  obtain ⟨start, stop, hstart, hstop, -⟩ := mapSpan_eq_ok_iff.mp hwhole
  obtain ⟨start₁, hstart₁⟩ := h.exists_mapStart hstart
  obtain ⟨stop₁, hstop₁⟩ := h.exists_mapStop hstop
  exact ⟨_, mapSpan_eq_ok_iff.mpr ⟨start₁, stop₁, hstart₁, hstop₁, rfl⟩⟩

/-! ## Insertions and deletions -/

/-- An insertion moves what does not stand before it. -/
theorem mapStart_eq_ok_iff_of_nonneg (hdelta : 0 ≤ e.delta) {pos pos' : Offset} :
    e.mapStart pos = .ok pos' ↔
      (pos'.val : Int) = if pos < e.offset then (pos.val : Int) else pos.val + e.delta := by
  rw [mapStart_eq_ok_iff, Fin.ext_iff, ← Int.natCast_inj]
  by_cases hbefore : pos < e.offset
  · simp [hbefore]
  · rcases hdelta.lt_or_eq with hins | hnone
    · simp [hbefore, hins, hins.ne']
    · simp [hbefore, ← hnone]

/-- A deletion moves what does not stand before it, but not past its offset. -/
theorem mapStart_eq_ok_iff_of_nonpos (hdelta : e.delta ≤ 0) {pos pos' : Offset} :
    e.mapStart pos = .ok pos' ↔
      (pos < e.offset ∨ e.delta = 0 ∨ e.deletedEnd ≤ farthestEnd) ∧
        (pos'.val : Int) =
          if pos < e.offset then (pos.val : Int)
          else max (e.offset.val : Int) (pos.val + e.delta) := by
  rw [mapStart_eq_ok_iff, Fin.ext_iff, ← Int.natCast_inj]
  by_cases hbefore : pos < e.offset
  · simp [hbefore]
  · rcases hdelta.lt_or_eq with hdel | hnone
    · simp [hbefore, hdel.not_gt, hdel.ne]
    · have hle : (e.offset.val : Int) ≤ pos.val := Int.ofNat_le.mpr (not_lt.mp hbefore)
      simp [hbefore, hnone, hle]

/-- A deletion moves ends like starts. -/
theorem mapStop_eq_mapStart (hdelta : e.delta ≤ 0) (pos : Offset) :
    e.mapStop pos = e.mapStart pos :=
  if_neg fun hins => absurd hins.1 (not_lt.mpr hdelta)

/-- So does an insertion where it does not insert. -/
theorem mapStop_of_ne {pos : Offset} (h : pos ≠ e.offset) : e.mapStop pos = e.mapStart pos :=
  if_neg (h ·.2)

/-- An end at the offset of an insertion stays there. -/
theorem mapStop_offset (hdelta : 0 ≤ e.delta) : e.mapStop e.offset = .ok e.offset := by
  rcases hdelta.lt_or_eq with hins | hnone
  · exact if_pos ⟨hins, rfl⟩
  · rw [mapStop_eq_mapStart hnone.ge, mapStart_eq_ok_iff, if_pos (Or.inr hnone.symm)]

/-- An edit that neither inserts nor deletes anything moves nothing. -/
theorem mapSpan_zero (o : Offset) {s : Span} (h : s.Proper) :
    mapSpan ⟨o, 0⟩ s = .ok (some s) := by
  refine mapSpan_eq_some_iff.mpr ⟨mapStart_eq_ok_iff.mpr ?_, ?_, h⟩
  · rw [if_pos (Or.inr rfl)]
  · rw [mapStop_eq_mapStart le_rfl, mapStart_eq_ok_iff, if_pos (Or.inr rfl)]

/-- **Spans that land on the same place** have started or stopped at the same place. -/
theorem start_eq_or_stop_eq_of_mapSpan {s t u : Span} (hs : e.mapSpan s = .ok (some u))
    (ht : e.mapSpan t = .ok (some u)) : s.start = t.start ∨ s.stop = t.stop := by
  by_cases hdelta : 0 ≤ e.delta
  · exact Or.inl (congrArg Span.start (eq_of_mapSpan hdelta hs ht))
  · have hdelta : e.delta ≤ 0 := (not_le.mp hdelta).le
    obtain ⟨hs1, hs2, hproper⟩ := mapSpan_eq_some_iff.mp hs
    obtain ⟨ht1, ht2, -⟩ := mapSpan_eq_some_iff.mp ht
    unfold Span.Proper at hproper
    rw [mapStop_eq_mapStart hdelta] at hs2 ht2
    simp only [mapStart_eq_ok_iff_of_nonpos hdelta] at hs1 ht1 hs2 ht2
    simp only [Fin.lt_def, Fin.ext_iff] at *
    -- a deletion gathers positions at its offset only, and not both ends of a proper span
    by_cases hbefore : u.start.val < e.offset.val
    · left
      split_ifs at hs1 ht1 <;> omega
    · right
      split_ifs at hs2 ht2 <;> omega

/-! ## Which edits compose -/

/-- Which positions an edit can move. -/
theorem exists_mapStart_iff {pos : Offset} :
    (∃ pos', e.mapStart pos = .ok pos') ↔
      (pos < e.offset ∨ e.delta = 0) ∨ (0 < e.delta ∧ pos.val + e.delta < 4294967296) ∨
        (e.delta < 0 ∧ e.deletedEnd ≤ farthestEnd) := by
  simp only [mapStart_eq_ok_iff]
  split_ifs with hkeep hins
  · exact iff_of_true ⟨pos, rfl⟩ (Or.inl hkeep)
  · simp only [hkeep, hins, hins.not_gt, true_and, false_and, false_or, or_false]
    constructor
    · rintro ⟨r, hr⟩
      have hlt := r.isLt
      omega
    · intro hlt
      exact ⟨⟨(pos.val + e.delta).toNat, by omega⟩, Int.toNat_of_nonneg (by omega)⟩
  · have hdelta : e.delta < 0 := by omega
    simp only [hkeep, hins, hdelta, true_and, false_and, false_or]
    refine ⟨fun ⟨_, hfar, _⟩ => hfar, fun hfar => ?_⟩
    have hpos := pos.isLt
    have hoffset := e.offset.isLt
    exact ⟨⟨(max (e.offset.val : Int) (pos.val + e.delta)).toNat, by omega⟩, hfar,
      Int.toNat_of_nonneg (by omega)⟩

/-- Insertions at one place compose with an edit as soon as they do so at starts: an end at that
place stays, and any other end goes where a start goes. -/
theorem composes_of_mapStart (hoffset : first.offset = whole.offset) (hfirst : 0 ≤ first.delta)
    (hwhole : 0 ≤ whole.delta)
    (hstart : ∀ {pos mid pos' : Offset}, first.mapStart pos = .ok mid →
      whole.mapStart pos = .ok pos' → second.mapStart mid = .ok pos')
    (hstay : second.mapStop whole.offset = .ok whole.offset)
    (helse : ∀ {pos mid : Offset}, pos ≠ whole.offset → first.mapStart pos = .ok mid →
      second.mapStop mid = second.mapStart mid) :
    Composes first second whole := by
  refine ⟨hstart, fun {pos mid pos'} hmid hpos' => ?_⟩
  by_cases hpos : pos = whole.offset
  · rw [hpos, mapStop_offset hwhole] at hpos'
    rw [hpos, ← hoffset, mapStop_offset hfirst, hoffset] at hmid
    rw [← Except.ok.inj hmid, ← Except.ok.inj hpos', hstay]
  · rw [mapStop_of_ne hpos] at hpos'
    rw [mapStop_of_ne (hoffset ▸ hpos)] at hmid
    rw [helse hpos hmid, hstart hmid hpos']

/-- **Deleting what has been inserted** leads every position back to where it was. -/
theorem composes_undo (o len : Offset) : Composes (insertion o len) (deletion o len) ⟨o, 0⟩ := by
  have hins : 0 ≤ (insertion o len).delta := Int.natCast_nonneg len.val
  have hdel : (deletion o len).delta ≤ 0 := Int.neg_nonpos_of_nonneg hins
  refine composes_of_mapStart rfl hins le_rfl (fun {pos mid pos'} hmid hpos' => ?_) ?_
    fun {_ mid} _ _ => mapStop_eq_mapStart hdel mid
  · rw [mapStart_eq_ok_iff_of_nonneg hins] at hmid
    rw [mapStart_eq_ok_iff_of_nonneg le_rfl] at hpos'
    rw [mapStart_eq_ok_iff_of_nonpos hdel]
    simp only [insertion, deletion, deletedEnd, farthestEnd, Fin.lt_def] at *
    split_ifs at hmid hpos' ⊢ <;> omega
  · rw [mapStop_eq_mapStart hdel, mapStart_eq_ok_iff_of_nonpos hdel]
    simp only [deletion, deletedEnd, farthestEnd, lt_irrefl, if_false, false_or]
    omega

/-- **An insertion in two parts**: the second goes in where the first ends. -/
theorem splits_insertion {o o' : Offset} {a b : Nat} (ho : o'.val = o.val + a) :
    Splits ⟨o, a + b⟩ ⟨o, a⟩ ⟨o', b⟩ := by
  have ha : (0 : Int) ≤ a := Int.natCast_nonneg a
  have hb : (0 : Int) ≤ b := Int.natCast_nonneg b
  have hexists : ∀ {pos pos' : Offset}, mapStart ⟨o, a + b⟩ pos = .ok pos' →
      ∃ mid, mapStart ⟨o, a⟩ pos = .ok mid := by
    intro pos pos' hwhole
    have hmoves := exists_mapStart_iff.mp ⟨pos', hwhole⟩
    refine exists_mapStart_iff.mpr ?_
    simp only [Fin.lt_def] at *
    omega
  refine ⟨composes_of_mapStart rfl ha (Int.add_nonneg ha hb) ?_ ?_ ?_, hexists, ?_⟩
  · intro pos mid pos' hmid hpos'
    rw [mapStart_eq_ok_iff_of_nonneg ha] at hmid
    rw [mapStart_eq_ok_iff_of_nonneg (Int.add_nonneg ha hb)] at hpos'
    rw [mapStart_eq_ok_iff_of_nonneg hb]
    simp only [Fin.lt_def] at *
    split_ifs at hmid hpos' ⊢ <;> omega
  · -- the offset stands before the second part, unless nothing was inserted in between
    by_cases hoffset : o = o'
    · rw [← hoffset]
      exact mapStop_offset hb
    · rw [mapStop_of_ne hoffset, mapStart_eq_ok_iff_of_nonneg hb, if_pos]
      have hne : o.val ≠ o'.val := fun heq => hoffset (Fin.ext heq)
      simp only [Fin.lt_def]
      omega
  · intro pos mid hpos hmid
    refine mapStop_of_ne fun heq => hpos (Fin.ext ?_)
    rw [mapStart_eq_ok_iff_of_nonneg ha, heq] at hmid
    simp only [Fin.lt_def] at *
    split_ifs at hmid <;> omega
  · intro pos pos' hwhole
    by_cases hpos : pos = o
    · exact ⟨o, hpos ▸ mapStop_offset ha⟩
    · rw [mapStop_of_ne hpos] at hwhole ⊢
      exact hexists hwhole

/-- **A deletion in two parts**: both begin at the same place, where the text closes up. -/
theorem splits_deletion (o : Offset) (a b : Nat) : Splits ⟨o, -(a + b)⟩ ⟨o, -a⟩ ⟨o, -b⟩ := by
  have hdel : ∀ k : Nat, -(k : Int) ≤ 0 := fun k =>
    Int.neg_nonpos_of_nonneg (Int.natCast_nonneg k)
  rw [← Int.natCast_add]
  have hcomposes : ∀ {pos mid pos' : Offset}, mapStart ⟨o, -a⟩ pos = .ok mid →
      mapStart ⟨o, -(a + b : Nat)⟩ pos = .ok pos' → mapStart ⟨o, -b⟩ mid = .ok pos' := by
    intro pos mid pos' hmid hpos'
    rw [mapStart_eq_ok_iff_of_nonpos (hdel _)] at hmid hpos' ⊢
    simp only [deletedEnd, Fin.lt_def] at *
    split_ifs at hmid hpos' ⊢ <;> omega
  have hexists : ∀ {pos pos' : Offset}, mapStart ⟨o, -(a + b : Nat)⟩ pos = .ok pos' →
      ∃ mid, mapStart ⟨o, -a⟩ pos = .ok mid := by
    intro pos pos' hwhole
    have hmoves := exists_mapStart_iff.mp ⟨pos', hwhole⟩
    refine exists_mapStart_iff.mpr ?_
    simp only [deletedEnd, Fin.lt_def] at *
    omega
  have hends : ∀ k : Nat, mapStop ⟨o, -k⟩ = mapStart ⟨o, -k⟩ := fun k =>
    funext (mapStop_eq_mapStart (hdel k))
  refine ⟨⟨hcomposes, ?_⟩, hexists, ?_⟩
  · rw [hends, hends, hends]
    exact hcomposes
  · rw [hends, hends]
    exact hexists

end Gazetteer.Edit
