import Gazetteer.Proofs.Text.Succession
import Mathlib

/-!
# Edits and the order of positions

An edit never puts one position before another that it stood after. This alone would not keep spans
from straddling, because starts and ends are moved by two different maps: text that is inserted
where one span stops and another starts parts the two. It parts them the right way round
(`exists_mapStop_le_of_mapStart`), so spans that lay apart still do.

Nor is it enough that order is kept where both positions can be moved. `exists_mapStart_le` and
`exists_mapStop_le` say that the positions that an edit can move are closed downwards: what fails,
fails at the far end of the text.

* `nests_of_mapSpan`: spans that do not straddle never come to straddle.
* `positions_moved_exact`: where every position goes, in exact integers, and the order of all.
-/

namespace Gazetteer.Edit

variable {e : Edit} {p q q' : Offset}

/-! ## Exact positions -/

/-- What an insertion does not leave where it is, it leads on by its size. -/
theorem exists_mapStart_insertion (hp : e.offset ≤ p) (hins : 0 < e.delta)
    (hroom : p.val + e.delta < 4294967296) :
    ∃ p', e.mapStart p = .ok p' ∧ (p'.val : Int) = p.val + e.delta := by
  obtain ⟨p', hp'⟩ := exists_mapStart_iff.mpr (Or.inr (Or.inl ⟨hins, hroom⟩))
  have hval := (mapStart_eq_ok_iff_of_nonneg hins.le).mp hp'
  rw [if_neg (not_lt.mpr hp)] at hval
  exact ⟨p', hp', hval⟩

/-- What a deletion does not leave where it is, it leads back by its size, up to its offset. -/
theorem exists_mapStart_deletion (hp : e.offset ≤ p) (hdel : e.delta < 0)
    (hnear : e.deletedEnd ≤ farthestEnd) :
    ∃ p', e.mapStart p = .ok p' ∧
      (p'.val : Int) = max (e.offset.val : Int) (p.val + e.delta) := by
  obtain ⟨p', hp'⟩ := exists_mapStart_iff.mpr (Or.inr (Or.inr ⟨hdel, hnear⟩))
  have hval := ((mapStart_eq_ok_iff_of_nonpos hdel.le).mp hp').2
  rw [if_neg (not_lt.mpr hp)] at hval
  exact ⟨p', hp', hval⟩

/-- A position that cannot be moved is reported, with the size of the edit. -/
theorem mapStart_eq_error_of_not
    (h : ¬ ((p < e.offset ∨ e.delta = 0) ∨ (0 < e.delta ∧ p.val + e.delta < 4294967296) ∨
      (e.delta < 0 ∧ e.deletedEnd ≤ farthestEnd))) :
    e.mapStart p = .error (.offsetOverflow p e.delta) := by
  cases hp : e.mapStart p with
  | ok p' => exact absurd (exists_mapStart_iff.mp ⟨p', hp⟩) h
  | error x => rw [mapStart_eq_error hp]

/-! ## Order -/

/-- **A start at or before one that can be moved** can be moved as well, and not past it. -/
theorem exists_mapStart_le (hpq : p ≤ q) (hq : e.mapStart q = .ok q') :
    ∃ p', e.mapStart p = .ok p' ∧ p' ≤ q' := by
  have hmoves := exists_mapStart_iff.mp ⟨q', hq⟩
  have hmoved : ∃ p', e.mapStart p = .ok p' := by
    refine exists_mapStart_iff.mpr ?_
    simp only [Fin.le_def, Fin.lt_def] at *
    omega
  obtain ⟨p', hp⟩ := hmoved
  exact ⟨p', hp, mapStart_mono hpq hp hq⟩

/-- **An end at or before a start that can be moved** can be moved as well, and not past it. -/
theorem exists_mapStop_le_of_mapStart (hpq : p ≤ q) (hq : e.mapStart q = .ok q') :
    ∃ p', e.mapStop p = .ok p' ∧ p' ≤ q' := by
  have hmoved : ∃ p', e.mapStop p = .ok p' := by
    by_cases hins : 0 < e.delta ∧ p = e.offset
    · exact ⟨p, if_pos hins⟩
    · obtain ⟨p', hp, -⟩ := exists_mapStart_le hpq hq
      exact ⟨p', (if_neg hins).trans hp⟩
  obtain ⟨p', hp⟩ := hmoved
  exact ⟨p', hp, mapStop_le_mapStart hpq hp hq⟩

/-- **An end at or before one that can be moved** can be moved as well, and not past it. -/
theorem exists_mapStop_le (hpq : p ≤ q) (hq : e.mapStop q = .ok q') :
    ∃ p', e.mapStop p = .ok p' ∧ p' ≤ q' := by
  by_cases hins : 0 < e.delta ∧ q = e.offset
  · -- an insertion at `q` moves no end up to `q`, not even if it has no room for what comes after
    have hstay : e.mapStop p = .ok p := by
      rcases hpq.lt_or_eq with hlt | rfl
      · have hbefore : p < e.offset := hins.2 ▸ hlt
        rw [mapStop_of_ne hbefore.ne, mapStart_eq_ok_iff, if_pos (Or.inl hbefore)]
      · exact if_pos hins
    exact ⟨p, hstay, mapStop_mono hpq hstay hq⟩
  · rw [mapStop, if_neg hins] at hq
    exact exists_mapStop_le_of_mapStart hpq hq

/-! ## Spans -/

/-- **Spans that do not straddle** never come to straddle: those that lay apart do so still, and
those that were nested are nested the same way. -/
theorem nests_of_mapSpan {s t s' t' : Span} (h : s.Nests t) (hs : e.mapSpan s = .ok (some s'))
    (ht : e.mapSpan t = .ok (some t')) : s'.Nests t' := by
  obtain ⟨hs1, hs2, -⟩ := mapSpan_eq_some_iff.mp hs
  obtain ⟨ht1, ht2, -⟩ := mapSpan_eq_some_iff.mp ht
  rcases h with hbefore | hafter | hinside | haround
  · exact Or.inl (mapStop_le_mapStart hbefore hs2 ht1)
  · exact Or.inr (Or.inl (mapStop_le_mapStart hafter ht2 hs1))
  · exact Or.inr (Or.inr (Or.inl
      ⟨mapStart_mono hinside.1 hs1 ht1, mapStop_mono hinside.2 ht2 hs2⟩))
  · exact Or.inr (Or.inr (Or.inr
      ⟨mapStart_mono haround.1 ht1 hs1, mapStop_mono haround.2 hs2 ht2⟩))

/-! ## Every edit and every position -/

/-- **Where an edit leads positions, exactly**, whatever its size:

* what stands before it stays, and everything does if it neither inserts nor deletes;
* an insertion leads a position on by its size, and fails iff that is no position any more;
* a deletion leads a position back by its size but not past its own offset, and fails iff the text
  to be deleted would reach past `2 ^ 63 - 1`;
* a position at or before one that can be moved can be moved, and is not moved past it, whether
  both are starts, both are ends, or it is an end and the other a start;
* so spans that lie apart or nest never come to straddle. -/
theorem positions_moved_exact (e : Edit) :
    (∀ p : Offset, p < e.offset ∨ e.delta = 0 → e.mapStart p = .ok p) ∧
    (∀ p : Offset, e.offset ≤ p → 0 < e.delta →
      ((p.val : Int) + e.delta ≤ 2 ^ 32 - 1 →
        ∃ p', e.mapStart p = .ok p' ∧ (p'.val : Int) = p.val + e.delta) ∧
      (2 ^ 32 - 1 < (p.val : Int) + e.delta →
        e.mapStart p = .error (.offsetOverflow p e.delta))) ∧
    (∀ p : Offset, e.offset ≤ p → e.delta < 0 →
      ((e.offset.val : Int) - e.delta ≤ 2 ^ 63 - 1 →
        ∃ p', e.mapStart p = .ok p' ∧
          (p'.val : Int) = max (e.offset.val : Int) (p.val + e.delta)) ∧
      (2 ^ 63 - 1 < (e.offset.val : Int) - e.delta →
        e.mapStart p = .error (.offsetOverflow p e.delta))) ∧
    (∀ p q : Offset, p ≤ q →
      (∀ q', e.mapStart q = .ok q' → ∃ p', e.mapStart p = .ok p' ∧ p' ≤ q') ∧
      (∀ q', e.mapStop q = .ok q' → ∃ p', e.mapStop p = .ok p' ∧ p' ≤ q') ∧
      ∀ q', e.mapStart q = .ok q' → ∃ p', e.mapStop p = .ok p' ∧ p' ≤ q') ∧
    ∀ s t s' t' : Span, s.Nests t → e.mapSpan s = .ok (some s') → e.mapSpan t = .ok (some t') →
      s'.Nests t' := by
  refine ⟨fun p hstay => mapStart_eq_ok_iff.mpr (by rw [if_pos hstay]),
    fun p hp hins => ⟨fun hroom => exists_mapStart_insertion hp hins (by omega), fun hfull => ?_⟩,
    fun p hp hdel => ⟨exists_mapStart_deletion hp hdel, fun hfar => ?_⟩,
    fun p q hpq => ⟨fun q' => exists_mapStart_le hpq, fun q' => exists_mapStop_le hpq,
      fun q' => exists_mapStop_le_of_mapStart hpq⟩,
    fun s t s' t' => nests_of_mapSpan⟩
  · refine mapStart_eq_error_of_not fun hmoves => ?_
    simp only [Fin.le_def, Fin.lt_def] at hp hmoves
    omega
  · refine mapStart_eq_error_of_not fun hmoves => ?_
    simp only [Fin.le_def, Fin.lt_def, deletedEnd, farthestEnd] at hp hmoves
    omega

end Gazetteer.Edit
