import Gazetteer.Forest.Draft
import Gazetteer.Proofs.Forest.WellFormed

/-!
# Drafting

A draft compares a span only with the top of the stack of open rows, after closed rows have been
dropped from it. The invariant `Inv` says why that is enough: the stack holds, innermost first,
exactly the rows that stop after the last accepted start, so at every later position what is left
of it is every row around that position (`scope_eq`).

What was accepted is read off the answers to the offers (`accepted`), not off the draft, so that
what a span is compared with can be said without the rows.

* `Inv.offerAll`: the invariant holds after every sequence of offers.
* `entries_offerAll`: the rows are the offers that were accepted, in order.
* `Inv.objection?_eq_none_iff`: when a span is accepted.
* `Inv.objection?_eq_some_iff`: what a refusal names.

Headlines: `freeze_offerAll_wellFormed`, `add_offerAll_exact`.
-/

namespace Gazetteer.Forest.Draft

variable {κ : Type} {d : Draft κ}

/-- The draft after a sequence of offers, each of a key and a span. -/
def offerAll (d : Draft κ) (calls : List (Option κ × Span)) : Draft κ :=
  calls.foldl (fun d c => d.offer c.1 c.2) d

/-- The offers that are accepted, in order. -/
def accepted (d : Draft κ) : List (Option κ × Span) → List (Option κ × Span)
  | [] => []
  | c :: later =>
    match d.add c.1 c.2 with
    | .ok d' => c :: d'.accepted later
    | .error _ => d.accepted later

/-- Where the span accepted last starts, 0 if there is none. -/
def frontier (d : Draft κ) : Offset := (d.last?.map (·.start)).getD ⟨0, by decide⟩

theorem last?_eq_span? (d : Draft κ) : d.last? = d.freeze.span? (d.size - 1) := by
  unfold last? span? get?
  rw [Array.back?_eq_getElem?]
  rfl

theorem last?_eq_getLast? (d : Draft κ) :
    d.last? = (d.freeze.entries.map (·.2)).getLast? := by
  rw [last?, entries, List.map_map, List.getLast?_map, Array.getLast?_toList]
  rfl

theorem frontier_le_iff {pos : Offset} :
    d.frontier ≤ pos ↔ ∀ last, d.last? = some last → last.start ≤ pos := by
  unfold frontier
  cases d.last? with
  | none => exact ⟨fun _ _ h => absurd h (by simp), fun _ => Nat.zero_le pos.val⟩
  | some last => simp

/-! ## The invariant -/

/-- **The invariant of a draft**: its rows are a well-formed forest, and the open rows are those
that stop after the frontier, innermost first. -/
structure Inv (d : Draft κ) : Prop where
  wellFormed : d.freeze.WellFormed
  pending_eq :
    d.pending = (d.freeze.placed.filter fun p => d.frontier < p.span.stop).reverse

namespace Inv

theorem start_le_frontier (h : d.Inv) {i : Nat} {s : Span} (hi : d.freeze.span? i = some s) :
    s.start ≤ d.frontier := by
  have hlt : i < d.size := lt_size_of_span? hi
  obtain ⟨t, ht⟩ := exists_span?_of_lt (f := d.freeze) (show d.size - 1 < d.size by omega)
  have hlast : d.frontier = t.start := by
    unfold frontier
    rw [last?_eq_span?, ht]
    rfl
  rw [hlast]
  exact h.wellFormed.start_le (by omega) hi ht

/-- From the top of the stack of open rows downwards the ends ascend. -/
theorem pending_stops (h : d.Inv) :
    d.pending.Pairwise fun a b => a.span.stop ≤ b.span.stop := by
  rw [h.pending_eq, List.pairwise_reverse]
  refine ((placed_ascending d.freeze).filter _).imp_of_mem fun {a b} ha hb hab => ?_
  simp only [List.mem_filter, mem_placed, decide_eq_true_eq] at ha hb
  rcases h.wellFormed.laminar hab ha.1 hb.1 with hapart | hinside
  · exact absurd (hapart.trans (h.start_le_frontier hb.1)) (not_le.mpr ha.2)
  · exact hinside

/-- **What is left of the stack** at a position that no accepted span starts after: every row that
stops after the position, innermost first. -/
theorem scope_eq (h : d.Inv) {pos : Offset} (hpos : d.frontier ≤ pos) :
    d.scope pos = (d.freeze.placed.filter fun p => pos < p.span.stop).reverse := by
  unfold scope
  rw [stillOpen_eq_filter h.pending_stops, h.pending_eq, List.filter_reverse, List.filter_filter]
  congr 1
  refine List.filter_congr fun p _ => ?_
  have himp : pos < p.span.stop → d.frontier < p.span.stop := hpos.trans_lt
  grind

theorem mem_scope (h : d.Inv) {pos : Offset} (hpos : d.frontier ≤ pos) {p : Placed} :
    p ∈ d.scope pos ↔ d.freeze.span? p.index = some p.span ∧ p.span.Contains pos := by
  rw [h.scope_eq hpos, List.mem_reverse, List.mem_filter, mem_placed, decide_eq_true_eq]
  refine and_congr_right fun hp => ?_
  exact ⟨fun hlt => ⟨(h.start_le_frontier hp).trans hpos, hlt⟩, fun hc => hc.2⟩

/-- The top of what is left of the stack is the innermost row around the position. -/
theorem head?_scope_eq_some_iff (h : d.Inv) {pos : Offset} (hpos : d.frontier ≤ pos) {p : Placed} :
    (d.scope pos).head? = some p ↔
      d.freeze.span? p.index = some p.span ∧ Innermost d.freeze.span? pos p.index := by
  have hdesc : (d.scope pos).Pairwise fun a b => b.index < a.index := by
    rw [h.scope_eq hpos, List.pairwise_reverse]
    exact (placed_ascending d.freeze).filter _
  rw [head?_eq_some_iff_of_descending Placed.index hdesc, h.mem_scope hpos,
    h.wellFormed.innermost_iff]
  constructor
  · rintro ⟨⟨hp, hc⟩, hmax⟩
    refine ⟨hp, ⟨p.span, hp, hc⟩, ?_⟩
    rintro j ⟨s, hs, hsc⟩
    exact hmax ⟨j, s⟩ ((h.mem_scope hpos).mpr ⟨hs, hsc⟩)
  · rintro ⟨hp, ⟨s, hs, hc⟩, hmax⟩
    obtain rfl : p.span = s := Option.some.inj (hp.symm.trans hs)
    refine ⟨⟨hp, hc⟩, fun q hq => ?_⟩
    obtain ⟨hqs, hqc⟩ := (h.mem_scope hpos).mp hq
    exact hmax ⟨q.span, hqs, hqc⟩

end Inv

/-! ## One row more -/

open Function (update)

theorem span?_freeze_push (d : Draft κ) (key : Option κ) (span : Span) :
    (d.push key span).freeze.span? = update d.freeze.span? d.size (some span) := by
  funext i
  simp only [span?, get?, freeze, push, Array.getElem?_push, size, Function.update_apply]
  split <;> rfl

theorem parent?_freeze_push (d : Draft κ) (key : Option κ) (span : Span) :
    (d.push key span).freeze.parent? =
      update d.freeze.parent? d.size ((d.scope span.start).head?.map (·.index)) := by
  funext i
  simp only [parent?, get?, freeze, push, Array.getElem?_push, size, Function.update_apply]
  split <;> rfl

theorem placed_freeze_push (d : Draft κ) (key : Option κ) (span : Span) :
    (d.push key span).freeze.placed = d.freeze.placed ++ [⟨d.size, span⟩] := by
  simp [placed, freeze, push, size, List.zipIdx_append]

theorem entries_freeze_push (d : Draft κ) (key : Option κ) (span : Span) :
    (d.push key span).freeze.entries = d.freeze.entries ++ [(key, span)] := by
  simp [entries, freeze, push]

theorem frontier_push (d : Draft κ) (key : Option κ) (span : Span) :
    (d.push key span).frontier = span.start := by
  simp [frontier, last?, push]

theorem isSome_parent?_push_iff (d : Draft κ) (key : Option κ) (span : Span) (j : Nat) :
    ((d.push key span).freeze.parent? j).isSome ↔
      (j = d.size ∧ (d.scope span.start).head?.isSome) ∨ (d.freeze.parent? j).isSome := by
  rw [parent?_freeze_push]
  by_cases hj : j = d.size
  · have hnone : d.freeze.parent? d.size = none := parent?_eq_none (le_refl _)
    rw [hj, Function.update_self, Option.isSome_map, hnone]
    simp
  · rw [Function.update_of_ne hj]
    simp [hj]

namespace Inv

theorem parent_push_iff (h : d.Inv) {span : Span} (hpos : d.frontier ≤ span.start) (p : Nat) :
    (d.scope span.start).head?.map (·.index) = some p ↔
      Innermost d.freeze.span? span.start p := by
  rw [Option.map_eq_some_iff]
  constructor
  · rintro ⟨q, hq, rfl⟩
    exact ((h.head?_scope_eq_some_iff hpos).mp hq).2
  · intro hp
    obtain ⟨s, hs, -⟩ := hp.1
    exact ⟨⟨p, s⟩, (h.head?_scope_eq_some_iff hpos).mpr ⟨hs, hp⟩, rfl⟩

theorem nestingBegins_push (h : d.Inv) (key : Option κ) (span : Span) (m : Nat) :
    (d.push key span).nestingBegins = some m ↔
      IsLeast {j | ((d.push key span).freeze.parent? j).isSome} m := by
  have hnew := d.isSome_parent?_push_iff key span
  show d.nestingBegins.or (((d.scope span.start).head?.map (·.index)).map fun _ => d.size)
    = some m ↔ _
  cases hfirst : d.nestingBegins with
  | some k =>
    obtain ⟨hk, hmin⟩ := (h.wellFormed.nestingBegins_iff k).mp hfirst
    have hlt : k < d.size := by
      by_contra hge
      have hnone : d.freeze.parent? k = none := parent?_eq_none (not_lt.mp hge)
      have hsome : (d.freeze.parent? k).isSome := hk
      rw [hnone] at hsome
      exact absurd hsome (by simp)
    have hleast : IsLeast {j | ((d.push key span).freeze.parent? j).isSome} k := by
      refine ⟨(hnew k).mpr (Or.inr hk), fun j hj => ?_⟩
      rcases (hnew j).mp hj with ⟨rfl, -⟩ | hj
      · exact hlt.le
      · exact hmin hj
    rw [Option.some_or, Option.some.injEq]
    exact ⟨fun e => e ▸ hleast, fun hm => hleast.unique hm⟩
  | none =>
    have hold := h.wellFormed.nestingBegins_eq_none_iff.mp hfirst
    have hset : ∀ j, ((d.push key span).freeze.parent? j).isSome ↔
        j = d.size ∧ (d.scope span.start).head?.isSome := by
      intro j
      rw [hnew, hold j]
      simp
    simp only [hset, Option.none_or, Option.map_map]
    cases (d.scope span.start).head? with
    | none => simp [IsLeast]
    | some q =>
      simp only [Option.map_some, Option.some.injEq, Option.isSome_some, and_true]
      exact ⟨fun e => e ▸ isLeast_singleton, fun hm => hm.1.symm⟩

/-- Every row admits a span iff the span starts no earlier than the frontier and ends no later than
any row that stops after its start. -/
theorem admits_iff (h : d.Inv) {span : Span} :
    (∀ i t, d.freeze.span? i = some t → t.Admits span) ↔
      d.frontier ≤ span.start ∧
        ∀ i t, d.freeze.span? i = some t → span.start < t.stop → span.stop ≤ t.stop := by
  constructor
  · intro hadm
    refine ⟨?_, fun i t ht hopen => (hadm i t ht).2.resolve_left (not_le.mpr hopen)⟩
    rw [frontier_le_iff, last?_eq_span?]
    exact fun last hlast => (hadm _ last hlast).1
  · rintro ⟨hpos, hall⟩ i t ht
    refine ⟨(h.start_le_frontier ht).trans hpos, ?_⟩
    rcases le_or_gt t.stop span.start with hapart | hopen
    · exact Or.inl hapart
    · exact Or.inr (hall i t ht hopen)

/-- **One row more**: the invariant survives a proper span that every row admits. -/
theorem push (h : d.Inv) (key : Option κ) {span : Span} (hs : span.Proper)
    (hadm : ∀ i t, d.freeze.span? i = some t → t.Admits span) : (d.push key span).Inv := by
  have hpos := (h.admits_iff.mp hadm).1
  refine ⟨⟨?_, ?_⟩, ?_⟩
  · rw [span?_freeze_push, parent?_freeze_push]
    exact h.wellFormed.extend (fun i => span?_eq_none) hs hadm (h.parent_push_iff hpos)
  · exact h.nestingBegins_push key span
  · rw [placed_freeze_push, frontier_push, List.filter_append, List.reverse_append]
    show _ :: d.scope span.start = _
    rw [h.scope_eq hpos]
    simp [show span.start < span.stop from hs]

end Inv

/-! ## What is accepted and what is refused -/

/-- **Why a span is refused** after the spans that `span?` gives by place, with `last?` the last of
them. The first fault counts: a span that covers nothing, a start before that of the last span, an
end after that of the innermost span around the start. -/
inductive RefusedAfter (last? : Option Span) (span? : Nat → Option Span) (span : Span) :
    Error → Prop
  | empty : ¬ span.Proper → RefusedAfter last? span? span (.emptySpan span)
  | precedes {last : Span} : span.Proper → last? = some last → span.start < last.start →
      RefusedAfter last? span? span (.outOfOrder span last .precedesPrevious)
  | straddles {i : Nat} {s : Span} : span.Proper →
      (∀ last, last? = some last → last.start ≤ span.start) → span? i = some s →
      Innermost span? span.start i → s.stop < span.stop →
      RefusedAfter last? span? span (.outOfOrder span s .straddlesEnclosing)

/-- Why a draft refuses a span: the spans before it are those of the rows. -/
def Refuses (d : Draft κ) (span : Span) : Error → Prop :=
  RefusedAfter d.last? d.freeze.span? span

theorem crossing?_eq (d : Draft κ) (span : Span) :
    d.crossing? span = (d.scope span.start).head?.bind fun around =>
      if around.span.stop < span.stop then some (.outOfOrder span around.span .straddlesEnclosing)
      else none := by
  unfold crossing?
  cases d.scope span.start <;> rfl

theorem objection?_eq_crossing? {span : Span} (hs : span.Proper) (hpos : d.frontier ≤ span.start) :
    d.objection? span = d.crossing? span := by
  unfold objection?
  rw [if_pos hs]
  cases hlast : d.last? with
  | none => rfl
  | some last => exact if_neg (not_lt.mpr (frontier_le_iff.mp hpos last hlast))

theorem objection?_eq_precedes {span last : Span} (hs : span.Proper) (hlast : d.last? = some last)
    (hlt : span.start < last.start) :
    d.objection? span = some (.outOfOrder span last .precedesPrevious) := by
  unfold objection?
  rw [if_pos hs, hlast]
  exact if_pos hlt

theorem exists_last_of_not_frontier_le {pos : Offset} (h : ¬ d.frontier ≤ pos) :
    ∃ last, d.last? = some last ∧ pos < last.start := by
  rw [frontier_le_iff] at h
  push Not at h
  exact h

namespace Inv

theorem crossing?_eq_some_iff (h : d.Inv) {span : Span} (hpos : d.frontier ≤ span.start)
    {e : Error} :
    d.crossing? span = some e ↔
      ∃ i s, d.freeze.span? i = some s ∧ Innermost d.freeze.span? span.start i ∧
        s.stop < span.stop ∧ e = .outOfOrder span s .straddlesEnclosing := by
  rw [crossing?_eq, Option.bind_eq_some_iff]
  constructor
  · rintro ⟨q, hq, he⟩
    obtain ⟨hs, hin⟩ := (h.head?_scope_eq_some_iff hpos).mp hq
    split at he
    · rename_i hlt
      exact ⟨q.index, q.span, hs, hin, hlt, (Option.some.inj he).symm⟩
    · exact absurd he (by simp)
  · rintro ⟨i, s, hs, hin, hlt, rfl⟩
    exact ⟨⟨i, s⟩, (h.head?_scope_eq_some_iff hpos).mpr ⟨hs, hin⟩, if_pos hlt⟩

/-- **The top of the stack stands for all rows**: a span crosses no end of a row as soon as it does
not cross the end of the innermost row around its start. -/
theorem crossing?_eq_none_iff (h : d.Inv) {span : Span} (hpos : d.frontier ≤ span.start) :
    d.crossing? span = none ↔
      ∀ i t, d.freeze.span? i = some t → span.start < t.stop → span.stop ≤ t.stop := by
  constructor
  · intro hnone i t ht hopen
    have hcov : Covers d.freeze.span? span.start i :=
      ⟨t, ht, (h.start_le_frontier ht).trans hpos, hopen⟩
    obtain ⟨m, hm⟩ := h.wellFormed.exists_innermost (fun i => span?_eq_none) hcov
    obtain ⟨-, t', s, ht', hs, hts⟩ := hm.2 i hcov
    obtain rfl : t = t' := Option.some.inj (ht.symm.trans ht')
    have hle : span.stop ≤ s.stop := by
      by_contra hlt
      have hsome := (h.crossing?_eq_some_iff hpos).mpr ⟨m, s, hs, hm, not_le.mp hlt, rfl⟩
      rw [hnone] at hsome
      exact absurd hsome (by simp)
    exact hle.trans hts.2
  · intro hall
    cases hc : d.crossing? span with
    | none => rfl
    | some e =>
      obtain ⟨i, s, hs, hm, hlt, -⟩ := (h.crossing?_eq_some_iff hpos).mp hc
      obtain ⟨s', hs', hsc⟩ := hm.1
      obtain rfl : s = s' := Option.some.inj (hs.symm.trans hs')
      exact absurd (hall i s hs hsc.2) (not_le.mpr hlt)

theorem objection?_eq_some_iff (h : d.Inv) {span : Span} {e : Error} :
    d.objection? span = some e ↔ d.Refuses span e := by
  by_cases hs : span.Proper
  · by_cases hpos : d.frontier ≤ span.start
    · have hlast := frontier_le_iff.mp hpos
      rw [objection?_eq_crossing? hs hpos, h.crossing?_eq_some_iff hpos]
      constructor
      · rintro ⟨i, s, hi, hin, hlt, rfl⟩
        exact .straddles hs hlast hi hin hlt
      · rintro (hempty | ⟨_, hl, hlt⟩ | ⟨_, _, hi, hin, hlt⟩)
        · exact absurd hs hempty
        · exact absurd hlt (not_lt.mpr (hlast _ hl))
        · exact ⟨_, _, hi, hin, hlt, rfl⟩
    · obtain ⟨last, hl, hlt⟩ := exists_last_of_not_frontier_le hpos
      rw [objection?_eq_precedes hs hl hlt, Option.some.injEq]
      constructor
      · rintro rfl
        exact .precedes hs hl hlt
      · rintro (hempty | ⟨_, hl', _⟩ | ⟨_, hall, _, _, _⟩)
        · exact absurd hs hempty
        · rw [Option.some.inj (hl.symm.trans hl')]
        · exact absurd hlt (not_lt.mpr (hall last hl))
  · unfold objection?
    rw [if_neg hs, Option.some.injEq]
    constructor
    · rintro rfl
      exact .empty hs
    · rintro (_ | ⟨hs', _, _⟩ | ⟨hs', _, _, _, _⟩)
      · rfl
      · exact absurd hs' hs
      · exact absurd hs' hs

/-- **A span is accepted iff** it is proper, starts no earlier than the frontier and ends no later
than any row that stops after its start. -/
theorem objection?_eq_none_iff (h : d.Inv) {span : Span} :
    d.objection? span = none ↔ span.Proper ∧ d.frontier ≤ span.start ∧
      ∀ i t, d.freeze.span? i = some t → span.start < t.stop → span.stop ≤ t.stop := by
  by_cases hs : span.Proper
  · by_cases hpos : d.frontier ≤ span.start
    · rw [objection?_eq_crossing? hs hpos, h.crossing?_eq_none_iff hpos]
      simp only [hs, hpos, true_and]
    · obtain ⟨last, hl, hlt⟩ := exists_last_of_not_frontier_le hpos
      rw [objection?_eq_precedes hs hl hlt]
      simp [hpos]
  · simp [objection?, hs]

end Inv

/-- A span that is not objected to becomes a row. -/
theorem Inv.push_of_objection?_eq_none (h : d.Inv) (key : Option κ) {span : Span}
    (hnone : d.objection? span = none) : (d.push key span).Inv := by
  obtain ⟨hs, hadm⟩ := h.objection?_eq_none_iff.mp hnone
  exact h.push key hs (h.admits_iff.mpr hadm)

theorem add_eq_ok_iff {key : Option κ} {span : Span} {d' : Draft κ} :
    d.add key span = .ok d' ↔ d.objection? span = none ∧ d' = d.push key span := by
  unfold add
  cases d.objection? span with
  | none => simp [eq_comm]
  | some e => simp

theorem add_eq_error_iff {key : Option κ} {span : Span} {e : Error} :
    d.add key span = .error e ↔ d.objection? span = some e := by
  unfold add
  cases d.objection? span with
  | none => simp
  | some e => simp

theorem Inv.add_eq_error_iff (h : d.Inv) {key : Option κ} {span : Span} {e : Error} :
    d.add key span = .error e ↔ d.Refuses span e := by
  rw [Draft.add_eq_error_iff, h.objection?_eq_some_iff]

/-! ## Every run -/

theorem inv_empty : (Draft.empty : Draft κ).Inv := by
  have hspan : (Draft.empty : Draft κ).freeze.span? = fun _ => none :=
    funext fun i => span?_eq_none (Nat.zero_le i)
  have hparent : (Draft.empty : Draft κ).freeze.parent? = fun _ => none :=
    funext fun i => parent?_eq_none (Nat.zero_le i)
  refine ⟨⟨?_, ?_⟩, rfl⟩
  · rw [hspan, hparent]
    exact Nested.empty
  · rw [hparent]
    intro n
    simp [IsLeast, freeze, Draft.empty]

theorem Inv.offer (h : d.Inv) (key : Option κ) (span : Span) : (d.offer key span).Inv := by
  unfold Draft.offer add
  cases ho : d.objection? span with
  | some e => exact h
  | none => exact h.push_of_objection?_eq_none key ho

/-- **The invariant holds after every sequence of offers.** -/
theorem Inv.offerAll (h : d.Inv) (calls : List (Option κ × Span)) : (d.offerAll calls).Inv := by
  unfold Draft.offerAll
  induction calls generalizing d with
  | nil => exact h
  | cons c calls ih => exact ih (h.offer c.1 c.2)

/-- **The rows of a run of offers** are those that were accepted, in order, after the rows that
were there. -/
theorem entries_offerAll (d : Draft κ) (calls : List (Option κ × Span)) :
    (d.offerAll calls).freeze.entries = d.freeze.entries ++ d.accepted calls := by
  induction calls generalizing d with
  | nil => exact (List.append_nil _).symm
  | cons c later ih =>
    show ((d.offer c.1 c.2).offerAll later).freeze.entries = _
    rw [offer, accepted]
    cases hadd : d.add c.1 c.2 with
    | error e => exact ih d
    | ok d' =>
      obtain ⟨-, rfl⟩ := add_eq_ok_iff.mp hadd
      have hrest := ih (d.push c.1 c.2)
      rw [entries_freeze_push, List.append_assoc] at hrest
      exact hrest

/-- Refused offers leave no trace. -/
theorem offerAll_accepted (d : Draft κ) (calls : List (Option κ × Span)) :
    d.offerAll (d.accepted calls) = d.offerAll calls := by
  induction calls generalizing d with
  | nil => rfl
  | cons c later ih =>
    show _ = (d.offer c.1 c.2).offerAll later
    rw [offer, accepted]
    cases hadd : d.add c.1 c.2 with
    | error e => exact ih d
    | ok d' =>
      show (d.offer c.1 c.2).offerAll (d'.accepted later) = _
      rw [offer, hadd]
      exact ih d'

/-- **Every forest that is drafted is well-formed**, whatever was offered and refused on the way:
its rows are proper, sorted and laminar, the parent of a row is the last row before it that
encloses it, nesting begins at the first row that has a parent, every walk along parent links
ends, and the audit has nothing to report. -/
theorem freeze_offerAll_wellFormed (calls : List (Option κ × Span)) :
    let f := (Draft.empty.offerAll calls).freeze
    f.WellFormed ∧ (∀ j, f.parent? j = none ↔ ∀ i, i < j → ¬ Around f.span? i j) ∧
      (f.nestingBegins = none ↔ ∀ j, f.parent? j = none) ∧
      (WellFounded fun p j => f.parent? j = some p) ∧ f.audit = .ok () := by
  intro f
  have h : f.WellFormed := (inv_empty.offerAll calls).wellFormed
  exact ⟨h, h.parent_eq_none_iff, h.nestingBegins_eq_none_iff, h.parent_wellFounded, h.audit_eq_ok⟩

/-! ## Sessions

What a draft answers to requests, one after the other. -/

/-- A request to a draft. -/
inductive Request (κ : Type) where
  | add (key : Option κ) (span : Span)
  | size
  | last
  | build

/-- The answer to a request. -/
inductive Reply (κ : Type) where
  | added (index : Nat)
  | refused (error : Error)
  | size (count : Nat)
  | last (span : Option Span)
  | built (forest : Forest κ)

/-- The answer of a draft to a request, and the draft afterwards. -/
def answer (d : Draft κ) : Request κ → Reply κ × Draft κ
  | .add key span =>
    match d.add key span with
    | .ok d' => (.added d.size, d')
    | .error e => (.refused e, d)
  | .size => (.size d.size, d)
  | .last => (.last d.last?, d)
  | .build => (.built d.freeze, d)

/-- The answers of a draft to a sequence of requests. -/
def session (d : Draft κ) : List (Request κ) → List (Reply κ)
  | [] => []
  | request :: later => (d.answer request).1 :: (d.answer request).2.session later

/-- A refused request is as good as none. -/
theorem session_of_refused {key : Option κ} {span : Span} {e : Error}
    (h : d.add key span = .error e) (later : List (Request κ)) :
    d.session (.add key span :: later) = .refused e :: d.session later := by
  rw [session, answer, h]

/-- **Acceptance and refusal, exactly.** After any sequence of offers the rows are those that were
accepted, in order, and without the others the draft would be the same. A span is accepted iff it
is proper, starts no earlier than the last span accepted, and ends no later than any span accepted,
open or closed, that stops after its start. A refusal names the first fault, and it changes no
later answer. -/
theorem add_offerAll_exact (calls : List (Option κ × Span)) (key : Option κ) (span : Span) :
    let d := Draft.empty.offerAll calls
    let accepted := Draft.empty.accepted calls
    let spans := accepted.map (·.2)
    (d.freeze.entries = accepted ∧ Draft.empty.offerAll accepted = d) ∧
    ((∃ d', d.add key span = .ok d') ↔
      span.Proper ∧ (∀ last, spans.getLast? = some last → last.start ≤ span.start) ∧
        ∀ s ∈ spans, span.start < s.stop → span.stop ≤ s.stop) ∧
    (∀ e, d.add key span = .error e ↔ RefusedAfter spans.getLast? (spans[·]?) span e) ∧
    ∀ e, d.add key span = .error e → ∀ later : List (Request κ),
      d.session (.add key span :: later) = .refused e :: d.session later := by
  intro d accepted spans
  have h : d.Inv := inv_empty.offerAll calls
  have hentries : d.freeze.entries = accepted := Draft.empty.entries_offerAll calls
  have hlast : d.last? = spans.getLast? := by rw [last?_eq_getLast?, hentries]
  have hspan : d.freeze.span? = (spans[·]?) := funext fun i => by
    rw [span?_eq_entries, hentries, List.getElem?_map]
  refine ⟨⟨hentries, Draft.empty.offerAll_accepted calls⟩, ?_, fun e => ?_,
    fun e he => session_of_refused he⟩
  · simp only [add_eq_ok_iff, exists_and_left, exists_eq, and_true]
    rw [h.objection?_eq_none_iff, frontier_le_iff, hlast, hspan]
    simp only [List.mem_iff_getElem?, forall_exists_index]
    rw [forall_comm]
  · rw [h.add_eq_error_iff, Refuses, hlast, hspan]

theorem add_offerAll_exact_after_refusals :
    let calls : List (Option String × Span) :=
      [(some "a", ⟨0, 10⟩), (some "b", ⟨5, 20⟩), (none, ⟨2, 4⟩), (some "c", ⟨3, 3⟩)]
    let d := Draft.empty.offerAll calls
    Draft.empty.accepted calls = [(some "a", ⟨0, 10⟩), (none, ⟨2, 4⟩)] ∧
      d.freeze.entries = [(some "a", ⟨0, 10⟩), (none, ⟨2, 4⟩)] ∧
      RefusedAfter (some ⟨2, 4⟩) ([⟨0, 10⟩, ⟨2, 4⟩][·]?) ⟨4, 12⟩
        (.outOfOrder ⟨4, 12⟩ ⟨0, 10⟩ .straddlesEnclosing) ∧
      (∃ d', d.add (some "d") ⟨4, 10⟩ = .ok d') ∧
      d.session [.add none ⟨4, 12⟩, .size, .add (some "d") ⟨4, 10⟩, .last] =
        .refused (.outOfOrder ⟨4, 12⟩ ⟨0, 10⟩ .straddlesEnclosing) ::
          d.session [.size, .add (some "d") ⟨4, 10⟩, .last] := by
  intro calls d
  -- the row from 2 to 4 is closed at 4, so the one around it is what the refusal names
  have haccepted : Draft.empty.accepted calls = [(some "a", ⟨0, 10⟩), (none, ⟨2, 4⟩)] := by decide
  have hrefused : d.add none ⟨4, 12⟩ =
      .error (.outOfOrder ⟨4, 12⟩ ⟨0, 10⟩ .straddlesEnclosing) := by decide
  obtain ⟨⟨hentries, -⟩, -, herror, hsession⟩ := add_offerAll_exact calls none ⟨4, 12⟩
  obtain ⟨-, hrule, -, -⟩ := add_offerAll_exact calls (some "d") ⟨4, 10⟩
  rw [haccepted] at hentries herror hrule
  exact ⟨haccepted, hentries, (herror _).mp hrefused, hrule.mpr (by decide), hsession _ hrefused _⟩

end Gazetteer.Forest.Draft
