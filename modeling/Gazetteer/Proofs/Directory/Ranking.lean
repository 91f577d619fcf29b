import Gazetteer.Directory.Similar
import Gazetteer.Proofs.Directory.WellFormed
import Gazetteer.Proofs.Runs
import Mathlib.Data.Prod.Lex

/-!
# The ranking of names

Names are ranked by distance, and names at the same distance by ordinal. An ordinal says nothing to
someone who reads a message, but the names of a directory ascend, so the order is that of the names
themselves (`Nearer`). It leaves no two names tied, and whatever is cut off a ranking comes after
all that is kept (`foremost_take`).

* `rankedBy_perm`, `WellFormed.pairwise_rankedBy`: the ranking lists every entry once, in order.
* `WellFormed.foremost_similarBy`: the entries nearest to a name.
-/

namespace Gazetteer

/-! ## The first of a ranking -/

section Foremost

variable {α : Type} {R : α → α → Prop} {ranking candidates : List α}

/-- **The first `count` of the candidates** in the order `R`, or all if there are no more. -/
structure Foremost (R : α → α → Prop) (candidates : List α) (count : Nat) (answer : List α) :
    Prop where
  length_eq : answer.length = min count candidates.length
  subset : answer ⊆ candidates
  nodup : answer.Nodup
  ascending : answer.Pairwise R
  others : ∀ a ∈ answer, ∀ b ∈ candidates, b ∉ answer → R a b

/-- What is cut off comes after all that is kept. -/
theorem foremost_take (hperm : ranking.Perm candidates) (hranking : ranking.Pairwise R)
    (hirrefl : ∀ a, ¬ R a a) (count : Nat) : Foremost R candidates count (ranking.take count) := by
  have hascending := hranking.sublist (List.take_sublist count ranking)
  have hne : ∀ {a b}, R a b → a ≠ b := by
    rintro a b hab rfl
    exact hirrefl a hab
  refine ⟨by rw [List.length_take, hperm.length_eq],
    fun a ha => hperm.subset (List.mem_of_mem_take ha), hascending.imp hne, hascending,
    fun a ha b hb hcut => ?_⟩
  rw [← List.take_append_drop count ranking] at hranking hperm
  rcases List.mem_append.mp (hperm.mem_iff.mpr hb) with hkept | hcut'
  · exact absurd hkept hcut
  · exact (List.pairwise_append.mp hranking).2.2 a ha b hcut'

end Foremost

namespace Directory

variable {κ : Type} {d : Directory κ} (distance : String → String → Nat)

/-! ## The order of the ranking -/

/-- `a` is nearer to `name` than `b`, or as near and the lesser name. -/
def Nearer (name : String) (a b : Entry κ) : Prop :=
  distance name a.name < distance name b.name ∨
    distance name a.name = distance name b.name ∧ a.name < b.name

theorem not_nearer_self (name : String) (a : Entry κ) : ¬ Nearer distance name a a := by
  rintro (hlt | ⟨-, hlt⟩)
  · exact lt_irrefl _ hlt
  · exact lt_irrefl _ hlt

theorem rankLE_iff (a b : Nat × Nat) : rankLE a b = true ↔ toLex a ≤ toLex b := by
  rw [Prod.Lex.toLex_le_toLex, rankLE, Bool.or_eq_true, Bool.and_eq_true, decide_eq_true_eq,
    decide_eq_true_eq, decide_eq_true_eq]

theorem mem_rankingBy {name : String} {p : Nat × Nat} :
    p ∈ d.rankingBy distance name ↔ ∃ n, d.names[p.2]? = some n ∧ distance name n = p.1 := by
  obtain ⟨k, i⟩ := p
  rw [rankingBy, (List.mergeSort_perm _ _).mem_iff, List.mem_map]
  simp only [Prod.exists, List.mem_zipIdx_iff_getElem?, Prod.mk.injEq]
  constructor
  · rintro ⟨n, j, hn, hk, rfl⟩
    exact ⟨n, hn, hk⟩
  · rintro ⟨n, hn, hk⟩
    exact ⟨n, i, hn, hk, rfl⟩

/-- No two places in the ranking are tied: their ordinals differ. -/
theorem pairwise_rankingBy (d : Directory κ) (name : String) :
    (d.rankingBy distance name).Pairwise fun a b => toLex a < toLex b := by
  refine pairwise_lt_mergeSort rankLE_iff ?_
  refine List.Nodup.of_map (fun p => (ofLex p).2) ?_
  have hordinals : (d.names.zipIdx.map (·.2)).Nodup := by
    rw [List.zipIdx_map_snd]
    exact List.nodup_range'
  simpa [List.map_map, Function.comp_def] using hordinals

/-! ## The ranked entries -/

/-- **Every entry is ranked once.** -/
theorem rankedBy_perm (d : Directory κ) (name : String) :
    (d.rankedBy distance name).Perm d.entries := by
  have hordinals : d.entries =
      (d.names.zipIdx.map fun p => (distance name p.1, p.2)).filterMap fun p => d.entry? p.2 := by
    have hrange : List.range d.size = d.names.zipIdx.map (·.2) := by
      rw [List.zipIdx_map_snd, length_names, List.range_eq_range']
    rw [entries, hrange, List.filterMap_map, List.filterMap_map]
    rfl
  rw [hordinals]
  exact (List.mergeSort_perm _ rankLE).filterMap _

/-- **Entries are ranked by distance and then by name.** -/
theorem WellFormed.pairwise_rankedBy (h : d.WellFormed) (name : String) :
    (d.rankedBy distance name).Pairwise (Nearer distance name) := by
  refine List.pairwise_filterMap.mpr ?_
  refine (d.pairwise_rankingBy distance name).imp_of_mem fun {p q} hp hq hlt a ha b hb => ?_
  obtain ⟨n, hn, hpd⟩ := (mem_rankingBy distance).mp hp
  obtain ⟨m, hm, hqd⟩ := (mem_rankingBy distance).mp hq
  have hna : n = a.name := Option.some.inj (hn.symm.trans (entry?_eq_some ha).2)
  have hmb : m = b.name := Option.some.inj (hm.symm.trans (entry?_eq_some hb).2)
  subst hna hmb
  rcases Prod.Lex.toLex_lt_toLex.mp hlt with hnear | ⟨htie, hordinal⟩
  · exact Or.inl (by rwa [hpd, hqd])
  · exact Or.inr ⟨by rw [hpd, hqd, htie], getElem?_lt_of_pairwise h.ascending hordinal hn hm⟩

/-- **The entries nearest to a name.** -/
theorem WellFormed.foremost_similarBy (h : d.WellFormed) (name : String) (count : Nat) :
    Foremost (Nearer distance name) d.entries count (d.similarBy distance name count) :=
  foremost_take (d.rankedBy_perm distance name) (h.pairwise_rankedBy distance name)
    (not_nearer_self distance name) count

end Directory

end Gazetteer
