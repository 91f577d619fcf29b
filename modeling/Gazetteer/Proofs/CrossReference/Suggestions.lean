import Gazetteer.CrossReference.Draft
import Gazetteer.CrossReference.Query
import Gazetteer.Proofs.Directory.Position
import Gazetteer.Proofs.Directory.Ranking

/-!
# Suggestions for unresolved uses

All declared names are ranked first, then those of other kinds than the expected one are left out,
and only then the rest is cut off. So a name of the expected kind is suggested however many nearer
names of other kinds there are, and asking for more never takes a suggestion back.

Headline: `suggestions_exact`, for every measure of distance.
-/

namespace Gazetteer

open Directory

/-- All entries that there are, asked for at once. -/
theorem Directory.similarBy_size {κ : Type} (d : Directory κ)
    (distance : String → String → Nat) (name : String) :
    d.similarBy distance name d.size = d.rankedBy distance name := by
  refine List.take_of_length_le ?_
  rw [(d.rankedBy_perm distance name).length_eq, entries]
  exact (List.length_filterMap_le _ _).trans_eq List.length_range

namespace CrossReference

variable {κ : Type} [DecidableEq κ] {x : CrossReference κ} {use : Unresolved κ}
  (distance : String → String → Nat)

/-! ## What is ranked -/

/-- Some name of the expected kind is declared. -/
theorem suggestionsBy_of_kind {kind : κ} (hexpected : use.expected = some kind)
    (hkind : ∃ e ∈ x.names.entries, e.kind = kind) (count : Nat) :
    x.suggestionsBy distance use count =
      ((x.names.similarBy distance use.name x.names.size).filter (·.kind = kind)).take count := by
  obtain ⟨e, he, heq⟩ := hkind
  have hany : (x.names.similarBy distance use.name x.names.size).any (·.kind = kind) = true := by
    rw [similarBy_size]
    refine List.any_eq_true.mpr ⟨e, ?_, decide_eq_true heq⟩
    exact (x.names.rankedBy_perm distance use.name).mem_iff.mpr he
  rw [suggestionsBy, hexpected]
  exact if_pos hany

/-- No kind is expected, or no name of that kind is declared. -/
theorem suggestionsBy_of_no_kind
    (hnone : ∀ kind, use.expected = some kind → ∀ e ∈ x.names.entries, e.kind ≠ kind)
    (count : Nat) :
    x.suggestionsBy distance use count =
      (x.names.similarBy distance use.name x.names.size).take count := by
  rw [suggestionsBy]
  cases hexpected : use.expected with
  | none => rfl
  | some kind =>
    refine if_neg fun hany => ?_
    rw [similarBy_size] at hany
    obtain ⟨e, he, heq⟩ := List.any_eq_true.mp hany
    have hentry := (x.names.rankedBy_perm distance use.name).mem_iff.mp he
    exact hnone kind hexpected e hentry (of_decide_eq_true heq)

/-- What is suggested is the beginning of a list that does not depend on how much is asked for. -/
theorem exists_suggestionsBy_eq_take (x : CrossReference κ) (use : Unresolved κ) :
    ∃ ranking : List (Entry κ), ∀ count, x.suggestionsBy distance use count = ranking.take count := by
  by_cases hkind : ∃ kind, use.expected = some kind ∧ ∃ e ∈ x.names.entries, e.kind = kind
  · obtain ⟨kind, hexpected, hdeclared⟩ := hkind
    exact ⟨_, suggestionsBy_of_kind distance hexpected hdeclared⟩
  · push Not at hkind
    exact ⟨_, suggestionsBy_of_no_kind distance hkind⟩

/-! ## What is suggested -/

/-- **The nearest names of one kind.** -/
theorem foremost_ofKind (h : x.names.WellFormed) (kind : κ) (count : Nat) :
    Foremost (Nearer distance use.name) (x.names.ofKind kind) count
      (((x.names.similarBy distance use.name x.names.size).filter (·.kind = kind)).take count) := by
  rw [similarBy_size]
  exact foremost_take ((x.names.rankedBy_perm distance use.name).filter _)
    ((h.pairwise_rankedBy distance use.name).filter _) (not_nearer_self distance use.name) count

/-- **Similar names and suggestions**, by any measure of distance and for every directory that can
be had:

* the names similar to a given one are the nearest of all names, by distance and then by name: as
  many as are asked for if there are as many, each once, in order, and none is left out that comes
  before one that is not;
* suggestions are the beginning of the ranking of all names; if a kind is expected and some name is
  of that kind they are the beginning of that ranking without the names of other kinds, and so the
  nearest names of that kind;
* asking for more only adds at the end. -/
theorem suggestions_exact [Ranked κ] (h : x.names.Obtainable) :
    (x.names.entries.map (·.name) = x.names.names ∧ x.names.entries.length = x.names.size ∧
      ∀ name count, Foremost (Nearer distance name) x.names.entries count
        (x.names.similarBy distance name count)) ∧
    (∀ use count,
      (∀ kind, use.expected = some kind → (∃ e ∈ x.names.entries, e.kind = kind) →
        x.suggestionsBy distance use count =
          ((x.names.similarBy distance use.name x.names.size).filter (·.kind = kind)).take count ∧
        Foremost (Nearer distance use.name) (x.names.ofKind kind) count
          (x.suggestionsBy distance use count)) ∧
      ((∀ kind, use.expected = some kind → ∀ e ∈ x.names.entries, e.kind ≠ kind) →
        x.suggestionsBy distance use count =
          (x.names.similarBy distance use.name x.names.size).take count ∧
        Foremost (Nearer distance use.name) x.names.entries count
          (x.suggestionsBy distance use count))) ∧
    ∀ less more, less ≤ more →
      (∀ name, x.names.similarBy distance name less <+: x.names.similarBy distance name more) ∧
      ∀ use, x.suggestionsBy distance use less <+: x.suggestionsBy distance use more := by
  have hwf := h.wellFormed
  have hlength : x.names.entries.length = x.names.size := by
    rw [← length_names, ← hwf.map_name_entries, List.length_map]
  refine ⟨⟨hwf.map_name_entries, hlength, hwf.foremost_similarBy distance⟩,
    fun use count => ⟨fun kind hexpected hkind => ?_, fun hnone => ?_⟩,
    fun less more hle => ⟨fun name => List.take_prefix_take_left hle, fun use => ?_⟩⟩
  · have htake := suggestionsBy_of_kind distance hexpected hkind count
    exact ⟨htake, htake ▸ foremost_ofKind distance hwf kind count⟩
  · have htake := suggestionsBy_of_no_kind distance hnone count
    refine ⟨htake, ?_⟩
    rw [htake, similarBy_size]
    exact hwf.foremost_similarBy distance use.name count
  · obtain ⟨ranking, htake⟩ := exists_suggestionsBy_eq_take distance x use
    rw [htake, htake]
    exact List.take_prefix_take_left hle

theorem suggestions_exact_nearer_of_other_kind :
    ∃ (x : CrossReference Kind) (token mode : Unresolved Kind), x.names.Obtainable ∧
      token.expected = some .lexerRule ∧ (∃ e ∈ x.names.entries, e.kind = .lexerRule) ∧
      mode.expected = some .mode ∧ (∀ e ∈ x.names.entries, e.kind ≠ .mode) ∧
      (x.names.similar "exp" 2).map (·.name) = ["expr", "exit"] ∧
      (x.suggestions token 1).map (·.name) = ["exit"] ∧
      (x.suggestions mode 1).map (·.name) = ["expr"] ∧
      Foremost (Nearer editDistance "exp") x.names.entries 2 (x.names.similar "exp" 2) ∧
      Foremost (Nearer editDistance "exp") (x.names.ofKind .lexerRule) 1 (x.suggestions token 1) ∧
      Foremost (Nearer editDistance "exp") x.names.entries 1 (x.suggestions mode 1) ∧
      x.suggestions token 1 <+: x.suggestions token 2 := by
  -- the nearest name is a rule where a token is expected
  let requests : List (Directory.Draft.Request Kind) :=
    [.add "expr" ⟨.parserRule, ⟨0, 4⟩⟩, .add "exit" ⟨.lexerRule, ⟨10, 14⟩⟩,
      .add "unit" ⟨.lexerRule, ⟨20, 24⟩⟩]
  let names : Directory Kind :=
    { headings := #[⟨"exit", .lexerRule, 10⟩, ⟨"expr", .parserRule, 0⟩, ⟨"unit", .lexerRule, 20⟩]
      stops := none
      duplicates := .empty }
  have hnames : (Directory.Draft.empty.submitAll requests).freeze = names := by cbv
  let x : CrossReference Kind := (Draft.start names none).freeze
  let token : Unresolved Kind := ⟨"exp", some .lexerRule, 0, none⟩
  let mode : Unresolved Kind := ⟨"exp", some .mode, 1, none⟩
  have hdrafted : names.Obtainable := hnames ▸ .drafted requests
  have hobtainable : x.names.Obtainable := hdrafted
  obtain ⟨⟨-, -, hsimilar⟩, hsuggested, hmore⟩ := suggestions_exact editDistance hobtainable
  have hkinds : x.names.entries.map (·.kind) = [.lexerRule, .parserRule, .lexerRule] := by cbv
  have htoken : ∃ e ∈ x.names.entries, e.kind = .lexerRule := by
    rw [← List.mem_map, hkinds]
    decide
  have hmode : ∀ e ∈ x.names.entries, e.kind ≠ .mode := by
    intro e he heq
    have hmem : Kind.mode ∈ x.names.entries.map (·.kind) := List.mem_map.mpr ⟨e, he, heq⟩
    rw [hkinds] at hmem
    exact absurd hmem (by decide)
  have hnomode : ∀ kind, mode.expected = some kind → ∀ e ∈ x.names.entries, e.kind ≠ kind :=
    fun kind hkind => Option.some.inj hkind ▸ hmode
  exact ⟨x, token, mode, hobtainable, rfl, htoken, rfl, hmode, by cbv, by cbv, by cbv,
    hsimilar "exp" 2, ((hsuggested token 1).1 _ rfl htoken).2, ((hsuggested mode 1).2 hnomode).2,
    (hmore 1 2 (by decide)).2 token⟩

end CrossReference

end Gazetteer
