import Gazetteer.Proofs.Directory.Succession
import Gazetteer.Proofs.Forest.Succession
import Mathlib

/-!
# Edits in two steps

Text can be inserted all at once or in two parts, the second where the first ends; it can be deleted
all at once or in two parts, both at the same offset. In between, spans have collapsed or coincide
that would not have done so yet, or have done so already, and names stand in another position order.
Nothing of this shows in the end: whatever can be edited at once can be edited in two steps, and the
result is the same (`edit_in_two_steps`).
-/

namespace Gazetteer

/-- **An insertion or a deletion makes the same forest and the same directory in two steps**, the
same of several names that come to coincide included. -/
theorem edit_in_two_steps {α κ : Type} [Ranked κ] (calls : List (Option α × Span))
    (requests : List (Directory.Draft.Request κ)) (o : Offset) (a b : Nat) :
    let f := (Forest.Draft.empty.offerAll calls).freeze
    let d := (Directory.Draft.empty.submitAll requests).freeze
    (∀ o' : Offset, o'.val = o.val + a →
      (∀ f', f.edit ⟨o, a + b⟩ = .ok f' → (do (← f.edit ⟨o, a⟩).edit ⟨o', b⟩) = .ok f') ∧
      (∀ d', d.edit ⟨o, a + b⟩ = .ok d' → (do (← d.edit ⟨o, a⟩).edit ⟨o', b⟩) = .ok d')) ∧
    (∀ f', f.edit ⟨o, -(a + b)⟩ = .ok f' → (do (← f.edit ⟨o, -a⟩).edit ⟨o, -b⟩) = .ok f') ∧
    (∀ d', d.edit ⟨o, -(a + b)⟩ = .ok d' → (do (← d.edit ⟨o, -a⟩).edit ⟨o, -b⟩) = .ok d') := by
  intro f d
  have hf : f.WellFormed := (Forest.Draft.inv_empty.offerAll calls).wellFormed
  have hd : d.WellFormed := (Directory.Draft.sound_submitAll requests).freeze_wellFormed
  refine ⟨fun o' ho => ?_, ?_, ?_⟩
  · have hsplits := Edit.splits_insertion (b := b) ho
    exact ⟨fun f' => Forest.edit_of_splits hsplits hf,
      fun d' => Directory.edit_of_splits hsplits hd⟩
  · exact fun f' => Forest.edit_of_splits (Edit.splits_deletion o a b) hf
  · exact fun d' => Directory.edit_of_splits (Edit.splits_deletion o a b) hd

theorem edit_in_two_steps_of_straddling :
    ∃ (f f' f'' : Forest Nat) (d d' d'' : Directory Kind),
      (f.edit ⟨5, 5⟩ = .ok f' ∧ (do (← f.edit ⟨5, 2⟩).edit ⟨7, 3⟩) = .ok f') ∧
      (d.edit ⟨5, 5⟩ = .ok d' ∧ (do (← d.edit ⟨5, 2⟩).edit ⟨7, 3⟩) = .ok d') ∧
      (f.edit ⟨5, -5⟩ = .ok f'' ∧ (do (← f.edit ⟨5, -2⟩).edit ⟨5, -3⟩) = .ok f'') ∧
      (d.edit ⟨5, -5⟩ = .ok d'' ∧ (do (← d.edit ⟨5, -2⟩).edit ⟨5, -3⟩) = .ok d'') ∧
      d.names = ["a", "b", "c", "d", "e"] ∧ d''.names = ["a", "b", "d"] := by
  -- `a` and `b` straddle and change places in the first step of the deletion, `c` lands on `a` and
  -- `e` on `d` in the second
  let calls : List (Option Nat × Span) :=
    [(some 1, ⟨0, 20⟩), (some 2, ⟨2, 5⟩), (none, ⟨5, 12⟩), (some 2, ⟨6, 9⟩)]
  let requests : List (Directory.Draft.Request Kind) :=
    [.add "a" ⟨.parserRule, ⟨6, 20⟩⟩, .add "b" ⟨.parserRule, ⟨7, 25⟩⟩,
      .add "c" ⟨.fragment, ⟨9, 20⟩⟩, .add "d" ⟨.lexerRule, ⟨4, 9⟩⟩,
      .add "e" ⟨.lexerRule, ⟨4, 8⟩⟩]
  let f' : Forest Nat :=
    { rows := #[⟨⟨0, 25⟩, some 1, none⟩, ⟨⟨2, 5⟩, some 2, some 0⟩, ⟨⟨10, 17⟩, none, some 0⟩,
        ⟨⟨11, 14⟩, some 2, some 2⟩]
      nestingBegins := some 1 }
  let f'' : Forest Nat :=
    { rows := #[⟨⟨0, 15⟩, some 1, none⟩, ⟨⟨2, 5⟩, some 2, some 0⟩, ⟨⟨5, 7⟩, none, some 0⟩]
      nestingBegins := some 1 }
  let d' : Directory Kind :=
    { headings := #[⟨"a", .parserRule, 11⟩, ⟨"b", .parserRule, 12⟩, ⟨"c", .fragment, 14⟩,
        ⟨"d", .lexerRule, 4⟩, ⟨"e", .lexerRule, 4⟩]
      stops := some #[25, 30, 25, 14, 13]
      duplicates := .empty }
  let d'' : Directory Kind :=
    { headings := #[⟨"a", .parserRule, 5⟩, ⟨"b", .parserRule, 5⟩, ⟨"d", .lexerRule, 4⟩]
      stops := some #[15, 20, 5]
      duplicates := .empty }
  have hf' : (Forest.Draft.empty.offerAll calls).freeze.edit ⟨5, 5⟩ = .ok f' := by decide
  have hf'' : (Forest.Draft.empty.offerAll calls).freeze.edit ⟨5, -5⟩ = .ok f'' := by decide
  have hd' : (Directory.Draft.empty.submitAll requests).freeze.edit ⟨5, 5⟩ = .ok d' := by cbv
  have hd'' : (Directory.Draft.empty.submitAll requests).freeze.edit ⟨5, -5⟩ = .ok d'' := by cbv
  obtain ⟨hinsertion, hdeletion⟩ := edit_in_two_steps calls requests 5 2 3
  obtain ⟨hforest, hdirectory⟩ := hinsertion 7 (by decide)
  exact ⟨_, f', f'', _, d', d'', ⟨hf', hforest f' hf'⟩, ⟨hd', hdirectory d' hd'⟩,
    ⟨hf'', hdeletion.1 f'' hf''⟩, ⟨hd'', hdeletion.2 d'' hd''⟩, by cbv, by cbv⟩

end Gazetteer
