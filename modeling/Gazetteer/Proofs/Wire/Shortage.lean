import Gazetteer.Proofs.Wire.RoundTrip

/-!
# Reading too few bytes

A reader takes bytes from the front and never asks how many are left, except to find that there are
too few. `Onward read` is what follows from that: more bytes behind the ones that are there change
nothing about the answer, unless the answer was that the bytes ran out. The law holds of the two
readers that touch the bytes and is kept by every step that is put after another, so it holds of all
readers of the format, on all byte strings.

* `onward_record`: the law for the record of a directory.
* `Onward.run_eq_endOfInput`: of bytes that were written and cut short anywhere, be it inside a
  number, a text or a list, no reader makes anything. The reason is always that they ran out.
-/

namespace Gazetteer.Wire

variable {α β : Type} {read : Reader α}

/-- **More bytes change nothing but a shortage.** What is taken from some bytes is taken from them
with more behind, and what is refused is refused, unless it was because the bytes ran out. -/
structure Onward (read : Reader α) : Prop where
  taken : ∀ {bytes a left}, read.run bytes = .ok (a, left) →
    ∀ more, read.run (bytes ++ more) = .ok (a, left ++ more)
  refused : ∀ {bytes fault}, read.run bytes = .error fault → fault ≠ .endOfInput →
    ∀ more, read.run (bytes ++ more) = .error fault

/-! ## Steps of a reader -/

theorem onward_pure (a : α) : Onward (pure a : Reader α) where
  taken h more := by
    cases h
    rfl
  refused h := by
    cases h

theorem onward_throw (fault : Fault) : Onward (throw fault : Reader α) where
  taken h := by
    cases h
  refused h _ more := by
    cases h
    rfl

theorem onward_nextByte : Onward nextByte where
  taken {bytes a left} h more := by
    cases bytes with
    | nil => cases h
    | cons b rest =>
      cases h
      rfl
  refused {bytes fault} h hfault := by
    cases bytes with
    | nil =>
      cases h
      exact absurd rfl hfault
    | cons b rest => cases h

theorem onward_takeBytes (n : Nat) : Onward (takeBytes n) where
  taken {bytes a left} h more := by
    change (if n ≤ bytes.length then _ else _) = _ at h
    change (if n ≤ (bytes ++ more).length then _ else _) = _
    split at h
    · rename_i hn
      cases h
      have hle : n ≤ (bytes ++ more).length := by
        rw [List.length_append]
        omega
      rw [if_pos hle, List.take_append_of_le_length hn, List.drop_append_of_le_length hn]
    · cases h
  refused {bytes fault} h hfault := by
    change (if n ≤ bytes.length then _ else _) = _ at h
    split at h
    · cases h
    · cases h
      exact absurd rfl hfault

theorem Onward.bind {next : α → Reader β} (h : Onward read) (hnext : ∀ a, Onward (next a)) :
    Onward (read >>= next) where
  taken {bytes b left} hrun more := by
    rw [StateT.run_bind] at hrun ⊢
    cases hread : read.run bytes with
    | error fault =>
      rw [hread] at hrun
      cases hrun
    | ok taken =>
      rw [hread] at hrun
      rw [h.taken hread]
      exact (hnext taken.1).taken hrun more
  refused {bytes fault} hrun hfault more := by
    rw [StateT.run_bind] at hrun ⊢
    cases hread : read.run bytes with
    | error first =>
      rw [hread] at hrun
      cases hrun
      rw [h.refused hread hfault]
      rfl
    | ok taken =>
      rw [hread] at hrun
      rw [h.taken hread]
      exact (hnext taken.1).refused hrun hfault more

/-- The last step of a reader takes nothing. -/
theorem Onward.done (h : Onward read) (f : α → β) : Onward (read >>= fun a => pure (f a)) :=
  h.bind fun a => onward_pure (f a)

/-! ## Numbers, texts, lists and values that may be missing -/

theorem onward_groups (top groups : Nat) : Onward (readGroups top groups) := by
  fun_induction readGroups top groups with
  | case1 => exact onward_throw _
  | case2 =>
    refine onward_nextByte.bind fun b => ?_
    split
    · exact onward_pure _
    · exact onward_throw _
  | case3 groups ih =>
    refine onward_nextByte.bind fun b => ?_
    split
    · exact onward_pure _
    · exact ih.done _

theorem onward_below (w : Width) (bound : Nat) : Onward (readBelow w bound) := by
  refine (onward_groups w.top w.groups).bind fun n => ?_
  split
  · exact onward_pure _
  · exact onward_throw _

theorem onward_text : Onward readText := by
  refine (onward_groups _ _).bind fun n => (onward_takeBytes n).bind fun bytes => ?_
  split
  · exact onward_pure _
  · exact onward_throw _

theorem Onward.many (h : Onward read) : ∀ n, Onward (readMany read n)
  | 0 => onward_pure []
  | n + 1 => h.bind fun a => (h.many n).done (a :: ·)

theorem Onward.list (h : Onward read) : Onward (readList read) :=
  (onward_groups _ _).bind h.many

theorem Onward.option (h : Onward read) : Onward (readOption read) := by
  refine onward_nextByte.bind fun b => ?_
  split
  · exact onward_pure _
  · split
    · exact h.done _
    · exact onward_throw _

/-! ## Records -/

theorem onward_duplicateRecord : Onward DuplicateRecord.read :=
  onward_text.bind fun _ => (onward_below _ _).bind fun _ => (onward_below _ _).bind fun _ =>
    (onward_below _ _).done _

/-- **The record of a directory** is read onward. -/
theorem onward_record : Onward Record.read := by
  have hoffsets : Onward (readList readOffset) := (onward_below _ _).list
  refine (onward_below _ _).bind fun version => ?_
  refine onward_text.list.bind fun names => ?_
  refine (onward_below _ _).list.bind fun ranks => ?_
  refine hoffsets.bind fun starts => ?_
  refine hoffsets.option.bind fun stops => ?_
  exact onward_duplicateRecord.list.done _

/-! ## Bytes that are cut short -/

/-- **Bytes that are cut short run out.** Whatever a reader made of a part of the bytes it takes, it
would make of all of them and leave something, but it leaves nothing. -/
theorem Onward.run_eq_endOfInput (h : Onward read) {bytes part : List UInt8} {a : α}
    (hreads : Reads read bytes a) (hpart : part <+: bytes) (hne : part ≠ bytes) :
    read.run part = .error .endOfInput := by
  obtain ⟨rest, rfl⟩ := hpart
  have hwhole : read.run (part ++ rest) = .ok (a, []) := by
    have hrun := hreads []
    rwa [List.append_nil] at hrun
  cases hrun : read.run part with
  | ok taken =>
    have hleft := (h.taken hrun rest).symm.trans hwhole
    have hnil : taken.2 ++ rest = [] := congrArg Prod.snd (Except.ok.inj hleft)
    rw [(List.append_eq_nil_iff.mp hnil).2, List.append_nil] at hne
    exact absurd rfl hne
  | error fault =>
    by_cases hfault : fault = .endOfInput
    · rw [hfault]
    · have hrefused := (h.refused hrun hfault rest).symm.trans hwhole
      exact absurd hrefused (by simp)

end Gazetteer.Wire
