import Gazetteer.Proofs.CrossReference.Drafting

/-!
# Interleaved uses

Uses of declared names and uses of names that are not declared reach a draft in one stream, but they
do not see each other. The draft is two drafts side by side: one that only the former read and write
(`resolvedOnly`), with the sites and the graph, and one that only the latter do (`unresolvedOnly`).
So it makes no difference how the stream was put together.

* `add_resolvedOnly`, `add_unresolvedOnly`: a use sees its own half only.
* `unresolvedOnly_offer`, `resolvedOnly_offer`: it leaves the other half as it is.
* `transcript_of_interleaving`: a run is one run of each half, interleaved as the uses are.
* `interleavings_agree`: every two interleavings give the same answers and the same cross reference.
-/

namespace Gazetteer

/-- The third list is made of the first two, each of them in its own order. -/
inductive Interleaving {α : Type} : List α → List α → List α → Prop
  | nil : Interleaving [] [] []
  | left {x : α} {xs ys zs : List α} : Interleaving xs ys zs → Interleaving (x :: xs) ys (x :: zs)
  | right {y : α} {xs ys zs : List α} : Interleaving xs ys zs → Interleaving xs (y :: ys) (y :: zs)

namespace Interleaving

variable {α : Type} {xs ys zs : List α}

theorem symm (h : Interleaving xs ys zs) : Interleaving ys xs zs := by
  induction h with
  | nil => exact .nil
  | left _ ih => exact ih.right
  | right _ ih => exact ih.left

/-- A test that tells the two lists apart takes the interleaving apart again. -/
theorem filter_eq {p : α → Bool} (h : Interleaving xs ys zs) (hxs : ∀ x ∈ xs, p x = true)
    (hys : ∀ y ∈ ys, p y = false) : zs.filter p = xs := by
  induction h with
  | nil => rfl
  | left _ ih =>
    rw [List.filter_cons_of_pos (hxs _ List.mem_cons_self),
      ih (fun x hx => hxs x (List.mem_cons_of_mem _ hx)) hys]
  | right _ ih =>
    rw [List.filter_cons_of_neg (by simp [hys _ List.mem_cons_self]),
      ih hxs fun y hy => hys y (List.mem_cons_of_mem _ hy)]

end Interleaving

namespace CrossReference.Draft

variable {κ : Type} {d : Draft κ} {u : Use κ}

/-- What a use is answered with. -/
def answer (d : Draft κ) (u : Use κ) : Except Error Outcome :=
  (d.add u.name u.expected u.span).map (·.1)

/-- The uses of a run, each with what it is answered with. -/
def transcript (d : Draft κ) : List (Use κ) → List (Use κ × Except Error Outcome)
  | [] => []
  | u :: later => (u, d.answer u) :: (d.offer u).transcript later

theorem fst_mem_of_mem_transcript {uses : List (Use κ)} {x : Use κ × Except Error Outcome}
    (h : x ∈ d.transcript uses) : x.1 ∈ uses := by
  induction uses generalizing d with
  | nil => exact absurd h List.not_mem_nil
  | cons u later ih =>
    rcases List.mem_cons.mp h with rfl | hlater
    · exact List.mem_cons_self
    · exact List.mem_cons_of_mem _ (ih hlater)

/-! ## Two drafts side by side -/

/-- The draft as if there had been no unresolved use. -/
def resolvedOnly (d : Draft κ) : Draft κ := { d with unresolved := .empty }

/-- The draft as if there had been no resolved use. -/
def unresolvedOnly (d : Draft κ) : Draft κ :=
  { d with sites := .empty, graph := .empty d.names.size }

theorem resolvedOnly_start (names : Directory κ) (bodies : Option (Directory κ)) :
    (start names bodies).resolvedOnly = start names bodies :=
  rfl

theorem unresolvedOnly_start (names : Directory κ) (bodies : Option (Directory κ)) :
    (start names bodies).unresolvedOnly = start names bodies :=
  rfl

/-- Both halves together are the whole. -/
theorem freeze_eq_of_halves {d d' : Draft κ} (hresolved : d.resolvedOnly = d'.resolvedOnly)
    (hunresolved : d.unresolvedOnly = d'.unresolvedOnly) : d.freeze = d'.freeze := by
  have hhalves : ∀ e : Draft κ, e.freeze =
      { e.resolvedOnly.freeze with unresolved := e.unresolvedOnly.freeze.unresolved } :=
    fun _ => rfl
  rw [hhalves d, hhalves d', hresolved, hunresolved]

/-! ## One use -/

theorem indexOf?_eq_none (h : d.names.contains u.name = false) :
    d.names.indexOf? u.name = none :=
  Option.isNone_iff_eq_none.mp (Option.isSome_eq_false_iff.mp h)

/-- A use of a declared name sees the resolved half only. -/
theorem add_resolvedOnly (h : d.names.contains u.name = true) :
    d.resolvedOnly.add u.name u.expected u.span =
      (d.add u.name u.expected u.span).map fun x => (x.1, x.2.resolvedOnly) := by
  obtain ⟨target, htarget⟩ := Option.isSome_iff_exists.mp h
  have hlink : d.resolvedOnly.link (d.resolvedOnly.containerAt? u.span.start) target =
      d.link (d.containerAt? u.span.start) target := rfl
  rw [add_of_target htarget, add_of_target (d := d.resolvedOnly) htarget, hlink]
  show (d.sites.add (some target) u.span).bind _ = _
  cases d.sites.add (some target) u.span with
  | error e => rfl
  | ok sites => cases d.link (d.containerAt? u.span.start) target <;> rfl

/-- A use of a name that is not declared sees the unresolved half only. -/
theorem add_unresolvedOnly (h : d.names.contains u.name = false) :
    d.unresolvedOnly.add u.name u.expected u.span =
      (d.add u.name u.expected u.span).map fun x => (x.1, x.2.unresolvedOnly) := by
  have hnone := indexOf?_eq_none h
  rw [add_of_undeclared hnone, add_of_undeclared (d := d.unresolvedOnly) hnone]
  show (d.unresolved.add (some (d.asUnresolved u)) u.span).map _ = _
  cases d.unresolved.add (some (d.asUnresolved u)) u.span <;> rfl

/-- What sees a half only is answered by the half, and writes to it. -/
theorem answer_offer_of_add {half : Draft κ → Draft κ}
    (h : (half d).add u.name u.expected u.span =
      (d.add u.name u.expected u.span).map fun x => (x.1, half x.2)) :
    (half d).answer u = d.answer u ∧ (half d).offer u = half (d.offer u) := by
  unfold answer offer
  rw [h]
  cases d.add u.name u.expected u.span <;> exact ⟨rfl, rfl⟩

/-- A use of a declared name leaves the unresolved half as it is. -/
theorem unresolvedOnly_offer (h : d.names.contains u.name = true) :
    (d.offer u).unresolvedOnly = d.unresolvedOnly := by
  obtain ⟨target, htarget⟩ := Option.isSome_iff_exists.mp h
  rw [offer, add_of_target htarget]
  cases d.sites.add (some target) u.span with
  | error e => rfl
  | ok sites => cases d.link (d.containerAt? u.span.start) target <;> rfl

/-- A use of a name that is not declared leaves the resolved half as it is. -/
theorem resolvedOnly_offer (h : d.names.contains u.name = false) :
    (d.offer u).resolvedOnly = d.resolvedOnly := by
  rw [offer, add_of_undeclared (indexOf?_eq_none h)]
  cases d.unresolved.add (some (d.asUnresolved u)) u.span <;> rfl

/-! ## Every run -/

/-- **A run is two runs, interleaved as the uses are.** Each half goes through the uses that it
sees, and these are answered as if there were no others. -/
theorem transcript_of_interleaving {resolving unresolving uses : List (Use κ)}
    (h : Interleaving resolving unresolving uses)
    (hresolving : ∀ u ∈ resolving, d.names.contains u.name = true)
    (hunresolving : ∀ u ∈ unresolving, d.names.contains u.name = false) :
    Interleaving (d.resolvedOnly.transcript resolving) (d.unresolvedOnly.transcript unresolving)
        (d.transcript uses) ∧
      (d.offerAll uses).resolvedOnly = d.resolvedOnly.offerAll resolving ∧
      (d.offerAll uses).unresolvedOnly = d.unresolvedOnly.offerAll unresolving := by
  induction h generalizing d with
  | nil => exact ⟨.nil, rfl, rfl⟩
  | @left u resolving unresolving uses _ ih =>
    have hu : d.names.contains u.name = true := hresolving u List.mem_cons_self
    have hnames : (d.offer u).names = d.names := (d.directories_offerAll [u]).1
    obtain ⟨hanswer, hoffer⟩ := answer_offer_of_add (add_resolvedOnly hu)
    obtain ⟨hrun, hrest⟩ := ih (d := d.offer u)
      (fun v hv => hnames.symm ▸ hresolving v (List.mem_cons_of_mem _ hv))
      (fun v hv => hnames.symm ▸ hunresolving v hv)
    rw [unresolvedOnly_offer hu, ← hoffer] at hrun hrest
    refine ⟨?_, hrest⟩
    rw [transcript, transcript, hanswer]
    exact hrun.left
  | @right u resolving unresolving uses _ ih =>
    have hu : d.names.contains u.name = false := hunresolving u List.mem_cons_self
    have hnames : (d.offer u).names = d.names := (d.directories_offerAll [u]).1
    obtain ⟨hanswer, hoffer⟩ := answer_offer_of_add (add_unresolvedOnly hu)
    obtain ⟨hrun, hrest⟩ := ih (d := d.offer u)
      (fun v hv => hnames.symm ▸ hresolving v hv)
      (fun v hv => hnames.symm ▸ hunresolving v (List.mem_cons_of_mem _ hv))
    rw [resolvedOnly_offer hu, ← hoffer] at hrun hrest
    refine ⟨?_, hrest⟩
    rw [transcript, transcript, hanswer]
    exact hrun.right

/-- The answers to the uses of either kind are those that they get if they come alone. -/
theorem filter_transcript_of_interleaving (names : Directory κ) (bodies : Option (Directory κ))
    {resolving unresolving uses : List (Use κ)} (h : Interleaving resolving unresolving uses)
    (hresolving : ∀ u ∈ resolving, names.contains u.name = true)
    (hunresolving : ∀ u ∈ unresolving, names.contains u.name = false) :
    ((start names bodies).transcript uses).filter (fun x => names.contains x.1.name) =
        (start names bodies).transcript resolving ∧
      ((start names bodies).transcript uses).filter (fun x => !names.contains x.1.name) =
        (start names bodies).transcript unresolving := by
  obtain ⟨hrun, -⟩ := transcript_of_interleaving (d := start names bodies) h hresolving hunresolving
  rw [resolvedOnly_start, unresolvedOnly_start] at hrun
  have htrue : ∀ x ∈ (start names bodies).transcript resolving,
      names.contains x.1.name = true :=
    fun x hx => hresolving x.1 (fst_mem_of_mem_transcript hx)
  have hfalse : ∀ x ∈ (start names bodies).transcript unresolving,
      names.contains x.1.name = false :=
    fun x hx => hunresolving x.1 (fst_mem_of_mem_transcript hx)
  refine ⟨hrun.filter_eq htrue hfalse, hrun.symm.filter_eq (fun x hx => ?_) fun x hx => ?_⟩
  · rw [hfalse x hx, Bool.not_false]
  · rw [htrue x hx, Bool.not_true]

/-- **The order between the two kinds of uses makes no difference.** Take two interleavings of uses
of declared names with uses of names that are not declared. Whatever is refused on the way, each use
is answered in both runs with what it is answered with if its kind comes alone, and the two cross
references are equal: the sites, the sites of each name, the unresolved uses and the graph. -/
theorem interleavings_agree (names : Directory κ) (bodies : Option (Directory κ))
    {resolving unresolving xs ys : List (Use κ)}
    (hresolving : ∀ u ∈ resolving, names.contains u.name = true)
    (hunresolving : ∀ u ∈ unresolving, names.contains u.name = false)
    (hxs : Interleaving resolving unresolving xs) (hys : Interleaving resolving unresolving ys) :
    let d := start names bodies
    (∀ uses ∈ [xs, ys],
      (d.transcript uses).filter (fun x => names.contains x.1.name) = d.transcript resolving ∧
      (d.transcript uses).filter (fun x => !names.contains x.1.name) =
        d.transcript unresolving) ∧
    (d.offerAll xs).freeze = (d.offerAll ys).freeze := by
  intro d
  refine ⟨fun uses huses => ?_, ?_⟩
  · have h : Interleaving resolving unresolving uses := by
      rcases List.mem_pair.mp huses with rfl | rfl
      · exact hxs
      · exact hys
    exact filter_transcript_of_interleaving names bodies h hresolving hunresolving
  · obtain ⟨-, hresolvedx, hunresolvedx⟩ :=
      transcript_of_interleaving (d := d) hxs hresolving hunresolving
    obtain ⟨-, hresolvedy, hunresolvedy⟩ :=
      transcript_of_interleaving (d := d) hys hresolving hunresolving
    exact freeze_eq_of_halves (hresolvedx.trans hresolvedy.symm)
      (hunresolvedx.trans hunresolvedy.symm)

theorem interleavings_agree_with_refusals :
    ∃ (names bodies : Directory Kind) (resolving unresolving xs ys : List (Use Kind)),
      Interleaving resolving unresolving xs ∧ Interleaving resolving unresolving ys ∧
      let d := start names (some bodies)
      (d.transcript xs).map (·.2) =
        [.ok (.resolved 0 (some 1)), .ok (.unresolved 0),
          .error (.outOfOrder ⟨1, 2⟩ ⟨3, 6⟩ .precedesPrevious), .error (.emptySpan ⟨4, 4⟩),
          .ok (.resolved 1 (some 1)), .ok (.unresolved 1)] ∧
      (d.transcript ys).map (·.2) =
        [.ok (.unresolved 0), .error (.emptySpan ⟨4, 4⟩), .ok (.unresolved 1),
          .ok (.resolved 0 (some 1)), .error (.outOfOrder ⟨1, 2⟩ ⟨3, 6⟩ .precedesPrevious),
          .ok (.resolved 1 (some 1))] ∧
      (∀ uses ∈ [xs, ys],
        (d.transcript uses).filter (fun x => names.contains x.1.name) = d.transcript resolving ∧
        (d.transcript uses).filter (fun x => !names.contains x.1.name) =
          d.transcript unresolving) ∧
      (d.offerAll xs).freeze = (d.offerAll ys).freeze := by
  let names : Directory Kind := (Directory.Draft.empty.submitAll
    [.add "F" ⟨.parserRule, ⟨0, 3⟩⟩, .add "B" ⟨.parserRule, ⟨20, 23⟩⟩]).freeze
  let bodies : Directory Kind := (Directory.Draft.empty.submitAll
    [.add "F" ⟨.parserRule, ⟨0, 15⟩⟩, .add "Z" ⟨.parserRule, ⟨15, 40⟩⟩]).freeze
  let resolving : List (Use Kind) :=
    [⟨"B", none, ⟨3, 6⟩⟩, ⟨"F", none, ⟨1, 2⟩⟩, ⟨"F", none, ⟨4, 5⟩⟩]
  let unresolving : List (Use Kind) :=
    [⟨"Q", some .lexerRule, ⟨2, 5⟩⟩, ⟨"P", none, ⟨4, 4⟩⟩, ⟨"Q", none, ⟨20, 21⟩⟩]
  have hxs : Interleaving resolving unresolving _ :=
    .left (.right (.left (.right (.left (.right .nil)))))
  have hys : Interleaving resolving unresolving _ :=
    .right (.right (.right (.left (.left (.left .nil)))))
  have hresolving : ∀ u ∈ resolving, names.contains u.name = true :=
    List.all_eq_true.mp (by cbv)
  have hnone : unresolving.any (fun u => names.contains u.name) = false := by cbv
  have hunresolving : ∀ u ∈ unresolving, names.contains u.name = false := fun u hu =>
    Bool.eq_false_of_not_eq_true (List.any_eq_false.mp hnone u hu)
  have hagree := interleavings_agree names (some bodies) hresolving hunresolving hxs hys
  exact ⟨names, bodies, resolving, unresolving, _, _, hxs, hys, by cbv, by cbv, hagree⟩

end CrossReference.Draft

end Gazetteer
