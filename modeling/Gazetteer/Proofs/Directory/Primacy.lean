import Gazetteer.Proofs.Directory.Drafting

/-!
# Which declaration is primary

A draft moves declarations back and forth between the primary ones and the duplicates. What it ends
up with can be read off the requests, without following the draft: the declarations of a name that
were accepted (`declared`) and the regions that were accepted for it (`relocations`).

* `IsPrimary` says which declaration the requests make the primary one.
* `Chronicle` is the invariant, kept by every request (`Chronicle.submit`): what a draft holds for a
  name is what the requests say, and no declaration is lost or doubled.
-/

namespace Gazetteer.Directory.Draft

open scoped List

variable {κ : Type} {name : String}

/-! ## What the requests say -/

/-- The declaration of `name` that a request adds. -/
def Request.declares (name : String) (r : Request κ) : Option (Declaration κ) :=
  r.declared?.bind fun (n, decl) => if n = name then some decl else none

/-- The region that a request gives to `name`. -/
def Request.relocates (name : String) (r : Request κ) : Option Span :=
  r.relocated?.bind fun (n, span) => if n = name then some span else none

/-- The accepted declarations of `name`, in order. -/
def declared (name : String) (requests : List (Request κ)) : List (Declaration κ) :=
  requests.filterMap (·.declares name)

/-- The regions accepted for `name`, in order. -/
def relocations (name : String) (requests : List (Request κ)) : List Span :=
  requests.filterMap (·.relocates name)

theorem Request.declares_eq_some_iff {r : Request κ} {decl : Declaration κ} :
    r.declares name = some decl ↔ r.declared? = some (name, decl) := by
  unfold declares
  cases r.declared? with
  | none => simp
  | some x =>
    obtain ⟨n, y⟩ := x
    by_cases hn : n = name <;> simp [hn]

theorem Request.relocates_eq_some_iff {r : Request κ} {span : Span} :
    r.relocates name = some span ↔ r.relocated? = some (name, span) := by
  unfold relocates
  cases r.relocated? with
  | none => simp
  | some x =>
    obtain ⟨n, y⟩ := x
    by_cases hn : n = name <;> simp [hn]

/-- A request that adds a declaration does not relocate. -/
theorem Request.relocates_eq_none {r : Request κ} {decl : Declaration κ}
    (h : r.declares name = some decl) : r.relocates name = none := by
  cases hreloc : r.relocates name with
  | none => rfl
  | some span =>
    have hnone := (proper_of_relocated? (relocates_eq_some_iff.mp hreloc)).2
    rw [declares_eq_some_iff, hnone] at h
    exact absurd h (by simp)

theorem declared_concat (requests : List (Request κ)) (r : Request κ) :
    declared name (requests ++ [r]) = declared name requests ++ (r.declares name).toList := by
  unfold declared
  rw [List.filterMap_append]
  cases h : r.declares name <;> simp [h]

theorem relocations_concat (requests : List (Request κ)) (r : Request κ) :
    relocations name (requests ++ [r]) =
      relocations name requests ++ (r.relocates name).toList := by
  unfold relocations
  rw [List.filterMap_append]
  cases h : r.relocates name <;> simp [h]

theorem mem_declared {requests : List (Request κ)} {x : Declaration κ} :
    x ∈ declared name requests ↔ ∃ r ∈ requests, r.declared? = some (name, x) := by
  simp only [declared, List.mem_filterMap, Request.declares_eq_some_iff]

/-- The names of which some declaration was accepted. -/
def declaredNames (requests : List (Request κ)) : List String :=
  (requests.filterMap (·.declared?)).map (·.1)

theorem mem_declaredNames {requests : List (Request κ)} :
    name ∈ declaredNames requests ↔ declared name requests ≠ [] := by
  simp only [declaredNames, List.mem_map, List.mem_filterMap, ne_eq,
    List.eq_nil_iff_forall_not_mem, mem_declared, not_forall, not_not]
  constructor
  · rintro ⟨⟨_, x⟩, hr, rfl⟩
    exact ⟨x, hr⟩
  · rintro ⟨x, hr⟩
    exact ⟨(name, x), hr, rfl⟩

variable [Ranked κ]

/-- **The primary declaration of `name`, read off the requests**: the earliest of those with the
lowest rank, in the region that it was given last since it was recorded. -/
def IsPrimary (requests : List (Request κ)) (name : String) (primary : Declaration κ) : Prop :=
  ∃ before r after decl, requests = before ++ r :: after ∧ r.declares name = some decl ∧
    (∀ x ∈ declared name before, Ranked.rank decl.kind < Ranked.rank x.kind) ∧
    (∀ x ∈ declared name after, Ranked.rank decl.kind ≤ Ranked.rank x.kind) ∧
    primary = { decl with span := (relocations name after).getLast?.getD decl.span }

namespace IsPrimary

variable {requests : List (Request κ)} {primary : Declaration κ} {r : Request κ}

/-- No declaration outranks the primary one. -/
theorem rank_le (h : IsPrimary requests name primary) :
    ∀ x ∈ declared name requests, Ranked.rank primary.kind ≤ Ranked.rank x.kind := by
  obtain ⟨before, r, after, decl, rfl, hr, hbefore, hafter, rfl⟩ := h
  intro x hx
  rw [declared, List.filterMap_append, List.mem_append, List.filterMap_cons_some hr,
    List.mem_cons] at hx
  rcases hx with hx | rfl | hx
  · exact (hbefore x hx).le
  · exact le_refl _
  · exact hafter x hx

/-- A declaration that outranks all before it is the primary one when it is recorded. -/
theorem newest {decl : Declaration κ} (hr : r.declares name = some decl)
    (hrank : ∀ x ∈ declared name requests, Ranked.rank decl.kind < Ranked.rank x.kind) :
    IsPrimary (requests ++ [r]) name decl :=
  ⟨requests, r, [], decl, rfl, hr, hrank, fun _ hx => absurd hx List.not_mem_nil, rfl⟩

/-- The primary declaration stays so until it is outranked; it moves with the requests for its
name. -/
theorem concat (h : IsPrimary requests name primary)
    (hrank : ∀ x, r.declares name = some x → Ranked.rank primary.kind ≤ Ranked.rank x.kind) :
    IsPrimary (requests ++ [r]) name
      { primary with span := (r.relocates name).getD primary.span } := by
  obtain ⟨before, c, after, decl, rfl, hc, hbefore, hafter, rfl⟩ := h
  refine ⟨before, c, after ++ [r], decl, by simp, hc, hbefore, fun x hx => ?_, ?_⟩
  · rw [declared_concat, List.mem_append, Option.mem_toList] at hx
    rcases hx with hx | hx
    · exact hafter x hx
    · exact hrank x hx
  · rw [relocations_concat, List.getLast?_append]
    cases r.relocates name <;> rfl

end IsPrimary

/-! ## What a draft holds -/

variable {d : Draft κ}

omit [Ranked κ] in
theorem find?_promote (d : Draft κ) (name q : String) (decl : Declaration κ) :
    (d.promote name decl).primaries.find? q =
      if q = name then some decl else d.primaries.find? q :=
  Register.find?_insert d.primaries name q decl

/-- The declarations set aside for a name. -/
def asideOf (d : Draft κ) (name : String) : List (Declaration κ) := d.duplicates.listOf name

omit [Ranked κ] in
theorem asideOf_divert (d : Draft κ) (name q : String) (decl : Declaration κ) :
    (d.divert name decl).asideOf q =
      if q = name then d.asideOf q ++ [decl] else d.asideOf q :=
  Register.listOf_push d.duplicates name q decl

/-- **What a draft holds for a name** after some requests. -/
structure Chronicle (requests : List (Request κ)) (name : String)
    (primary? : Option (Declaration κ)) (aside : List (Declaration κ)) : Prop where
  absent : primary? = none → declared name requests = [] ∧ aside = []
  primary : ∀ p, primary? = some p → IsPrimary requests name p
  conserved : ∀ p, primary? = some p → ∀ (γ : Type) (view : Declaration κ → γ),
    (relocations name requests = [] ∨ ∀ x span, view { x with span } = view x) →
    (p :: aside).map view ~ (declared name requests).map view

namespace Chronicle

variable {requests : List (Request κ)} {r : Request κ} {primary? : Option (Declaration κ)}
  {p x : Declaration κ} {aside : List (Declaration κ)}

theorem empty (name : String) : Chronicle ([] : List (Request κ)) name none [] :=
  ⟨fun _ => ⟨rfl, rfl⟩, fun _ h => absurd h (by simp), fun _ h => absurd h (by simp)⟩

/-- A request that does not concern a name. -/
theorem silent (h : Chronicle requests name primary? aside) (hdecl : r.declares name = none)
    (hreloc : primary? = none ∨ r.relocates name = none) :
    Chronicle (requests ++ [r]) name primary? aside := by
  have hdeclared : declared name (requests ++ [r]) = declared name requests := by
    rw [declared_concat, hdecl, Option.toList_none, List.append_nil]
  refine ⟨fun hnone => hdeclared ▸ h.absent hnone, fun p hp => ?_, fun p hp γ view hview => ?_⟩
  all_goals have hreloc := hreloc.resolve_left fun hnone => by simp [hnone] at hp
  · have hkept := (h.primary p hp).concat (r := r) fun x hx => by simp [hdecl] at hx
    rwa [hreloc] at hkept
  · rw [relocations_concat, hreloc, Option.toList_none, List.append_nil] at hview
    rw [hdeclared]
    exact h.conserved p hp γ view hview

/-- A declaration of another name. -/
theorem other {q : String} (h : Chronicle requests q primary? aside)
    (hr : r.declared? = some (name, x)) (hq : q ≠ name) :
    Chronicle (requests ++ [r]) q primary? aside := by
  refine h.silent (by simp [Request.declares, hr, Ne.symm hq]) (.inr ?_)
  cases hreloc : r.relocated? with
  | none => simp [Request.relocates, hreloc]
  | some y =>
    have hnone := (Request.proper_of_relocated? hreloc).2
    rw [hr] at hnone
    exact absurd hnone (by simp)

/-- The primary declaration is given another region. -/
theorem relocate {span : Span} (h : Chronicle requests name (some p) aside)
    (hdecl : r.declares name = none) (hreloc : r.relocates name = some span) :
    Chronicle (requests ++ [r]) name (some { p with span }) aside := by
  refine ⟨fun hnone => absurd hnone (by simp), fun q hq => ?_, fun q hq γ view hview => ?_⟩
  all_goals obtain rfl := Option.some.inj hq
  · have hmoved := (h.primary p rfl).concat (r := r) fun x hx => by simp [hdecl] at hx
    rwa [hreloc] at hmoved
  · have hview := hview.resolve_left (by simp [relocations_concat, hreloc])
    rw [declared_concat, hdecl, Option.toList_none, List.append_nil, List.map_cons, hview]
    exact h.conserved p rfl γ view (Or.inr hview)

/-- The first declaration of a name. -/
theorem first (h : Chronicle requests name none aside) (hr : r.declares name = some x) :
    Chronicle (requests ++ [r]) name (some x) aside := by
  obtain ⟨hnone, haside⟩ := h.absent rfl
  refine ⟨fun hnone => absurd hnone (by simp), fun q hq => ?_, fun q hq γ view _ => ?_⟩
  all_goals obtain rfl := Option.some.inj hq
  · exact IsPrimary.newest hr fun y hy => absurd hy (by simp [hnone])
  · rw [declared_concat, hr, hnone, haside]
    exact List.Perm.refl _

/-- A declaration that outranks the primary one takes its place. -/
theorem displace (h : Chronicle requests name (some p) aside) (hr : r.declares name = some x)
    (hrank : Ranked.rank x.kind < Ranked.rank p.kind) :
    Chronicle (requests ++ [r]) name (some x) (aside ++ [p]) := by
  refine ⟨fun hnone => absurd hnone (by simp), fun q hq => ?_, fun q hq γ view hview => ?_⟩
  all_goals obtain rfl := Option.some.inj hq
  · exact IsPrimary.newest hr fun y hy => hrank.trans_le ((h.primary p rfl).rank_le y hy)
  · rw [relocations_concat, Request.relocates_eq_none hr, Option.toList_none,
      List.append_nil] at hview
    have hperm := h.conserved p rfl γ view hview
    rw [declared_concat, hr, Option.toList_some, List.map_append]
    calc (x :: (aside ++ [p])).map view
        = view x :: (aside.map view ++ [view p]) := by simp
      _ ~ view x :: (p :: aside).map view := (List.perm_append_singleton _ _).cons _
      _ ~ view x :: (declared name requests).map view := hperm.cons _
      _ ~ (declared name requests).map view ++ [view x] := (List.perm_append_singleton _ _).symm

/-- A declaration that does not outrank the primary one is set aside. -/
theorem setAside (h : Chronicle requests name (some p) aside) (hr : r.declares name = some x)
    (hrank : Ranked.rank p.kind ≤ Ranked.rank x.kind) :
    Chronicle (requests ++ [r]) name (some p) (aside ++ [x]) := by
  have hreloc := Request.relocates_eq_none hr
  refine ⟨fun hnone => absurd hnone (by simp), fun q hq => ?_, fun q hq γ view hview => ?_⟩
  all_goals obtain rfl := Option.some.inj hq
  · have hkept := (h.primary p rfl).concat (r := r) fun y hy => by
      rwa [← Option.some.inj (hr.symm.trans hy)]
    rwa [hreloc] at hkept
  · rw [relocations_concat, hreloc, Option.toList_none, List.append_nil] at hview
    have hperm := h.conserved p rfl γ view hview
    rw [declared_concat, hr, Option.toList_some, List.map_append, ← List.cons_append,
      List.map_append]
    exact hperm.append_right _

end Chronicle

/-- What a draft holds for every name is what the requests say. -/
def Follows (requests : List (Request κ)) (d : Draft κ) : Prop :=
  ∀ name, Chronicle requests name (d.primaries.find? name) (d.asideOf name)

/-- **One request.** -/
theorem Follows.submit {requests : List (Request κ)} (h : Follows requests d) (r : Request κ) :
    Follows (requests ++ [r]) (d.submit r) := by
  intro q
  have hq := h q
  have ho := d.outcome_submit r
  generalize d.submit r = d' at ho
  cases ho with
  | refused hdecl hreloc =>
    exact hq.silent (by simp [Request.declares, hdecl]) (.inr (by simp [Request.relocates, hreloc]))
  | @nowhere n span hreloc hfind =>
    refine hq.silent (by simp [Request.declares, (Request.proper_of_relocated? hreloc).2]) ?_
    by_cases hn : n = q
    · exact .inl (hn ▸ hfind)
    · exact .inr (by simp [Request.relocates, hreloc, hn])
  | @relocated n span p hreloc hfind =>
    have hdecl : r.declares q = none := by
      simp [Request.declares, (Request.proper_of_relocated? hreloc).2]
    rw [find?_promote]
    by_cases hn : q = n
    · subst hn
      rw [if_pos rfl]
      rw [hfind] at hq
      exact hq.relocate hdecl (Request.relocates_eq_some_iff.mpr hreloc)
    · rw [if_neg hn]
      exact hq.silent hdecl (.inr (by simp [Request.relocates, hreloc, Ne.symm hn]))
  | @first n x hdecl hfind =>
    rw [find?_promote]
    by_cases hn : q = n
    · subst hn
      rw [if_pos rfl]
      rw [hfind] at hq
      exact hq.first (Request.declares_eq_some_iff.mpr hdecl)
    · rw [if_neg hn]
      exact hq.other hdecl hn
  | @displaced n x p hdecl hfind hrank =>
    rw [asideOf_divert]
    show Chronicle _ q ((d.promote n x).primaries.find? q) _
    rw [find?_promote]
    by_cases hn : q = n
    · subst hn
      rw [if_pos rfl, if_pos rfl]
      rw [hfind] at hq
      exact hq.displace (Request.declares_eq_some_iff.mpr hdecl) hrank
    · rw [if_neg hn, if_neg hn]
      exact hq.other hdecl hn
  | @setAside n x p hdecl hfind hrank =>
    rw [asideOf_divert]
    show Chronicle _ q (d.primaries.find? q) _
    by_cases hn : q = n
    · subst hn
      rw [if_pos rfl]
      rw [hfind] at hq ⊢
      exact hq.setAside (Request.declares_eq_some_iff.mpr hdecl) hrank
    · rw [if_neg hn]
      exact hq.other hdecl hn

/-- **What a draft holds is what the requests say**, after every sequence of requests. -/
theorem follows_submitAll (requests : List (Request κ)) :
    Follows requests ((Draft.empty : Draft κ).submitAll requests) := by
  induction requests using List.reverseRecOn with
  | nil => exact Chronicle.empty
  | append_singleton requests r ih =>
    rw [submitAll, List.foldl_concat]
    exact ih.submit r

/-! ## What a directory holds -/

theorem Follows.find?_eq_none_iff {requests : List (Request κ)} (h : Follows requests d) :
    d.primaries.find? name = none ↔ declared name requests = [] := by
  refine ⟨fun hnone => ((h name).absent hnone).1, fun hnil => ?_⟩
  cases hfind : d.primaries.find? name with
  | none => rfl
  | some p =>
    have hkinds := (h name).conserved p hfind κ (·.kind) (.inr fun _ _ => rfl)
    rw [hnil] at hkinds
    exact absurd hkinds.length_eq (by simp)

theorem Follows.mem_names_freeze_iff {requests : List (Request κ)} (h : Follows requests d) :
    name ∈ d.freeze.names ↔ name ∈ declaredNames requests := by
  rw [Sound.mem_names_freeze, mem_declaredNames, ne_eq, ← h.find?_eq_none_iff,
    Register.find?_eq_none_iff, not_not]

/-- Whether a declaration becomes the primary one is decided by those before it. -/
theorem Follows.exists_answer {requests : List (Request κ)} (h : Follows requests d)
    {r : Request κ} {decl : Declaration κ} (hr : r.declares name = some decl) :
    ∃ became d', d.answer r = .ok (became, d') ∧
      (became = true ↔ ∀ x ∈ declared name requests, Ranked.rank decl.kind < Ranked.rank x.kind) ∧
      d'.primaries.find? name = if became then some decl else d.primaries.find? name := by
  rw [answer_of_declared? (Request.declares_eq_some_iff.mp hr)]
  have hname := h name
  cases hfind : d.primaries.find? name with
  | none =>
    rw [hfind] at hname
    refine ⟨true, _, congrArg _ (record_of_none hfind decl), ?_, ?_⟩
    · simp [(hname.absent rfl).1]
    · simp [find?_promote]
  | some p =>
    rw [hfind] at hname
    rw [record_of_some hfind]
    have hkinds := hname.conserved p rfl κ (·.kind) (.inr fun _ _ => rfl)
    obtain ⟨y, hy, hyp⟩ := List.mem_map.mp (hkinds.mem_iff.mp List.mem_cons_self)
    by_cases hrank : Ranked.rank decl.kind < Ranked.rank p.kind
    · rw [if_pos hrank]
      refine ⟨true, _, rfl, iff_of_true rfl fun x hx => ?_, ?_⟩
      · exact hrank.trans_le ((hname.primary p rfl).rank_le x hx)
      · show (d.promote name decl).primaries.find? name = _
        simp [find?_promote]
    · rw [if_neg hrank]
      refine ⟨false, _, rfl, iff_of_false (by simp) fun hall => hrank ?_, ?_⟩
      · have hlt := hall y hy
        rwa [hyp] at hlt
      · exact hfind

/-- **What is drafted, exactly.** After any sequence of requests, refused ones included:

* a declaration becomes primary when it is recorded iff it outranks all accepted before it;
* there are as many names as were declared; other names have neither entry nor duplicates;
* the entry of a name is its primary declaration, as the requests give it and as the draft holds it,
  whether ends are stored or implied;
* the kinds of the primary declaration and of the duplicates are those of all accepted declarations
  of the name, and none of them outranks the primary one;
* if the name was never relocated, the same holds of the declarations themselves. -/
theorem freeze_submitAll_exact (requests : List (Request κ)) :
    let d := (Draft.empty : Draft κ).submitAll requests
    let dir := d.freeze
    (∀ before r after, requests = before ++ r :: after →
      let d := (Draft.empty : Draft κ).submitAll before
      ((∃ x, d.answer r = .ok x) ↔ r.declared?.isSome ∨ r.relocated?.isSome) ∧
      ∀ name decl, r.declares name = some decl → ∃ became d', d.answer r = .ok (became, d') ∧
        (became = true ↔
          ∀ x ∈ declared name before, Ranked.rank decl.kind < Ranked.rank x.kind) ∧
        d'.primaries.find? name = if became then some decl else d.primaries.find? name) ∧
    dir.size = (declaredNames requests).toFinset.card ∧
    (∀ name, declared name requests = [] →
      dir.find? name = none ∧ dir.duplicatesOf name = []) ∧
    ∀ name, declared name requests ≠ [] → ∃ e, dir.find? name = some e ∧ e.name = name ∧
      d.primaries.find? name = some e.declaration ∧
      IsPrimary requests name e.declaration ∧
      e.kind :: (dir.duplicatesOf name).map (·.kind) ~ (declared name requests).map (·.kind) ∧
      (∀ x ∈ dir.duplicatesOf name, Ranked.rank e.kind ≤ Ranked.rank x.kind) ∧
      (relocations name requests = [] →
        e.declaration :: dir.duplicatesOf name ~ declared name requests) := by
  intro d dir
  have hsound : d.Sound := sound_submitAll requests
  have hwell : dir.WellFormed := hsound.freeze_wellFormed
  have hfollows : Follows requests d := follows_submitAll requests
  refine ⟨fun before r after _ => ⟨exists_answer_eq_ok_iff, fun name decl hr =>
    (follows_submitAll before).exists_answer hr⟩, ?_, fun name hnil => ?_, fun name hne => ?_⟩
  · have hset : (declaredNames requests).toFinset = dir.names.toFinset :=
      Finset.ext fun name => by simp only [List.mem_toFinset, hfollows.mem_names_freeze_iff, dir]
    rw [hset, List.toFinset_card_of_nodup hwell.ascending.nodup, length_names]
  · have hnone := hfollows.find?_eq_none_iff.mpr hnil
    have hfind := hsound.find?_freeze name
    rw [hnone, Option.map_eq_none_iff] at hfind
    exact ⟨hfind, ((hfollows name).absent hnone).2⟩
  · have hfreeze := hsound.find?_freeze name
    obtain ⟨p, hp⟩ := Option.ne_none_iff_exists'.mp fun hnone =>
      hne (hfollows.find?_eq_none_iff.mp hnone)
    rw [hp, Option.map_eq_some_iff] at hfreeze
    obtain ⟨e, hfind, rfl⟩ := hfreeze
    have hprimary := (hfollows name).primary _ hp
    have hconserved := (hfollows name).conserved _ hp
    have hkinds := hconserved κ (·.kind) (.inr fun _ _ => rfl)
    refine ⟨e, hfind, (hwell.find?_eq_some_iff.mp hfind).2, hp, hprimary, hkinds, fun x hx => ?_,
      fun hreloc => ?_⟩
    · have hmem := hkinds.mem_iff.mp (List.mem_cons_of_mem _ (List.mem_map_of_mem hx))
      obtain ⟨y, hy, hyx⟩ := List.mem_map.mp hmem
      exact hyx ▸ hprimary.rank_le y hy
    · have hwhole := hconserved _ id (.inl hreloc)
      rwa [List.map_id, List.map_id] at hwhole

end Gazetteer.Directory.Draft
