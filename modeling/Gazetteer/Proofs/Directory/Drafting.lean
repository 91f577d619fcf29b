import Gazetteer.Directory.Draft
import Gazetteer.Proofs.Directory.WellFormed
import Gazetteer.Proofs.Runs
import Mathlib.Data.Finset.Card

/-!
# Drafting a directory

A draft answers requests: to add a declaration, or to give the primary declaration of a name
another region. `Outcome` lists what an answer can do to the draft; everything below follows the
cases of `Outcome` and never looks into a request again.

* `Sound`: a draft has one row for each name, and everything in it is proper. So what is frozen is
  a well-formed directory (`Sound.freeze_wellFormed`) that answers with what the draft holds
  (`Sound.find?_freeze`).
* `sound_submitAll`: this holds after every sequence of requests.
-/

namespace Gazetteer.Directory.Draft

variable {κ : Type}

/-! ## Requests -/

/-- A request to a draft. -/
inductive Request (κ : Type) where
  | add (name : String) (decl : Declaration κ)
  | addName (name : String) (kind : κ) (start : Offset)
  | relocate (name : String) (span : Span)

namespace Request

/-- The declaration that a request adds, `none` if it is refused. -/
def declared? : Request κ → Option (String × Declaration κ)
  | .add name decl => if decl.span.Proper then some (name, decl) else none
  | .addName name kind start =>
    (impliedStop? name start).map fun stop => (name, ⟨kind, ⟨start, stop⟩⟩)
  | .relocate _ _ => none

/-- The region that a request gives to a name, `none` if it is refused. -/
def relocated? : Request κ → Option (String × Span)
  | .relocate name span => if span.Proper then some (name, span) else none
  | _ => none

theorem proper_of_declared? {r : Request κ} {name : String} {decl : Declaration κ}
    (h : r.declared? = some (name, decl)) : decl.span.Proper := by
  cases r with
  | add n x =>
    simp only [declared?] at h
    split at h
    · rename_i hproper
      obtain ⟨-, rfl⟩ := Prod.mk.inj (Option.some.inj h)
      exact hproper
    · exact absurd h (by simp)
  | addName n kind start =>
    obtain ⟨stop, hstop, hx⟩ := Option.map_eq_some_iff.mp h
    obtain ⟨-, rfl⟩ := Prod.mk.inj hx
    unfold impliedStop? at hstop
    split at hstop
    · exact absurd hstop (by simp)
    · rw [Offset.ofNat?_eq_some_iff] at hstop
      have hlt : start < stop := Fin.lt_def.mpr (by omega)
      exact hlt
  | relocate n span => exact absurd h (by simp [declared?])

theorem proper_of_relocated? {r : Request κ} {name : String} {span : Span}
    (h : r.relocated? = some (name, span)) : span.Proper ∧ r.declared? = none := by
  cases r with
  | relocate n s =>
    simp only [relocated?] at h
    split at h
    · rename_i hproper
      obtain ⟨-, rfl⟩ := Prod.mk.inj (Option.some.inj h)
      exact ⟨hproper, rfl⟩
    · exact absurd h (by simp)
  | _ => exact absurd h (by simp [relocated?])

end Request

variable [Ranked κ] {d : Draft κ}

/-- What a draft makes of a request. -/
def answer (d : Draft κ) : Request κ → Except Error (Bool × Draft κ)
  | .add name decl => d.add name decl
  | .addName name kind start => d.addName name kind start
  | .relocate name span => d.relocate name span

/-- The draft after a request; a refusal leaves it as it is. -/
def submit (d : Draft κ) (request : Request κ) : Draft κ :=
  match d.answer request with
  | .ok (_, d') => d'
  | .error _ => d

/-- The draft after a sequence of requests. -/
def submitAll (d : Draft κ) (requests : List (Request κ)) : Draft κ := requests.foldl submit d

/-! ## Outcomes -/

theorem answer_of_declared? {r : Request κ} {name : String} {decl : Declaration κ}
    (h : r.declared? = some (name, decl)) : d.answer r = .ok (d.record name decl) := by
  have hproper := Request.proper_of_declared? h
  cases r with
  | add n x =>
    simp only [Request.declared?] at h
    split at h
    · obtain ⟨rfl, rfl⟩ := Prod.mk.inj (Option.some.inj h)
      simp [answer, add, hproper]
    · exact absurd h (by simp)
  | addName n kind start =>
    obtain ⟨stop, hstop, hx⟩ := Option.map_eq_some_iff.mp h
    obtain ⟨rfl, rfl⟩ := Prod.mk.inj hx
    simp [answer, addName, add, hstop, hproper]
  | relocate n span => exact absurd h (by simp [Request.declared?])

theorem answer_of_relocated? {r : Request κ} {name : String} {span : Span}
    (h : r.relocated? = some (name, span)) :
    d.answer r = .ok (match d.primaries.find? name with
      | some primary => (true, d.promote name { primary with span })
      | none => (false, d)) := by
  have hproper := (Request.proper_of_relocated? h).1
  cases r with
  | relocate n s =>
    simp only [Request.relocated?] at h
    split at h
    · obtain ⟨rfl, rfl⟩ := Prod.mk.inj (Option.some.inj h)
      simp only [answer, relocate, hproper, if_true]
      cases d.primaries.find? n <;> rfl
    · exact absurd h (by simp)
  | _ => exact absurd h (by simp [Request.relocated?])

theorem exists_answer_eq_error {r : Request κ} (hdecl : r.declared? = none)
    (hreloc : r.relocated? = none) : ∃ e, d.answer r = .error e := by
  cases r with
  | add n x =>
    have hproper : ¬ x.span.Proper := fun hproper => by simp [Request.declared?, hproper] at hdecl
    exact ⟨_, if_neg hproper⟩
  | addName n kind start =>
    have hnone : impliedStop? n start = none := Option.map_eq_none_iff.mp hdecl
    exact ⟨.emptySpan ⟨start, start⟩, by simp [answer, addName, hnone]⟩
  | relocate n span =>
    have hproper : ¬ span.Proper := fun hproper => by simp [Request.relocated?, hproper] at hreloc
    exact ⟨_, if_neg hproper⟩

/-- A request is accepted iff it adds a proper declaration or gives a proper region. -/
theorem exists_answer_eq_ok_iff {r : Request κ} :
    (∃ x, d.answer r = .ok x) ↔ r.declared?.isSome ∨ r.relocated?.isSome := by
  cases hdecl : r.declared? with
  | some x => simp [answer_of_declared? (d := d) hdecl]
  | none =>
    cases hreloc : r.relocated? with
    | some x => simp [answer_of_relocated? (d := d) hreloc]
    | none =>
      obtain ⟨e, he⟩ := exists_answer_eq_error (d := d) hdecl hreloc
      simp [he]

theorem submit_of_declared? {r : Request κ} {name : String} {decl : Declaration κ}
    (h : r.declared? = some (name, decl)) : d.submit r = (d.record name decl).2 := by
  rw [submit, answer_of_declared? h]

theorem record_of_none {name : String} (h : d.primaries.find? name = none)
    (decl : Declaration κ) : d.record name decl = (true, d.promote name decl) := by
  simp [record, h]

theorem record_of_some {name : String} {primary : Declaration κ}
    (h : d.primaries.find? name = some primary) (decl : Declaration κ) :
    d.record name decl = if Ranked.rank decl.kind < Ranked.rank primary.kind then
      (true, (d.promote name decl).divert name primary) else (false, d.divert name decl) := by
  simp [record, h, Ranked.outranks]

/-- **What a request can do to a draft.** -/
inductive Outcome (d : Draft κ) (r : Request κ) : Draft κ → Prop
  | refused : r.declared? = none → r.relocated? = none → Outcome d r d
  | nowhere {name : String} {span : Span} : r.relocated? = some (name, span) →
      d.primaries.find? name = none → Outcome d r d
  | relocated {name : String} {span : Span} {primary : Declaration κ} :
      r.relocated? = some (name, span) → d.primaries.find? name = some primary →
      Outcome d r (d.promote name { primary with span })
  | first {name : String} {decl : Declaration κ} : r.declared? = some (name, decl) →
      d.primaries.find? name = none → Outcome d r (d.promote name decl)
  | displaced {name : String} {decl primary : Declaration κ} : r.declared? = some (name, decl) →
      d.primaries.find? name = some primary → Ranked.rank decl.kind < Ranked.rank primary.kind →
      Outcome d r ((d.promote name decl).divert name primary)
  | setAside {name : String} {decl primary : Declaration κ} : r.declared? = some (name, decl) →
      d.primaries.find? name = some primary → Ranked.rank primary.kind ≤ Ranked.rank decl.kind →
      Outcome d r (d.divert name decl)

theorem outcome_submit (d : Draft κ) (r : Request κ) : Outcome d r (d.submit r) := by
  unfold submit
  cases hdecl : r.declared? with
  | some x =>
    obtain ⟨name, decl⟩ := x
    rw [answer_of_declared? hdecl]
    cases hfind : d.primaries.find? name with
    | none =>
      rw [record_of_none hfind]
      exact .first hdecl hfind
    | some primary =>
      rw [record_of_some hfind]
      by_cases hrank : Ranked.rank decl.kind < Ranked.rank primary.kind
      · rw [if_pos hrank]
        exact .displaced hdecl hfind hrank
      · rw [if_neg hrank]
        exact .setAside hdecl hfind (not_lt.mp hrank)
  | none =>
    cases hreloc : r.relocated? with
    | some x =>
      obtain ⟨name, span⟩ := x
      rw [answer_of_relocated? hreloc]
      cases hfind : d.primaries.find? name with
      | none => exact .nowhere hreloc hfind
      | some primary => exact .relocated hreloc hfind
    | none =>
      obtain ⟨e, he⟩ := exists_answer_eq_error (d := d) hdecl hreloc
      rw [he]
      exact .refused hdecl hreloc

/-! ## Sound drafts -/

omit [Ranked κ]

/-- **A sound draft** has one row for each name, and all its regions are proper. -/
structure Sound (d : Draft κ) : Prop where
  distinct : d.primaries.Distinct
  proper : ∀ row ∈ d.primaries.rows, row.2.span.Proper
  distinct_aside : d.duplicates.Distinct
  aside : ∀ row ∈ d.duplicates.rows, row.2 ≠ [] ∧ ∀ x ∈ row.2, x.span.Proper

theorem sound_empty : (Draft.empty : Draft κ).Sound :=
  ⟨Register.distinct_empty, fun _ h => absurd h List.not_mem_nil, Register.distinct_empty,
    fun _ h => absurd h List.not_mem_nil⟩

namespace Sound

theorem proper_of_find? (h : d.Sound) {name : String} {primary : Declaration κ}
    (hfind : d.primaries.find? name = some primary) : primary.span.Proper :=
  h.proper _ ((Register.find?_eq_some_iff h.distinct).mp hfind)

theorem promote (h : d.Sound) (name : String) {decl : Declaration κ} (hproper : decl.span.Proper) :
    (d.promote name decl).Sound :=
  ⟨h.distinct.alter name _,
    Register.forall_rows_alter h.proper hproper fun _ _ => hproper,
    h.distinct_aside, h.aside⟩

theorem divert (h : d.Sound) (name : String) {decl : Declaration κ} (hproper : decl.span.Proper) :
    (d.divert name decl).Sound :=
  ⟨h.distinct, h.proper, h.distinct_aside.alter name _, Register.forall_rows_push h.aside hproper⟩

theorem submit [Ranked κ] (h : d.Sound) (r : Request κ) : (d.submit r).Sound := by
  have ho := d.outcome_submit r
  generalize d.submit r = d' at ho
  cases ho with
  | refused _ _ => exact h
  | nowhere _ _ => exact h
  | relocated hreloc _ => exact h.promote _ (Request.proper_of_relocated? hreloc).1
  | first hdecl _ => exact h.promote _ (Request.proper_of_declared? hdecl)
  | displaced hdecl hfind _ =>
    exact (h.promote _ (Request.proper_of_declared? hdecl)).divert _ (h.proper_of_find? hfind)
  | setAside hdecl _ _ => exact h.divert _ (Request.proper_of_declared? hdecl)

end Sound

/-- **A draft is sound after every sequence of requests.** -/
theorem sound_submitAll [Ranked κ] (requests : List (Request κ)) :
    ((Draft.empty : Draft κ).submitAll requests).Sound := by
  unfold submitAll
  suffices h : ∀ d : Draft κ, d.Sound → (requests.foldl Draft.submit d).Sound from
    h _ sound_empty
  induction requests with
  | nil => exact fun _ h => h
  | cons r requests ih => exact fun d h => ih _ (h.submit r)

/-! ## Freezing -/

/-- The primary declarations, by name. -/
def sortedPrimaries (d : Draft κ) : List (String × Declaration κ) :=
  d.primaries.rows.mergeSort fun a b => a.1 ≤ b.1

theorem mem_sortedPrimaries {row : String × Declaration κ} :
    row ∈ d.sortedPrimaries ↔ row ∈ d.primaries.rows :=
  (List.mergeSort_perm _ _).mem_iff

theorem Sound.pairwise_sortedPrimaries (h : d.Sound) :
    d.sortedPrimaries.Pairwise fun p q => p.1 < q.1 :=
  pairwise_lt_mergeSort (fun _ _ => decide_eq_true_iff) h.distinct

namespace Sound

theorem freeze_wellFormed (h : d.Sound) : d.freeze.WellFormed :=
  wellFormed_ofPrimaries h.pairwise_sortedPrimaries
    (fun p hp => h.proper p (mem_sortedPrimaries.mp hp)) h.distinct_aside h.aside

theorem mem_names_freeze {name : String} : name ∈ d.freeze.names ↔ name ∈ d.primaries.names := by
  show name ∈ (ofPrimaries d.sortedPrimaries d.duplicates).names ↔ _
  rw [names_ofPrimaries]
  exact ((List.mergeSort_perm _ _).map _).mem_iff

/-- **A frozen draft answers with what the draft holds**, whether ends are stored or implied. -/
theorem find?_freeze (h : d.Sound) (name : String) :
    (d.freeze.find? name).map Entry.declaration = d.primaries.find? name := by
  cases hfind : d.freeze.find? name with
  | none =>
    have hname := h.freeze_wellFormed.find?_eq_none_iff.mp hfind
    rw [mem_names_freeze] at hname
    exact (Register.find?_eq_none_iff.mpr hname).symm
  | some e =>
    obtain ⟨he, rfl⟩ := h.freeze_wellFormed.find?_eq_some_iff.mp hfind
    have hrow := (entry?_ofPrimaries_eq_some_iff.mp he).1
    exact ((Register.find?_eq_some_iff h.distinct).mpr
      (mem_sortedPrimaries.mp (List.mem_of_getElem? hrow))).symm

end Sound

end Gazetteer.Directory.Draft
