import Gazetteer.Proofs.CrossReference.Drafting

/-!
# Recording uses in place

`Draft.add` gives a new draft or an error, and with an error there is no draft that could be half
written. A draft that is written to in place offers no such protection: a resolved use is first
appended to the sites, and only then is its edge asked for, so a refused edge would leave a site
behind without it. `record` writes in place, step by step, and keeps whatever was written when a
step is refused.

Nothing is ever left behind. Containers are found through a directory of bodies that may have
nothing to do with the names and may be exchanged at any time, but they are ordinals of the names,
and the graph has a node for each of them (`Keeps`). So the second step is never refused, and
recording in place is `Draft.add` (`Keeps.record_eq`).

* `run_writeResolved`, `run_writeUnresolved`: what is written before each step that may be refused.
* `Keeps.after`, `Keeps.afterAll`: one request more, and every run.
* `record_atomic`: a use is refused by its forest or not at all, and every site has its edge, in
  every draft that can be reached.
-/

namespace Gazetteer.CrossReference

/-- The ordinal that a resolved use leads to. -/
def Outcome.target? : Outcome → Option Nat
  | resolved target _ => some target
  | unresolved _ => none

namespace Draft

variable {κ : Type} {d d' : Draft κ} {u : Use κ}

/-- A computation that writes to a draft. What it wrote before an error stays written. -/
abbrev InPlace (κ : Type) := ExceptT Error (StateM (Draft κ))

/-- Appends a resolved use to the sites, then asks for its edge. -/
def writeResolved (target : Nat) (span : Span) : InPlace κ Outcome := do
  let container := (← get).containerAt? span.start
  let sites ← (← get).sites.add (some target) span
  modify fun d => { d with sites }
  let graph ← (← get).link container target
  modify fun d => { d with graph }
  return .resolved target container

/-- Appends an unresolved use. -/
def writeUnresolved (u : Use κ) : InPlace κ Outcome := do
  let d ← get
  let unresolved ← d.unresolved.add (some (d.asUnresolved u)) u.span
  modify fun d => { d with unresolved }
  return .unresolved d.unresolved.size

/-- Records a use in place. -/
def write (u : Use κ) : InPlace κ Outcome := do
  match (← get).names.indexOf? u.name with
  | some target => writeResolved target u.span
  | none => writeUnresolved u

/-- What became of a use that is recorded in place, and the draft afterwards. -/
def record (d : Draft κ) (u : Use κ) : Except Error Outcome × Draft κ := (write u).run.run d

/-! ## Step by step -/

/-- A step that may be refused, and what follows it. -/
theorem run_bind_lift {α β : Type} (x : Except Error α) (next : α → InPlace κ β) (d : Draft κ) :
    ((liftM x : InPlace κ α) >>= next).run.run d =
      match x with
      | .error e => (.error e, d)
      | .ok a => (next a).run.run d := by
  cases x <;> rfl

theorem run_get_bind {β : Type} (next : Draft κ → InPlace κ β) (d : Draft κ) :
    ((get : InPlace κ (Draft κ)) >>= next).run.run d = (next d).run.run d :=
  rfl

theorem run_modify_bind {β : Type} (f : Draft κ → Draft κ) (next : PUnit → InPlace κ β)
    (d : Draft κ) : ((modify f : InPlace κ PUnit) >>= next).run.run d = (next ⟨⟩).run.run (f d) :=
  rfl

theorem run_writeResolved (d : Draft κ) (target : Nat) (span : Span) :
    (writeResolved target span).run.run d =
      match d.sites.add (some target) span with
      | .error e => (.error e, d)
      | .ok sites =>
        match d.link (d.containerAt? span.start) target with
        | .error e => (.error e, { d with sites })
        | .ok graph =>
          (.ok (.resolved target (d.containerAt? span.start)), { d with sites, graph }) := by
  rw [writeResolved, run_get_bind, run_get_bind, run_bind_lift]
  cases d.sites.add (some target) span with
  | error e => rfl
  | ok sites =>
    -- from here on a refusal leaves the site behind
    have hlink : { d with sites }.link (d.containerAt? span.start) target =
        d.link (d.containerAt? span.start) target := rfl
    simp only [run_modify_bind, run_get_bind, run_bind_lift, hlink]
    cases d.link (d.containerAt? span.start) target <;> rfl

theorem run_writeUnresolved (d : Draft κ) (u : Use κ) :
    (writeUnresolved u).run.run d =
      match d.unresolved.add (some (d.asUnresolved u)) u.span with
      | .error e => (.error e, d)
      | .ok unresolved => (.ok (.unresolved d.unresolved.size), { d with unresolved }) := by
  rw [writeUnresolved, run_get_bind, run_bind_lift]
  cases d.unresolved.add (some (d.asUnresolved u)) u.span <;> rfl

theorem record_eq_run (d : Draft κ) (u : Use κ) :
    d.record u = (match d.names.indexOf? u.name with
      | some target => writeResolved target u.span
      | none => writeUnresolved u).run.run d :=
  rfl

/-- What `add` makes of a use, as a draft that is there in any case. -/
theorem record_eq_add (h : d.names.WellFormed) (hsize : d.graph.size = d.names.size) (u : Use κ) :
    d.record u =
      match d.add u.name u.expected u.span with
      | .ok (outcome, d') => (.ok outcome, d')
      | .error e => (.error e, d) := by
  rw [record_eq_run]
  cases hindex : d.names.indexOf? u.name with
  | none =>
    rw [add_of_undeclared hindex]
    refine (run_writeUnresolved d u).trans ?_
    cases d.unresolved.add (some (d.asUnresolved u)) u.span <;> rfl
  | some target =>
    rw [add_of_indexOf? h hsize hindex]
    refine (run_writeResolved d target u.span).trans ?_
    rw [link_of_indexOf? h hsize hindex]
    cases d.sites.add (some target) u.span <;> rfl

/-! ## Drafts that can be reached -/

/-- What a draft can be asked for. -/
inductive Request (κ : Type) where
  /-- To record a use. -/
  | record (u : Use κ)
  /-- To look for containers among other bodies from now on. -/
  | withBodies (bodies : Directory κ)

/-- The draft after a request, whether it was refused or not. -/
def after (d : Draft κ) : Request κ → Draft κ
  | .record u => (d.record u).2
  | .withBodies bodies => { d with bodies := some bodies }

/-- The draft after requests, one after the other. -/
def afterAll (d : Draft κ) (requests : List (Request κ)) : Draft κ := requests.foldl after d

/-- What became of a request, if it was to record a use and was not refused. -/
def outcome? (d : Draft κ) : Request κ → Option Outcome
  | .record u => (d.record u).1.toOption
  | .withBodies _ => none

/-- What became of the uses that were recorded, in order. -/
def outcomes (d : Draft κ) : List (Request κ) → List Outcome
  | [] => []
  | request :: later => (d.outcome? request).toList ++ (d.after request).outcomes later

/-- **The draft has kept `outcomes`**: every site leads to the target of one of them, in order, and
there is an edge for each that has a container, and no other. -/
structure Keeps (d : Draft κ) (names : Directory κ) (outcomes : List Outcome) : Prop where
  names_eq : d.names = names
  wellFormed : d.names.WellFormed
  sites_inv : d.sites.Inv
  unresolved_inv : d.unresolved.Inv
  keys_eq : d.sites.freeze.entries.map (·.1) = (outcomes.filterMap Outcome.target?).map some
  holds : d.graph.Holds d.names.size fun c t => .resolved t (some c) ∈ outcomes

theorem keeps_start {names : Directory κ} (h : names.WellFormed) :
    (start names none).Keeps names [] := by
  refine ⟨rfl, h, Forest.Draft.inv_empty, Forest.Draft.inv_empty, rfl, ?_⟩
  exact (records_start none h).holds.congr fun c t => by simp

namespace Keeps

variable {names : Directory κ} {outcomes : List Outcome}

/-- **Recording in place is adding**: the edge of a use is never refused. -/
theorem record_eq (h : d.Keeps names outcomes) (u : Use κ) :
    d.record u =
      match d.add u.name u.expected u.span with
      | .ok (outcome, d') => (.ok outcome, d')
      | .error e => (.error e, d) :=
  record_eq_add h.wellFormed h.holds.size_eq u

/-- A refused use leaves the draft as it was. -/
theorem record_snd_of_error (h : d.Keeps names outcomes) {e : Error}
    (he : (d.record u).1 = .error e) : (d.record u).2 = d := by
  rw [h.record_eq] at he ⊢
  cases hadd : d.add u.name u.expected u.span with
  | error e => rfl
  | ok answer =>
    rw [hadd] at he
    exact absurd he (by simp)

theorem add_of_record_eq_ok (h : d.Keeps names outcomes) {outcome : Outcome}
    (hok : (d.record u).1 = .ok outcome) :
    d.add u.name u.expected u.span = .ok (outcome, (d.record u).2) := by
  rw [h.record_eq] at hok ⊢
  cases hadd : d.add u.name u.expected u.span with
  | error e =>
    rw [hadd] at hok
    exact absurd hok (by simp)
  | ok answer =>
    rw [hadd] at hok
    rw [← Except.ok.inj hok]

/-- **One use more.** -/
theorem add (h : d.Keeps names outcomes) {outcome : Outcome}
    (hadd : d.add u.name u.expected u.span = .ok (outcome, d')) :
    d'.Keeps names (outcomes ++ [outcome]) := by
  rcases add_cases h.wellFormed h.holds.size_eq hadd with
    ⟨target, hindex, hnone, rfl, rfl⟩ | ⟨-, hnone, rfl, rfl⟩
  · refine ⟨h.names_eq, h.wellFormed, h.sites_inv.push_of_objection?_eq_none _ hnone,
      h.unresolved_inv, ?_, ?_⟩
    · rw [Forest.Draft.entries_freeze_push, List.map_append, h.keys_eq, List.filterMap_append,
        List.map_append]
      rfl
    · refine (holds_linked h.holds (fun c hc => containerAt?_lt h.wellFormed hc)
        (indexOf?_lt h.wellFormed hindex)).congr fun c t => ?_
      rw [List.mem_append, List.mem_singleton, Outcome.resolved.injEq, and_comm,
        eq_comm (a := some c)]
  · refine ⟨h.names_eq, h.wellFormed, h.sites_inv,
      h.unresolved_inv.push_of_objection?_eq_none _ hnone, ?_, h.holds.congr fun c t => ?_⟩
    · rw [h.keys_eq, List.filterMap_append]
      simp [Outcome.target?]
    · simp

/-- **One request more**, whatever becomes of it. -/
theorem after (h : d.Keeps names outcomes) (request : Request κ) :
    (d.after request).Keeps names (outcomes ++ (d.outcome? request).toList) := by
  cases request with
  | withBodies bodies =>
    rw [outcome?, Option.toList_none, List.append_nil]
    exact ⟨h.names_eq, h.wellFormed, h.sites_inv, h.unresolved_inv, h.keys_eq, h.holds⟩
  | record u =>
    rw [outcome?, Draft.after]
    cases hanswer : (d.record u).1 with
    | error e =>
      rw [h.record_snd_of_error hanswer, Except.toOption, Option.toList_none, List.append_nil]
      exact h
    | ok outcome => exact h.add (h.add_of_record_eq_ok hanswer)

/-- **Every run.** -/
theorem afterAll (h : d.Keeps names outcomes) (requests : List (Request κ)) :
    (d.afterAll requests).Keeps names (outcomes ++ d.outcomes requests) := by
  induction requests generalizing d outcomes with
  | nil => rwa [Draft.outcomes, List.append_nil]
  | cons request later ih =>
    have hrest := ih (h.after request)
    rwa [List.append_assoc] at hrest

/-- **A use is refused by its forest or not at all.** -/
theorem record_eq_error_iff (h : d.Keeps names outcomes) (u : Use κ) (e : Error) :
    (d.record u).1 = .error e ↔
      if names.contains u.name then d.sites.Refuses u.span e
      else d.unresolved.Refuses u.span e := by
  have hadd : (d.record u).1 = .error e ↔ d.add u.name u.expected u.span = .error e := by
    rw [h.record_eq]
    cases d.add u.name u.expected u.span <;> simp
  rw [hadd, ← h.names_eq, Directory.contains]
  cases hindex : d.names.indexOf? u.name with
  | some target =>
    have hsites : d.sites.add (some target) u.span = .error e ↔ d.sites.Refuses u.span e :=
      h.sites_inv.add_eq_error_iff
    rw [add_of_indexOf? h.wellFormed h.holds.size_eq hindex, Option.isSome_some, if_pos rfl,
      ← hsites]
    cases d.sites.add (some target) u.span <;> simp [Except.map]
  | none =>
    have hunresolved : d.unresolved.add (some (d.asUnresolved u)) u.span = .error e ↔
        d.unresolved.Refuses u.span e := h.unresolved_inv.add_eq_error_iff
    rw [add_of_undeclared hindex, Option.isSome_none, if_neg (by simp), ← hunresolved]
    cases d.unresolved.add (some (d.asUnresolved u)) u.span <;> simp [Except.map]

/-- Both ends of the edge of a use are nodes. -/
theorem ends_lt (h : d.Keeps names outcomes) {name : String} {target : Nat}
    (ht : names.indexOf? name = some target) (pos : Offset) :
    target < d.graph.size ∧ ∀ c, d.containerAt? pos = some c → c < d.graph.size := by
  rw [← h.names_eq] at ht
  rw [h.holds.size_eq]
  exact ⟨indexOf?_lt h.wellFormed ht, fun c hc => containerAt?_lt h.wellFormed hc⟩

/-- What a use that is not refused is answered with. -/
theorem outcome_of_record_eq_ok (h : d.Keeps names outcomes) {outcome : Outcome}
    (hok : (d.record u).1 = .ok outcome) :
    outcome = (names.indexOf? u.name).elim (.unresolved d.unresolved.size) fun t =>
      .resolved t (d.containerAt? u.span.start) := by
  rw [← h.names_eq]
  rcases add_cases h.wellFormed h.holds.size_eq (h.add_of_record_eq_ok hok) with
    ⟨target, hindex, -, rfl, -⟩ | ⟨hindex, -, rfl, -⟩
  · rw [hindex, Option.elim_some]
  · rw [hindex, Option.elim_none]

end Keeps

variable [Ranked κ]

/-- **A use is recorded as a whole or not at all**, in every draft that can be reached, whatever was
refused on the way and whichever bodies were given. It is refused iff the forest it belongs to
refuses its span, with the error of the forest, and then the draft is what it was before. The edge
of a use is between two nodes, so the graph takes it, also after the site has been appended. The
sites lead to the targets of the uses that were not refused, and the edges are those from their
containers to their targets: no site is without its edge. -/
theorem record_atomic {names : Directory κ} (hnames : names.Obtainable)
    (requests : List (Request κ)) (u : Use κ) :
    let d := (start names none).afterAll requests
    let log := (start names none).outcomes requests
    (∀ e, (d.record u).1 = .error e ↔
      if names.contains u.name then d.sites.Refuses u.span e
      else d.unresolved.Refuses u.span e) ∧
    (∀ target e, d.sites.add target u.span = .error e ↔ d.sites.Refuses u.span e) ∧
    (∀ use e, d.unresolved.add use u.span = .error e ↔ d.unresolved.Refuses u.span e) ∧
    (∀ e, (d.record u).1 = .error e → (d.record u).2 = d) ∧
    (∀ outcome, (d.record u).1 = .ok outcome →
      outcome = (names.indexOf? u.name).elim (.unresolved d.unresolved.size) fun t =>
        .resolved t (d.containerAt? u.span.start)) ∧
    d.record u = (match d.add u.name u.expected u.span with
      | .ok (outcome, d') => (.ok outcome, d')
      | .error e => (.error e, d)) ∧
    (∀ t, names.indexOf? u.name = some t →
      t < d.graph.size ∧ ∀ c, d.containerAt? u.span.start = some c →
        c < d.graph.size ∧ ∃ added graph, d.graph.addEdge c t = .ok (added, graph)) ∧
    d.sites.freeze.entries.map (·.1) = (log.filterMap Outcome.target?).map some ∧
    ∀ c t, d.graph.containsEdge c t = true ↔ .resolved t (some c) ∈ log := by
  intro d log
  have h : d.Keeps names log := (keeps_start hnames.wellFormed).afterAll requests
  refine ⟨h.record_eq_error_iff u, fun target e => h.sites_inv.add_eq_error_iff,
    fun use e => h.unresolved_inv.add_eq_error_iff, fun e => h.record_snd_of_error,
    fun outcome => h.outcome_of_record_eq_ok, h.record_eq u, fun t ht => ?_, h.keys_eq,
    fun c t => h.holds.containsEdge_iff⟩
  obtain ⟨htarget, hcontainer⟩ := h.ends_lt ht u.span.start
  refine ⟨htarget, fun c hc => ⟨hcontainer c hc, ?_⟩⟩
  obtain ⟨added, hadd⟩ := Digraph.exists_addEdge_eq_ok (hcontainer c hc) htarget
  exact ⟨added, _, hadd⟩

theorem record_atomic_bodies_exchanged :
    ∃ (names : Directory Kind) (requests : List (Request Kind)) (u : Use Kind),
      names.Obtainable ∧
      let d := (start names none).afterAll requests
      let log := (start names none).outcomes requests
      log = [.resolved 0 none, .unresolved 0, .resolved 1 none, .resolved 0 (some 1)] ∧
      (d.record u).1 = .error (.outOfOrder ⟨17, 19⟩ ⟨16, 18⟩ .straddlesEnclosing) ∧
      (d.record u).2 = d ∧
      d.sites.freeze.entries.map (·.1) = (log.filterMap Outcome.target?).map some ∧
      ∀ c t, d.graph.containsEdge c t = true ↔ .resolved t (some c) ∈ log := by
  -- the first bodies are of a name that is not declared, the second of a declared one
  let declarations : List (Directory.Draft.Request Kind) :=
    [.add "F" ⟨.parserRule, ⟨0, 3⟩⟩, .add "B" ⟨.parserRule, ⟨20, 23⟩⟩]
  let names : Directory Kind := (Directory.Draft.empty.submitAll declarations).freeze
  let foreign : Directory Kind :=
    (Directory.Draft.empty.submitAll [.add "Z" ⟨.parserRule, ⟨0, 40⟩⟩]).freeze
  let bodies : Directory Kind :=
    (Directory.Draft.empty.submitAll [.add "F" ⟨.parserRule, ⟨15, 40⟩⟩]).freeze
  let requests : List (Request Kind) :=
    [.record ⟨"B", none, ⟨3, 6⟩⟩, .record ⟨"F", none, ⟨1, 2⟩⟩,
      .record ⟨"Q", some .lexerRule, ⟨2, 5⟩⟩, .withBodies foreign, .record ⟨"F", none, ⟨4, 5⟩⟩,
      .record ⟨"Q", none, ⟨4, 4⟩⟩, .withBodies bodies, .record ⟨"B", none, ⟨16, 18⟩⟩]
  have hobtainable : names.Obtainable := Directory.Obtainable.drafted declarations
  obtain ⟨-, -, -, hrefused, -, -, -, hsites, hedges⟩ :=
    record_atomic hobtainable requests ⟨"B", none, ⟨17, 19⟩⟩
  have herror : (((start names none).afterAll requests).record ⟨"B", none, ⟨17, 19⟩⟩).1 =
      .error (.outOfOrder ⟨17, 19⟩ ⟨16, 18⟩ .straddlesEnclosing) := by cbv
  exact ⟨names, requests, _, hobtainable, by cbv, herror, hrefused _ herror, hsites, hedges⟩

end Draft

end Gazetteer.CrossReference
