import Gazetteer.CrossReference.Draft
import Gazetteer.CrossReference.Query
import Gazetteer.Proofs.Digraph.Drafting
import Gazetteer.Proofs.Directory.Obtainable
import Gazetteer.Proofs.Forest.Entries
import Mathlib

/-!
# What a cross reference records

A draft writes to two forests and a graph, and a table by target is made at the end. `Records` says
that all of them are functions of one list, the uses that were accepted, in order. A step adds one
use to the list or leaves everything as it was (`Records.add`), so this holds after every run
(`Records.offerAll`).

* `add_of_indexOf?`, `add_of_undeclared`: a use is refused by its forest or not at all. The graph
  has nothing to object, as a container is an ordinal of the names, also when it was found through
  another directory.
* `add_cases`: what an accepted use changes.
* `getElem?_gatherTargets`: the table has each site under the ordinal it leads to.
* `freeze_offerAll_records`: what the cross reference answers, in terms of the accepted uses.
-/

namespace Gazetteer

variable {κ : Type}

namespace Directory

theorem entry?_of_innermost? {d : Directory κ} {pos : Offset} {e : Entry κ}
    (h : d.innermost? pos = some e) : d.entry? e.ordinal = some e := by
  obtain ⟨i, -, he⟩ := Option.bind_eq_some_iff.mp h
  rwa [(entry?_eq_some he).1]

end Directory

theorem exists_mem_concat {α : Type} {p : α → Prop} {xs : List α} {x : α} :
    (∃ y ∈ xs ++ [x], p y) ↔ (∃ y ∈ xs, p y) ∨ p x := by
  simp [or_and_right, exists_or]

namespace CrossReference

/-- A use of a name, as it is handed to a draft. -/
structure Use (κ : Type) where
  /-- The name used. -/
  name : String
  /-- The kind that the place of use calls for, if it is known. -/
  expected : Option κ
  /-- The text of the use. -/
  span : Span

/-- The uses of declared names. -/
def declared (names : Directory κ) (uses : List (Use κ)) : List (Use κ) :=
  uses.filter fun u => names.contains u.name

/-- The uses of names that are not declared. -/
def undeclared (names : Directory κ) (uses : List (Use κ)) : List (Use κ) :=
  uses.filter fun u => !names.contains u.name

namespace Draft

variable {d d' : Draft κ} {uses : List (Use κ)} {u : Use κ}

/-- Hands a use to the draft; a refusal leaves the draft as it is. -/
def offer (d : Draft κ) (u : Use κ) : Draft κ :=
  match d.add u.name u.expected u.span with
  | .ok (_, d') => d'
  | .error _ => d

/-- Hands uses to the draft, one after the other. -/
def offerAll (d : Draft κ) (calls : List (Use κ)) : Draft κ := calls.foldl offer d

/-- The uses that are accepted, in the order of the calls. -/
def accepted (d : Draft κ) : List (Use κ) → List (Use κ)
  | [] => []
  | u :: later =>
    match d.add u.name u.expected u.span with
    | .ok (_, d') => u :: d'.accepted later
    | .error _ => d.accepted later

/-! ## Containers -/

section Containers

variable (h : d.names.WellFormed)

include h

/-- **The container of a position**: the declared name of the innermost body around it. Without
bodies these are the regions of the names themselves. -/
theorem containerAt?_eq_some_iff {pos : Offset} {c : Nat} :
    d.containerAt? pos = some c ↔
      ∃ body, (d.bodies.getD d.names).innermost? pos = some body ∧
        d.names.names[c]? = some body.name := by
  unfold containerAt?
  cases d.bodies with
  | some bodies =>
    rw [Option.bind_eq_some_iff]
    simp only [h.indexOf?_eq_some_iff, Option.getD_some]
  | none =>
    rw [Option.map_eq_some_iff]
    refine exists_congr fun body => and_congr_right fun hbody => ?_
    have hname := (Directory.entry?_eq_some (Directory.entry?_of_innermost? hbody)).2
    constructor
    · rintro rfl
      exact hname
    · intro hc
      rw [← h.indexOf?_eq_some_iff] at hname hc
      exact Option.some.inj (hname.symm.trans hc)

theorem containerAt?_lt {pos : Offset} {c : Nat} (hc : d.containerAt? pos = some c) :
    c < d.names.size := by
  obtain ⟨body, -, hname⟩ := (containerAt?_eq_some_iff h).mp hc
  rw [← d.names.length_names]
  exact (List.getElem?_eq_some_iff.mp hname).1

theorem indexOf?_lt {name : String} {t : Nat} (ht : d.names.indexOf? name = some t) :
    t < d.names.size := by
  rw [← d.names.length_names]
  exact (List.getElem?_eq_some_iff.mp (h.indexOf?_eq_some_iff.mp ht)).1

end Containers

/-! ## Edges -/

/-- The graph with the edge of a use. -/
def linked (g : Digraph) (container : Option Nat) (target : Nat) : Digraph :=
  match container with
  | some source => g.offerEdge (source, target)
  | none => g

theorem link_eq_ok {container : Option Nat} {target : Nat}
    (hcontainer : ∀ c, container = some c → c < d.graph.size) (htarget : target < d.graph.size) :
    d.link container target = .ok (linked d.graph container target) := by
  cases container with
  | none => rfl
  | some c =>
    obtain ⟨added, hadd⟩ := Digraph.exists_addEdge_eq_ok (hcontainer c rfl) htarget
    rw [link, hadd]
    rfl

theorem holds_linked {g : Digraph} {n : Nat} {E : Nat → Nat → Prop} {container : Option Nat}
    {target : Nat} (h : g.Holds n E) (hcontainer : ∀ c, container = some c → c < n)
    (htarget : target < n) :
    (linked g container target).Holds n fun c t => E c t ∨ container = some c ∧ t = target := by
  cases container with
  | none => exact h.congr fun c t => by simp
  | some source =>
    refine (h.offerEdge (source, target)).congr fun c t => or_congr_right ?_
    simp only [Digraph.Accepted, List.mem_singleton, Prod.mk.injEq, Option.some.injEq]
    constructor
    · rintro ⟨⟨rfl, rfl⟩, -⟩
      exact ⟨rfl, rfl⟩
    · rintro ⟨rfl, rfl⟩
      exact ⟨⟨rfl, rfl⟩, hcontainer _ rfl, htarget⟩

/-! ## One use -/

theorem add_of_target {target : Nat} (ht : d.names.indexOf? u.name = some target) :
    d.add u.name u.expected u.span =
      (d.sites.add (some target) u.span).bind fun sites =>
        (d.link (d.containerAt? u.span.start) target).map fun graph =>
          (.resolved target (d.containerAt? u.span.start), { d with sites, graph }) := by
  rw [add, ht]
  rfl

/-- The edge of a use is never refused. -/
theorem link_of_indexOf? (h : d.names.WellFormed) (hsize : d.graph.size = d.names.size)
    {name : String} {target : Nat} (ht : d.names.indexOf? name = some target) (pos : Offset) :
    d.link (d.containerAt? pos) target = .ok (linked d.graph (d.containerAt? pos) target) :=
  link_eq_ok (fun _ hc => hsize.symm ▸ containerAt?_lt h hc) (hsize.symm ▸ indexOf?_lt h ht)

/-- **A use of a declared name is refused by its forest or not at all.** -/
theorem add_of_indexOf? (h : d.names.WellFormed) (hsize : d.graph.size = d.names.size)
    {target : Nat} (ht : d.names.indexOf? u.name = some target) :
    d.add u.name u.expected u.span =
      (d.sites.add (some target) u.span).map fun sites =>
        (.resolved target (d.containerAt? u.span.start),
          { d with sites, graph := linked d.graph (d.containerAt? u.span.start) target }) := by
  rw [add_of_target ht, link_of_indexOf? h hsize ht]
  cases d.sites.add (some target) u.span <;> rfl

/-- What is recorded of a use of a name that is not declared. -/
def asUnresolved (d : Draft κ) (u : Use κ) : Unresolved κ :=
  ⟨u.name, u.expected, d.unresolved.size, d.containerAt? u.span.start⟩

theorem add_of_undeclared (hnone : d.names.indexOf? u.name = none) :
    d.add u.name u.expected u.span =
      (d.unresolved.add (some (d.asUnresolved u)) u.span).map fun unresolved =>
        (.unresolved d.unresolved.size, { d with unresolved }) := by
  rw [add, hnone]
  simp only [addUnresolved]
  show (do let unresolved ← d.unresolved.add (some (d.asUnresolved u)) u.span; _) = _
  cases d.unresolved.add (some (d.asUnresolved u)) u.span <;> rfl

/-- **What an accepted use changes**: one row more in one forest, and an edge if it is resolved and
has a container. -/
theorem add_cases (h : d.names.WellFormed) (hsize : d.graph.size = d.names.size)
    {outcome : Outcome} (hadd : d.add u.name u.expected u.span = .ok (outcome, d')) :
    (∃ target, d.names.indexOf? u.name = some target ∧ d.sites.objection? u.span = none ∧
      outcome = .resolved target (d.containerAt? u.span.start) ∧
      d' = { d with
        sites := d.sites.push (some target) u.span
        graph := linked d.graph (d.containerAt? u.span.start) target }) ∨
    (d.names.indexOf? u.name = none ∧ d.unresolved.objection? u.span = none ∧
      outcome = .unresolved d.unresolved.size ∧
      d' = { d with unresolved := d.unresolved.push (some (d.asUnresolved u)) u.span }) := by
  cases hindex : d.names.indexOf? u.name with
  | some target =>
    rw [add_of_indexOf? h hsize hindex] at hadd
    obtain ⟨sites, hsites, heq⟩ := map_eq_ok_iff.mp hadd
    obtain ⟨hnone, rfl⟩ := Forest.Draft.add_eq_ok_iff.mp hsites
    obtain ⟨rfl, rfl⟩ := Prod.mk.inj heq
    exact Or.inl ⟨target, rfl, hnone, rfl, rfl⟩
  | none =>
    rw [add_of_undeclared hindex] at hadd
    obtain ⟨unresolved, hunresolved, heq⟩ := map_eq_ok_iff.mp hadd
    obtain ⟨hnone, rfl⟩ := Forest.Draft.add_eq_ok_iff.mp hunresolved
    obtain ⟨rfl, rfl⟩ := Prod.mk.inj heq
    exact Or.inr ⟨rfl, hnone, rfl, rfl⟩

/-! ## Records of the accepted uses -/

/-- **The draft has a record of `uses`**, in both forests and in the graph. -/
structure Records (d : Draft κ) (uses : List (Use κ)) : Prop where
  wellFormed : d.names.WellFormed
  sites_inv : d.sites.Inv
  sites_eq : d.sites.freeze.entries =
    (declared d.names uses).map fun u => (d.names.indexOf? u.name, u.span)
  unresolved_inv : d.unresolved.Inv
  unresolved_eq : d.unresolved.freeze.entries =
    (undeclared d.names uses).mapIdx fun i u =>
      (some ⟨u.name, u.expected, i, d.containerAt? u.span.start⟩, u.span)
  holds : d.graph.Holds d.names.size fun c t =>
    ∃ u ∈ uses, d.names.indexOf? u.name = some t ∧ d.containerAt? u.span.start = some c

theorem records_start {names : Directory κ} (bodies : Option (Directory κ))
    (h : names.WellFormed) : (start names bodies).Records [] := by
  refine ⟨h, Forest.Draft.inv_empty, rfl, Forest.Draft.inv_empty, rfl, ?_⟩
  have hempty : (Digraph.empty names.size).Holds names.size fun _ _ => False :=
    ⟨Represents.empty _, Represents.empty _⟩
  exact hempty.congr fun c t => by simp

namespace Records

/-- The next unresolved use has its own index for its ordinal. -/
theorem size_unresolved (h : d.Records uses) :
    d.unresolved.size = (undeclared d.names uses).length := by
  have hlength := congrArg List.length h.unresolved_eq
  rwa [List.length_mapIdx, Forest.length_entries] at hlength

/-- **One use more**: it goes into the forest it belongs to, and if it is resolved and has a
container, into the graph. -/
theorem add (h : d.Records uses) {outcome : Outcome}
    (hadd : d.add u.name u.expected u.span = .ok (outcome, d')) :
    d'.Records (uses ++ [u]) := by
  rcases add_cases h.wellFormed h.holds.size_eq hadd with
    ⟨target, hindex, hnone, -, rfl⟩ | ⟨hindex, hnone, -, rfl⟩
  · have hcontains : d.names.contains u.name = true := by simp [Directory.contains, hindex]
    have hdeclared : declared d.names (uses ++ [u]) = declared d.names uses ++ [u] := by
      simp [declared, hcontains]
    have hundeclared : undeclared d.names (uses ++ [u]) = undeclared d.names uses := by
      simp [undeclared, hcontains]
    refine ⟨h.wellFormed, h.sites_inv.push_of_objection?_eq_none _ hnone, ?_, h.unresolved_inv,
      ?_, ?_⟩
    · show _ = (declared d.names (uses ++ [u])).map _
      rw [Forest.Draft.entries_freeze_push, h.sites_eq, hdeclared, List.map_append, ← hindex]
      rfl
    · show _ = (undeclared d.names (uses ++ [u])).mapIdx _
      rw [hundeclared]
      exact h.unresolved_eq
    · refine (holds_linked h.holds (fun c hc => containerAt?_lt h.wellFormed hc)
        (indexOf?_lt h.wellFormed hindex)).congr fun c t => ?_
      show _ ↔ ∃ v ∈ uses ++ [u],
        d.names.indexOf? v.name = some t ∧ d.containerAt? v.span.start = some c
      rw [exists_mem_concat, hindex, Option.some.injEq, eq_comm (a := target), and_comm]
  · have hcontains : d.names.contains u.name = false := by simp [Directory.contains, hindex]
    have hdeclared : declared d.names (uses ++ [u]) = declared d.names uses := by
      simp [declared, hcontains]
    have hundeclared : undeclared d.names (uses ++ [u]) = undeclared d.names uses ++ [u] := by
      simp [undeclared, hcontains]
    refine ⟨h.wellFormed, h.sites_inv, ?_, h.unresolved_inv.push_of_objection?_eq_none _ hnone, ?_,
      h.holds.congr fun c t => ?_⟩
    · show _ = (declared d.names (uses ++ [u])).map _
      rw [hdeclared]
      exact h.sites_eq
    · show _ = (undeclared d.names (uses ++ [u])).mapIdx _
      rw [Forest.Draft.entries_freeze_push, h.unresolved_eq, hundeclared, List.mapIdx_concat,
        asUnresolved, h.size_unresolved]
      rfl
    · show _ ↔ ∃ v ∈ uses ++ [u],
        d.names.indexOf? v.name = some t ∧ d.containerAt? v.span.start = some c
      rw [exists_mem_concat, hindex]
      simp

/-- An accepted use is answered with its target and container, or with its number. -/
theorem outcome_of_add (h : d.Records uses) (u : Use κ) (outcome : Outcome) (d' : Draft κ)
    (hadd : d.add u.name u.expected u.span = .ok (outcome, d')) :
    outcome = (d.names.indexOf? u.name).elim (.unresolved (undeclared d.names uses).length)
      fun t => .resolved t (d.containerAt? u.span.start) := by
  rcases add_cases h.wellFormed h.holds.size_eq hadd with
    ⟨target, hindex, -, rfl, -⟩ | ⟨hindex, -, rfl, -⟩
  · rw [hindex]
    rfl
  · rw [hindex, h.size_unresolved]
    rfl

/-- **Every run**: whatever was refused on the way, the record is that of the accepted uses. -/
theorem offerAll (h : d.Records uses) (calls : List (Use κ)) :
    (d.offerAll calls).Records (uses ++ d.accepted calls) := by
  induction calls generalizing d uses with
  | nil => rwa [accepted, List.append_nil]
  | cons u later ih =>
    show ((d.offer u).offerAll later).Records _
    rw [offer, accepted]
    cases hadd : d.add u.name u.expected u.span with
    | error e => exact ih h
    | ok answer =>
      have hrest := ih (h.add hadd)
      rwa [List.append_assoc, List.singleton_append] at hrest

end Records

/-- The directories stay what they are. -/
theorem directories_of_add {outcome : Outcome}
    (hadd : d.add u.name u.expected u.span = .ok (outcome, d')) :
    d'.names = d.names ∧ d'.bodies = d.bodies := by
  unfold Draft.add at hadd
  split at hadd
  · obtain ⟨sites, -, hadd⟩ := bind_eq_ok_iff.mp hadd
    obtain ⟨graph, -, hadd⟩ := bind_eq_ok_iff.mp hadd
    obtain ⟨-, rfl⟩ := Prod.mk.inj (Except.ok.inj hadd)
    exact ⟨rfl, rfl⟩
  · obtain ⟨unresolved, -, hadd⟩ := bind_eq_ok_iff.mp hadd
    obtain ⟨-, rfl⟩ := Prod.mk.inj (Except.ok.inj hadd)
    exact ⟨rfl, rfl⟩

theorem directories_offerAll (d : Draft κ) (calls : List (Use κ)) :
    (d.offerAll calls).names = d.names ∧ (d.offerAll calls).bodies = d.bodies := by
  induction calls generalizing d with
  | nil => exact ⟨rfl, rfl⟩
  | cons u later ih =>
    have hstep : (d.offer u).names = d.names ∧ (d.offer u).bodies = d.bodies := by
      unfold offer
      split
      · rename_i hadd
        exact directories_of_add hadd
      · exact ⟨rfl, rfl⟩
    obtain ⟨hnames, hbodies⟩ := ih (d.offer u)
    exact ⟨hnames.trans hstep.1, hbodies.trans hstep.2⟩

/-! ## Sites by target -/

/-- The groups with one site more. -/
def gather (groups : Array (List Nat)) (row : Interval Nat × Nat) : Array (List Nat) :=
  match row.1.key with
  | some target => groups.modify target (· ++ [row.2])
  | none => groups

theorem gatherTargets_eq (count : Nat) (sites : Forest Nat) :
    gatherTargets count sites =
      sites.rows.toList.zipIdx.foldl gather (Array.replicate count []) :=
  rfl

theorem getElem?_gather (groups : Array (List Nat)) (row : Interval Nat × Nat) (t : Nat) :
    (gather groups row)[t]? =
      groups[t]?.map (· ++ if row.1.key = some t then [row.2] else []) := by
  unfold gather
  cases row.1.key with
  | none => simp
  | some target =>
    simp only [Array.getElem?_modify, Option.some.injEq]
    split
    · rfl
    · simp

/-- Gathering adds to each group the places of the sites that lead to it. -/
theorem getElem?_foldl_gather (rows : List (Interval Nat × Nat)) (groups : Array (List Nat))
    (t : Nat) :
    (rows.foldl gather groups)[t]? =
      groups[t]?.map (· ++ (rows.filter fun r => r.1.key = some t).map (·.2)) := by
  induction rows generalizing groups with
  | nil => simp
  | cons row rows ih =>
    rw [List.foldl_cons, ih, getElem?_gather, Option.map_map, List.filter_cons]
    congr 1
    funext group
    by_cases hkey : row.1.key = some t
    · simp [hkey]
    · simp [hkey]

/-- **Each group of the table** lists the sites that lead to it, in order. -/
theorem getElem?_gatherTargets {count t : Nat} (ht : t < count) (sites : Forest Nat) :
    (gatherTargets count sites)[t]? =
      some ((List.range sites.size).filter fun i =>
        (sites.get? i).any fun r => r.key = some t) := by
  have hgroup : (Array.replicate count ([] : List Nat))[t]? = some [] := by simp [ht]
  rw [gatherTargets_eq, getElem?_foldl_gather, hgroup, Option.map_some, List.nil_append,
    map_snd_filter_zipIdx sites.rows.toList fun r => r.key = some t]
  simp [Forest.get?, Forest.size]

/-! ## Asking the cross reference -/

namespace Records

variable (h : d.Records uses)

include h

/-- The site at a place is the use at this place among those of declared names. -/
theorem get?_sites (i : Nat) :
    (d.freeze.sites.get? i).map (fun site => (site.key, site.span)) =
      (declared d.names uses)[i]?.map fun u => (d.names.indexOf? u.name, u.span) := by
  rw [← Forest.entries_getElem?, ← List.getElem?_map, ← h.sites_eq]
  rfl

/-- A site leads to the ordinal of the name that is used there. -/
theorem exists_key_of_lt {i : Nat} (hi : i < d.freeze.sites.size) :
    ∃ site t name, d.freeze.sites.get? i = some site ∧ site.key = some t ∧
      d.names.names[t]? = some name := by
  obtain ⟨site, hsite⟩ : ∃ site, d.freeze.sites.get? i = some site :=
    ⟨_, Array.getElem?_eq_getElem hi⟩
  have huse := h.get?_sites i
  rw [hsite, Option.map_some, eq_comm, Option.map_eq_some_iff] at huse
  obtain ⟨u, hu, heq⟩ := huse
  have hcontains := (List.mem_filter.mp (List.mem_of_getElem? hu)).2
  obtain ⟨t, ht⟩ := Option.isSome_iff_exists.mp hcontains
  refine ⟨site, t, u.name, hsite, ?_, h.wellFormed.indexOf?_eq_some_iff.mp ht⟩
  rw [← (Prod.mk.inj heq).1, ht]

/-- **The sites of a name** are those that lead to its ordinal. -/
theorem sitesOf_eq (name : String) :
    d.freeze.sitesOf name = (List.range d.freeze.sites.size).filter fun i =>
      (d.freeze.sites.get? i).any fun site =>
        site.key.any fun t => d.names.names[t]? = some name := by
  have hkey : ∀ t, d.names.names[t]? = some name ↔ d.names.indexOf? name = some t :=
    fun t => h.wellFormed.indexOf?_eq_some_iff.symm
  simp only [hkey]
  unfold sitesOf
  show ((d.names.indexOf? name).bind fun t => (gatherTargets d.names.size d.freeze.sites)[t]?).getD
    [] = _
  cases hindex : d.names.indexOf? name with
  | none => simp
  | some t =>
    have htest : (fun site : Interval Nat => site.key.any fun t' => some t = some t') =
        fun site => decide (site.key = some t) := by
      funext site
      cases site.key with
      | none => rfl
      | some t' => simp [eq_comm]
    rw [Option.bind_some, getElem?_gatherTargets (indexOf?_lt h.wellFormed hindex),
      Option.getD_some, htest]

/-- Every site is a site of one name. -/
theorem existsUnique_sitesOf {i : Nat} (hi : i < d.freeze.sites.size) :
    ∃! name, i ∈ d.freeze.sitesOf name := by
  obtain ⟨site, t, name, hsite, hkey, hname⟩ := h.exists_key_of_lt hi
  have hmem : ∀ other, i ∈ d.freeze.sitesOf other ↔ name = other := by
    intro other
    rw [h.sitesOf_eq, List.mem_filter, List.mem_range, hsite]
    simp [hkey, hname, hi]
  exact ⟨name, (hmem name).mpr rfl, fun other hother => ((hmem other).mp hother).symm⟩

/-- **What is found at a position** is the declaration of the name of the last use around it. -/
theorem targetAt?_eq (pos : Offset) :
    d.freeze.targetAt? pos =
      ((declared d.names uses).filter fun u => u.span.Contains pos).getLast?.bind fun u =>
        d.names.find? u.name := by
  have hwf : d.freeze.sites.WellFormed := h.sites_inv.wellFormed
  have hentries : d.freeze.sites.entries =
      (declared d.names uses).map fun u => (d.names.indexOf? u.name, u.span) := h.sites_eq
  have hsite : ∀ i, (d.freeze.sites.get? i).bind (fun site => site.key.bind d.names.entry?) =
      (d.freeze.sites.entries[i]?).bind fun x => x.1.bind d.names.entry? := by
    intro i
    rw [Forest.entries_getElem?, Option.bind_map]
    rfl
  calc d.freeze.targetAt? pos
      = (d.freeze.sites.innermost? pos).bind fun i =>
          (d.freeze.sites.get? i).bind fun site => site.key.bind d.names.entry? := rfl
    _ = ((d.freeze.sites.innermost? pos).bind (d.freeze.sites.entries[·]?)).bind fun x =>
          x.1.bind d.names.entry? := by
        rw [Option.bind_assoc]
        exact congrArg _ (funext hsite)
    _ = (d.freeze.sites.entries.filter fun x => x.2.Contains pos).getLast?.bind fun x =>
          x.1.bind d.names.entry? := by rw [hwf.getLast?_entries]
    _ = _ := by
        rw [hentries, List.filter_map, List.getLast?_map, Option.bind_map]
        rfl

/-- There is one for every use of a declared name. -/
theorem name_targetAt? (pos : Offset) :
    (d.freeze.targetAt? pos).map (·.name) =
        ((declared d.names uses).filter fun u => u.span.Contains pos).getLast?.map (·.name) ∧
      ∀ e, d.freeze.targetAt? pos = some e → e ∈ d.names.entries := by
  rw [h.targetAt?_eq]
  cases hlast : ((declared d.names uses).filter fun u => u.span.Contains pos).getLast? with
  | none => exact ⟨rfl, fun e he => absurd he (by simp)⟩
  | some u =>
    have hmem := List.mem_of_mem_filter (List.mem_of_getLast? hlast)
    have hdeclared := h.wellFormed.contains_iff.mp (List.mem_filter.mp hmem).2
    obtain ⟨e, he, hfind, hname⟩ := h.wellFormed.exists_find?_of_mem hdeclared
    rw [Option.bind_some, hfind]
    exact ⟨congrArg some hname, fun e' he' => Option.some.inj he' ▸ he⟩

end Records

/-! ## Every run -/

/-- Refused uses leave no trace. -/
theorem offerAll_accepted (d : Draft κ) (calls : List (Use κ)) :
    d.offerAll (d.accepted calls) = d.offerAll calls := by
  induction calls generalizing d with
  | nil => rfl
  | cons u later ih =>
    have hoffer : d.offerAll (u :: later) = (d.offer u).offerAll later := rfl
    rw [hoffer, accepted, offer]
    cases hadd : d.add u.name u.expected u.span with
    | error e => exact ih d
    | ok answer =>
      show (d.offer u).offerAll (answer.2.accepted later) = _
      rw [offer, hadd]
      exact ih answer.2

variable [Ranked κ]

/-- **What a cross reference answers, in terms of the accepted uses.** The container of a position
is the declared name of the innermost body around it. An accepted use is answered with its target
and its container, or with its number among the unresolved ones. There is an edge iff an accepted
use leads from its container to its target. Both forests list the accepted uses in order. Each
resolved site is listed under one name, the one used there, and a position leads to the declaration
named by the last resolved use around it. Refused uses leave no trace. -/
theorem freeze_offerAll_records {names : Directory κ} (hnames : names.Obtainable)
    (bodies : Option (Directory κ)) (calls : List (Use κ)) :
    let d := start names bodies
    let x := (d.offerAll calls).freeze
    let uses := d.accepted calls
    (∀ pos c, d.containerAt? pos = some c ↔
      ∃ body, (bodies.getD names).innermost? pos = some body ∧
        names.names[c]? = some body.name) ∧
    (∀ (u : Use κ) outcome d', (d.offerAll calls).add u.name u.expected u.span = .ok (outcome, d') →
      outcome = (names.indexOf? u.name).elim (.unresolved (undeclared names uses).length)
        fun t => .resolved t (d.containerAt? u.span.start)) ∧
    (∀ c t, x.graph.containsEdge c t = true ↔
      ∃ u ∈ uses, names.indexOf? u.name = some t ∧ d.containerAt? u.span.start = some c) ∧
    x.sites.entries = (declared names uses).map (fun u => (names.indexOf? u.name, u.span)) ∧
    x.unresolved.entries = (undeclared names uses).mapIdx (fun i u =>
      (some ⟨u.name, u.expected, i, d.containerAt? u.span.start⟩, u.span)) ∧
    (∀ name, x.sitesOf name = (List.range x.sites.size).filter fun i =>
      (x.sites.get? i).any fun site => site.key.any fun t => names.names[t]? = some name) ∧
    (∀ i < x.sites.size, ∃! name, i ∈ x.sitesOf name) ∧
    (∀ pos, (x.targetAt? pos).map (·.name) =
        ((declared names uses).filter fun u => u.span.Contains pos).getLast?.map (·.name) ∧
      ∀ e, x.targetAt? pos = some e → e ∈ names.entries) ∧
    d.offerAll uses = d.offerAll calls := by
  intro d x uses
  have h : (d.offerAll calls).Records uses :=
    (records_start bodies hnames.wellFormed).offerAll calls
  -- all that is recorded is in terms of the directories, and they are those of the start
  obtain ⟨hn, hb⟩ := d.directories_offerAll calls
  have hcontainer : (d.offerAll calls).containerAt? = d.containerAt? := by
    funext pos
    rw [containerAt?, hn, hb]
    rfl
  have houtcome := h.outcome_of_add
  have hedges := h.holds
  have hsites := h.sites_eq
  have hunresolved := h.unresolved_eq
  have hsitesOf := h.sitesOf_eq
  have htarget := h.name_targetAt?
  simp only [hn, hcontainer] at houtcome hedges hsites hunresolved hsitesOf htarget
  exact ⟨fun pos c => containerAt?_eq_some_iff hnames.wellFormed, houtcome,
    fun c t => hedges.containsEdge_iff, hsites, hunresolved, hsitesOf,
    fun i hi => h.existsUnique_sitesOf hi, htarget, d.offerAll_accepted calls⟩

theorem freeze_offerAll_records_bodies_apart :
    ∃ (names bodies : Directory Kind) (calls : List (Use Kind)), names.Obtainable ∧
      let d := start names (some bodies)
      let x := (d.offerAll calls).freeze
      (d.accepted calls).map (·.name) = ["B", "Q", "F", "B"] ∧
      x.sitesOf "B" = [0, 2] ∧ x.graph.edges = [(1, 0), (1, 1)] ∧
      (∀ c t, x.graph.containsEdge c t = true ↔
        ∃ u ∈ d.accepted calls, names.indexOf? u.name = some t ∧
          d.containerAt? u.span.start = some c) ∧
      ∀ i < x.sites.size, ∃! name, i ∈ x.sitesOf name := by
  -- two uses are refused, one of a declared name stands in a body that no name stands for
  let requests : List (Directory.Draft.Request Kind) :=
    [.add "F" ⟨.parserRule, ⟨0, 3⟩⟩, .add "B" ⟨.parserRule, ⟨20, 23⟩⟩]
  let bodies : Directory Kind := (Directory.Draft.empty.submitAll
    [.add "F" ⟨.parserRule, ⟨0, 15⟩⟩, .add "Z" ⟨.parserRule, ⟨15, 40⟩⟩]).freeze
  let calls : List (Use Kind) :=
    [⟨"B", none, ⟨3, 6⟩⟩, ⟨"F", none, ⟨1, 2⟩⟩, ⟨"B", none, ⟨4, 8⟩⟩,
      ⟨"Q", some .lexerRule, ⟨2, 5⟩⟩, ⟨"F", none, ⟨4, 5⟩⟩, ⟨"B", none, ⟨16, 18⟩⟩]
  have hobtainable := Directory.Obtainable.drafted requests
  obtain ⟨-, -, hedges, -, -, -, hunique, -⟩ :=
    freeze_offerAll_records hobtainable (some bodies) calls
  exact ⟨_, bodies, calls, hobtainable, by cbv, by cbv, by cbv, hedges, hunique⟩

end Draft

end CrossReference

end Gazetteer
