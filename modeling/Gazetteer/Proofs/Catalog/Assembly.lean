import Gazetteer.Catalog.Concat
import Gazetteer.Catalog.Listing
import Gazetteer.Proofs.Directory.Obtainable
import Gazetteer.Proofs.FirstPlace
import Gazetteer.Proofs.Text.ByteOrder
import Mathlib

/-!
# Catalogs put together

A lexicon and a directory find an item by bisection, a listing by a scan, and a `Concat` asks its
sides in turn and moves what the right one answers by the size of the left one. All of them keep
one law: the catalog lists some items, and the place that it gives for an item is the first one at
which it stands (`Catalog.Lists`).

The law of a `Concat` follows from those of its sides, whatever these are (`Concat.lists`); an item
that stands on both is found on the left because its first place in the two lists is there. So
the law holds of everything that can be put together (`Assembled.lists`).

Headline: `assembled_exact`.
-/

namespace Gazetteer

namespace Catalog

variable {γ α : Type} [Catalog γ α] {c : γ} {xs : List α}

/-- **What a catalog lists**: an item at each place, and each is found where it stands first. -/
structure Lists (c : γ) (xs : List α) : Prop where
  size_eq : size c = xs.length
  get?_eq : ∀ i, get? c i = xs[i]?
  first : ∀ x, FirstIn xs x (indexOf? c x)

theorem Lists.items_eq (h : Lists c xs) : items c = xs := by
  have hcolumn : (List.range xs.length).map (xs[·]?) = xs.map some := by
    refine List.ext_getElem (by simp) fun i _ _ => ?_
    simp
  calc items c = (List.range xs.length).filterMap (xs[·]?) := by
        rw [items, h.size_eq, funext h.get?_eq]
    _ = ((List.range xs.length).map (xs[·]?)).filterMap id := by
        rw [List.filterMap_map]
        rfl
    _ = xs := by
        rw [hcolumn, List.filterMap_map]
        simp

end Catalog

/-! ## The parts -/

theorem Lexicon.lists {l : Lexicon} (h : l.names.toList.Pairwise (· < ·)) :
    Catalog.Lists l l.names.toList where
  size_eq := rfl
  get?_eq _ := Array.getElem?_toList.symm
  first name := by
    refine firstIn_of_nodup (h.imp fun hlt => hlt.ne) fun i => ?_
    have hcolumn : (fun i => l.names[i]?) = fun i => l.names.toList[i]? :=
      funext fun _ => Array.getElem?_toList.symm
    show searchName l.names.size (fun i => l.names[i]?) name = some i ↔ _
    rw [hcolumn]
    exact searchName_eq_some_iff h

theorem Directory.WellFormed.lists {κ : Type} {d : Directory κ} (h : d.WellFormed) :
    Catalog.Lists d d.names where
  size_eq := d.length_names.symm
  get?_eq := d.name?_eq_getElem?
  first _ := firstIn_of_nodup (h.ascending.imp fun hlt => hlt.ne) fun _ => h.indexOf?_eq_some_iff

theorem Listing.lists {α : Type} [DecidableEq α] (l : Listing α) :
    Catalog.Lists l l.items.toList where
  size_eq := rfl
  get?_eq _ := Array.getElem?_toList.symm
  first x := by
    have hscan := firstIn_findIdx? l.items.toList x
    rwa [← List.findIdx?_toArray] at hscan

/-! ## Putting them together -/

/-- **One catalog after the other** lists what both list. -/
theorem Concat.lists {γ δ α : Type} [Catalog γ α] [Catalog δ α] {c : Concat γ δ} {xs ys : List α}
    (hleft : Catalog.Lists c.left xs) (hright : Catalog.Lists c.right ys) :
    Catalog.Lists c (xs ++ ys) where
  size_eq := by
    rw [List.length_append, ← hleft.size_eq, ← hright.size_eq]
    rfl
  get?_eq i := by
    show (if i < c.boundary then Catalog.get? c.left i
      else Catalog.get? c.right (i - c.boundary)) = _
    rw [boundary, hleft.size_eq, hleft.get?_eq, hright.get?_eq, List.getElem?_append]
  first x := by
    -- the right side counts places from 0
    have hfirst := (hleft.first x).append (hright.first x)
    rwa [← hleft.size_eq] at hfirst

/-- **The catalogs that can be put together** from lexicons, directories and listings, to any depth,
each with the items of its parts, one part after the other. -/
inductive Assembled : {γ α : Type} → [Catalog γ α] → γ → List α → Prop
  | lexicon (names : List String) :
      Assembled (Lexicon.ofList names) (Lexicon.ofList names).names.toList
  | ascending {names : List String} {l : Lexicon} :
      Lexicon.ofAscending? names = some l → Assembled l names
  | directory {κ : Type} [Ranked κ] {d : Directory κ} : d.Obtainable → Assembled d d.names
  | listing {α : Type} [DecidableEq α] (items : Array α) :
      Assembled (⟨items⟩ : Listing α) items.toList
  | concat {γ δ α : Type} [Catalog γ α] [Catalog δ α] {left : γ} {right : δ} {xs ys : List α} :
      Assembled left xs → Assembled right ys →
        Assembled (⟨left, right⟩ : Concat γ δ) (xs ++ ys)

/-- **Whatever is put together keeps the law.** -/
theorem Assembled.lists {γ α : Type} [Catalog γ α] {c : γ} {xs : List α} (h : Assembled c xs) :
    Catalog.Lists c xs := by
  induction h with
  | lexicon names => exact Lexicon.lists (Lexicon.pairwise_ofList names)
  | ascending hnames =>
    obtain ⟨hordered, rfl⟩ := Lexicon.ofAscending?_eq_some_iff.mp hnames
    exact Lexicon.lists hordered
  | directory hd => exact hd.wellFormed.lists
  | listing items => exact Listing.lists ⟨items⟩
  | concat _ _ hleft hright => exact Concat.lists hleft hright

/-- **Places and items, exactly**, in every catalog that can be put together:

* places from 0 up to the size hold the items of the parts, one part after the other, and no other
  place holds an item;
* an item is found at the least place that holds it, and is not found iff no place does;
* a lexicon has the names that it is made of, each once, in the order of their bytes;
* names are taken for a lexicon as they are iff they are in this order and none is repeated. -/
theorem assembled_exact {γ α : Type} [Catalog γ α] {c : γ} {items : List α}
    (h : Assembled c items) (names : List String) :
    (Catalog.items c = items ∧ Catalog.size c = items.length ∧
      ∀ i, Catalog.get? c i = items[i]?) ∧
    (∀ x,
      (∀ i, Catalog.indexOf? c x = some i ↔ IsLeast {j | Catalog.get? c j = some x} i) ∧
      (Catalog.indexOf? c x = none ↔ ∀ j, Catalog.get? c j ≠ some x)) ∧
    ((Lexicon.ofList names).names.toList.Pairwise (fun a b => utf8Bytes a < utf8Bytes b) ∧
      ∀ name, name ∈ (Lexicon.ofList names).names.toList ↔ name ∈ names) ∧
    ((∃ l, Lexicon.ofAscending? names = some l) ↔
      names.Pairwise fun a b => utf8Bytes a < utf8Bytes b) ∧
    ∀ l, Lexicon.ofAscending? names = some l → l.names.toList = names := by
  have hlists := h.lists
  have hfirst : ∀ x i, Catalog.indexOf? c x = some i ↔
      IsLeast {j | Catalog.get? c j = some x} i := by
    intro x i
    rw [hlists.first x i]
    simp only [hlists.get?_eq]
  refine ⟨⟨hlists.items_eq, hlists.size_eq, hlists.get?_eq⟩,
    fun x => ⟨hfirst x, eq_none_iff_of_isLeast (hfirst x)⟩,
    ⟨(Lexicon.pairwise_ofList names).imp lt_iff_utf8Bytes_lt.mp, fun name => Lexicon.mem_ofList⟩,
    ?_, fun l hl => (Lexicon.ofAscending?_eq_some_iff.mp hl).2⟩
  simp only [Lexicon.ofAscending?_eq_some_iff, exists_and_left, ← lt_iff_utf8Bytes_lt]
  exact and_iff_left ⟨⟨names.toArray⟩, rfl⟩

theorem assembled_exact_repeated_items :
    ∃ c : Concat (Concat Lexicon (Concat Lexicon (Directory Kind))) (Listing String),
      Assembled c ["a", "b", "b", "c", "c", "d", "c"] ∧
      Catalog.items c = ["a", "b", "b", "c", "c", "d", "c"] ∧ Catalog.get? c 7 = none ∧
      IsLeast {j | Catalog.get? c j = some "b"} 1 ∧ IsLeast {j | Catalog.get? c j = some "c"} 3 ∧
      IsLeast {j | Catalog.get? c j = some "d"} 5 ∧ (∀ j, Catalog.get? c j ≠ some "e") ∧
      ["z", "é"].Pairwise fun a b => utf8Bytes a < utf8Bytes b := by
  -- an item that two parts list, one that is repeated across a boundary, and a part without items
  let requests : List (Directory.Draft.Request Kind) :=
    [.add "c" ⟨.parserRule, ⟨0, 1⟩⟩, .add "b" ⟨.lexerRule, ⟨10, 11⟩⟩]
  let d : Directory Kind := (Directory.Draft.empty.submitAll requests).freeze
  let c : Concat (Concat Lexicon (Concat Lexicon (Directory Kind))) (Listing String) :=
    ⟨⟨.ofList ["b", "a", "b"], .ofList [], d⟩, ⟨#["c", "d", "c"]⟩⟩
  have hlexicon : (Lexicon.ofList ["b", "a", "b"]).names.toList = ["a", "b"] := by cbv
  have hempty : (Lexicon.ofList []).names.toList = [] := by cbv
  have hnames : d.names = ["b", "c"] := by cbv
  have hleft := Assembled.lexicon ["b", "a", "b"]
  have hnone := Assembled.lexicon []
  have hright : Assembled d d.names := .directory (.drafted requests)
  rw [hlexicon] at hleft
  rw [hempty] at hnone
  rw [hnames] at hright
  have hc : Assembled c ["a", "b", "b", "c", "c", "d", "c"] :=
    .concat (.concat hleft (.concat hnone hright)) (.listing #["c", "d", "c"])
  obtain ⟨⟨hitems, -, hget⟩, hfind, -, hascending, -⟩ := assembled_exact hc ["z", "é"]
  exact ⟨c, hc, hitems, hget 7, ((hfind "b").1 1).mp (by cbv), ((hfind "c").1 3).mp (by cbv),
    ((hfind "d").1 5).mp (by cbv), (hfind "e").2.mp (by cbv), hascending.mp ⟨⟨#["z", "é"]⟩, rfl⟩⟩

end Gazetteer
