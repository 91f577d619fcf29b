import Gazetteer.Catalog.Lexicon
import Gazetteer.Proofs.Runs
import Mathlib.Data.String.Basic

/-!
# Names in ascending order

* `ascending_iff`: comparing neighbours is enough.
* `searchName_eq_some_iff`: bisection finds a name in an ascending column iff it stands there, and
  where it stands.
* `Lexicon.pairwise_ofList`, `Lexicon.mem_ofList`: a lexicon has the names that it is made of, each
  once and in order.
* `Lexicon.ofAscending?_eq_some_iff`: names are taken as they are iff they are in order.
-/

namespace Gazetteer

/-- In ascending order every name is below all later ones. -/
theorem ascending_iff {names : List String} :
    ascending names = true ↔ names.Pairwise (· < ·) := by
  rw [← List.isChain_iff_pairwise]
  induction names with
  | nil => simp [ascending]
  | cons a names ih =>
    cases names with
    | nil => simp [ascending]
    | cons b rest =>
      rw [ascending, Bool.and_eq_true, decide_eq_true_eq, ih, List.isChain_cons_cons]

theorem getElem?_lt_of_pairwise {names : List String} (h : names.Pairwise (· < ·)) {i j : Nat}
    {a b : String} (hij : i < j) (ha : names[i]? = some a) (hb : names[j]? = some b) : a < b := by
  obtain ⟨hi, rfl⟩ := List.getElem?_eq_some_iff.mp ha
  obtain ⟨hj, rfl⟩ := List.getElem?_eq_some_iff.mp hb
  exact List.pairwise_iff_getElem.mp h i j hi hj hij

/-- **Bisection finds a name** of an ascending column, and nothing else. -/
theorem searchName_eq_some_iff {names : List String} (h : names.Pairwise (· < ·)) {q : String}
    {i : Nat} : searchName names.length (names[·]?) q = some i ↔ names[i]? = some q := by
  unfold searchName
  simp only
  constructor
  · intro hi
    split at hi
    · rename_i hplace
      rwa [Option.some.inj hi] at hplace
    · exact absurd hi (by simp)
  · intro hi
    have hlen : i < names.length := (List.getElem?_eq_some_iff.mp hi).1
    have hplace : bisect (fun i => names[i]?.any (· < q)) 0 names.length = i := by
      refine bisect_eq_of_holds (Nat.zero_le i) hlen.le (fun j _ hj => ?_) fun j hj hlt => ?_
      · have ha := List.getElem?_eq_getElem (hj.trans hlen)
        rw [ha]
        exact decide_eq_true (getElem?_lt_of_pairwise h hj ha hi)
      · have ha := List.getElem?_eq_getElem hlt
        rw [ha]
        refine decide_eq_false fun hbelow => ?_
        rcases Nat.lt_or_eq_of_le hj with hij | rfl
        · exact lt_asymm hbelow (getElem?_lt_of_pairwise h hij hi ha)
        · rw [hi, Option.some.injEq] at ha
          exact lt_irrefl q (ha ▸ hbelow)
    simp only [hplace, hi, if_true]

namespace Lexicon

/-- **A lexicon is in order**, whatever order its names are given in. -/
theorem pairwise_ofList (names : List String) :
    (ofList names).names.toList.Pairwise (· < ·) := by
  have hsorted : (names.mergeSort fun a b => a ≤ b).Pairwise (· ≤ ·) :=
    pairwise_le_mergeSort (fun _ _ => decide_eq_true_iff) names
  rw [← List.map_id (names.mergeSort _)] at hsorted
  have hlt := pairwise_lt_firstOfRuns Function.injective_id hsorted
  rwa [List.map_id] at hlt

/-- **A lexicon has the names that it is made of.** -/
theorem mem_ofList {names : List String} {name : String} :
    name ∈ (ofList names).names.toList ↔ name ∈ names := by
  have hmem := mem_map_firstOfRuns id (names.mergeSort fun a b => a ≤ b) (k := name)
  rwa [List.map_id, List.map_id, List.mem_mergeSort] at hmem

/-- **Names are taken as they are** iff they are in order. -/
theorem ofAscending?_eq_some_iff {names : List String} {l : Lexicon} :
    ofAscending? names = some l ↔ names.Pairwise (· < ·) ∧ l.names.toList = names := by
  rw [ofAscending?, Option.ite_none_right_eq_some, ascending_iff, Option.some.injEq]
  refine and_congr_right fun _ => ⟨fun h => h ▸ rfl, fun h => ?_⟩
  rw [← h]

end Lexicon

end Gazetteer
