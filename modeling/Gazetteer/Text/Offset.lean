/-!
# Offsets

A position in a source text is counted in bytes from its beginning and fits in 32 bits. `Offset`
carries the bound in its type; the two partial constructors are the only way in from a wider
number, so no operation on positions ever wraps around.
-/

namespace Gazetteer

/-- A byte position in a source text, a number below 2 ^ 32. -/
abbrev Offset := Fin 4294967296

namespace Offset

/-- The offset of value `n`, if it fits. -/
def ofNat? (n : Nat) : Option Offset :=
  if h : n < 4294967296 then some ⟨n, h⟩ else none

/-- The offset of value `z`, if `z` is neither negative nor too large. -/
def ofInt? : Int → Option Offset
  | .ofNat n => ofNat? n
  | .negSucc _ => none

/-! ## Lemmas -/

theorem ofNat?_eq_some_iff {n : Nat} {o : Offset} : ofNat? n = some o ↔ o.val = n := by
  unfold ofNat?
  split
  · simp only [Option.some.injEq, Fin.ext_iff]
    exact eq_comm
  · simp only [reduceCtorEq, false_iff]
    have := o.isLt
    omega

theorem ofNat?_eq_none_iff {n : Nat} : ofNat? n = none ↔ 4294967296 ≤ n := by
  unfold ofNat?
  split <;> simp <;> omega

@[simp] theorem ofNat?_val (o : Offset) : ofNat? o.val = some o :=
  ofNat?_eq_some_iff.mpr rfl

theorem ofInt?_eq_some_iff {z : Int} {o : Offset} : ofInt? z = some o ↔ (o.val : Int) = z := by
  cases z with
  | ofNat n =>
    rw [ofInt?, ofNat?_eq_some_iff, Int.ofNat_eq_natCast]
    omega
  | negSucc n => simp [ofInt?]

end Offset

end Gazetteer
