import Mathlib
import StyleValues.Number.Rounding

/-!
# Equality of numbers

A binary64 number is unpacked into a sign, a mantissa and an exponent without loss. Numbers
compare as equal if both are zeros, or if they are the same number and that is not NaN.

## Main definitions

* `Number.IsZero`: the two zeros.
-/

namespace StyleValues.Number

/-- Unpacking loses nothing. -/
theorem unpack_injective {x y : Float} (h : x.toModel.unpack = y.toModel.unpack) : x = y := by
  have hbits :=
    (Float.Model.UnpackedFloat.unpack_inj_of_valid x.toModel.valid y.toModel.valid).1 h
  exact Float.toBits_inj.1 (UInt64.toBitVec_inj.1 hbits)

/-- The two zeros. -/
def IsZero (x : Float) : Prop := x = 0 ∨ x = -0

instance (x : Float) : Decidable (IsZero x) :=
  inferInstanceAs (Decidable (_ ∨ _))

theorem beq_iff {x y : Float} :
    (x == y) = true ↔ (IsZero x ∧ IsZero y) ∨ (x = y ∧ x.isNaN = false) := by
  have hzero : (0 : Float) ≠ Float.nan := by decide +kernel
  have hneg : (-0 : Float) ≠ Float.nan := by decide +kernel
  rw [Float.beq_iff_ne_nan_and_eq, Float.isNaN_eq_decide_eq_nan, decide_eq_false_iff_not]
  grind [IsZero]

theorem IsZero.isNaN {x : Float} (h : IsZero x) : x.isNaN = false := by
  rcases h with rfl | rfl <;> rfl

theorem IsZero.beq {x y : Float} (hx : IsZero x) (hy : IsZero y) : (x == y) = true :=
  beq_iff.2 (.inl ⟨hx, hy⟩)

/-- Equality of numbers is symmetric and transitive. It is not reflexive. -/
instance partialEquivBEq_float : PartialEquivBEq Float where
  symm h := by
    rw [beq_iff] at h ⊢
    grind
  trans h h' := by
    rw [beq_iff] at h h' ⊢
    grind [IsZero.isNaN]

@[simp] theorem beq_zero_iff {x : Float} : (x == 0) = true ↔ IsZero x := by
  rw [beq_iff]
  constructor
  · rintro (⟨hx, -⟩ | ⟨rfl, -⟩)
    · exact hx
    · exact .inl rfl
  · exact fun hx => .inl ⟨hx, .inl rfl⟩

@[simp] theorem beq_self_iff {x : Float} : (x == x) = true ↔ x.isNaN = false := by
  rw [beq_iff]
  constructor
  · rintro (⟨hx, -⟩ | ⟨-, hn⟩)
    · exact hx.isNaN
    · exact hn
  · exact fun hn => .inr ⟨rfl, hn⟩

end StyleValues.Number
