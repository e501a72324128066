import StyleValues.Conversion
import StyleValues.Proofs.Number.Comparison
import StyleValues.Proofs.Value.Paths

/-!
# The conversion of a leaf

A leaf is one of three things. A normal leaf stays as it is, a length is divided by the base, and
an invalid leaf cannot be converted under any base.

## Main definitions

* `Units.IsExempt`: the unit is a percentage or the target unit.
* `Dimension.NeedsDivision`: a number that conversion has to divide.
* `NormalLeaf`, `InvalidLeaf`: the leaves without such a number.
* `LeafFault`: how a leaf fails on its own.
-/

namespace StyleValues

open Number (IsZero)

/-- The first numerator token is `%`, or the target unit in any case. -/
def Units.IsExempt (u : Units) (target : RelativeUnit) : Prop :=
  ∃ token, u.numerator.head? = some token ∧
    (token = "%" ∨ equalIgnoringCase token target.token = true)

instance (u : Units) (target : RelativeUnit) : Decidable (u.IsExempt target) :=
  decidable_of_iff (∃ token ∈ u.numerator.head?,
    token = "%" ∨ equalIgnoringCase token target.token = true) (by simp [Units.IsExempt])

theorem Units.isExempt_single (target : RelativeUnit) :
    (single target.token).IsExempt target :=
  ⟨target.token, rfl, .inr (equalIgnoringCase_refl _)⟩

/-- A number, not zero, in a unit that is not exempt. -/
def Dimension.NeedsDivision (target : RelativeUnit) (d : Dimension) : Prop :=
  ∃ x, d.magnitude = .number x ∧ ¬ IsZero x ∧ ¬ d.units.IsExempt target

/-- A leaf that a conversion does not touch. -/
inductive NormalLeaf (target : RelativeUnit) : Value → Prop
  | keyword {name : String} (h : equalIgnoringCase name "auto" = true) :
    NormalLeaf target (.keyword name)
  | auto (u : Units) : NormalLeaf target (.dimension ⟨.auto, u⟩)
  | zero {x : Float} (hx : IsZero x) (u : Units) : NormalLeaf target (.dimension ⟨.number x, u⟩)
  | exempt (x : Float) {u : Units} (hu : u.IsExempt target) :
    NormalLeaf target (.dimension ⟨.number x, u⟩)

/-- A leaf that has no counterpart in relative units, and its error. -/
inductive InvalidLeaf (target : RelativeUnit) : Value → Error → Prop
  | color (c : Color) :
    InvalidLeaf target (.color c) (.invalidValue "color" (.unconvertible .color target))
  /-- Any keyword but `auto`, in any case. -/
  | keyword {name : String} (h : equalIgnoringCase name "auto" = false) :
    InvalidLeaf target (.keyword name) (.invalidValue name (.unconvertible .keyword target))
  | reference (name : String) (u : Units) :
    InvalidLeaf target (.dimension ⟨.reference name, u⟩) (.invalidValue name .notNumeric)

/-- How a leaf fails on its own, under a base. -/
inductive LeafFault (base : Float) (target : RelativeUnit) : Value → Error → Prop
  | invalid {l : Value} {e : Error} (h : InvalidLeaf target l e) : LeafFault base target l e
  | division {d : Dimension} (hd : d.NeedsDivision target) (hb : IsZero base) :
    LeafFault base target (.dimension d) .divisionByZero

@[simp] theorem Dimension.needsDivision_number {x : Float} {u : Units} {target : RelativeUnit} :
    NeedsDivision target ⟨.number x, u⟩ ↔ ¬ IsZero x ∧ ¬ u.IsExempt target := by
  simp [NeedsDivision]

theorem Dimension.isExempt_iff {d : Dimension} {target : RelativeUnit} :
    d.isExempt target = true ↔ d.units.IsExempt target := by
  rw [isExempt, Units.leading?, Units.IsExempt]
  cases d.units.numerator.head? <;> simp

theorem Dimension.toUnit_number {base x : Float} {u : Units} {target : RelativeUnit} :
    toUnit base target ⟨.number x, u⟩ =
      if IsZero x ∨ u.IsExempt target then .ok ⟨.number x, u⟩
      else if IsZero base then .error .divisionByZero
      else .ok (.withUnit (x / base) target.token) := by
  simp only [toUnit, Bool.or_eq_true, Number.beq_zero_iff, isExempt_iff]

namespace Value

variable {base : Float} {target : RelativeUnit} {l k : Value} {e : Error}

theorem IsLeaf.cases (hl : l.IsLeaf) (target : RelativeUnit) :
    NormalLeaf target l ∨
      (∃ x u, l = .dimension ⟨.number x, u⟩ ∧ Dimension.NeedsDivision target ⟨.number x, u⟩) ∨
      ∃ e, InvalidLeaf target l e := by
  cases l with
  | dimension d =>
    obtain ⟨m, u⟩ := d
    cases m with
    | number x =>
      by_cases hx : IsZero x
      · exact .inl (.zero hx u)
      · by_cases hu : u.IsExempt target
        · exact .inl (.exempt x hu)
        · exact .inr (.inl ⟨x, u, rfl, x, rfl, hx, hu⟩)
    | auto => exact .inl (.auto u)
    | reference name => exact .inr (.inr ⟨_, .reference name u⟩)
  | keyword name =>
    cases h : equalIgnoringCase name "auto" with
    | true => exact .inl (.keyword h)
    | false => exact .inr (.inr ⟨_, .keyword h⟩)
  | color c => exact .inr (.inr ⟨_, .color c⟩)
  | composite vs => exact absurd hl (not_isLeaf_composite vs)

/-! ## Results -/

theorem toUnit_of_normalLeaf (h : NormalLeaf target l) : l.toUnit base target = .ok l := by
  have number (x : Float) (u : Units) (h : IsZero x ∨ u.IsExempt target) :
      (dimension ⟨.number x, u⟩).toUnit base target = .ok (.dimension ⟨.number x, u⟩) := by
    rw [toUnit, Dimension.toUnit_number, if_pos h]
    rfl
  cases h with
  | keyword h =>
    rw [toUnit]
    exact if_pos h
  | auto u => rw [toUnit]; rfl
  | zero hx u => exact number _ u (.inl hx)
  | exempt x hu => exact number x _ (.inr hu)

theorem toUnit_of_needsDivision {x : Float} {u : Units}
    (h : Dimension.NeedsDivision target ⟨.number x, u⟩) :
    (dimension ⟨.number x, u⟩).toUnit base target =
      if IsZero base then .error .divisionByZero
      else .ok (.dimension (.withUnit (x / base) target.token)) := by
  rw [Dimension.needsDivision_number, ← not_or] at h
  rw [toUnit, Dimension.toUnit_number, if_neg h]
  split <;> rfl

theorem toUnit_of_invalidLeaf (h : InvalidLeaf target l e) : l.toUnit base target = .error e := by
  cases h with
  | color c => rw [toUnit]; rfl
  | keyword h =>
    rw [toUnit]
    exact if_neg (ne_true_of_eq_false h)
  | reference name u => rw [toUnit]; rfl

/-- A leaf fails on its own in the ways of `LeafFault` only. -/
theorem toUnit_eq_error_iff (hl : l.IsLeaf) :
    l.toUnit base target = .error e ↔ LeafFault base target l e := by
  constructor
  · intro h
    rcases hl.cases target with hn | ⟨x, u, rfl, hd⟩ | ⟨e', hi⟩
    · rw [toUnit_of_normalLeaf hn] at h
      cases h
    · rw [toUnit_of_needsDivision hd] at h
      split at h
      next hb =>
        cases h
        exact .division hd hb
      · cases h
    · rw [toUnit_of_invalidLeaf hi] at h
      cases h
      exact .invalid hi
  · intro h
    cases h with
    | invalid hi => exact toUnit_of_invalidLeaf hi
    | @division d hd hb =>
      obtain ⟨m, u⟩ := d
      obtain ⟨x, rfl, -⟩ := id hd
      rw [toUnit_of_needsDivision hd, if_pos hb]

/-- A leaf that is converted is normal or has been divided. -/
theorem toUnit_eq_ok_cases (hl : l.IsLeaf) (h : l.toUnit base target = .ok k) :
    NormalLeaf target l ∧ k = l ∨
      ∃ x u, l = .dimension ⟨.number x, u⟩ ∧ Dimension.NeedsDivision target ⟨.number x, u⟩ ∧
        k = .dimension (.withUnit (x / base) target.token) := by
  rcases hl.cases target with hn | ⟨x, u, rfl, hd⟩ | ⟨e, hi⟩
  · rw [toUnit_of_normalLeaf hn] at h
    cases h
    exact .inl ⟨hn, rfl⟩
  · rw [toUnit_of_needsDivision hd] at h
    split at h
    · cases h
    · cases h
      exact .inr ⟨x, u, rfl, hd, rfl⟩
  · rw [toUnit_of_invalidLeaf hi] at h
    cases h

theorem isLeaf_of_toUnit_eq_ok (hl : l.IsLeaf) (h : l.toUnit base target = .ok k) : k.IsLeaf := by
  rcases toUnit_eq_ok_cases hl h with ⟨-, rfl⟩ | ⟨x, u, -, -, rfl⟩
  · exact hl
  · exact isLeaf_dimension _

theorem normalLeaf_of_toUnit_eq_ok (hl : l.IsLeaf) (h : l.toUnit base target = .ok k) :
    NormalLeaf target k := by
  rcases toUnit_eq_ok_cases hl h with ⟨hn, rfl⟩ | ⟨x, u, -, -, rfl⟩
  · exact hn
  · exact .exempt _ (Units.isExempt_single target)

end Value

end StyleValues
