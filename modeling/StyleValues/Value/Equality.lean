import StyleValues.Value.Basic

/-!
# Equality of values

Values are compared by structure, and their numbers as numbers are: zero equals negative zero,
and what is not a number equals nothing. So `==` is neither reflexive nor finer than `=`.
-/

namespace StyleValues

def Magnitude.beq : Magnitude → Magnitude → Bool
  | .number x, .number y => x == y
  | .auto, .auto => true
  | .reference a, .reference b => a == b
  | _, _ => false

instance : BEq Magnitude := ⟨Magnitude.beq⟩

instance : BEq Dimension where
  beq a b := a.magnitude == b.magnitude && a.units == b.units

instance : BEq Color where
  beq a b := a.red == b.red && a.green == b.green && a.blue == b.blue

namespace Value

mutual

def beq : Value → Value → Bool
  | .dimension a, .dimension b => a == b
  | .keyword a, .keyword b => a == b
  | .composite as, .composite bs => beqAll as bs
  | .color a, .color b => a == b
  | _, _ => false

/-- Equality of lists, element by element. -/
def beqAll : List Value → List Value → Bool
  | [], [] => true
  | a :: as, b :: bs => beq a b && beqAll as bs
  | _, _ => false

end

instance : BEq Value := ⟨beq⟩

theorem beq_eq (a b : Value) : (a == b) = a.beq b := rfl

@[simp] theorem beqAll_eq (as bs : List Value) : beqAll as bs = (as == bs) := by
  induction as generalizing bs with
  | nil => cases bs <;> rfl
  | cons a as ih =>
    cases bs with
    | nil => rfl
    | cons b bs => simp [beqAll, ih, beq_eq]

@[simp] theorem composite_beq_composite (as bs : List Value) :
    (Value.composite as == Value.composite bs) = (as == bs) := by
  rw [beq_eq, beq, beqAll_eq]

end Value

end StyleValues
