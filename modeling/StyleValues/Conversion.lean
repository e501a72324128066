import StyleValues.Error
import StyleValues.Number.Rounding
import StyleValues.Settings.Basic

/-!
# Conversion to relative units

Lengths are divided by a base, the size of one relative unit in pixels. What is no length, such
as `auto`, zero, a percentage, or a value in the target unit, stays as it is. A list is
converted element by element, or not at all.

## Main definitions

* `effectiveBase`: the base of a conversion.
* `Value.toUnit`: a value converted under a known base.
* `convert`: a value converted under an optional explicit base.
-/

namespace StyleValues

/-- The target unit of a given name, in any case. -/
def RelativeUnit.ofName (name : String) : Except Error RelativeUnit :=
  if equalIgnoringCase name (token .rem) then .ok .rem
  else if equalIgnoringCase name (token .em) then .ok .em
  else .error (.invalidValue name .unknownTarget)

/-- The base of a conversion: the integral part of the explicit base, whatever its unit, or else
the base that is set. -/
def effectiveBase (base? : Option Value) (settings : Settings) : Except Error Float :=
  match base? with
  | none => .ok settings.basePx
  | some (.dimension ⟨.number x, _⟩) => .ok (Number.truncate x)
  | some v => .error (.invalidValue v.label .baseNotNumeric)

namespace Dimension

/-- Percentages, and dimensions in the target unit already, are not converted. -/
def isExempt (d : Dimension) (target : RelativeUnit) : Bool :=
  match d.units.leading? with
  | some token => token == "%" || equalIgnoringCase token target.token
  | none => false

/-- A dimension in relative units, if it is a length. -/
def toUnit (base : Float) (target : RelativeUnit) (d : Dimension) : Except Error Dimension :=
  match d.magnitude with
  | .auto => .ok d
  | .reference name => .error (.invalidValue name .notNumeric)
  | .number x =>
    if x == 0 || d.isExempt target then .ok d
    else if base == 0 then .error .divisionByZero
    else .ok (.withUnit (x / base) target.token)

end Dimension

namespace Value

mutual

/-- A value with its lengths in relative units. -/
def toUnit (base : Float) (target : RelativeUnit) : Value → Except Error Value
  | .dimension d => (d.toUnit base target).map .dimension
  | .keyword k =>
    if isAuto (.keyword k) then .ok (.keyword k)
    else .error (.invalidValue k (.unconvertible .keyword target))
  | .color c => .error (.invalidValue (label (.color c)) (.unconvertible .color target))
  | .composite vs => (toUnitAll base target vs).map .composite

/-- Each value in turn, up to the first that cannot be converted. -/
def toUnitAll (base : Float) (target : RelativeUnit) : List Value → Except Error (List Value)
  | [] => .ok []
  | v :: vs => do
    let w ← v.toUnit base target
    let ws ← toUnitAll base target vs
    return w :: ws

end

@[simp] theorem toUnitAll_eq_mapM (base : Float) (target : RelativeUnit) (vs : List Value) :
    toUnitAll base target vs = vs.mapM (toUnit base target) := by
  induction vs with
  | nil => rfl
  | cons v vs ih => simp [toUnitAll, ih]

end Value

/-- Converts a value to relative units. Nothing is converted if the base is in error. -/
def convert (v : Value) (base? : Option Value) (target : RelativeUnit) (settings : Settings) :
    Except Error Value := do
  v.toUnit (← effectiveBase base? settings) target

def rem (v : Value) (base? : Option Value) (settings : Settings) : Except Error Value :=
  convert v base? .rem settings

def em (v : Value) (base? : Option Value) (settings : Settings) : Except Error Value :=
  convert v base? .em settings

end StyleValues
