import StyleValues.Value.Basic

/-!
# Errors

What can go wrong when a value is computed, and how it is reported.
-/

namespace StyleValues

/-- Why a value cannot be used. -/
inductive ValueFault
  /-- The base of a conversion is no number. -/
  | baseNotNumeric
  /-- A reference stands where a number is needed. -/
  | notNumeric
  /-- Values of this shape have no counterpart in relative units. -/
  | unconvertible (kind : Kind) (target : RelativeUnit)
  /-- The name of a target unit is neither `rem` nor `em`. -/
  | unknownTarget
deriving DecidableEq, Repr

/-- What an argument has to be, and is not. -/
inductive ArgumentFault
  | notColor (found : Kind)
  | notPercentage (found : Kind)
deriving DecidableEq, Repr

/-- Why an option cannot be applied. -/
inductive OptionFault
  | noEqualsSign
  | baseNotInteger
  | unknownKey
deriving DecidableEq, Repr

inductive Error
  | invalidValue (value : String) (fault : ValueFault)
  /-- A length was to be divided by a base of zero. -/
  | divisionByZero
  | invalidArgument (function : String) (fault : ArgumentFault)
  | unknownFunction (name : String)
  /-- The number of arguments is not between `least` and `most`. -/
  | arity (name : String) (least most found : Nat)
  | invalidOption (option : String) (fault : OptionFault)
deriving DecidableEq, Repr

def ValueFault.message : ValueFault → String
  | .baseNotNumeric => "base pixel size must be a number"
  | .notNumeric => "magnitude is not numeric"
  | .unconvertible kind target => "cannot convert a " ++ kind.name ++ " to " ++ target.token
  | .unknownTarget => "expected 'rem' or 'em'"

def ArgumentFault.message : ArgumentFault → String
  | .notColor found => "expected a color, found a " ++ found.name
  | .notPercentage found => "expected a percentage, found a " ++ found.name

def OptionFault.message : OptionFault → String
  | .noEqualsSign => "expected key=value"
  | .baseNotInteger => "base-px must be an integer"
  | .unknownKey => "unrecognized option"

/-- A range of argument counts, as one number if it has only one. -/
def arityText (least most : Nat) : String :=
  if least = most then toString least else toString least ++ "-" ++ toString most

/-- The report of an error. What it quotes is inserted as it is. -/
def Error.message : Error → String
  | .invalidValue value fault => "Invalid value '" ++ value ++ "': " ++ fault.message
  | .divisionByZero => "Division by zero: base pixel size must be non-zero"
  | .invalidArgument function fault =>
    "Invalid argument to '" ++ function ++ "': " ++ fault.message
  | .unknownFunction name => "Unknown function '" ++ name ++ "'"
  | .arity name least most found =>
    "Function '" ++ name ++ "' expects " ++ arityText least most ++ " argument(s), found " ++
      toString found
  | .invalidOption option fault => "Invalid option '" ++ option ++ "': " ++ fault.message

/-- What a computation that succeeds has gone through. -/
theorem exists_of_bind_eq_ok {ε α β : Type} {x : Except ε α} {f : α → Except ε β} {b : β}
    (h : x >>= f = .ok b) : ∃ a, x = .ok a ∧ f a = .ok b := by
  cases x with
  | error e => cases h
  | ok a => exact ⟨a, rfl, h⟩

end StyleValues
