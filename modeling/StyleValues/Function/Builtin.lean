import StyleValues.Blend
import StyleValues.Conversion
import StyleValues.Function.Table

/-!
# Built-in functions

`rem(value, base?)`, `em(value, base?)`, `tint(color, percentage)`, `shade(color, percentage)`,
and the function that hosts define.
-/

namespace StyleValues

namespace ValueFunction

/-- Converts the first argument, with the second as its base if there is one. -/
def conversion (target : RelativeUnit) : ValueFunction where
  name := target.token
  least := 1
  most := 2
  body args settings := do return convert (← args[0]?) args[1]? target settings

/-- Applies a function on a color and a percentage to the first two arguments. -/
def blending (name : String) (f : Value → Value → Except Error Value) : ValueFunction where
  name := name
  least := 2
  most := 2
  body args _ := do return f (← args[0]?) (← args[1]?)

def rem : ValueFunction := conversion .rem

def em : ValueFunction := conversion .em

def tint : ValueFunction := blending "tint" tintValue

def shade : ValueFunction := blending "shade" shadeValue

/-- Returns its arguments, followed by the base that is set. -/
def echo (name : String) (least most : Nat) : ValueFunction where
  name := name
  least := least
  most := most
  body args settings := some (.ok (.composite (args ++ [.dimension (.px settings.basePx)])))

end ValueFunction

/-- All built-in functions. -/
def builtins : List ValueFunction :=
  [.rem, .em, .tint, .shade]

/-- The table of the built-in functions. -/
def FunctionTable.builtin : FunctionTable := ofList builtins

@[simp] theorem FunctionTable.functions_builtin :
    builtin.functions = [.em, .rem, .shade, .tint] := by
  rfl

end StyleValues
