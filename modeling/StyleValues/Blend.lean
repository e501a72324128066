import StyleValues.Error
import StyleValues.Value.Basic

/-!
# Tints and shades

A tint moves each channel of a color by the same fraction of its way to white, and a shade to
black. Results are neither rounded nor limited, and fractions outside `0..1` extrapolate.

## Main definitions

* `blend`, `tint`, `shade`: on colors.
* `tintValue`, `shadeValue`: on values, which have to be a color and a percentage.
-/

namespace StyleValues

/-- The highest value of a channel. -/
def channelMax : Float := 255

/-- The colors that one can blend toward. -/
inductive Endpoint
  | white
  | black
deriving DecidableEq, Repr

/-- The value of each channel of an endpoint. -/
def Endpoint.channel : Endpoint → Float
  | .white => channelMax
  | .black => 0

/-- How far to blend, in percent. -/
structure Percentage where
  value : Float := 0

namespace Percentage

/-- The number of a dimension, whatever its unit. -/
def ofValue? : Value → Option Percentage
  | .dimension d => d.number?.map fun x => ⟨x⟩
  | _ => none

def fraction (p : Percentage) : Float := p.value / 100

end Percentage

/-- Moves each channel by a fraction of its way to the endpoint. -/
def blend (c : Color) (amount : Percentage) (toward : Endpoint) : Color :=
  c.map fun x => x + amount.fraction * (toward.channel - x)

def tint (c : Color) (amount : Percentage) : Color := blend c amount .white

def shade (c : Color) (amount : Percentage) : Color := blend c amount .black

/-- The arguments of the function of a given name. The color is looked at first. -/
def blendArguments (function : String) (color amount : Value) :
    Except Error (Color × Percentage) :=
  match color with
  | .color c =>
    match Percentage.ofValue? amount with
    | some p => .ok (c, p)
    | none => .error (.invalidArgument function (.notPercentage amount.kind))
  | v => .error (.invalidArgument function (.notColor v.kind))

def tintValue (color amount : Value) : Except Error Value :=
  (blendArguments "tint" color amount).map fun (c, p) => .color (tint c p)

def shadeValue (color amount : Value) : Except Error Value :=
  (blendArguments "shade" color amount).map fun (c, p) => .color (shade c p)

end StyleValues
