/-!
# Units

A compound unit is a product of unit tokens over another, such as `px*s/em`. Conversions look at
the first token of the numerator alone.
-/

namespace StyleValues

/-- A quotient of products of unit tokens. -/
structure Units where
  numerator : List String := []
  denominator : List String := []
deriving DecidableEq, Repr

namespace Units

/-- No units at all. -/
def none : Units := {}

/-- A single unit token. -/
def single (token : String) : Units :=
  { numerator := [token] }

/-- The unit token that decides how a dimension is converted. -/
def leading? (u : Units) : Option String :=
  u.numerator.head?

def isNone (u : Units) : Bool :=
  u.numerator.isEmpty && u.denominator.isEmpty

@[simp] theorem leading?_single (token : String) : (single token).leading? = some token := rfl

@[simp] theorem leading?_none : none.leading? = Option.none := rfl

/-- The numerator joined by stars, then a stroke and the denominator if there is one. -/
def css (u : Units) : String :=
  "*".intercalate u.numerator ++
    if u.denominator.isEmpty then "" else "/" ++ "*".intercalate u.denominator

/-- The tokens between stars, none in an empty text. -/
def factors (cs : List Char) : List String :=
  if cs.isEmpty then [] else (cs.splitOn '*').map String.ofList

/-- Reads units. What follows the first stroke is the denominator. -/
def ofCss (cs : List Char) : Units :=
  let (above, below) := cs.span (· != '/')
  { numerator := factors above, denominator := factors (below.drop 1) }

end Units

/-- The units that a length in pixels can be converted to. -/
inductive RelativeUnit
  | rem
  | em
deriving DecidableEq, Repr

/-- The unit token. -/
def RelativeUnit.token : RelativeUnit → String
  | .rem => "rem"
  | .em => "em"

end StyleValues
