import StyleValues.Number.Text
import StyleValues.Text.Ascii
import StyleValues.Value.Units

/-!
# Values of a style sheet

A value is a dimension, a keyword, a color, or a list of values that are written side by side.
Lists can be nested and can be empty.

## Main definitions

* `Value`, with `Dimension`, `Magnitude` and `Color`.
* `Value.induct`: induction on a value, with the hypothesis for every element of a list.
* `Value.leaves`: what a value holds besides its lists, from left to right.
* `Value.label`: the short text by which messages quote a value.
-/

namespace StyleValues

/-- What stands in front of the units of a dimension. -/
inductive Magnitude
  | number (x : Float)
  | auto
  /-- A name that nothing has been put in for yet. -/
  | reference (name : String)

/-- The keyword for the automatic size. -/
def autoName : String := "auto"

/-- The text of a magnitude. A reference is written as it is. -/
def Magnitude.text : Magnitude → String
  | .number x => Number.text x
  | .auto => autoName
  | .reference name => name

/-- A magnitude with its units. -/
structure Dimension where
  magnitude : Magnitude
  units : Units := {}

namespace Dimension

/-- A number without units. -/
def ofNumber (x : Float) : Dimension := ⟨.number x, .none⟩

/-- A number with a single unit. -/
def withUnit (x : Float) (token : String) : Dimension := ⟨.number x, .single token⟩

def px (x : Float) : Dimension := .withUnit x "px"

def percent (x : Float) : Dimension := .withUnit x "%"

def auto : Dimension := ⟨.auto, .none⟩

def reference (name : String) : Dimension := ⟨.reference name, .none⟩

/-- The number in front, if there is one. -/
def number? (d : Dimension) : Option Float :=
  match d.magnitude with
  | .number x => some x
  | _ => none

/-- The magnitude and the leading unit token, which is all that messages quote. -/
def label (d : Dimension) : String :=
  d.magnitude.text ++ d.units.leading?.getD ""

end Dimension

/-- Red, green and blue, nominally from `0` to `255`. They are neither rounded nor limited. -/
structure Color where
  red : Float := 0
  green : Float := 0
  blue : Float := 0

/-- Changes each channel. -/
def Color.map (f : Float → Float) (c : Color) : Color :=
  ⟨f c.red, f c.green, f c.blue⟩

inductive Value
  | dimension (d : Dimension)
  | keyword (name : String)
  | composite (elements : List Value)
  | color (c : Color)

/-- The four shapes of a value. -/
inductive Kind
  | dimension
  | keyword
  | composite
  | color
deriving DecidableEq, Repr

/-- The name of a shape in messages. -/
def Kind.name : Kind → String
  | .dimension => "dimension"
  | .keyword => "keyword"
  | .composite => "composite value"
  | .color => "color"

namespace Value

/-- Induction on a value: a list has the property if all its elements do. -/
@[elab_as_elim, induction_eliminator]
theorem induct {motive : Value → Prop} (dimension : ∀ d, motive (.dimension d))
    (keyword : ∀ k, motive (.keyword k))
    (composite : ∀ vs, (∀ v ∈ vs, motive v) → motive (.composite vs))
    (color : ∀ c, motive (.color c)) (v : Value) : motive v :=
  match v with
  | .dimension d => dimension d
  | .keyword k => keyword k
  | .color c => color c
  | .composite vs => composite vs fun w _ => induct dimension keyword composite color w

def kind : Value → Kind
  | .dimension _ => .dimension
  | .keyword _ => .keyword
  | .composite _ => .composite
  | .color _ => .color

/-- The automatic size, as a keyword in any case or as a magnitude. -/
def isAuto : Value → Bool
  | .keyword k => equalIgnoringCase k autoName
  | .dimension ⟨.auto, _⟩ => true
  | _ => false

/-- The text by which messages quote a value. -/
def label : Value → String
  | .dimension d => d.label
  | .keyword k => k
  | v => v.kind.name

mutual

/-- What a value holds besides its lists, from left to right. -/
def leaves : Value → List Value
  | .composite vs => leavesOf vs
  | v => [v]

/-- The leaves of each value in turn. -/
def leavesOf : List Value → List Value
  | [] => []
  | v :: vs => v.leaves ++ leavesOf vs

end

@[simp] theorem leavesOf_eq_flatMap (vs : List Value) : leavesOf vs = vs.flatMap leaves := by
  induction vs with
  | nil => rfl
  | cons v vs ih => simp [leavesOf, ih]

end Value

end StyleValues
