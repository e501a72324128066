import StyleValues.Number.Rounding
import StyleValues.Text.Identifier
import StyleValues.Value.Basic

/-!
# The text of a value

Values are written from left to right behind what has been written so far.

## Main definitions

* `Dimension.css`, `Dimension.ofCss?`: the text of a dimension, and its reader.
* `Value.write`: writes a value behind a text.
* `Value.css`: the text of a value.
-/

namespace StyleValues

/-- Only a number has units behind it. -/
def Dimension.css (d : Dimension) : String :=
  match d.magnitude with
  | .number x => Number.text x ++ d.units.css
  | m => m.text

/-- Reads a number and the units behind it. -/
def Dimension.ofCss? (text : String) : Option Dimension :=
  (Number.ofText? text.toList).map fun (x, rest) => ⟨.number x, .ofCss rest⟩

/-- Two lowercase hexadecimal digits. -/
def hexByte (b : Fin 256) : List Char :=
  [Nat.digitChar (b / 16), Nat.digitChar (b % 16)]

/-- Each channel as the nearest byte. -/
def Color.css (c : Color) : String :=
  String.ofList ('#' :: [c.red, c.green, c.blue].flatMap fun x => hexByte (Number.toByte x))

def keywordCss (name : String) : String :=
  String.ofList (Identifier.encode name.toList)

namespace Value

mutual

/-- Writes a value behind `out`. -/
def write (out : String) : Value → String
  | .dimension d => out ++ d.css
  | .keyword k => out ++ keywordCss k
  | .color c => out ++ c.css
  | .composite vs => writeAll out vs

/-- Writes values with a space between any two. -/
def writeAll (out : String) : List Value → String
  | [] => out
  | v :: vs => writeRest (v.write out) vs

/-- Writes values with a space before each. -/
def writeRest (out : String) : List Value → String
  | [] => out
  | v :: vs => writeRest (v.write (out ++ " ")) vs

end

/-- The text of a value in a style sheet. -/
def css (v : Value) : String := v.write ""

/-- Writing depends on what has been written only in that it comes first. -/
theorem writeRest_eq_append {vs : List Value} (out : String)
    (h : ∀ v ∈ vs, ∀ out, v.write out = out ++ v.css) :
    writeRest out vs = out ++ writeRest "" vs := by
  induction vs generalizing out with
  | nil => simp [writeRest]
  | cons v vs ih =>
    have hv := h v List.mem_cons_self
    have ih := fun out => ih out fun w hw => h w (List.mem_cons_of_mem _ hw)
    rw [writeRest, writeRest, ih, ih (v.write _), hv, hv ("" ++ " ")]
    simp [String.append_assoc]

@[simp] theorem write_eq_append (v : Value) (out : String) : v.write out = out ++ v.css := by
  induction v generalizing out with
  | dimension d => simp [css, write]
  | keyword k => simp [css, write]
  | color c => simp [css, write]
  | composite vs ih =>
    rw [css, write, write]
    cases vs with
    | nil => simp [writeAll]
    | cons v vs =>
      have hr := fun out => writeRest_eq_append out fun w hw => ih w (List.mem_cons_of_mem _ hw)
      have hv := ih v List.mem_cons_self
      rw [writeAll, writeAll, hr, hr (v.write ""), hv, hv, String.append_assoc]
      simp

theorem writeRest_eq_intercalate (out : String) (vs : List Value) :
    writeRest out vs = " ".intercalate (out :: vs.map css) := by
  induction vs generalizing out with
  | nil => simp [writeRest]
  | cons v vs ih =>
    rw [writeRest, ih]
    cases vs <;> simp [String.append_assoc]

/-- Elements stand side by side, with a space between any two. -/
@[simp] theorem css_composite (vs : List Value) :
    (Value.composite vs).css = " ".intercalate (vs.map css) := by
  rw [css, write]
  cases vs with
  | nil => rfl
  | cons v vs => simp [writeAll, writeRest_eq_intercalate]

end Value

end StyleValues
