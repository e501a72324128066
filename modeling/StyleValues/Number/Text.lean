import StyleValues.Number.Decimal

/-!
# The text of a number

A binary64 number is written with the fewest decimal digits that read back as the same number,
positionally and without a point when it is integral. Of the numerals with that many digits the
nearest is taken, and of two equally near ones the larger.

## Main definitions

* `Decimal.ofBinary`: the decimal fraction that equals a finite number exactly.
* `Decimal.shortest`: the shortest numeral that reads back.
* `Number.text`: the text of any number, the signed zeros, infinities and NaN included.
* `Number.ofText?`: reads the longest numeral in front of a text.
-/

namespace StyleValues

open Float.Model (UnpackedFloat)

namespace Decimal

/-- Every `mantissa * 2 ^ exponent` is a decimal fraction: a factor of one half is five tenths. -/
def ofBinary (mantissa : Nat) : Int → Decimal
  | .ofNat e => ⟨mantissa * Nat.pow 2 e, 0⟩
  | .negSucc e => ⟨mantissa * Nat.pow 5 (e + 1), e + 1⟩

/-- The shortest neighbour of `d` that reads as `x`, with at most `dropped` digits dropped, and
`d` itself if there is none. -/
def shortestFrom (d : Decimal) (x : Float) : Nat → Decimal
  | 0 => d
  | dropped + 1 =>
    ((d.neighbours (dropped + 1)).find? (fun c => c.toFloat = x)).getD (d.shortestFrom x dropped)

/-- The shortest neighbour of `d` that reads as `x`. -/
def shortest (d : Decimal) (x : Float) : Decimal :=
  d.shortestFrom x (Nat.toDigits 10 d.digits).length

/-- Whatever is found reads as the number looked for, if the exact fraction does. -/
theorem toFloat_shortestFrom {d : Decimal} {x : Float} (h : d.toFloat = x) (dropped : Nat) :
    (d.shortestFrom x dropped).toFloat = x := by
  induction dropped with
  | zero => exact h
  | succ k ih =>
    rw [shortestFrom]
    cases hf : (d.neighbours (k + 1)).find? (fun c => c.toFloat = x) with
    | none => exact ih
    | some c => simpa using List.find?_some hf

theorem toFloat_shortest {d : Decimal} {x : Float} (h : d.toFloat = x) :
    (d.shortest x).toFloat = x :=
  toFloat_shortestFrom h _

end Decimal

namespace Number

/-- The sign that is written, if any. -/
def signText : UnpackedFloat.Sign → List Char
  | .negative => ['-']
  | .positive => []

/-- The text of a number. -/
def text (x : Float) : String :=
  match x.toModel.unpack with
  | .notANumber => "NaN"
  | .infinity s => String.ofList (signText s ++ "inf".toList)
  | .zero s => String.ofList (signText s ++ ['0'])
  | .finite s m e _ =>
    String.ofList (signText s ++ ((Decimal.ofBinary m e).shortest x.abs).text)

/-- The number beyond all finite ones. -/
def infinity : Float := 1 / 0

/-- Reads `inf` or a positional numeral, and returns what follows it. -/
def unsignedOfText? : List Char → Option (Float × List Char)
  | 'i' :: 'n' :: 'f' :: rest => some (infinity, rest)
  | cs => (Decimal.ofText? cs).map fun (d, rest) => (d.toFloat, rest)

/-- Reads the longest numeral, with an optional sign, and returns what follows it. -/
def ofText? : List Char → Option (Float × List Char)
  | '-' :: cs => (unsignedOfText? cs).map fun (x, rest) => (-x, rest)
  | cs => unsignedOfText? cs

end Number

end StyleValues
