/-!
# Decimal fractions

A `Decimal` counts units of its last decimal place. It is written positionally, so no exponent
ever appears, and it is read to the nearest binary64 number, ties to the even mantissa.

## Main definitions

* `Decimal.text`, `Decimal.ofText?`: the positional numeral of a fraction, and its reader.
* `Decimal.toFloat`: the binary64 number that the numeral denotes.
* `Decimal.neighbours`: the two nearest fractions with fewer digits.
-/

namespace StyleValues

/-- The fraction `digits / 10 ^ places`. -/
structure Decimal where
  digits : Nat
  places : Nat
deriving DecidableEq, Repr

/-- The number that a row of decimal digits denotes. -/
def digitsValue (ds : List Char) : Nat :=
  ds.foldl (fun n d => 10 * n + (d.toNat - '0'.toNat)) 0

@[simp] theorem digitsValue_nil : digitsValue [] = 0 := rfl

@[simp] theorem digitsValue_append_singleton (ds : List Char) (d : Char) :
    digitsValue (ds ++ [d]) = 10 * digitsValue ds + (d.toNat - '0'.toNat) := by
  simp [digitsValue]

namespace Decimal

/-- The nearest binary64 number. -/
def toFloat (d : Decimal) : Float :=
  Float.ofModel (Float.Model.ofScientific d.digits (-d.places))

/-! ## Positional numerals -/

/-- At least one digit, then, if there are places, a point and exactly that many digits. -/
def text (d : Decimal) : List Char :=
  let ds := (Nat.toDigits 10 d.digits).leftpad (d.places + 1) '0'
  if d.places = 0 then ds
  else ds.take (ds.length - d.places) ++ '.' :: ds.drop (ds.length - d.places)

/-- Reads the longest run of digits with an optional point and further digits, and returns
what follows it. A point that no digit follows belongs to what follows. -/
def ofText? (cs : List Char) : Option (Decimal × List Char) :=
  let whole := cs.takeWhile Char.isDigit
  if whole.isEmpty then none
  else
    match cs.dropWhile Char.isDigit with
    | '.' :: rest =>
      let part := rest.takeWhile Char.isDigit
      if part.isEmpty then some (⟨digitsValue whole, 0⟩, '.' :: rest)
      else some (⟨digitsValue (whole ++ part), part.length⟩, rest.dropWhile Char.isDigit)
    | rest => some (⟨digitsValue whole, 0⟩, rest)

/-! ## Fewer digits -/

/-- The fraction whose digits are `n` followed by as many zeros as were dropped. -/
def withDigits (d : Decimal) (dropped n : Nat) : Decimal :=
  ⟨n * Nat.pow 10 (dropped - d.places), d.places - dropped⟩

/-- The two fractions around `d` when its last `dropped` digits become zeros, the nearer one
first. Of two equally near ones the larger comes first. -/
def neighbours (d : Decimal) (dropped : Nat) : List Decimal :=
  let below := d.digits / Nat.pow 10 dropped
  let rest := d.digits % Nat.pow 10 dropped
  if Nat.pow 10 dropped ≤ 2 * rest then
    [d.withDigits dropped (below + 1), d.withDigits dropped below]
  else
    [d.withDigits dropped below, d.withDigits dropped (below + 1)]

end Decimal

end StyleValues
