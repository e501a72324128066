/-!
# Rounding to integers

A finite binary64 number is `mantissa * 2 ^ exponent` with its sign, so its integral part and the
integer nearest to it are quotients of natural numbers.

## Main definitions

* `Number.truncate`: the integral part, rounding toward zero.
* `Number.roundHalfAway`: the nearest integer, a half going away from zero.
* `Number.ofInt`: the number nearest to an integer.
* `Number.toByte`: the nearest integer in `0..255`.
-/

namespace StyleValues.Number

open Float.Model (UnpackedFloat)

/-- The integer `n` with a sign, which zero keeps. -/
def ofSignedNat (s : UnpackedFloat.Sign) (n : Nat) : Float :=
  Float.ofModel (.pack (UnpackedFloat.round .binary64 s n 0))

/-- Rounds the magnitude `mantissa / 2 ^ places` of a number to the integer `f mantissa places`. The
sign is kept, so that of `-0.5` is kept by zero. Integers and infinities are not changed. -/
def roundMagnitude (f : Nat → Nat → Nat) (x : Float) : Float :=
  match x.toModel.unpack with
  | .finite s m (.negSucc e) _ => ofSignedNat s (f m (e + 1))
  | _ => x

/-- The integral part. -/
def truncate (x : Float) : Float :=
  roundMagnitude (fun m k => m / Nat.pow 2 k) x

/-- The nearest integer, a half going away from zero. -/
def roundHalfAway (x : Float) : Float :=
  roundMagnitude (fun m k => (2 * m + Nat.pow 2 k) / Nat.pow 2 (k + 1)) x

/-- The binary64 number nearest to an integer, ties to the even mantissa. Zero is positive. -/
def ofInt (n : Int) : Float :=
  Float.ofModel (.ofInt n)

/-- The end of a range that a number lies beyond, or else the number itself. -/
def clamp (low high x : Float) : Float :=
  if x < low then low else if high < x then high else x

/-- The integral part of `mantissa * 2 ^ exponent`. -/
def integralPart (mantissa : Nat) : Int → Nat
  | .ofNat e => mantissa * Nat.pow 2 e
  | .negSucc e => mantissa / Nat.pow 2 (e + 1)

/-- The integral part of a number as a byte. Beyond the bytes it is the nearer end of their range,
and what is not a number becomes `0`. -/
def saturate (x : Float) : Fin 256 :=
  match x.toModel.unpack with
  | .infinity .positive => 255
  | .finite .positive m e _ => ⟨min 255 (integralPart m e), by omega⟩
  | _ => 0

/-- A number is rounded, limited to `0..255`, and taken as a byte. What is not a number becomes
`0`. -/
def toByte (x : Float) : Fin 256 :=
  if x.isNaN then 0 else saturate (clamp 0 255 (roundHalfAway x))

end StyleValues.Number
