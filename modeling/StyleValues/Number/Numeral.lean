import StyleValues.Number.Decimal

/-!
# Integer numerals

An integer is written as at least one ASCII digit, with at most one sign in front. Leading zeros
do not count.
-/

namespace StyleValues

/-- The number that at least one digit and nothing else denotes. -/
def natOfDigits? (cs : List Char) : Option Nat :=
  if cs ≠ [] ∧ cs.all Char.isDigit then some (digitsValue cs) else none

/-- Reads an integer with an optional sign. -/
def intOfText? : List Char → Option Int
  | '-' :: ds => (natOfDigits? ds).map fun (n : Nat) => -(n : Int)
  | '+' :: ds => (natOfDigits? ds).map fun (n : Nat) => (n : Int)
  | ds => (natOfDigits? ds).map fun (n : Nat) => (n : Int)

/-- Reads an integer that fits in a signed word of 64 bits. -/
def wordOfText? (cs : List Char) : Option Int :=
  (intOfText? cs).filter fun n => -Int.pow 2 63 ≤ n && n < Int.pow 2 63

end StyleValues
