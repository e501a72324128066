/-!
# Comparing words without case

Only the letters `A` to `Z` have another case here. All other characters are compared exactly.
-/

namespace StyleValues

/-- The characters of a text with `A` to `Z` in lower case. -/
def lowercase (s : String) : List Char :=
  s.toList.map Char.toLower

/-- Equality up to the case of ASCII letters. -/
def equalIgnoringCase (a b : String) : Bool :=
  lowercase a == lowercase b

@[simp] theorem equalIgnoringCase_iff {a b : String} :
    equalIgnoringCase a b = true ↔ lowercase a = lowercase b := by
  simp [equalIgnoringCase]

theorem equalIgnoringCase_refl (a : String) : equalIgnoringCase a a = true := by
  simp

end StyleValues
