import Mathlib
import StyleValues.Number.Numeral

/-!
# The grammar of integer numerals

## Main definitions

* `IsDigits`: at least one decimal digit, and the number that they denote.
* `IsNumeral`: digits with at most one sign.

## Main results

* `wordOfText?_eq_some_iff`: the reader accepts the numerals of 64-bit words, and no others.
-/

namespace StyleValues

/-- The value of a decimal digit. -/
def digitValue (c : Char) : Nat := c.toNat - '0'.toNat

/-- One or more decimal digits that denote `n`, the last one being the units. -/
structure IsDigits (ds : List Char) (n : Nat) : Prop where
  ne_nil : ds ≠ []
  isDigit : ∀ c ∈ ds, c.isDigit = true
  value : Nat.ofDigits 10 (ds.reverse.map digitValue) = n

/-- Digits, with at most one sign in front of them. -/
inductive IsNumeral : List Char → Int → Prop
  | unsigned {ds : List Char} {n : Nat} (h : IsDigits ds n) : IsNumeral ds n
  | plus {ds : List Char} {n : Nat} (h : IsDigits ds n) : IsNumeral ('+' :: ds) n
  | minus {ds : List Char} {n : Nat} (h : IsDigits ds n) : IsNumeral ('-' :: ds) (-n)

variable {cs ds : List Char} {m n : Nat} {k : Int}

theorem digitsValue_eq_ofDigits (ds : List Char) :
    digitsValue ds = Nat.ofDigits 10 (ds.reverse.map digitValue) := by
  induction ds using List.reverseRecOn with
  | nil => rfl
  | append_singleton ds d ih =>
    rw [digitsValue_append_singleton, List.reverse_append, List.reverse_singleton,
      List.singleton_append, List.map_cons, Nat.ofDigits_cons, ← ih, Nat.add_comm]
    rfl

theorem natOfDigits?_eq_some_iff : natOfDigits? ds = some n ↔ IsDigits ds n := by
  rw [natOfDigits?]
  constructor
  · intro h
    split at h
    next hds =>
      obtain rfl := Option.some.inj h
      exact ⟨hds.1, List.all_eq_true.1 hds.2, (digitsValue_eq_ofDigits ds).symm⟩
    next => cases h
  · rintro ⟨hne, hdigit, rfl⟩
    rw [if_pos ⟨hne, List.all_eq_true.2 hdigit⟩, digitsValue_eq_ofDigits]

/-- Signs are no digits. -/
theorem IsDigits.ne_cons (h : IsDigits ds n) {c : Char} (hc : c.isDigit = false)
    (cs : List Char) : ds ≠ c :: cs := by
  rintro rfl
  exact absurd (h.isDigit c List.mem_cons_self) (by simp [hc])

theorem intOfText?_eq_some_iff : intOfText? cs = some k ↔ IsNumeral cs k := by
  constructor
  · intro h
    unfold intOfText? at h
    split at h <;> obtain ⟨n, hn, rfl⟩ := Option.map_eq_some_iff.1 h
    · exact .minus (natOfDigits?_eq_some_iff.1 hn)
    · exact .plus (natOfDigits?_eq_some_iff.1 hn)
    · exact .unsigned (natOfDigits?_eq_some_iff.1 hn)
  · intro h
    cases h with
    | unsigned h =>
      have hminus := h.ne_cons (c := '-') rfl
      have hplus := h.ne_cons (c := '+') rfl
      unfold intOfText?
      split
      · exact absurd rfl (hminus _)
      · exact absurd rfl (hplus _)
      · rw [natOfDigits?_eq_some_iff.2 h]
        rfl
    | plus h =>
      rw [intOfText?, natOfDigits?_eq_some_iff.2 h]
      rfl
    | minus h =>
      rw [intOfText?, natOfDigits?_eq_some_iff.2 h]
      rfl

/-- The reader accepts the numerals of words of 64 bits, and no others. -/
theorem wordOfText?_eq_some_iff :
    wordOfText? cs = some k ↔ IsNumeral cs k ∧ -2 ^ 63 ≤ k ∧ k ≤ 2 ^ 63 - 1 := by
  rw [wordOfText?, Option.filter_eq_some_iff, intOfText?_eq_some_iff]
  refine and_congr_right fun _ => ?_
  have hpow : Int.pow 2 63 = 2 ^ 63 := rfl
  rw [Bool.and_eq_true, decide_eq_true_iff, decide_eq_true_iff, hpow]
  omega

theorem wordOfText?_eq_none_iff :
    wordOfText? cs = none ↔ ∀ k, IsNumeral cs k → k < -2 ^ 63 ∨ 2 ^ 63 - 1 < k := by
  rw [Option.eq_none_iff_forall_ne_some]
  refine forall_congr' fun k => ?_
  rw [ne_eq, wordOfText?_eq_some_iff]
  grind

end StyleValues
