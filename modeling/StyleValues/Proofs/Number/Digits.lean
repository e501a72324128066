import Mathlib
import StyleValues.Number.Decimal

/-!
# Rows of digits

## Main results

* `foldl_toDigits`: the digits of a number, read from left to right, give the number back.
-/

namespace StyleValues

variable {b : Nat}

/-- Every character in the digits of a number stands for a digit below the base. -/
theorem exists_of_mem_toDigits (hb : 1 < b) {n : Nat} {c : Char} (hc : c ∈ Nat.toDigits b n) :
    ∃ d < b, c = Nat.digitChar d := by
  induction n using Nat.strong_induction_on with
  | _ n ih =>
    rcases Nat.lt_or_ge n b with hlt | hge
    · rw [Nat.toDigits_of_lt_base hlt, List.mem_singleton] at hc
      exact ⟨n, hlt, hc⟩
    · rw [Nat.toDigits_of_base_le hb hge, List.mem_append, List.mem_singleton] at hc
      rcases hc with hc | hc
      · exact ih _ (Nat.div_lt_self (by omega) hb) hc
      · exact ⟨n % b, Nat.mod_lt n (by omega), hc⟩

/-- The digits of a number, read from left to right, give the number back. -/
theorem foldl_toDigits (hb : 1 < b) {value : Char → Nat}
    (hvalue : ∀ d < b, value (Nat.digitChar d) = d) (n : Nat) :
    (Nat.toDigits b n).foldl (fun m c => b * m + value c) 0 = n := by
  induction n using Nat.strong_induction_on with
  | _ n ih =>
    rcases Nat.lt_or_ge n b with hlt | hge
    · simp [Nat.toDigits_of_lt_base hlt, hvalue n hlt]
    · have hmod := hvalue (n % b) (Nat.mod_lt n (by omega))
      rw [Nat.toDigits_of_base_le hb hge, List.foldl_append, ih _ (Nat.div_lt_self (by omega) hb)]
      simp [hmod, Nat.div_add_mod]

end StyleValues
