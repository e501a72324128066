import StyleValues.Proofs.Number.Nearest

/-!
# Integers as numbers

An integer is rounded to the nearest binary64 number, which is an integer again and never negative
zero.

## Main results

* `Number.isNearest_ofInt`: the number for an integer is the nearest one.
* `Number.exists_value?_ofInt`: it is an integer within the same power-of-two bounds.
-/

namespace StyleValues.Number

open Float.Model (UnpackedFloat)
open Float.Model.UnpackedFloat

/-! ## The number for an integer -/

/-- A number for an integer other than zero has the sign of the integer. -/
theorem exists_ofInt_eq {n : Int} (h : n ≠ 0) :
    ∃ s : Sign, ofInt n = ofSignedNat s n.natAbs ∧ s.apply n.natAbs = n := by
  rcases lt_or_gt_of_ne h with hneg | hpos
  · have habs : (-n).toNat = n.natAbs := by omega
    refine ⟨.negative, ?_, ?_⟩
    · rw [ofInt, Float.Model.ofInt, UnpackedFloat.ofInt, UnpackedFloat.normalize,
        compare_lt_iff_lt.2 hneg]
      simp only [habs]
      rfl
    · rw [Sign.apply]
      omega
  · have habs : n.toNat = n.natAbs := by omega
    refine ⟨.positive, ?_, ?_⟩
    · rw [ofInt, Float.Model.ofInt, UnpackedFloat.ofInt, UnpackedFloat.normalize,
        compare_gt_iff_gt.2 hpos]
      simp only [habs]
      rfl
    · rw [Sign.apply]
      omega

/-- A signed word of 64 bits is far below the greatest finite number. -/
theorem log2_natAbs_lt {n : Int} (hmin : -2 ^ 63 ≤ n) (hmax : n ≤ 2 ^ 63 - 1) :
    n.natAbs.log2 < 1023 := by
  by_cases hzero : n.natAbs = 0
  · simp [hzero]
  · have := (Nat.log2_lt (k := 64) hzero).2 (by omega)
    omega

theorem isNearest_ofInt {n : Int} (hlog : n.natAbs.log2 < 1023) : IsNearest (ofInt n) n := by
  by_cases hzero : n = 0
  · subst hzero
    refine ⟨0, IsZero.value? (.inl rfl), fun y b _ => ?_⟩
    rw [Int.cast_zero, sub_zero, sub_zero, abs_zero]
    exact ⟨abs_nonneg b, fun h => .inl (abs_eq_zero.1 h.symm)⟩
  · obtain ⟨s, heq, hs⟩ := exists_ofInt_eq hzero
    have hnearest := isNearest_ofSignedNat s (Int.natAbs_ne_zero.2 hzero) hlog
    rwa [hs, ← heq] at hnearest

theorem natAbs_apply (s : Sign) (n : Nat) : (s.apply n).natAbs = n := by
  cases s <;> rw [Sign.apply] <;> omega

/-- An integer of at most 53 bits is not changed. -/
theorem value?_ofSignedNat_of_log2_le (s : Sign) {n : Nat} (hn : n ≠ 0) (hlog : n.log2 ≤ 52) :
    value? (ofSignedNat s n) = some (s.apply n : ℚ) := by
  obtain ⟨r, hle, hrounds, -, hx⟩ := exists_unpack_ofSignedNat s hn (by omega)
  obtain ⟨t, ht⟩ := Nat.exists_eq_add_of_le hlog
  have hexponent : (n.log2 - 52 : Int) = -t := by omega
  rw [← neg_sub, hexponent, neg_neg, zpow_natCast] at hrounds
  obtain rfl : r = n * 2 ^ t := RoundsTo.eq_of_natCast (by exact_mod_cast hrounds)
  rw [value?, hx, unpackedValue?_unpacked hle, hexponent, zpow_neg, zpow_natCast,
    apply_eq_mul s n]
  push_cast
  rw [mul_inv_cancel_right₀ (by positivity)]

/-- Rounding an integer gives an integer. It does not cross a power of two, nor zero. -/
theorem value?_ofInt {n : Int} (hlog : n.natAbs.log2 ≤ 52) : value? (ofInt n) = some (n : ℚ) := by
  by_cases hzero : n = 0
  · subst hzero
    exact IsZero.value? (.inl rfl)
  · obtain ⟨s, heq, hs⟩ := exists_ofInt_eq hzero
    rw [heq, value?_ofSignedNat_of_log2_le s (Int.natAbs_ne_zero.2 hzero) hlog, hs]

theorem exists_value?_ofSignedNat (s : Sign) {n : Nat} (hn : n ≠ 0) (hlog : n.log2 < 1023) :
    ∃ k : Nat, value? (ofSignedNat s n) = some (s.apply k : ℚ) ∧ k ≠ 0 ∧
      ∀ j, n ≤ 2 ^ j → k ≤ 2 ^ j := by
  rcases le_total n.log2 52 with hshort | hlong
  · exact ⟨n, value?_ofSignedNat_of_log2_le s hn hshort, hn, fun j hj => hj⟩
  obtain ⟨r, hle, hrounds, hfull, hx⟩ := exists_unpack_ofSignedNat s hn hlog
  have hr : r ≠ 0 := by
    have := hrounds.le_of_le (n := 2 ^ 52) (by exact_mod_cast hfull)
    omega
  have hvalue : value? (ofSignedNat s n) =
      some ((s.apply 1 : ℚ) * (r * 2 ^ (n.log2 - 52 : Int))) := by
    rw [value?, hx, unpackedValue?_unpacked hle]
  obtain ⟨t, ht⟩ := Nat.exists_eq_add_of_le hlong
  have hexponent : (n.log2 - 52 : Int) = t := by omega
  refine ⟨r * 2 ^ t, ?_, mul_ne_zero hr (by positivity), fun j hj => ?_⟩
  · rw [hvalue, hexponent, zpow_natCast, apply_eq_mul s (r * 2 ^ t : Nat)]
    push_cast
    rfl
  · have hlog2 : n.log2 ≤ j :=
      (Nat.pow_le_pow_iff_right (by decide)).1 ((Nat.log2_self_le hn).trans hj)
    obtain ⟨i, rfl⟩ := Nat.exists_eq_add_of_le (show t ≤ j by omega)
    have hscaled : (n : ℚ) * 2 ^ (52 - n.log2 : Int) ≤ (2 ^ i : Nat) := by
      rw [← neg_sub, hexponent, zpow_neg, zpow_natCast, ← div_eq_mul_inv,
        div_le_iff₀ (by positivity)]
      rw [Nat.add_comm, pow_add] at hj
      exact_mod_cast hj
    rw [Nat.add_comm, pow_add]
    exact Nat.mul_le_mul_right _ (hrounds.le_of_ge hscaled)

/-- The number for an integer is an integer, and zero only for zero. -/
theorem exists_value?_ofInt {n : Int} (hlog : n.natAbs.log2 < 1023) :
    ∃ k : Int, value? (ofInt n) = some (k : ℚ) ∧ (k = 0 → n = 0) ∧
      ∀ j, n.natAbs ≤ 2 ^ j → k.natAbs ≤ 2 ^ j := by
  by_cases hzero : n = 0
  · subst hzero
    exact ⟨0, IsZero.value? (.inl rfl), fun _ => rfl, fun j _ => Nat.zero_le _⟩
  · obtain ⟨s, heq, -⟩ := exists_ofInt_eq hzero
    obtain ⟨k, hvalue, hk, hbound⟩ :=
      exists_value?_ofSignedNat s (Int.natAbs_ne_zero.2 hzero) hlog
    have habs := natAbs_apply s k
    refine ⟨s.apply k, heq ▸ hvalue, fun h => ?_, fun j hj => habs.symm ▸ hbound j hj⟩
    rw [h] at habs
    exact absurd habs.symm hk

theorem ofInt_ne_neg_zero {n : Int} (hlog : n.natAbs.log2 < 1023) : ofInt n ≠ -0 := by
  intro h
  obtain ⟨k, hvalue, hk, -⟩ := exists_value?_ofInt hlog
  rw [h, IsZero.value? (.inr rfl)] at hvalue
  have hzero : k = 0 := by exact_mod_cast (Option.some.inj hvalue).symm
  rw [hk hzero] at h
  exact absurd h (by decide +kernel)

end StyleValues.Number
