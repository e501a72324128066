import StyleValues.Proofs.Number.Fraction
import StyleValues.Proofs.Number.Order

/-!
# Rounding to a number

A rational is rounded to the nearest number. Rounding keeps the order, so the result lies between
any two numbers that the rational lies between.

## Main definitions

* `Number.IsRounding`: a number is what a rational is rounded to.

## Main results

* `Number.IsRounding.le`: rounding keeps the order.
* `Number.IsRounding.exists_value?_of_abs_lt`: what is not too large is rounded to a finite number.
* `Number.IsRounding.value?_of_even`: what is at most half a unit away from an even mantissa is
  rounded to it.
-/

namespace StyleValues.Number

open Float.Model (Format UnpackedFloat)
open Float.Model.UnpackedFloat

/-! ## The order of roundings -/

theorem RoundsTo.le {p q : ℚ} {r r' : Nat} (hr : RoundsTo p r) (hr' : RoundsTo q r')
    (h : p ≤ q) : r ≤ r' := by
  by_contra hlt
  have hsucc : (r' : ℚ) + 1 ≤ r := by exact_mod_cast Nat.lt_of_not_le hlt
  have hlower := (abs_le.1 hr.near).2
  have hupper := (abs_le.1 hr'.near).1
  -- Both are equally near, and two neighbours cannot both be even.
  have hnext : (r : ℚ) = r' + 1 := by linarith
  have heven : Even r := by
    refine hr.even ?_
    rw [abs_of_nonneg] <;> linarith
  have heven' : Even r' := by
    refine hr'.even ?_
    rw [abs_of_nonpos] <;> linarith
  obtain rfl : r = r' + 1 := by exact_mod_cast hnext
  exact Nat.not_even_iff_odd.2 heven'.add_one heven

theorem RoundsTo.eq_of_even {q : ℚ} {r n : Nat} (hr : RoundsTo q r) (hn : Even n)
    (h : |q - n| ≤ 1 / 2) : r = n := by
  have hrounds : RoundsTo q n := ⟨by rwa [abs_sub_comm], fun _ => hn⟩
  exact le_antisymm (hr.le hrounds le_rfl) (hrounds.le hr le_rfl)

theorem mul_two_pow_neg_mul (v : ℚ) (t : Int) : v * 2 ^ (-t) * 2 ^ t = v := by
  rw [mul_assoc, ← zpow_add₀ two_ne_zero, neg_add_cancel, zpow_zero, mul_one]

/-- A mantissa of 53 bits that is rounded up to the next power of two has the next exponent. -/
theorem carry_mul_two_pow (t : Int) : (2 : ℚ) ^ 53 * 2 ^ t = 2 ^ 52 * 2 ^ (t + 1) := by
  rw [zpow_add_one₀ two_ne_zero]
  ring

theorem limit_le_of_exponent {t : Int} (h : 971 < t) : limit ≤ 2 ^ 52 * 2 ^ t := by
  rw [limit_eq, carry_mul_two_pow]
  gcongr
  · exact one_le_two
  · omega

namespace Rounded

variable {v w : ℚ} {r r' : Nat} {t t' : Int}

/-- Rounding keeps the order, also where the exponents differ. -/
theorem le_of_le (h : Rounded v r t) (h' : Rounded w r' t') (hvw : v ≤ w) :
    (r : ℚ) * 2 ^ t ≤ r' * 2 ^ t' := by
  have hr : (r : ℚ) ≤ 2 ^ 53 := by exact_mod_cast h.le
  rcases lt_trichotomy t t' with ht | rfl | ht
  · have hleast := h.least
    have hr' : (2 ^ 52 : ℚ) ≤ r' := by exact_mod_cast h'.full_mantissa.resolve_left (by omega)
    calc (r : ℚ) * 2 ^ t ≤ 2 ^ 53 * 2 ^ t := by gcongr
      _ = 2 ^ 52 * 2 ^ (t + 1) := carry_mul_two_pow t
      _ ≤ r' * 2 ^ t' := by
        gcongr
        · exact one_le_two
        · omega
  · have hle : r ≤ r' := h.roundsTo.le h'.roundsTo (by gcongr)
    gcongr
  -- The greater exponent is the next one, since the other mantissa has been rounded up to it.
  · obtain ⟨k, hk⟩ : ∃ k : Nat, t = t' + k := ⟨(t - t').toNat, by omega⟩
    have hleast := h'.least
    have hfull : 2 ^ 52 ≤ v * 2 ^ (-t) := h.full.resolve_left (by omega)
    have hscale : v * 2 ^ (-t) * 2 ^ k = v * 2 ^ (-t') := by
      rw [mul_assoc, ← zpow_natCast, ← zpow_add₀ two_ne_zero]
      congr 2
      omega
    have hvw : v * 2 ^ (-t') ≤ w * 2 ^ (-t') := by gcongr
    have hr' : (r' : ℚ) ≤ 2 ^ 53 := by exact_mod_cast h'.le
    have hnear := (abs_le.1 h.roundsTo.near).2
    have hnear' := (abs_le.1 h'.roundsTo.near).1
    obtain rfl : k = 1 := by
      by_contra hne
      have hfour : (2 : ℚ) ^ 2 ≤ 2 ^ k := by
        gcongr
        · exact one_le_two
        · omega
      nlinarith only [hfull, hscale, hvw, hr', hnear', hfour]
    have hlower : r ≤ 2 ^ 52 := by
      have hlt : (r : ℚ) < 2 ^ 52 + 1 := by linarith
      exact Nat.lt_succ_iff.1 (by exact_mod_cast hlt)
    have hupper : 2 ^ 53 ≤ r' := h'.roundsTo.le_of_le (by push_cast; linarith)
    calc (r : ℚ) * 2 ^ t ≤ 2 ^ 52 * 2 ^ t := by gcongr; exact_mod_cast hlower
      _ = 2 ^ 53 * 2 ^ t' := by rw [hk, Nat.cast_one, carry_mul_two_pow]
      _ ≤ r' * 2 ^ t' := by gcongr; exact_mod_cast hupper

theorem eq_zero (h : Rounded 0 r t) : r = 0 := by
  have hle := h.roundsTo.le_of_ge (n := 0) (by simp)
  omega

/-- The exponent is no greater than the rational needs. -/
theorem exponent_le {k : Int} (h : Rounded v r t) (hk : -1074 ≤ k) (hv : v < 2 ^ 53 * 2 ^ k) :
    t ≤ k := by
  by_contra hlt
  have hfull : 2 ^ 52 ≤ v * 2 ^ (-t) := h.full.resolve_left (by omega)
  refine absurd hv (not_lt.2 ?_)
  calc (2 : ℚ) ^ 53 * 2 ^ k = 2 ^ 52 * 2 ^ (k + 1) := carry_mul_two_pow k
    _ ≤ 2 ^ 52 * 2 ^ t := by
        gcongr
        · exact one_le_two
        · omega
    _ ≤ v * 2 ^ (-t) * 2 ^ t := by gcongr
    _ = v := mul_two_pow_neg_mul v t

/-- Rounding moves a rational by at most half a unit. -/
theorem abs_sub_le {k : Int} (h : Rounded v r t) (ht : t ≤ k) :
    |v - r * 2 ^ t| ≤ 1 / 2 * 2 ^ k := by
  have hpos : (0 : ℚ) < 2 ^ t := zpow_pos two_pos t
  calc |v - r * 2 ^ t| = |v * 2 ^ (-t) - r| * 2 ^ t := by
        conv_lhs => rw [← mul_two_pow_neg_mul v t]
        rw [← sub_mul, abs_mul, abs_of_pos hpos]
    _ ≤ 1 / 2 * 2 ^ t := by
        gcongr
        rw [abs_sub_comm]
        exact h.roundsTo.near
    _ ≤ 1 / 2 * 2 ^ k := by
        gcongr
        exact one_le_two

/-- What is at most half a unit away from an even mantissa is rounded to it. -/
theorem eq_of_even {n : Nat} {k : Int} (h : Rounded v r t) (hn : Even n) (hlower : 2 ^ 52 < n)
    (hupper : n < 2 ^ 53) (hk : -1074 ≤ k) (hv : |v - n * 2 ^ k| ≤ 1 / 2 * 2 ^ k) :
    r = n ∧ t = k := by
  have hpos : (0 : ℚ) < 2 ^ k := zpow_pos two_pos k
  obtain ⟨hvlower, hvupper⟩ := abs_le.1 hv
  have hn52 : (2 ^ 52 + 1 : ℚ) * 2 ^ k ≤ n * 2 ^ k := by
    gcongr
    exact_mod_cast hlower
  have hn53 : (n + 1 : ℚ) * 2 ^ k ≤ 2 ^ 53 * 2 ^ k := by
    gcongr
    exact_mod_cast hupper
  have ht : t ≤ k := h.exponent_le hk (by linarith)
  obtain rfl : t = k := by
    refine le_antisymm ht (not_lt.1 fun hlt => ?_)
    -- With a smaller exponent the mantissa would have more than 53 bits.
    have hr : (r : ℚ) * 2 ^ t ≤ 2 ^ 53 * 2 ^ t := by
      gcongr
      exact_mod_cast h.le
    have hnear := (abs_le.1 (h.abs_sub_le le_rfl)).2
    have hdouble : (2 : ℚ) * 2 ^ t ≤ 2 ^ k := by
      rw [mul_comm, ← zpow_add_one₀ two_ne_zero]
      gcongr
      · exact one_le_two
      · omega
    linarith
  refine ⟨h.roundsTo.eq_of_even hn ?_, rfl⟩
  refine le_of_mul_le_mul_right ?_ hpos
  rwa [← abs_of_pos hpos, ← abs_mul, abs_of_pos hpos, sub_mul, mul_two_pow_neg_mul]

theorem lt_limit_of_inRange (h : Rounded v r t) (hrange : InRange r t) :
    (r : ℚ) * 2 ^ t < limit := by
  have hle : (r : ℚ) ≤ 2 ^ 53 := by exact_mod_cast h.le
  rw [limit_eq]
  rcases hrange with ht | ⟨rfl, hr⟩
  · calc (r : ℚ) * 2 ^ t ≤ 2 ^ 53 * 2 ^ (970 : Int) := by
          gcongr
          exact one_le_two
      _ < 2 ^ 53 * 2 ^ (971 : Int) := by
          gcongr
          · exact one_lt_two
          · decide
  · have hlt : (r : ℚ) < 2 ^ 53 := by exact_mod_cast hr
    gcongr

theorem limit_le_of_not_inRange (h : Rounded v r t) (hrange : ¬ InRange r t) :
    limit ≤ (r : ℚ) * 2 ^ t := by
  unfold InRange at hrange
  have hle := h.le
  have hfull : 2 ^ 52 ≤ r := h.full_mantissa.resolve_left (by omega)
  by_cases ht : t = 971
  · obtain rfl : r = 2 ^ 53 := by omega
    rw [ht, limit_eq, Nat.cast_pow, Nat.cast_ofNat]
  · have hr : (2 ^ 52 : ℚ) ≤ r := by exact_mod_cast hfull
    calc limit ≤ 2 ^ 52 * 2 ^ t := limit_le_of_exponent (by omega)
      _ ≤ r * 2 ^ t := by gcongr

/-- A number that is rounded up to the limit, or beyond, becomes an infinity. -/
theorem position?_pack (h : Rounded v r t) (s : Sign) :
    unpackedPosition? (Float.Model.pack (unpacked s r t)).unpack =
      some (s.apply 1 * min (r * 2 ^ t : ℚ) limit) := by
  by_cases hrange : InRange r t
  · rw [h.unpack_pack hrange, min_eq_left (h.lt_limit_of_inRange hrange).le,
      ← unpackedValue?_unpacked h.le]
    unfold unpacked
    split_ifs <;> rfl
  · rw [h.unpack_pack_of_not_inRange hrange, min_eq_right (h.limit_le_of_not_inRange hrange)]
    rfl

end Rounded

/-! ## Roundings -/

/-- An unpacked number is what a rational is rounded to. The sign of zero is left open. -/
def Rounds (u : UnpackedFloat) (v : ℚ) : Prop :=
  ∃ (s : Sign) (r : Nat) (t : Int), Rounded |v| r t ∧ s.apply 1 * |v| = v ∧ u = unpacked s r t

/-- A number is what a rational is rounded to, ties to the even mantissa. What is rounded up to the
limit becomes an infinity. The sign of zero is left open. -/
def IsRounding (x : Float) (v : ℚ) : Prop :=
  ∃ u, Rounds u v ∧ x.toModel = .pack u

variable {x y z : Float} {p q v w : ℚ}

namespace IsRounding

theorem exists_position? (h : IsRounding x v) :
    ∃ (s : Sign) (r : Nat) (t : Int), Rounded |v| r t ∧ s.apply 1 * |v| = v ∧
      position? x = some (s.apply 1 * min (r * 2 ^ t : ℚ) limit) := by
  obtain ⟨u, ⟨s, r, t, hrounded, hs, rfl⟩, hx⟩ := h
  exact ⟨s, r, t, hrounded, hs, by rw [position?, hx, hrounded.position?_pack]⟩

theorem isNaN (h : IsRounding x v) : x.isNaN = false := by
  obtain ⟨s, r, t, -, -, hx⟩ := h.exists_position?
  exact isNaN_eq_false_iff.2 ⟨_, hx⟩

/-- Rounding keeps the order. -/
theorem le (hx : IsRounding x v) (hy : IsRounding y w) (h : v ≤ w) : x ≤ y := by
  obtain ⟨s, r, t, hv, hs, hpx⟩ := hx.exists_position?
  obtain ⟨s', r', t', hw, hs', hpy⟩ := hy.exists_position?
  refine le_iff.2 ⟨_, _, hpx, hpy, ?_⟩
  have hlimit := limit_pos
  have hnonneg (r : Nat) (t : Int) : 0 ≤ min (r * 2 ^ t : ℚ) limit :=
    le_min (by positivity) hlimit.le
  have hle := hnonneg r t
  have hle' := hnonneg r' t'
  have habs := abs_nonneg v
  have habs' := abs_nonneg w
  cases s <;> cases s' <;>
    simp only [Sign.apply, Int.cast_neg, Int.cast_one, neg_mul, one_mul] at hs hs' ⊢
  · exact neg_le_neg (min_le_min_right _ (hw.le_of_le hv (by linarith)))
  · linarith
  · have hzero : |v| = 0 := by linarith
    have hzero' : |w| = 0 := by linarith
    rw [hzero] at hv
    rw [hzero'] at hw
    simp [hv.eq_zero, hw.eq_zero, hlimit.le]
  · exact min_le_min_right _ (hv.le_of_le hw (by linarith))

end IsRounding

/-! ## Exact results -/

/-- What a mantissa and an exponent are rounded to, if they are those of a number. -/
theorem Canonical.rounded {m : Nat} {e : Int} (h : Canonical m e) : Rounded (m * 2 ^ e) m e := by
  have hscale : (m : ℚ) * 2 ^ e * 2 ^ (-e) = m := by
    rw [mul_assoc, ← zpow_add₀ two_ne_zero, add_neg_cancel, zpow_zero, mul_one]
  refine ⟨h.lt.le, h.least, ?_, ?_⟩
  · rw [hscale]
    constructor <;> simp
  · rw [hscale]
    exact h.full.symm.imp_right fun hfull => by exact_mod_cast hfull

theorem rounds_zero (s : Sign) : Rounds (.zero s) 0 :=
  ⟨s, 0, -1074, rounded_zero (by simp), by simp, rfl⟩

theorem abs_apply_mul {a : ℚ} (s : Sign) (ha : 0 ≤ a) : |s.apply 1 * a| = a := by
  rw [abs_mul, abs_apply_one, one_mul, abs_of_nonneg ha]

theorem Rounded.rounds {a : ℚ} {r : Nat} {t : Int} (h : Rounded a r t) (ha : 0 ≤ a) (s : Sign) :
    Rounds (unpacked s r t) (s.apply 1 * a) := by
  refine ⟨s, r, t, ?_, ?_, rfl⟩ <;> rw [abs_apply_mul s ha]
  exact h

theorem Canonical.rounds {m : Nat} {e : Int} (h : Canonical m e) (s : Sign) (hm : 0 < m) :
    Rounds (.finite s m e hm) (s.apply m * 2 ^ e) := by
  have hrounds := h.rounded.rounds (by positivity) s
  rwa [unpacked, dif_neg hm.ne', if_pos h.lt, ← mul_assoc, ← Int.cast_natCast (R := ℚ) m,
    ← apply_eq_mul] at hrounds

/-- A finite number is what the rational that it denotes is rounded to. -/
theorem rounds_unpack (h : value? x = some v) : Rounds x.toModel.unpack v := by
  rw [value?] at h
  cases hx : x.toModel.unpack with
  | notANumber | infinity s =>
    rw [hx] at h
    cases h
  | zero s =>
    rw [hx] at h
    cases h
    exact rounds_zero s
  | finite s m e hm =>
    rw [hx] at h
    cases h
    exact (canonical_of_unpack hx).rounds s hm

/-- No finite number is greater than the last one before the limit. -/
theorem abs_le_of_value? (h : value? x = some v) : |v| ≤ limit - 2 ^ (971 : Int) := by
  have hlast : limit - 2 ^ (971 : Int) = (2 ^ 53 - 1) * 2 ^ (971 : Int) := by
    rw [limit_eq, sub_mul, one_mul]
  rw [hlast]
  by_cases hv : v = 0
  · rw [hv, abs_zero]
    exact mul_nonneg (by norm_num) (zpow_pos two_pos _).le
  · obtain ⟨s, m, e, hm, hx, rfl⟩ := exists_unpack_of_value? h hv
    have hc := canonical_of_unpack hx
    have hmantissa : (m : ℚ) ≤ 2 ^ 53 - 1 := by
      have hlt : (m + 1 : ℚ) ≤ 2 ^ 53 := by exact_mod_cast hc.lt
      linarith
    rw [apply_eq_mul, mul_assoc, abs_apply_mul s (by positivity), Int.cast_natCast]
    gcongr
    · exact one_le_two
    · exact hc.greatest

theorem isRounding_of_value? (h : value? x = some v) : IsRounding x v :=
  ⟨_, rounds_unpack h, congrArg Float.toModel (Float.ofBits_toBits x).symm⟩

namespace IsRounding

theorem le_of_value? (h : IsRounding x v) (hx : value? x = some q) (hy : value? y = some p)
    (hpv : p ≤ v) : p ≤ q :=
  (le_iff_of_value? hy hx).1 ((isRounding_of_value? hy).le h hpv)

theorem ge_of_value? (h : IsRounding x v) (hx : value? x = some q) (hy : value? y = some p)
    (hvp : v ≤ p) : q ≤ p :=
  (le_iff_of_value? hx hy).1 (h.le (isRounding_of_value? hy) hvp)

/-- A result lies between the numbers that the exact result lies between. -/
theorem exists_value?_of_between (h : IsRounding x v) (hy : value? y = some p)
    (hz : value? z = some q) (hpv : p ≤ v) (hvq : v ≤ q) :
    ∃ a, value? x = some a ∧ p ≤ a ∧ a ≤ q :=
  exists_value?_of_le_of_le hy hz ((isRounding_of_value? hy).le h hpv)
    (h.le (isRounding_of_value? hz) hvq)

/-- A rational that a number denotes is rounded to that number, up to the sign of zero. -/
theorem value?_eq (h : IsRounding x v) (hy : value? y = some p) (hv : v = p) :
    value? x = some p := by
  obtain ⟨a, ha, hle, hge⟩ := h.exists_value?_of_between hy hy hv.ge hv.le
  rwa [le_antisymm hge hle] at ha

/-- A rational is rounded to a finite number if it is less than half a unit beyond the greatest
one. -/
theorem exists_value?_of_abs_lt (h : IsRounding x v) (hv : |v| < limit - 2 ^ (970 : Int)) :
    ∃ a, value? x = some a := by
  obtain ⟨s, r, t, hrounded, -, hx⟩ := h.exists_position?
  have hlt : (r : ℚ) * 2 ^ t < limit := by
    refine hrounded.lt_limit_of_inRange ?_
    by_contra hrange
    have hlimit := hrounded.limit_le_of_not_inRange hrange
    have hpos : (0 : ℚ) < 2 ^ t := zpow_pos two_pos t
    have hv' := mul_two_pow_neg_mul |v| t
    rcases le_or_gt t 971 with ht | ht
    · have hhalf : 1 / 2 * 2 ^ t ≤ (2 : ℚ) ^ (970 : Int) := by
        calc (1 / 2 : ℚ) * 2 ^ t ≤ 1 / 2 * 2 ^ (970 + 1 : Int) := by
              gcongr
              · exact one_le_two
              · omega
          _ = 2 ^ (970 : Int) := by rw [zpow_add_one₀ two_ne_zero]; ring
      have hnear : (r - 1 / 2 : ℚ) * 2 ^ t ≤ |v| * 2 ^ (-t) * 2 ^ t := by
        gcongr
        linarith [(abs_le.1 hrounded.roundsTo.near).2]
      rw [hv', sub_mul] at hnear
      linarith
    · have hfull : 2 ^ 52 * 2 ^ t ≤ |v| * 2 ^ (-t) * 2 ^ t := by
        gcongr
        exact hrounded.full.resolve_left (by omega)
      have hge := limit_le_of_exponent ht
      have hunit : (0 : ℚ) < 2 ^ (970 : Int) := zpow_pos two_pos _
      rw [hv'] at hfull
      exact absurd hv (not_lt.2 ((sub_le_self limit hunit.le).trans (hge.trans hfull)))
  refine ⟨_, value?_of_abs_lt hx ?_⟩
  rw [min_eq_left hlt.le, abs_apply_mul s (by positivity)]
  exact hlt

/-- A rational is rounded to a finite number if it is not much greater than another one. -/
theorem exists_value?_of_near (h : IsRounding x v) (hy : value? y = some p)
    (hv : |v| < |p| + 2 ^ (970 : Int)) : ∃ a, value? x = some a := by
  refine h.exists_value?_of_abs_lt ?_
  have hp := abs_le_of_value? hy
  rw [show (971 : Int) = 970 + 1 from rfl, zpow_add_one₀ two_ne_zero] at hp
  generalize (2 : ℚ) ^ (970 : Int) = u at hp hv ⊢
  linarith

/-- Rounding moves a rational by at most half a unit. -/
theorem abs_sub_le {k : Int} (h : IsRounding x v) (hx : value? x = some p) (hk : -1074 ≤ k)
    (hv : |v| < 2 ^ 53 * 2 ^ k) : |v - p| ≤ 1 / 2 * 2 ^ k := by
  obtain ⟨s, r, t, hrounded, hs, hposition⟩ := h.exists_position?
  have hp : s.apply 1 * min (r * 2 ^ t : ℚ) limit = p := by
    rw [position?_of_value? hx] at hposition
    exact (Option.some.inj hposition).symm
  have hfinite : (r : ℚ) * 2 ^ t < limit := by
    by_contra hge
    have hlt := abs_lt_limit_of_value? hx
    rw [← hp, min_eq_right (not_lt.1 hge), abs_apply_mul s limit_pos.le] at hlt
    exact lt_irrefl _ hlt
  rw [min_eq_left hfinite.le] at hp
  rw [← hp]
  nth_rewrite 1 [← hs]
  rw [← mul_sub, abs_mul, abs_apply_one, one_mul]
  exact hrounded.abs_sub_le (hrounded.exponent_le hk hv)

/-- What is at most half a unit away from an even mantissa is rounded to it. -/
theorem value?_of_even {n : Nat} {k : Int} (h : IsRounding x v) (hn : Even n) (hlower : 2 ^ 52 < n)
    (hupper : n < 2 ^ 53) (hk : -1074 ≤ k) (hk' : k ≤ 970) (hv : |v - n * 2 ^ k| ≤ 1 / 2 * 2 ^ k) :
    value? x = some (n * 2 ^ k : ℚ) := by
  have hpos : (0 : ℚ) < 2 ^ k := zpow_pos two_pos k
  have hvpos : 0 < v := by
    have hn1 : (1 : ℚ) * 2 ^ k ≤ n * 2 ^ k := by
      gcongr
      exact_mod_cast (by omega : 1 ≤ n)
    linarith [(abs_le.1 hv).1]
  obtain ⟨s, r, t, hrounded, hs, hposition⟩ := h.exists_position?
  rw [abs_of_pos hvpos] at hrounded hs
  obtain ⟨rfl, rfl⟩ := hrounded.eq_of_even hn hlower hupper hk hv
  have hlt := hrounded.lt_limit_of_inRange (.inl (by omega))
  have hs1 : (s.apply 1 : ℚ) = 1 := mul_right_cancel₀ hvpos.ne' (hs.trans (one_mul v).symm)
  rw [min_eq_left hlt.le, hs1, one_mul] at hposition
  refine value?_of_abs_lt hposition ?_
  rwa [abs_of_nonneg (by positivity)]

end IsRounding

end StyleValues.Number
