import StyleValues.Proofs.Number.Rounding
import StyleValues.Proofs.Number.Text
import StyleValues.Proofs.Number.Truncation

/-!
# Rounded arithmetic

Sums, differences, products and quotients of finite numbers are the exact results, rounded.

## Main results

* `Number.isRounding_add`, `Number.isRounding_sub`, `Number.isRounding_mul`,
  `Number.isRounding_div`: the operations are rounded.
* `Number.add_le_add_of_value?`: sums grow with what is added, also where they overflow.
* `Number.isInf_of_isNaN_div`: which quotients are NaN.
-/

namespace StyleValues.Number

open Float.Model (Format UnpackedFloat)
open Float.Model.UnpackedFloat

variable {x y z : Float} {p q v : ℚ}

/-! ## Operations on unpacked numbers -/

section Unpacked

variable {m n : Nat} {e f : Int}

/-- A mantissa of any length is rounded, with any exponent. -/
theorem rounds_round (s : Sign) (hm : m ≠ 0) (e : Int) :
    Rounds (UnpackedFloat.round .binary64 s m e) (s.apply 1 * (m * 2 ^ e)) := by
  obtain ⟨k, hk⟩ : ∃ k, k = (e - max (m.log2 + e - 52) (-1074)).toNat := ⟨_, rfl⟩
  have hlog := log2_mul_two_pow hm k
  obtain ⟨r, t, hrounded, hround⟩ := exists_rounded s (represents_exact (m * 2 ^ k))
    (show 52 ≤ (m * 2 ^ k).log2 ∨ e - k ≤ -1074 by omega)
  have hscale : ((m * 2 ^ k : Nat) : ℚ) * 2 ^ (e - k) = m * 2 ^ e := by
    rw [Nat.cast_mul, Nat.cast_pow, Nat.cast_ofNat, mul_assoc, ← zpow_natCast,
      ← zpow_add₀ two_ne_zero, add_sub_cancel]
  rw [hscale] at hrounded
  rw [UnpackedFloat.round, targetExponent_binary64, decreaseExponent, ← hk, Nat.shiftLeft_eq]
  change Rounds (roundWithAccuracy .binary64 s (m * 2 ^ k) (e - k) .exact) _
  rw [hround]
  exact hrounded.rounds (by positivity) s

theorem rounds_normalize (n e : Int) (s : Sign) :
    Rounds (UnpackedFloat.normalize .binary64 n e s) (n * 2 ^ e) := by
  rcases lt_trichotomy n 0 with hn | rfl | hn
  · have h := rounds_round .negative (show (-n).toNat ≠ 0 by omega) e
    have hcast : ((-n).toNat : ℚ) = -n := by
      exact_mod_cast Int.toNat_of_nonneg (show 0 ≤ -n by omega)
    rw [hcast] at h
    simpa [UnpackedFloat.normalize, compare_lt_iff_lt.2 hn, Sign.apply] using h
  · simpa [UnpackedFloat.normalize, compare_eq_iff_eq.2] using rounds_zero s
  · have h := rounds_round .positive (show n.toNat ≠ 0 by omega) e
    have hcast : (n.toNat : ℚ) = n := by exact_mod_cast Int.toNat_of_nonneg hn.le
    rw [hcast] at h
    simpa [UnpackedFloat.normalize, compare_gt_iff_gt.2 hn, Sign.apply] using h

/-- A mantissa that is aligned to a smaller exponent keeps its value. -/
theorem aligned_mul_two_pow (s : Sign) (h : f ≤ e) :
    (s.apply ((decreaseExponent m e f).1 : Nat) : ℚ) * 2 ^ f = s.apply m * 2 ^ e := by
  have hk : ((e - f).toNat : Int) + f = e := by omega
  calc (s.apply ((decreaseExponent m e f).1 : Nat) : ℚ) * 2 ^ f
      = s.apply 1 * (m * 2 ^ (e - f).toNat) * 2 ^ f := by
        rw [apply_eq_mul, decreaseExponent, Nat.shiftLeft_eq]
        push_cast
        rfl
    _ = s.apply m * (2 ^ ((e - f).toNat : Int) * 2 ^ f) := by
        rw [apply_eq_mul s m, zpow_natCast, Int.cast_natCast]
        ring
    _ = s.apply m * 2 ^ e := by rw [← zpow_add₀ two_ne_zero, hk]

theorem unpacked_neg (s : Sign) (r : Nat) (t : Int) :
    UnpackedFloat.neg (unpacked s r t) = unpacked (-s) r t := by
  unfold unpacked
  split_ifs <;> rfl

theorem neg_apply_one (s : Sign) : ((-s).apply 1 : ℚ) = -s.apply 1 := by
  have h : (-s).apply 1 = -s.apply 1 := by cases s <;> rfl
  exact_mod_cast h

theorem mul_apply_one (s s' : Sign) :
    ((s * s').apply 1 : ℚ) = s.apply 1 * s'.apply 1 := by
  have h : (s * s').apply 1 = s.apply 1 * s'.apply 1 := by cases s <;> cases s' <;> rfl
  exact_mod_cast h

theorem div_apply_one (s s' : Sign) :
    ((s / s').apply 1 : ℚ) = s.apply 1 / s'.apply 1 := by
  have h : (s / s').apply 1 = s.apply 1 * s'.apply 1 := by cases s <;> cases s' <;> rfl
  rw [eq_div_iff (by cases s' <;> decide), h, Int.cast_mul, mul_assoc, apply_one_mul_self, mul_one]

end Unpacked

theorem Rounds.neg {u : UnpackedFloat} (h : Rounds u v) : Rounds u.neg (-v) := by
  obtain ⟨s, r, t, hrounded, hs, rfl⟩ := h
  refine ⟨-s, r, t, ?_, ?_, unpacked_neg s r t⟩
  · rwa [abs_neg]
  · rw [abs_neg, neg_apply_one, neg_mul, hs]

theorem rounds_add {u w : UnpackedFloat} (hu : Rounds u p) (hw : Rounds w q)
    (hp : unpackedValue? u = some p) (hq : unpackedValue? w = some q) :
    Rounds (UnpackedFloat.add .binary64 u w) (p + q) := by
  cases u <;> cases w <;> cases hp <;> cases hq
  case zero.zero s s' =>
    rw [add_zero, UnpackedFloat.add]
    split <;> exact rounds_zero _
  case zero.finite => rwa [zero_add]
  case finite.zero => rwa [add_zero]
  case finite.finite s m e hm s' m' e' hm' =>
    rw [← aligned_mul_two_pow s (min_le_left e e'), ← aligned_mul_two_pow s' (min_le_right e e'),
      ← add_mul]
    exact_mod_cast rounds_normalize _ _ .positive

theorem rounds_sub {u w : UnpackedFloat} (hu : Rounds u p) (hw : Rounds w q)
    (hp : unpackedValue? u = some p) (hq : unpackedValue? w = some q) :
    Rounds (UnpackedFloat.sub .binary64 u w) (p - q) := by
  cases u <;> cases w <;> cases hp <;> cases hq
  case zero.zero s s' =>
    rw [sub_zero, UnpackedFloat.sub]
    split <;> exact rounds_zero _
  case zero.finite =>
    rw [zero_sub]
    exact hw.neg
  case finite.zero => rwa [sub_zero]
  case finite.finite s m e hm s' m' e' hm' =>
    rw [← aligned_mul_two_pow s (min_le_left e e'), ← aligned_mul_two_pow s' (min_le_right e e'),
      ← sub_mul]
    exact_mod_cast rounds_normalize _ _ .positive

/-- The product of two mantissas has more than 52 bits, or its exponent is below the least one. -/
theorem Canonical.mul_log2 {m n : Nat} {e f : Int} (hm : Canonical m e) (hn : Canonical n f) :
    52 ≤ (m * n).log2 ∨ e + f ≤ -1074 := by
  have hne : m * n ≠ 0 := (Nat.mul_pos hm.pos hn.pos).ne'
  rw [Nat.le_log2 hne]
  rcases hm.full with hfull | he
  · exact .inl (hfull.trans (Nat.le_mul_of_pos_right m hn.pos))
  rcases hn.full with hfull | hf
  · exact .inl (hfull.trans (Nat.le_mul_of_pos_left n hm.pos))
  · exact .inr (by omega)

/-! ## Operations -/

theorem isRounding_add (hx : value? x = some p) (hy : value? y = some q) :
    IsRounding (x + y) (p + q) :=
  ⟨_, rounds_add (rounds_unpack hx) (rounds_unpack hy) hx hy, rfl⟩

theorem isRounding_sub (hx : value? x = some p) (hy : value? y = some q) :
    IsRounding (x - y) (p - q) :=
  ⟨_, rounds_sub (rounds_unpack hx) (rounds_unpack hy) hx hy, rfl⟩

theorem isRounding_mul (hx : value? x = some p) (hy : value? y = some q) :
    IsRounding (x * y) (p * q) := by
  refine ⟨UnpackedFloat.mul .binary64 x.toModel.unpack y.toModel.unpack, ?_, rfl⟩
  rw [value?] at hx hy
  cases hu : x.toModel.unpack <;> cases hw : y.toModel.unpack <;> rw [hu] at hx <;>
    rw [hw] at hy <;> cases hx <;> cases hy
  case finite.finite s m e hm s' n f hn =>
    have hlog := (canonical_of_unpack hu).mul_log2 (canonical_of_unpack hw)
    obtain ⟨r, t, hrounded, hround⟩ := exists_rounded (s * s') (represents_exact (m * n)) hlog
    have hrounds := hrounded.rounds (by positivity) (s * s')
    have hvalue : (s * s').apply 1 * (((m * n : Nat) : ℚ) * 2 ^ (e + f)) =
        s.apply m * 2 ^ e * (s'.apply n * 2 ^ f) := by
      rw [mul_apply_one, apply_eq_mul s m, apply_eq_mul s' n, zpow_add₀ two_ne_zero]
      push_cast
      ring
    rwa [← hround, hvalue] at hrounds
  all_goals
    simp only [zero_mul, mul_zero]
    exact rounds_zero _

theorem isRounding_div (hx : value? x = some p) (hy : value? y = some q) (hq : q ≠ 0) :
    IsRounding (x / y) (p / q) := by
  refine ⟨UnpackedFloat.div .binary64 x.toModel.unpack y.toModel.unpack, ?_, rfl⟩
  rw [value?] at hx hy
  cases hu : x.toModel.unpack <;> cases hw : y.toModel.unpack <;> rw [hu] at hx <;>
    rw [hw] at hy <;> cases hx <;> cases hy
  case zero.zero | finite.zero => exact absurd rfl hq
  case zero.finite =>
    rw [zero_div]
    exact rounds_zero _
  case finite.finite s m e hm s' n f hn =>
    obtain ⟨r, t, hrounded, hdiv⟩ := exists_div_eq s s' (e := e) (f := f) hm hn
    have hrounds := hrounded.rounds (by positivity) (s / s')
    have hvalue : (s / s').apply 1 * ((m : ℚ) * 2 ^ e / (n * 2 ^ f)) =
        s.apply m * 2 ^ e / (s'.apply n * 2 ^ f) := by
      rw [div_apply_one, apply_eq_mul s m, apply_eq_mul s' n]
      push_cast
      ring
    rwa [← hdiv, hvalue] at hrounds

/-! ## Sums -/

theorem value?_neg (hx : value? x = some p) : value? (-x) = some (-p) := by
  by_cases hp : p = 0
  · subst hp
    rw [neg_zero]
    rcases isZero_of_value? hx with rfl | rfl <;> rfl
  · obtain ⟨s, m, e, hm, hu, rfl⟩ := exists_unpack_of_value? hx hp
    rw [value?, unpack_neg hu, unpackedValue?, apply_eq_mul, neg_apply_one, apply_eq_mul s m,
      neg_mul, neg_mul]

/-- A number and its opposite add up to positive zero. -/
theorem add_neg_of_value? (hx : value? x = some p) (hp : p ≠ 0) : x + -x = 0 := by
  obtain ⟨s, m, e, hm, hu, -⟩ := exists_unpack_of_value? hx hp
  apply unpack_injective
  change (Float.Model.pack
    (UnpackedFloat.add .binary64 x.toModel.unpack (-x).toModel.unpack)).unpack = _
  have hcancel (n : Int) : s.apply n + (-s).apply n = 0 := by
    cases s
    · exact Int.add_left_neg n
    · exact Int.add_right_neg n
  rw [hu, unpack_neg hu, UnpackedFloat.add]
  simp only [min_self, hcancel]
  rfl

theorem exists_infinity_of_position? (hy : position? y = some q) (hq : |q| = limit) :
    ∃ s, y.toModel.unpack = .infinity s := by
  rw [position?] at hy
  cases hu : y.toModel.unpack with
  | infinity s => exact ⟨s, rfl⟩
  | notANumber | zero s | finite s m e hm =>
    have hvalue : value? y = some q := by
      rw [hu] at hy
      rw [value?, hu]
      exact hy
    exact absurd hq (abs_lt_limit_of_value? hvalue).ne

/-- An infinity stays what it is when a finite number is added. -/
theorem add_eq_of_abs_eq_limit (hx : value? x = some p) (hy : position? y = some q)
    (hq : |q| = limit) : x + y = y := by
  obtain ⟨s, hs⟩ := exists_infinity_of_position? hy hq
  have hadd : UnpackedFloat.add .binary64 x.toModel.unpack y.toModel.unpack = y.toModel.unpack := by
    rw [value?] at hx
    rw [hs]
    cases hu : x.toModel.unpack with
    | notANumber | infinity t =>
      rw [hu] at hx
      cases hx
    | zero | finite => rfl
  change Float.ofModel (.pack (UnpackedFloat.add .binary64 x.toModel.unpack y.toModel.unpack)) = y
  rw [hadd]
  exact Float.ofBits_toBits y

theorem exists_position?_add (hx : value? x = some p) (hy : position? y = some q) :
    ∃ w, position? (x + y) = some w := by
  rcases position?_cases hy with hvalue | hq
  · exact isNaN_eq_false_iff.1 (isRounding_add hx hvalue).isNaN
  · exact ⟨q, by rwa [add_eq_of_abs_eq_limit hx hy hq]⟩

theorem abs_le_limit_of_position? (hx : position? x = some p) : |p| ≤ limit := by
  rcases position?_cases hx with hvalue | hp
  · exact (abs_lt_limit_of_value? hvalue).le
  · exact hp.le

/-- A sum grows with what is added to a finite number, also where it overflows. -/
theorem add_le_add_of_value? (hx : value? x = some p) (h : y ≤ z) : x + y ≤ x + z := by
  obtain ⟨a, b, hy, hz, hab⟩ := le_iff.1 h
  obtain ⟨v, hv⟩ := exists_position?_add hx hy
  obtain ⟨w, hw⟩ := exists_position?_add hx hz
  have hvlimit := abs_le.1 (abs_le_limit_of_position? hv)
  have hwlimit := abs_le.1 (abs_le_limit_of_position? hw)
  rcases position?_cases hy with hya | ha
  · rcases position?_cases hz with hzb | hb
    · exact (isRounding_add hx hya).le (isRounding_add hx hzb) (by linarith)
    -- The greater number is an infinity, and no negative one.
    · have halimit := abs_lt.1 (abs_lt_limit_of_value? hya)
      have hblimit : b = limit := by
        rcases abs_cases b with hb' | hb' <;> linarith
      rw [add_eq_of_abs_eq_limit hx hz hb]
      exact le_iff.2 ⟨v, b, hv, hz, by linarith⟩
  · rw [add_eq_of_abs_eq_limit hx hy ha]
    rcases position?_cases hz with hzb | hb
    · have hblimit := abs_lt.1 (abs_lt_limit_of_value? hzb)
      have halimit : a = -limit := by
        rcases abs_cases a with ha' | ha' <;> linarith
      exact le_iff.2 ⟨a, w, hy, hw, by linarith⟩
    · rwa [add_eq_of_abs_eq_limit hx hz hb]

/-! ## Quotients that are not numbers -/

theorem isInf_of_position? (hx : position? x = some p) (hp : |p| = limit) : x.isInf = true := by
  obtain ⟨s, hs⟩ := exists_infinity_of_position? hx hp
  change x.toModel.unpack.isInf = true
  rw [hs]
  rfl

theorem isNaN_pack_zero (s : Sign) : (Float.Model.pack (.zero s)).isNaN = false := by
  cases s <;> rfl

theorem isNaN_pack_infinity (s : Sign) : (Float.Model.pack (.infinity s)).isNaN = false := by
  cases s <;> rfl

/-- If numbers other than NaN are divided, and not by zero, only the quotient of two infinities is
NaN. -/
theorem isInf_of_isNaN_div (hx : x.isNaN = false) (hy : y.isNaN = false) (hzero : ¬ IsZero y)
    (h : (x / y).isNaN = true) : x.isInf = true ∧ y.isInf = true := by
  obtain ⟨p, hp⟩ := isNaN_eq_false_iff.1 hx
  obtain ⟨q, hq⟩ := isNaN_eq_false_iff.1 hy
  rcases position?_cases hp with hpv | hpl <;> rcases position?_cases hq with hqv | hql
  · have hq0 : q ≠ 0 := by
      rintro rfl
      exact hzero (isZero_of_value? hqv)
    exact absurd h (ne_true_of_eq_false (isRounding_div hpv hqv hq0).isNaN)
  · -- A finite number divided by an infinity is zero.
    obtain ⟨t, ht⟩ := exists_infinity_of_position? hq hql
    change (Float.Model.pack (UnpackedFloat.div .binary64 x.toModel.unpack _)).isNaN = true at h
    rw [value?] at hpv
    rw [ht] at h
    cases hu : x.toModel.unpack with
    | notANumber | infinity s =>
      rw [hu] at hpv
      cases hpv
    | zero s | finite s m e hm =>
      rw [hu] at h
      exact absurd h (ne_true_of_eq_false (isNaN_pack_zero _))
  · -- An infinity divided by a finite number is an infinity.
    obtain ⟨s, hs⟩ := exists_infinity_of_position? hp hpl
    change (Float.Model.pack (UnpackedFloat.div .binary64 _ y.toModel.unpack)).isNaN = true at h
    rw [value?] at hqv
    rw [hs] at h
    cases hw : y.toModel.unpack with
    | notANumber | infinity t =>
      rw [hw] at hqv
      cases hqv
    | zero t | finite t m e hm =>
      rw [hw] at h
      exact absurd h (ne_true_of_eq_false (isNaN_pack_infinity _))
  · exact ⟨isInf_of_position? hp hpl, isInf_of_position? hq hql⟩

end StyleValues.Number
