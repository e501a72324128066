import StyleValues.Number.Decimal
import StyleValues.Proofs.Number.Nearest

/-!
# Decimal fractions as numbers

Reading a decimal fraction divides its digits by a power of ten, to 53 bits or more and an account
of what is left, and rounds the quotient. So it gives the nearest number, and a fraction that equals
a number is read as that number.

## Main definitions

* `Decimal.value`: the rational that a fraction denotes.
* `Number.Rounded`: a mantissa and an exponent that a rational is rounded to.

## Main results

* `Decimal.isNearest_toFloat`: a fraction is read as the nearest number, if that is finite.
* `Decimal.toFloat_eq_of_value?`: a number is read from the fraction that equals it.
-/

namespace StyleValues

open Float.Model (Format UnpackedFloat totalExponent)
open Float.Model.UnpackedFloat

/-- The rational that a fraction denotes. -/
def Decimal.value (d : Decimal) : ℚ := d.digits / 10 ^ d.places

namespace Number

/-! ## Quotients -/

/-- A quotient and what its remainder says about the bits that follow. -/
theorem represents_div (n : Nat) {k : Nat} (hk : 0 < k) :
    Represents (.ofMantissaAndAccuracy (n / k) (accuracyOfFraction (n % k) k)) (n / k : ℚ) := by
  have hkq : (0 : ℚ) < k := by exact_mod_cast hk
  have hquotient : (n : ℚ) / k = (n / k : Nat) + (n % k : Nat) / k := by
    rw [div_eq_iff hkq.ne', add_mul, div_mul_cancel₀ _ hkq.ne']
    exact_mod_cast (Nat.div_add_mod' n k).symm
  have hlt : n % k < k := Nat.mod_lt n hk
  rw [hquotient]
  generalize n / k = m at *
  generalize n % k = r at *
  have hfraction (c : ℚ) : (r : ℚ) / k < c ↔ r < c * k := div_lt_iff₀ hkq
  have hfraction' (c : ℚ) : c < (r : ℚ) / k ↔ c * k < r := lt_div_iff₀ hkq
  unfold accuracyOfFraction
  split
  next hzero =>
    subst hzero
    simp [Represents, ExtendedMantissa.ofMantissaAndAccuracy]
  next hpos =>
    rcases lt_trichotomy (2 * r) k with h | h | h
    · have hpos : (0 : ℚ) < r := by exact_mod_cast Nat.pos_of_ne_zero hpos
      have hless : (2 : ℚ) * r < k := by exact_mod_cast h
      have hlower := (hfraction' 0).2 (by linarith)
      have hupper := (hfraction (1 / 2)).2 (by linarith)
      rw [compare_lt_iff_lt.2 h]
      change (m : ℚ) < m + r / k ∧ (m : ℚ) + r / k < m + 1 / 2
      constructor <;> linarith
    · have hhalf : (2 : ℚ) * r = k := by exact_mod_cast h
      rw [compare_eq_iff_eq.2 h]
      change (m : ℚ) + r / k = m + 1 / 2
      rw [← hhalf]
      field_simp
    · have hmore : (k : ℚ) < 2 * r := by exact_mod_cast h
      have hlt : (r : ℚ) < k := by exact_mod_cast hlt
      have hlower := (hfraction' (1 / 2)).2 (by linarith)
      have hupper := (hfraction 1).2 (by linarith)
      rw [compare_gt_iff_gt.2 h]
      change (m : ℚ) + 1 / 2 < m + r / k ∧ (m : ℚ) + r / k < m + 1
      constructor <;> linarith

/-- A quotient has 53 bits if the dividend is shifted far enough. -/
theorem le_log2_shiftLeft_div {m n k : Nat} (hm : m ≠ 0) (hn : n ≠ 0)
    (h : n.log2 + 53 ≤ m.log2 + k) : 52 ≤ (m <<< k / n).log2 := by
  have hlong : 2 ^ 52 * n ≤ m <<< k := by
    calc 2 ^ 52 * n ≤ 2 ^ 52 * 2 ^ (n.log2 + 1) := Nat.mul_le_mul_left _ Nat.lt_log2_self.le
      _ = 2 ^ (n.log2 + 53) := by rw [← pow_add]; congr 1; omega
      _ ≤ 2 ^ (m.log2 + k) := Nat.pow_le_pow_right two_pos h
      _ = 2 ^ m.log2 * 2 ^ k := pow_add _ _ _
      _ ≤ m * 2 ^ k := Nat.mul_le_mul_right _ (Nat.log2_self_le hm)
      _ = m <<< k := (Nat.shiftLeft_eq m k).symm
  have hquotient : 2 ^ 52 ≤ m <<< k / n := (Nat.le_div_iff_mul_le (by omega)).2 hlong
  exact (Nat.le_log2 (by omega)).2 hquotient

/-! ## Rounding -/

/-- A rational is rounded to `r * 2 ^ t`, where `t` leaves 53 bits or is the least exponent. -/
structure Rounded (v : ℚ) (r : Nat) (t : Int) : Prop where
  le : r ≤ 2 ^ 53
  least : -1074 ≤ t
  roundsTo : RoundsTo (v * 2 ^ (-t)) r
  full : t = -1074 ∨ 2 ^ 52 ≤ v * 2 ^ (-t)

/-- Any mantissa is rounded that is long enough, or has at most the least exponent. -/
theorem exists_rounded {m : Nat} {e : Int} {accuracy : Accuracy} {q : ℚ} (s : Sign)
    (hq : Represents (.ofMantissaAndAccuracy m accuracy) q) (h : 52 ≤ m.log2 ∨ e ≤ -1074) :
    ∃ r t, Rounded (q * 2 ^ e) r t ∧
      roundWithAccuracy .binary64 s m e accuracy = unpacked s r t := by
  obtain ⟨r, hle, hrounds, hfull, hround⟩ :=
    exists_roundWithAccuracy_eq s hq rfl (show e ≤ _ by omega)
  have hscale (t : Int) : q * 2 ^ (e - t) = q * 2 ^ e * 2 ^ (-t) := by
    rw [mul_assoc, ← zpow_add₀ two_ne_zero, sub_eq_add_neg]
  rw [hscale] at hrounds hfull
  exact ⟨r, _, ⟨hle, by omega, hrounds, hfull⟩, hround⟩

theorem rounded_zero {v : ℚ} (h : |v| ≤ 2 ^ (-1075 : Int)) : Rounded v 0 (-1074) := by
  refine ⟨by decide, le_rfl, ⟨?_, fun _ => .zero⟩, .inl rfl⟩
  have hpos : (0 : ℚ) < 2 ^ (- -1074 : Int) := zpow_pos two_pos _
  rw [Nat.cast_zero, zero_sub, abs_neg, abs_mul, abs_of_pos hpos]
  calc |v| * 2 ^ (- -1074 : Int) ≤ 2 ^ (-1075 : Int) * 2 ^ (- -1074 : Int) := by gcongr
    _ = 1 / 2 := by rw [← zpow_add₀ two_ne_zero]; norm_num

theorem unpack_pack_of_ge {s : Sign} {m : Nat} {e : Int} (h : 0 < m) (he : 972 ≤ e) :
    (Float.Model.pack (.finite s m e h)).unpack = .infinity s := by
  have hbiased : 2 ^ 11 ≤ (e + 1023 + 52).toNat + 1 := by omega
  have hpack : UnpackedFloat.pack .binary64 (.finite s m e h) =
      packedInfinity .binary64 s := by
    rw [UnpackedFloat.pack]
    exact if_pos hbiased
  change unpack .binary64 (UnpackedFloat.pack .binary64 (.finite s m e h)) = _
  rw [hpack]
  cases s <;> rfl

/-- The exponent is that of a finite number. -/
def InRange (r : Nat) (t : Int) : Prop :=
  t ≤ 970 ∨ t = 971 ∧ r < 2 ^ 53

namespace Rounded

variable {v : ℚ} {r : Nat} {t : Int} {s : Sign}

theorem full_mantissa (h : Rounded v r t) : t = -1074 ∨ 2 ^ 52 ≤ r :=
  h.full.imp_right fun hv => h.roundsTo.le_of_le (by exact_mod_cast hv)

theorem unpack_pack (h : Rounded v r t) (hrange : InRange r t) :
    (Float.Model.pack (unpacked s r t)).unpack = unpacked s r t :=
  unpack_pack_unpacked h.le h.full_mantissa h.least hrange

theorem unpack_pack_of_not_inRange (h : Rounded v r t) (hrange : ¬ InRange r t) :
    (Float.Model.pack (unpacked s r t)).unpack = .infinity s := by
  have hle := h.le
  have hfull := h.full_mantissa
  unfold InRange at hrange
  rw [unpacked, dif_neg (by omega)]
  split
  · exact unpack_pack_of_ge _ (by omega)
  · exact unpack_pack_of_ge _ (by omega)

theorem isNearest (h : Rounded v r t) {x : Float}
    (hx : x.toModel.unpack = unpacked .positive r t) : IsNearest x v := by
  have hnearest := isNearest_of_unpacked hx h.le h.roundsTo h.full
  have hscale : v * 2 ^ (-t) * 2 ^ t = v := by
    rw [mul_assoc, ← zpow_add₀ two_ne_zero, neg_add_cancel, zpow_zero, mul_one]
  rwa [hscale, Sign.apply, Int.cast_one, one_mul] at hnearest

/-- A number is rounded to an exponent that is not above its own. -/
theorem le_of_canonical {m : Nat} {e : Int} (h : Rounded (m * 2 ^ e) r t) (hc : Canonical m e) :
    t ≤ e := by
  rcases h.full with rfl | hfull
  · exact hc.least
  · by_contra hgt
    have hlt : (m : ℚ) < 2 ^ 53 := by exact_mod_cast hc.lt
    have hshort : (m : ℚ) * 2 ^ e * 2 ^ (-t) < 2 ^ 52 := by
      calc (m : ℚ) * 2 ^ e * 2 ^ (-t) = m * 2 ^ (e - t) := by
            rw [mul_assoc, ← zpow_add₀ two_ne_zero, sub_eq_add_neg]
        _ ≤ m * 2 ^ (-1 : Int) := by
            gcongr
            · exact one_le_two
            · omega
        _ < 2 ^ 53 * 2 ^ (-1 : Int) := by gcongr
        _ = 2 ^ 52 := by norm_num
    linarith

theorem inRange_of_canonical {m : Nat} {e : Int} (h : Rounded (m * 2 ^ e) r t)
    (hc : Canonical m e) : InRange r t := by
  have hle : t ≤ e := h.le_of_canonical hc
  have hgreatest := hc.greatest
  by_cases hlt : t < 971
  · exact .inl (by omega)
  -- The greatest exponent is the number's own, and nothing is rounded.
  · obtain rfl : t = e := by omega
    have hround : RoundsTo m r := by
      have hrounds := h.roundsTo
      rwa [mul_assoc, ← zpow_add₀ two_ne_zero, add_neg_cancel, zpow_zero, mul_one] at hrounds
    have hr : r = m := hround.eq_of_natCast
    exact .inr ⟨by omega, hr ▸ hc.lt⟩

end Rounded

/-- A quotient is rounded by the bits that its division gives and what they leave. -/
theorem exists_div_eq {n k : Nat} {e f : Int} (s s' : Sign) (hn : 0 < n) (hk : 0 < k) :
    ∃ r t, Rounded (n * 2 ^ e / (k * 2 ^ f) : ℚ) r t ∧
      UnpackedFloat.div .binary64 (.finite s n e hn) (.finite s' k f hk) =
        unpacked (s / s') r t := by
  obtain ⟨target, htarget⟩ : ∃ target, target = min (e - f)
    (Format.binary64.targetExponent (totalExponent n e - totalExponent k f)) := ⟨_, rfl⟩
  obtain ⟨shift, hshift⟩ : ∃ shift : Nat, e = target + shift + f :=
    ⟨(e - f - target).toNat, by omega⟩
  have hleast : target = min (e - f) (max (n.log2 + e - (k.log2 + f) - 53) (-1074)) := by
    rw [htarget]
    change min (e - f) (max ((n.log2 : Int) + 1 + e - (k.log2 + 1 + f) - 53) (-1074)) = _
    congr 2
    omega
  -- The dividend is shifted until the quotient is long enough, but not below the least exponent.
  have hlong : 52 ≤ (n <<< shift / k).log2 ∨ target ≤ -1074 := by
    by_cases h : k.log2 + 53 ≤ n.log2 + shift
    · exact .inl (le_log2_shiftLeft_div hn.ne' hk.ne' h)
    · right
      omega
  obtain ⟨r, t, hrounded, hround⟩ :=
    exists_rounded (s / s') (represents_div (n <<< shift) hk) hlong
  have hscale : ((n <<< shift : Nat) : ℚ) / k * 2 ^ target = n * 2 ^ e / (k * 2 ^ f) := by
    rw [hshift, zpow_add₀ two_ne_zero, zpow_add₀ two_ne_zero, zpow_natCast, Nat.shiftLeft_eq,
      Nat.cast_mul, Nat.cast_pow, Nat.cast_ofNat, ← mul_assoc (n : ℚ),
      mul_div_mul_right _ _ (zpow_ne_zero f two_ne_zero)]
    ring
  refine ⟨r, t, hscale ▸ hrounded, ?_⟩
  rw [← hround]
  have hamount : (e - f - target).toNat = shift := by omega
  rw [UnpackedFloat.div, divCore, ← htarget]
  simp only [hamount]

end Number

namespace Decimal

open Number

variable {d : Decimal}

/-- Fractions with very many places are not divided. They are too small to be told from zero. -/
theorem abs_value_le_of_places (h : 2 ^ 11 + d.digits.log2 < d.places) :
    |d.value| ≤ 2 ^ (-1075 : Int) := by
  have hdigits : d.digits * 2 ^ 1075 ≤ 10 ^ d.places := by
    calc d.digits * 2 ^ 1075 ≤ 2 ^ (d.digits.log2 + 1) * 2 ^ 1075 :=
          Nat.mul_le_mul_right _ Nat.lt_log2_self.le
      _ = 2 ^ (d.digits.log2 + 1076) := by rw [← pow_add]
      _ ≤ 2 ^ d.places := Nat.pow_le_pow_right two_pos (by omega)
      _ ≤ 10 ^ d.places := Nat.pow_le_pow_left (by decide) _
  have hpos : (0 : ℚ) < 10 ^ d.places := by positivity
  have hq : (d.digits : ℚ) * 2 ^ 1075 ≤ 10 ^ d.places := by exact_mod_cast hdigits
  rw [value, abs_of_nonneg (by positivity), zpow_neg, div_le_iff₀ hpos, inv_mul_eq_div,
    le_div_iff₀ (by positivity)]
  exact hq

/-- An integer is rounded as it is. -/
theorem exists_mul_eq {n : Nat} (hn : n ≠ 0) (h : 0 < n <<< 53) (h' : 0 < 10 ^ 0) :
    ∃ r t, Rounded n r t ∧
      UnpackedFloat.mul .binary64 (.finite .positive (n <<< 53) (-53) h)
        (.finite .positive (10 ^ 0) 0 h') = unpacked .positive r t := by
  have hexact := represents_exact (n <<< 53 * 10 ^ 0)
  have hshift : n <<< 53 * 10 ^ 0 = n * 2 ^ 53 := by rw [Nat.shiftLeft_eq, pow_zero, mul_one]
  rw [hshift, Nat.cast_mul, Nat.cast_pow, Nat.cast_ofNat] at hexact
  have hlong : 52 ≤ (n * 2 ^ 53).log2 := by
    rw [log2_mul_two_pow hn]
    omega
  obtain ⟨r, t, hrounded, hround⟩ := exists_rounded .positive hexact (.inl hlong) (e := -53)
  have hscale : (n : ℚ) * 2 ^ 53 * 2 ^ (-53 : Int) = n := by
    rw [mul_assoc]
    norm_num
  refine ⟨r, t, hscale ▸ hrounded, ?_⟩
  rw [← hround, ← hshift]
  rfl

/-- Every fraction is rounded, be it zero, too small, an integer or a quotient. -/
theorem exists_ofScientific_eq (d : Decimal) :
    ∃ r t, Rounded d.value r t ∧
      UnpackedFloat.ofScientific .binary64 d.digits (-d.places) = unpacked .positive r t := by
  obtain ⟨digits, places⟩ := d
  rw [UnpackedFloat.ofScientific]
  split
  next hdigits =>
    refine ⟨0, -1074, rounded_zero ?_, rfl⟩
    rw [value, hdigits, Nat.cast_zero, zero_div, abs_zero]
    positivity
  next hdigits =>
    have hnot : ¬ (2 : Int) ^ Format.binary64.exponentBits < -places := by
      change ¬ (2 : Int) ^ 11 < -places
      omega
    rw [if_neg hnot]
    split
    next hmany =>
      refine ⟨0, -1074, rounded_zero (abs_value_le_of_places ?_), rfl⟩
      change (-places : Int) < -(2 ^ 11 + digits.log2) at hmany
      change 2 ^ 11 + digits.log2 < places
      omega
    next =>
      split
      next hplaces =>
        obtain rfl : places = 0 := by
          change 0 ≤ -(places : Int) at hplaces
          omega
        obtain ⟨r, t, hrounded, hmul⟩ := exists_mul_eq hdigits
          (Nat.shiftLeft_pos_iff.2 (Nat.pos_of_ne_zero hdigits)) (by decide)
        refine ⟨r, t, ?_, hmul⟩
        simpa [value] using hrounded
      next hplaces =>
        obtain ⟨r, t, hrounded, hdiv⟩ := exists_div_eq .positive .positive (e := 0) (f := 0)
          (Nat.pos_of_ne_zero hdigits) (Nat.pow_pos (n := places) (show 0 < 10 by decide))
        refine ⟨r, t, ?_, ?_⟩
        · simpa [value] using hrounded
        · simp only [neg_neg, Int.toNat_natCast]
          exact hdiv

theorem exists_toFloat_eq (d : Decimal) :
    ∃ r t, Rounded d.value r t ∧ d.toFloat.toModel = .pack (unpacked .positive r t) := by
  obtain ⟨r, t, hrounded, heq⟩ := d.exists_ofScientific_eq
  exact ⟨r, t, hrounded, congrArg Float.Model.pack heq⟩

/-- A fraction that is read as a finite number is read as the nearest one. -/
theorem isNearest_toFloat {v : ℚ} (h : value? d.toFloat = some v) :
    IsNearest d.toFloat d.value := by
  obtain ⟨r, t, hrounded, hmodel⟩ := d.exists_toFloat_eq
  by_cases hrange : InRange r t
  · exact hrounded.isNearest (hmodel ▸ hrounded.unpack_pack hrange)
  · rw [value?, hmodel, hrounded.unpack_pack_of_not_inRange hrange] at h
    cases h

/-- A number is read from the fraction that equals it. -/
theorem toFloat_eq_of_value? {x : Float} (hx : value? x = some d.value) (hne : d.value ≠ 0) :
    d.toFloat = x := by
  obtain ⟨s, m, e, hm, hunpack, hvalue⟩ := exists_unpack_of_value? hx hne
  have hc := canonical_of_unpack hunpack
  have hpositive : d.value = m * 2 ^ e := by
    have hnonneg : 0 ≤ d.value := by
      rw [value]
      positivity
    have hpos : (0 : ℚ) < m * 2 ^ e := by positivity
    cases s with
    | positive => simpa [Sign.apply] using hvalue
    | negative =>
      simp only [Sign.apply, Int.cast_neg, Int.cast_natCast, neg_mul] at hvalue
      linarith
  obtain ⟨r, t, hrounded, hmodel⟩ := d.exists_toFloat_eq
  have hrange : InRange r t := (hpositive ▸ hrounded).inRange_of_canonical hc
  have hnearest := hrounded.isNearest (hmodel ▸ hrounded.unpack_pack hrange)
  exact eq_of_value?_eq (hnearest.eq_of_value?_eq hx) hx hne

end Decimal

end StyleValues
