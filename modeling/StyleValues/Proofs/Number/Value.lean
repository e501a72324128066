import StyleValues.Proofs.Number.Comparison

/-!
# Numbers as rationals

A finite binary64 number denotes a rational number. Apart from zero it has one mantissa and one
exponent, and it is the only number that denotes its rational.

## Main definitions

* `Number.Canonical`: the mantissas and exponents of finite numbers.
* `Number.value?`: the rational that a finite number denotes.

## Main results

* `Number.unpack_pack`: packing loses nothing of what is canonical.
* `Number.eq_of_value?_eq`: only the two zeros denote the same rational.
-/

namespace StyleValues.Number

open Float.Model (Format UnpackedFloat)
open Float.Model.UnpackedFloat

/-! ## Mantissas and exponents -/

/-- A mantissa and an exponent of a finite number other than zero. The mantissa has 53 bits, or the
exponent is the least one. -/
structure Canonical (m : Nat) (e : Int) : Prop where
  pos : 0 < m
  lt : m < 2 ^ 53
  least : -1074 ≤ e
  greatest : e ≤ 971
  full : 2 ^ 52 ≤ m ∨ e = -1074

theorem exponentBias_binary64 : Format.binary64.exponentBias = 1023 := rfl

/-- The leading bit of a mantissa of 53 bits is not stored. -/
theorem toNat_one_append (m : BitVec 52) : (1#1 ++ m).toNat = 2 ^ 52 + m.toNat := by
  rw [BitVec.toNat_append, ← Nat.shiftLeft_add_eq_or_of_lt m.isLt]
  rfl

theorem canonical_of_unpack {x : Float} {s : Sign} {m : Nat} {e : Int} {h : 0 < m}
    (hx : x.toModel.unpack = .finite s m e h) : Canonical m e := by
  change unpack .binary64 x.toModel.toBits.toBitVec = _ at hx
  generalize x.toModel.toBits.toBitVec = b at hx
  have hm : (@unpackMantissa .binary64 b).toNat < 2 ^ 52 := BitVec.isLt _
  have he : (@unpackExponent .binary64 b).toNat < 2 ^ 11 := BitVec.isLt _
  rw [unpack, exponentBias_binary64] at hx
  split at hx
  · split at hx <;> cases hx
  next hinfinite =>
    have hne : (@unpackExponent .binary64 b).toNat ≠ 2047 :=
      fun hn => hinfinite (BitVec.eq_of_toNat_eq hn)
    split at hx
    next hzero =>
      split at hx <;> cases hx
      rw [hzero]
      exact ⟨h, by omega, by decide, by decide, .inr rfl⟩
    next hnormal =>
      cases hx
      have hpos : (@unpackExponent .binary64 b).toNat ≠ 0 :=
        fun hn => hnormal (BitVec.eq_of_toNat_eq hn)
      rw [toNat_one_append]
      refine ⟨by omega, by omega, ?_, ?_, .inl (Nat.le_add_right _ _)⟩ <;> push_cast <;> omega

theorem unpack_packComponents_subnormal (s : Sign) {m : BitVec 52} (h : 0 < m.toNat) :
    unpack .binary64 (packComponents .binary64 s 0#11 m) = .finite s m.toNat (-1074) h := by
  have hm : m ≠ 0#52 := by
    rintro rfl
    exact absurd h (by decide)
  simp [unpack, hm, exponentBias_binary64]

theorem unpack_packComponents_normal (s : Sign) {e : BitVec 11} (m : BitVec 52) (hz : e ≠ 0#11)
    (hi : e ≠ -1#11) :
    unpack .binary64 (packComponents .binary64 s e m) =
      .finite s (1#1 ++ m).toNat (e.toNat - 1075) (toNat_one_append m ▸ by omega) := by
  rw [unpack]
  simp only [unpackMantissa_packComponents, unpackExponent_packComponents,
    unpackSign_packComponents, Sign.ofBitVec_toBitVec]
  rw [if_neg hi, if_neg hz]
  rfl

theorem Canonical.exists_unpack_eq {m : Nat} {e : Int} (hc : Canonical m e) (s : Sign)
    (h : 0 < m) : ∃ b, unpack .binary64 b = .finite s m e h := by
  obtain ⟨-, hlt, hleast, hgreatest, hfull⟩ := hc
  by_cases hm : 2 ^ 52 ≤ m
  · have hexponent : (BitVec.ofNat 11 (e + 1075).toNat).toNat = (e + 1075).toNat := by
      rw [BitVec.toNat_ofNat]
      omega
    have hmantissa : (1#1 ++ BitVec.ofNat 52 (m - 2 ^ 52)).toNat = m := by
      rw [toNat_one_append, BitVec.toNat_ofNat]
      omega
    have hbias : ((e + 1075).toNat : Int) - 1075 = e := by omega
    refine ⟨_, (unpack_packComponents_normal s (e := .ofNat 11 (e + 1075).toNat)
      (.ofNat 52 (m - 2 ^ 52)) ?_ ?_).trans ?_⟩
    · intro hz
      rw [hz, BitVec.toNat_ofNat] at hexponent
      omega
    · intro hi
      have hmax : (-1#11).toNat = 2047 := rfl
      rw [hi, hmax] at hexponent
      omega
    · simp only [hexponent, hmantissa, hbias]
  · obtain rfl : e = -1074 := hfull.resolve_left hm
    have hmantissa : (BitVec.ofNat 52 m).toNat = m := by
      rw [BitVec.toNat_ofNat]
      omega
    refine ⟨_, (unpack_packComponents_subnormal s (m := .ofNat 52 m) (by omega)).trans ?_⟩
    simp only [hmantissa]

theorem unpack_pack {s : Sign} {m : Nat} {e : Int} {h : 0 < m} (hc : Canonical m e) :
    (Float.Model.pack (.finite s m e h)).unpack = .finite s m e h := by
  obtain ⟨b, hb⟩ := hc.exists_unpack_eq s h
  have hnan : isNaNBits b = false := by
    rw [← Bool.not_eq_true, isNaNBits, decide_eq_true_iff]
    rintro ⟨hexponent, hmantissa⟩
    rw [unpack, if_pos hexponent, if_neg hmantissa] at hb
    cases hb
  change unpack .binary64 (pack .binary64 (.finite s m e h)) = _
  rw [← hb, pack_unpack b, hnan]
  rfl

/-! ## Rational values -/

/-- The rational that an unpacked number denotes. -/
def unpackedValue? : UnpackedFloat → Option ℚ
  | .zero _ => some 0
  | .finite s m e _ => some (s.apply m * 2 ^ e)
  | _ => none

/-- The rational that a finite number denotes. -/
def value? (x : Float) : Option ℚ := unpackedValue? x.toModel.unpack

/-- The mantissa of a finite number, which is zero for zero. -/
def mantissa (x : Float) : Nat :=
  match x.toModel.unpack with
  | .finite _ m _ _ => m
  | _ => 0

theorem IsZero.value? {x : Float} (h : IsZero x) : Number.value? x = some 0 := by
  rcases h with rfl | rfl <;> rfl

theorem isFinite_of_value? {x : Float} {v : ℚ} (h : value? x = some v) : x.isFinite = true := by
  change x.toModel.unpack.isFinite = true
  rw [value?] at h
  generalize x.toModel.unpack = u at h
  cases u with
  | notANumber | infinity s => cases h
  | zero s | finite s m e hm => rfl

theorem isNaN_of_value? {x : Float} {v : ℚ} (h : value? x = some v) : x.isNaN = false := by
  change x.toModel.unpack.isNaN = false
  rw [value?] at h
  generalize x.toModel.unpack = u at h
  cases u with
  | notANumber | infinity s => cases h
  | zero s | finite s m e hm => rfl

theorem exists_unpack_of_value? {x : Float} {v : ℚ} (h : value? x = some v) (hv : v ≠ 0) :
    ∃ s m e hm, x.toModel.unpack = .finite s m e hm ∧ v = s.apply m * 2 ^ e := by
  rw [value?] at h
  generalize x.toModel.unpack = u at h
  cases u with
  | notANumber | infinity s => cases h
  | zero s => exact absurd (Option.some.inj h).symm hv
  | finite s m e hm => exact ⟨s, m, e, hm, rfl, (Option.some.inj h).symm⟩

theorem Canonical.eq_of_mul_eq_of_le {m n : Nat} {e f : Int} (hm : Canonical m e)
    (hn : Canonical n f) (hle : e ≤ f) (h : (m : ℚ) * 2 ^ e = n * 2 ^ f) : m = n ∧ e = f := by
  obtain ⟨k, rfl⟩ : ∃ k : Nat, f = e + k := ⟨(f - e).toNat, by omega⟩
  have hshift : m = n * 2 ^ k := by
    rw [zpow_add₀ two_ne_zero, zpow_natCast, mul_comm ((2 : ℚ) ^ e), ← mul_assoc] at h
    exact_mod_cast mul_right_cancel₀ (zpow_ne_zero e two_ne_zero) h
  cases k with
  | zero => simpa using hshift
  | succ k =>
    have hleast := hm.least
    have hfull : 2 ^ 52 ≤ n := hn.full.resolve_right (by omega)
    have htwo : 2 ≤ 2 ^ (k + 1) := Nat.le_self_pow (by omega) 2
    have hlong : 2 ^ 52 * 2 ≤ n * 2 ^ (k + 1) := Nat.mul_le_mul hfull htwo
    have hlt := hm.lt
    omega

theorem Canonical.eq_of_mul_eq {m n : Nat} {e f : Int} (hm : Canonical m e) (hn : Canonical n f)
    (h : (m : ℚ) * 2 ^ e = n * 2 ^ f) : m = n ∧ e = f := by
  rcases le_total e f with hle | hle
  · exact hm.eq_of_mul_eq_of_le hn hle h
  · obtain ⟨rfl, rfl⟩ := hn.eq_of_mul_eq_of_le hm hle h.symm
    exact ⟨rfl, rfl⟩

theorem eq_of_apply_mul_eq {s t : Sign} {a b : ℚ} (ha : 0 < a) (hb : 0 < b)
    (h : (s.apply 1 : ℚ) * a = t.apply 1 * b) : s = t ∧ a = b := by
  cases s <;> cases t <;> simp only [Sign.apply, Int.cast_neg, Int.cast_one] at h
  · exact ⟨rfl, by linarith⟩
  · linarith
  · linarith
  · exact ⟨rfl, by linarith⟩

theorem apply_eq_mul (s : Sign) (n : Int) : (s.apply n : ℚ) = s.apply 1 * n := by
  cases s <;> simp [Sign.apply]

/-- Only the two zeros denote the same rational. -/
theorem eq_of_value?_eq {x y : Float} {v : ℚ} (hx : value? x = some v) (hy : value? y = some v)
    (hv : v ≠ 0) : x = y := by
  obtain ⟨s, m, e, hm, hux, hvx⟩ := exists_unpack_of_value? hx hv
  obtain ⟨t, n, f, hn, huy, hvy⟩ := exists_unpack_of_value? hy hv
  have hsigned : (s.apply 1 : ℚ) * (m * 2 ^ e) = t.apply 1 * (n * 2 ^ f) := by
    rw [← mul_assoc, ← mul_assoc, ← Int.cast_natCast, ← apply_eq_mul, ← hvx, hvy, apply_eq_mul,
      Int.cast_natCast]
  obtain ⟨rfl, habs⟩ := eq_of_apply_mul_eq (by positivity) (by positivity) hsigned
  obtain ⟨rfl, rfl⟩ := (canonical_of_unpack hux).eq_of_mul_eq (canonical_of_unpack huy) habs
  exact unpack_injective (hux.trans huy.symm)

end StyleValues.Number
