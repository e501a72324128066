import StyleValues.Proofs.Number.Integer

/-!
# Rounding to integers

A finite number is rounded by its magnitude, and the result denotes the rational rounded in the same
way. Truncation takes the integer next to it on the side of zero. So numbers with the same integral
part have the same truncation, up to the sign of zero.

## Main definitions

* `Number.RoundsMagnitude`: a way to round magnitudes, and the same way to round rationals.
* `Number.towardZero`: a rational rounded toward zero.
* `Number.halfAway`: the integer nearest to a rational, a half going away from zero.
* `Number.SameIntegralPart`: two numbers round to the same integer.

## Main results

* `Number.RoundsMagnitude.value?_roundMagnitude`: rounding a number rounds the rational it denotes.
* `Number.truncate_of_value?`: truncation does not change integers.
-/

namespace StyleValues.Number

open Float.Model.UnpackedFloat

theorem isZero_of_value? {x : Float} (h : value? x = some 0) : IsZero x := by
  rw [value?] at h
  cases hx : x.toModel.unpack with
  | notANumber | infinity s =>
    rw [hx] at h
    cases h
  | zero s =>
    cases s with
    | positive => exact .inl (unpack_injective hx)
    | negative => exact .inr (unpack_injective hx)
  | finite s m e hm =>
    rw [hx] at h
    have hzero : (s.apply m : ℚ) = 0 :=
      (mul_eq_zero.1 (Option.some.inj h)).resolve_right (zpow_ne_zero e two_ne_zero)
    have hm0 : m = (s.apply m).natAbs := (natAbs_apply s m).symm
    rw [Int.cast_eq_zero.1 hzero] at hm0
    exact absurd hm0 hm.ne'

theorem beq_of_value?_eq {x y : Float} {v : ℚ} (hx : value? x = some v) (hy : value? y = some v) :
    (x == y) = true := by
  rw [beq_iff]
  by_cases hv : v = 0
  · subst hv
    exact .inl ⟨isZero_of_value? hx, isZero_of_value? hy⟩
  · exact .inr ⟨eq_of_value?_eq hx hy hv, isNaN_of_value? hx⟩

theorem value?_ofSignedNat_zero (s : Sign) : value? (ofSignedNat s 0) = some 0 := by
  cases s <;> rfl

/-! ## Magnitudes -/

/-- Magnitudes are rounded by `f` as rationals are by `r`, and not beyond the mantissa. -/
structure RoundsMagnitude (f : Nat → Nat → Nat) (r : ℚ → ℤ) : Prop where
  intCast : ∀ n : ℤ, r n = n
  apply_mul : ∀ (s : Sign) (m k : Nat), r (s.apply m * 2 ^ (-(k : Int))) = s.apply (f m k)
  le : ∀ m k, 0 < m → 0 < k → f m k ≤ m

/-- A rounding that treats both sides of zero alike rounds a magnitude and keeps its sign. -/
theorem apply_of_magnitude {r : ℚ → ℤ} (hneg : ∀ q, r (-q) = -r q) {m n : Nat} {e : Int}
    (h : r ((m : ℚ) * 2 ^ e) = n) (s : Sign) : r (s.apply m * 2 ^ e) = s.apply n := by
  cases s with
  | positive => exact h
  | negative =>
    rw [Sign.apply, Sign.apply, Int.cast_neg, neg_mul, hneg]
    exact congrArg Neg.neg h

/-- A number with an exponent that is not negative is an integer. -/
theorem exists_intCast_of_value? {x : Float} {q : ℚ} (h : value? x = some q)
    (hne : ∀ s m e hm, x.toModel.unpack ≠ .finite s m (.negSucc e) hm) : ∃ n : ℤ, q = n := by
  rw [value?] at h
  cases hx : x.toModel.unpack with
  | notANumber | infinity s =>
    rw [hx] at h
    cases h
  | zero s =>
    rw [hx] at h
    exact ⟨0, by simpa using (Option.some.inj h).symm⟩
  | finite s m e hm =>
    rw [hx] at h
    cases e with
    | ofNat e =>
      refine ⟨s.apply m * 2 ^ e, (Option.some.inj h).symm.trans ?_⟩
      push_cast
      rfl
    | negSucc e => exact absurd hx (hne s m e hm)

/-- Rounding a number rounds the rational that it denotes. -/
theorem RoundsMagnitude.value?_roundMagnitude {f : Nat → Nat → Nat} {r : ℚ → ℤ}
    (hr : RoundsMagnitude f r) {x : Float} {q : ℚ} (h : value? x = some q) :
    value? (roundMagnitude f x) = some (r q : ℚ) := by
  rw [roundMagnitude]
  split
  next s m e hm hx =>
    obtain rfl : (s.apply m : ℚ) * 2 ^ (-((e + 1 : Nat) : Int)) = q := by
      rw [value?, hx] at h
      exact Option.some.inj h
    rw [hr.apply_mul]
    by_cases hzero : f m (e + 1) = 0
    · rw [hzero, value?_ofSignedNat_zero]
      cases s <;> simp [Sign.apply]
    · have hshort : f m (e + 1) < 2 ^ 53 :=
        (hr.le m (e + 1) hm e.succ_pos).trans_lt (canonical_of_unpack hx).lt
      have hlog := (Nat.log2_lt hzero).2 hshort
      exact value?_ofSignedNat_of_log2_le s hzero (Nat.le_of_lt_succ hlog)
  next hne =>
    obtain ⟨n, rfl⟩ := exists_intCast_of_value? h hne
    rw [h, hr.intCast]

/-- Only finite numbers are rounded. -/
theorem roundMagnitude_of_value?_eq_none {x : Float} (h : value? x = none)
    (f : Nat → Nat → Nat) : roundMagnitude f x = x := by
  rw [roundMagnitude]
  split
  next s m e hm hx =>
    rw [value?, hx] at h
    cases h
  next => rfl

/-! ## Toward zero -/

/-- The integer next to a rational on the side of zero. -/
def towardZero (q : ℚ) : ℤ :=
  if 0 ≤ q then ⌊q⌋ else ⌈q⌉

theorem towardZero_intCast (n : ℤ) : towardZero n = n := by
  simp [towardZero]

theorem towardZero_neg (q : ℚ) : towardZero (-q) = -towardZero q := by
  rcases lt_trichotomy q 0 with hq | rfl | hq
  · rw [towardZero, towardZero, if_pos (by linarith), if_neg (by linarith), Int.floor_neg]
  · simp [towardZero]
  · rw [towardZero, towardZero, if_neg (by linarith), if_pos hq.le, Int.ceil_neg]

/-- Rounding toward zero divides a mantissa and keeps its sign. -/
theorem towardZero_apply_mul (s : Sign) (m k : Nat) :
    towardZero (s.apply m * 2 ^ (-(k : Int))) = s.apply (m / 2 ^ k : Nat) := by
  refine apply_of_magnitude towardZero_neg ?_ s
  rw [towardZero, if_pos (by positivity), zpow_neg, zpow_natCast, ← div_eq_mul_inv]
  exact_mod_cast Rat.floor_natCast_div_natCast m (2 ^ k)

theorem roundsMagnitude_towardZero :
    RoundsMagnitude (fun m k => m / Nat.pow 2 k) towardZero where
  intCast := towardZero_intCast
  apply_mul := towardZero_apply_mul
  le m _ _ _ := Nat.div_le_self m _

/-- Truncation rounds toward zero. -/
theorem value?_truncate {x : Float} {q : ℚ} (h : value? x = some q) :
    value? (truncate x) = some (towardZero q : ℚ) :=
  roundsMagnitude_towardZero.value?_roundMagnitude h

/-- Truncation does not change integers. -/
theorem truncate_of_value? {x : Float} {n : ℤ} (h : value? x = some (n : ℚ)) :
    truncate x = x := by
  by_cases hn : n = 0
  · subst hn
    rcases isZero_of_value? (by simpa using h) with rfl | rfl <;> rfl
  · have htruncated := value?_truncate h
    rw [towardZero_intCast] at htruncated
    exact eq_of_value?_eq htruncated h (by exact_mod_cast hn)

theorem truncate_of_isZero {x : Float} (h : IsZero x) : truncate x = x := by
  rcases h with rfl | rfl <;> rfl

theorem isNaN_truncate {x : Float} (h : x.isNaN = false) : (truncate x).isNaN = false := by
  cases hx : value? x with
  | some q => exact isNaN_of_value? (value?_truncate hx)
  | none => rwa [truncate, roundMagnitude_of_value?_eq_none hx]

/-- Two numbers round toward zero to the same integer, or both are not numbers, or they are the
same infinity. Both zeros count as the same integer. -/
def SameIntegralPart (x y : Float) : Prop :=
  (x.isNaN = true ∧ y.isNaN = true) ∨ x = y ∨
    ∃ p q, value? x = some p ∧ value? y = some q ∧ towardZero p = towardZero q

theorem SameIntegralPart.truncate {x y : Float} (h : SameIntegralPart x y) :
    truncate x = truncate y ∨ IsZero (truncate x) ∧ IsZero (truncate y) := by
  rcases h with ⟨hx, hy⟩ | rfl | ⟨p, q, hp, hq, hpq⟩
  · rw [Float.isNaN_eq_decide_eq_nan, decide_eq_true_iff] at hx hy
    exact .inl (by rw [hx, hy])
  · exact .inl rfl
  · have hx := value?_truncate hp
    have hy := value?_truncate hq
    rw [hpq] at hx
    by_cases hzero : towardZero q = 0
    · rw [hzero, Int.cast_zero] at hx hy
      exact .inr ⟨isZero_of_value? hx, isZero_of_value? hy⟩
    · exact .inl (eq_of_value?_eq hx hy (by exact_mod_cast hzero))

/-! ## To the nearest integer -/

/-- The integer nearest to a rational, a half going away from zero. -/
def halfAway (q : ℚ) : ℤ :=
  if 0 ≤ q then ⌊q + 1 / 2⌋ else ⌈q - 1 / 2⌉

theorem halfAway_intCast (n : ℤ) : halfAway n = n := by
  rw [halfAway]
  split
  · rw [Int.floor_eq_iff]
    constructor <;> linarith
  · rw [Int.ceil_eq_iff]
    constructor <;> linarith

theorem halfAway_neg (q : ℚ) : halfAway (-q) = -halfAway q := by
  have hceil (p : ℚ) : ⌈-p - 1 / 2⌉ = -⌊p + 1 / 2⌋ := by
    rw [← Int.ceil_neg]
    ring_nf
  rcases lt_trichotomy q 0 with hq | rfl | hq
  · rw [halfAway, halfAway, if_pos (by linarith), if_neg (by linarith), ← neg_eq_iff_eq_neg,
      ← hceil, neg_neg]
  · rw [neg_zero, show halfAway 0 = 0 from halfAway_intCast 0]
    rfl
  · rw [halfAway, halfAway, if_neg (by linarith), if_pos hq.le, hceil]

/-- Rounding a half away from zero rounds a mantissa up at its middle, and keeps its sign. -/
theorem halfAway_apply_mul (s : Sign) (m k : Nat) :
    halfAway (s.apply m * 2 ^ (-(k : Int))) =
      s.apply ((2 * m + 2 ^ k) / 2 ^ (k + 1) : Nat) := by
  refine apply_of_magnitude halfAway_neg ?_ s
  have hscale : (m : ℚ) * 2 ^ (-(k : Int)) + 1 / 2 =
      ((2 * m + 2 ^ k : Nat) : ℚ) / (2 ^ (k + 1) : Nat) := by
    rw [zpow_neg, zpow_natCast]
    push_cast
    field_simp
    ring
  rw [halfAway, if_pos (by positivity), hscale]
  exact Rat.floor_natCast_div_natCast (2 * m + 2 ^ k) (2 ^ (k + 1))

theorem roundsMagnitude_halfAway :
    RoundsMagnitude (fun m k => (2 * m + Nat.pow 2 k) / Nat.pow 2 (k + 1)) halfAway where
  intCast := halfAway_intCast
  apply_mul := halfAway_apply_mul
  le m k hm hk := by
    have htwo : 2 * m ≤ 2 ^ k * m :=
      Nat.mul_le_mul_right m (Nat.le_self_pow hk.ne' 2)
    have hone : 2 ^ k ≤ 2 ^ k * m := Nat.le_mul_of_pos_right _ hm
    have hsum : 2 * m + 2 ^ k ≤ 2 ^ (k + 1) * m := by
      rw [pow_succ]
      linarith
    exact Nat.div_le_of_le_mul hsum

theorem value?_roundHalfAway {x : Float} {q : ℚ} (h : value? x = some q) :
    value? (roundHalfAway x) = some (halfAway q : ℚ) :=
  roundsMagnitude_halfAway.value?_roundMagnitude h

end StyleValues.Number
