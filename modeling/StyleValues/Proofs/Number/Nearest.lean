import StyleValues.Proofs.Number.Value

/-!
# Rounding to the nearest number

Rounding keeps 53 bits of a mantissa, or fewer at the least exponent, and two bits about what
follows them. These decide which of the two neighbours is nearer.

## Main definitions

* `Number.Represents`: what an extended mantissa says about a rational.
* `Number.RoundsTo`: the nearest integer, an even one on a tie.
* `Number.IsNearest`: the nearest finite number, one with an even mantissa on a tie.

## Main results

* `Number.exists_roundWithAccuracy_eq`: the mantissa and the exponent that rounding returns.
* `Number.isNearest_ofSignedNat`: an integer is rounded to the nearest number.
-/

namespace StyleValues.Number

open Float.Model (Format UnpackedFloat totalExponent)
open Float.Model.UnpackedFloat

/-! ## Extended mantissas -/

/-- The two bits of an extended mantissa say where a rational lies above the mantissa. -/
def Represents (em : ExtendedMantissa) (q : ℚ) : Prop :=
  match em.roundBit, em.stickyBit with
  | false, false => q = em.mantissa
  | false, true => em.mantissa < q ∧ q < em.mantissa + 1 / 2
  | true, false => q = em.mantissa + 1 / 2
  | true, true => em.mantissa + 1 / 2 < q ∧ q < em.mantissa + 1

/-- `r` is an integer nearest to `q`, and it is even if another one is equally near. -/
structure RoundsTo (q : ℚ) (r : Nat) : Prop where
  near : |r - q| ≤ 1 / 2
  even : |r - q| = 1 / 2 → Even r

namespace Represents

variable {em : ExtendedMantissa} {q : ℚ}

theorem bounds (h : Represents em q) : em.mantissa ≤ q ∧ q < em.mantissa + 1 := by
  obtain ⟨m, roundBit, stickyBit⟩ := em
  cases roundBit <;> cases stickyBit <;> simp only [Represents] at h ⊢ <;> grind

theorem shiftRightOne (h : Represents em q) : Represents em.shiftRightOne (q / 2) := by
  obtain ⟨m, roundBit, stickyBit⟩ := em
  obtain ⟨k, rfl | rfl⟩ := Nat.even_or_odd' m
  · have hdiv : 2 * k / 2 = k := by omega
    cases roundBit <;> cases stickyBit <;>
      simp [Represents, ExtendedMantissa.shiftRightOne, hdiv] at h ⊢ <;> grind
  · have hdiv : (2 * k + 1) / 2 = k := by omega
    have hmod : (2 * k + 1) % 2 = 1 := by omega
    cases roundBit <;> cases stickyBit <;>
      simp [Represents, ExtendedMantissa.shiftRightOne, hdiv, hmod] at h ⊢ <;> grind

theorem shiftRight (h : Represents em q) (k : Nat) : Represents (em >>> k) (q / 2 ^ k) := by
  induction k with
  | zero =>
    rw [pow_zero, div_one]
    exact h
  | succ k ih =>
    have hstep := ih.shiftRightOne
    rw [div_div, ← pow_succ] at hstep
    exact hstep

/-- The two bits are all that rounding needs. -/
theorem roundsTo (h : Represents em q) : RoundsTo q em.roundedMantissa := by
  obtain ⟨m, roundBit, stickyBit⟩ := em
  cases roundBit <;> cases stickyBit <;> simp only [Represents] at h
  · subst h
    change RoundsTo m m
    constructor <;> simp
  · have hlt : |(m : ℚ) - q| < 1 / 2 := by
      rw [abs_lt]
      constructor <;> linarith
    exact ⟨hlt.le, fun heq => absurd heq hlt.ne⟩
  · subst h
    change RoundsTo _ (m + m % 2)
    have heven : Even (m + m % 2) := by
      rw [Nat.even_iff]
      omega
    refine ⟨?_, fun _ => heven⟩
    rw [abs_le]
    rcases Nat.mod_two_eq_zero_or_one m with hm | hm <;> rw [hm] <;> push_cast <;>
      constructor <;> linarith
  · have hlt : |((m + 1 : Nat) : ℚ) - q| < 1 / 2 := by
      push_cast
      rw [abs_lt]
      constructor <;> linarith
    exact ⟨hlt.le, fun heq => absurd heq hlt.ne⟩

end Represents

theorem represents_exact (m : Nat) : Represents (.ofMantissaAndAccuracy m .exact) m := rfl

theorem mantissa_shiftRight (em : ExtendedMantissa) (k : Nat) :
    (em >>> k).mantissa = em.mantissa / 2 ^ k := by
  induction k with
  | zero =>
    rw [pow_zero, Nat.div_one]
    rfl
  | succ k ih =>
    rw [pow_succ, ← Nat.div_div_eq_div_mul, ← ih]
    rfl

namespace RoundsTo

variable {q : ℚ} {r n : Nat}

/-- No integer is nearer, and an equally near one is another only if `r` is even. -/
theorem le_abs_sub (h : RoundsTo q r) (j : Int) :
    |r - q| ≤ |j - q| ∧ (|r - q| = |j - q| → (j : ℚ) = r ∨ Even r) := by
  by_cases hj : j = r
  · subst hj
    simp
  · have hone : (1 : ℚ) ≤ |(j : ℚ) - r| := by
      exact_mod_cast Int.one_le_abs (sub_ne_zero.2 hj)
    have htriangle : |(j : ℚ) - r| ≤ |j - q| + |r - q| := by
      rw [abs_sub_comm (r : ℚ) q]
      exact abs_sub_le _ _ _
    have hnear := h.near
    refine ⟨by linarith, fun heq => .inr (h.even ?_)⟩
    linarith

theorem le_of_le (h : RoundsTo q r) (hn : (n : ℚ) ≤ q) : n ≤ r := by
  have hnear := (abs_le.1 h.near).1
  have hlt : (n : ℚ) < r + 1 := by linarith
  exact Nat.lt_succ_iff.1 (by exact_mod_cast hlt)

theorem le_of_ge (h : RoundsTo q r) (hn : q ≤ n) : r ≤ n := by
  have hnear := (abs_le.1 h.near).2
  have hlt : (r : ℚ) < n + 1 := by linarith
  exact Nat.lt_succ_iff.1 (by exact_mod_cast hlt)

theorem eq_of_natCast (h : RoundsTo n r) : r = n := by
  have hle := (h.le_abs_sub n).1
  rw [Int.cast_natCast, sub_self, abs_zero, abs_nonpos_iff, sub_eq_zero] at hle
  exact_mod_cast hle

end RoundsTo

/-! ## Rounding of a mantissa -/

theorem targetExponent_binary64 (m : Nat) (e : Int) :
    Format.binary64.targetExponent (totalExponent m e) = max (m.log2 + e - 52) (-1074) := by
  change max ((m.log2 : Int) + 1 + e - 53) (-1074) = _
  congr 1
  omega

theorem div_two_pow_lt {m k : Nat} (h : m.log2 ≤ 52 + k) : m / 2 ^ k < 2 ^ 53 := by
  rw [Nat.div_lt_iff_lt_mul (by positivity), ← pow_add]
  exact Nat.lt_log2_self.trans_le (Nat.pow_le_pow_right (by decide) (by omega))

theorem le_div_two_pow {m k : Nat} (hm : m ≠ 0) (h : m.log2 = 52 + k) : 2 ^ 52 ≤ m / 2 ^ k := by
  rw [Nat.le_div_iff_mul_le (by positivity), ← pow_add, ← h]
  exact Nat.log2_self_le hm

/-- The second shift leaves a mantissa of at most 53 bits as it is. -/
theorem shiftToTargetExponent_of_lt {r : Nat} {t : Int} (hr : r < 2 ^ 53) (ht : -1074 ≤ t) :
    shiftToTargetExponent .binary64 r t .exact = (⟨r, false, false⟩, t) := by
  have hlog : r.log2 ≤ 52 := by
    by_cases h : r = 0
    · simp [h]
    · have := (Nat.log2_lt h).2 hr
      omega
  have hshift : (max (r.log2 + t - 52) (-1074) - t).toNat = 0 := by omega
  rw [shiftToTargetExponent, targetExponent_binary64, shiftToExponent, hshift, Nat.cast_zero,
    add_zero]
  rfl

/-- The second shift drops the last bit of the only mantissa with more bits. -/
theorem shiftToTargetExponent_two_pow {t : Int} (ht : -1074 ≤ t) :
    shiftToTargetExponent .binary64 (2 ^ 53) t .exact = (⟨2 ^ 52, false, false⟩, t + 1) := by
  have hshift : (max (((2 ^ 53).log2 : Nat) + t - 52) (-1074) - t).toNat = 1 := by
    rw [Nat.log2_two_pow]
    omega
  rw [shiftToTargetExponent, targetExponent_binary64, shiftToExponent, hshift]
  rfl

/-- The number `r * 2 ^ t` with a sign, for `r` up to `2 ^ 53`. -/
def unpacked (s : Sign) (r : Nat) (t : Int) : UnpackedFloat :=
  if h : r = 0 then .zero s
  else if r < 2 ^ 53 then .finite s r t (Nat.pos_of_ne_zero h)
  else .finite s (2 ^ 52) (t + 1) (by decide)

/-- Rounding `q * 2 ^ e` goes to the exponent that leaves 53 bits, or to the least one. -/
theorem exists_roundWithAccuracy_eq {m : Nat} {e t : Int} {accuracy : Accuracy} {q : ℚ}
    (s : Sign) (hq : Represents (.ofMantissaAndAccuracy m accuracy) q)
    (ht : max (m.log2 + e - 52) (-1074) = t) (he : e ≤ t) :
    ∃ r ≤ 2 ^ 53, RoundsTo (q * 2 ^ (e - t)) r ∧ (t = -1074 ∨ 2 ^ 52 ≤ q * 2 ^ (e - t)) ∧
      roundWithAccuracy .binary64 s m e accuracy = unpacked s r t := by
  obtain ⟨k, rfl⟩ : ∃ k : Nat, t = e + k := ⟨(t - e).toNat, by omega⟩
  have hleast : -1074 ≤ e + k := by omega
  have hscale : q * 2 ^ (e - (e + k)) = q / 2 ^ k := by
    rw [sub_add_cancel_left, zpow_neg, zpow_natCast, div_eq_mul_inv]
  rw [hscale]
  obtain ⟨em, hem⟩ : ∃ em, em = ExtendedMantissa.ofMantissaAndAccuracy m accuracy >>> k :=
    ⟨_, rfl⟩
  have hrepresents : Represents em (q / 2 ^ k) := hem ▸ hq.shiftRight k
  have hrounds := hrepresents.roundsTo
  obtain ⟨hlower, hupper⟩ := hrepresents.bounds
  have hmantissa : em.mantissa = m / 2 ^ k := by
    rw [hem, mantissa_shiftRight]
    cases accuracy with
    | exact => rfl
    | inexact o => cases o <;> rfl
  have hlt : em.mantissa < 2 ^ 53 := hmantissa ▸ div_two_pow_lt (by omega)
  have hle : em.roundedMantissa ≤ 2 ^ 53 :=
    hrounds.le_of_ge (hupper.le.trans (by exact_mod_cast hlt))
  have hfull (hne : e + k ≠ -1074) : 2 ^ 52 ≤ em.mantissa := by
    have hlog : m.log2 = 52 + k := by omega
    have hm : m ≠ 0 := by
      rintro rfl
      rw [Nat.log2_zero] at hlog
      omega
    exact hmantissa ▸ le_div_two_pow hm hlog
  refine ⟨em.roundedMantissa, hle, hrounds, or_iff_not_imp_left.2 fun hne => ?_, ?_⟩
  · exact le_trans (by exact_mod_cast hfull hne) hlower
  have hfirst : shiftToTargetExponent .binary64 m e accuracy = (em, e + k) := by
    rw [shiftToTargetExponent, targetExponent_binary64, ht, shiftToExponent]
    simp [hem]
  rw [roundWithAccuracy, hfirst]
  dsimp only
  rw [unpacked]
  by_cases hshort : em.roundedMantissa < 2 ^ 53
  · rw [shiftToTargetExponent_of_lt hshort hleast]
    simp only [hshort, ↓reduceIte]
  · have heq : em.roundedMantissa = 2 ^ 53 := by omega
    rw [heq, shiftToTargetExponent_two_pow hleast]
    simp

theorem unpack_pack_unpacked {s : Sign} {r : Nat} {t : Int} (hr : r ≤ 2 ^ 53)
    (hfull : t = -1074 ∨ 2 ^ 52 ≤ r) (hleast : -1074 ≤ t)
    (hgreatest : t ≤ 970 ∨ t = 971 ∧ r < 2 ^ 53) :
    (Float.Model.pack (unpacked s r t)).unpack = unpacked s r t := by
  rw [unpacked]
  split
  · cases s <;> rfl
  · split
    · exact unpack_pack ⟨by omega, by omega, by omega, by omega, by omega⟩
    · exact unpack_pack ⟨by omega, by omega, by omega, by omega, by omega⟩

theorem unpackedValue?_unpacked {s : Sign} {r : Nat} {t : Int} (hr : r ≤ 2 ^ 53) :
    unpackedValue? (unpacked s r t) = some ((s.apply 1 : ℚ) * (r * 2 ^ t)) := by
  rw [← mul_assoc, ← Int.cast_natCast, ← apply_eq_mul, unpacked]
  split
  next hzero =>
    subst hzero
    cases s <;> simp [unpackedValue?, Sign.apply]
  next hpos =>
    split
    · rfl
    · obtain rfl : r = 2 ^ 53 := by omega
      rw [unpackedValue?, zpow_add_one₀ two_ne_zero]
      cases s <;> simp [Sign.apply] <;> ring

/-! ## The nearest number -/

/-- Of all finite numbers none is nearer to `q` than `x`, and if another one is equally near then
the mantissa of `x` is even. -/
def IsNearest (x : Float) (q : ℚ) : Prop :=
  ∃ a, value? x = some a ∧ ∀ y b, value? y = some b →
    |a - q| ≤ |b - q| ∧ (|a - q| = |b - q| → b = a ∨ Even (mantissa x))

/-- A multiple of `2 ^ t`, or else less than any number of 53 bits with that exponent. -/
def OnGrid (t : Int) (b : ℚ) : Prop :=
  (∃ j : Int, b = j * 2 ^ t) ∨ -1074 < t ∧ |b| < 2 ^ 52 * 2 ^ t

theorem onGrid_of_value? {y : Float} {b : ℚ} (h : value? y = some b) (t : Int) : OnGrid t b := by
  by_cases hb : b = 0
  · exact .inl ⟨0, by simp [hb]⟩
  obtain ⟨s, n, f, hn, hy, rfl⟩ := exists_unpack_of_value? h hb
  have hc := canonical_of_unpack hy
  rcases le_or_gt t f with hle | hlt
  · obtain ⟨k, rfl⟩ : ∃ k : Nat, f = t + k := ⟨(f - t).toNat, by omega⟩
    refine .inl ⟨s.apply n * 2 ^ k, ?_⟩
    rw [zpow_add₀ two_ne_zero, zpow_natCast]
    push_cast
    ring
  · have hleast := hc.least
    refine .inr ⟨by omega, ?_⟩
    have habs : |(s.apply n : ℚ)| = n := by cases s <;> simp [Sign.apply]
    have hlong : (n : ℚ) < 2 ^ 53 := by exact_mod_cast hc.lt
    rw [abs_mul, habs, abs_of_pos (zpow_pos two_pos f)]
    calc (n : ℚ) * 2 ^ f < 2 ^ 53 * 2 ^ f := by gcongr
      _ = 2 ^ 52 * 2 ^ (f + 1) := by rw [zpow_add_one₀ two_ne_zero]; ring
      _ ≤ 2 ^ 52 * 2 ^ t := by
        gcongr
        · norm_num
        · omega

/-- Nothing on the grid is nearer than the rounded mantissa. -/
theorem RoundsTo.nearest {p b : ℚ} {r : Nat} {t : Int} (hr : RoundsTo p r)
    (hp : t = -1074 ∨ 2 ^ 52 ≤ p) (hb : OnGrid t b) :
    |r * 2 ^ t - p * 2 ^ t| ≤ |b - p * 2 ^ t| ∧
      (|r * 2 ^ t - p * 2 ^ t| = |b - p * 2 ^ t| → b = r * 2 ^ t ∨ Even r) := by
  have hpos : (0 : ℚ) < 2 ^ t := zpow_pos two_pos t
  rw [← sub_mul, abs_mul, abs_of_pos hpos]
  rcases hb with ⟨j, rfl⟩ | ⟨ht, hb⟩
  · obtain ⟨hle, heven⟩ := hr.le_abs_sub j
    rw [← sub_mul, abs_mul, abs_of_pos hpos]
    refine ⟨by gcongr, fun h => (heven (mul_right_cancel₀ hpos.ne' h)).imp_left fun hj => ?_⟩
    rw [hj]
  -- `b` is farther away than the least mantissa of 53 bits, which is an integer like any other.
  · have hp : 2 ^ 52 ≤ p := hp.resolve_left ht.ne'
    have hle := (hr.le_abs_sub (2 ^ 52)).1
    rw [abs_sub_comm ((2 ^ 52 : Int) : ℚ), Int.cast_pow, Int.cast_ofNat,
      abs_of_nonneg (sub_nonneg.2 hp)] at hle
    have hfar : p * 2 ^ t - |b| ≤ |b - p * 2 ^ t| := by
      have := abs_sub_abs_le_abs_sub (p * 2 ^ t) b
      rwa [abs_of_nonneg (by positivity), abs_sub_comm (p * 2 ^ t)] at this
    have hlt : |r - p| * 2 ^ t < |b - p * 2 ^ t| := by
      calc |r - p| * 2 ^ t ≤ (p - 2 ^ 52) * 2 ^ t := by gcongr
        _ = p * 2 ^ t - 2 ^ 52 * 2 ^ t := by ring
        _ < p * 2 ^ t - |b| := by linarith
        _ ≤ |b - p * 2 ^ t| := hfar
    exact ⟨hlt.le, fun h => absurd h hlt.ne⟩

theorem abs_apply_one (s : Sign) : |(s.apply 1 : ℚ)| = 1 := by
  cases s <;> simp [Sign.apply]

theorem apply_one_mul_self (s : Sign) : (s.apply 1 : ℚ) * s.apply 1 = 1 := by
  cases s <;> simp [Sign.apply]

/-- In a distance, a sign can be moved to the other side. -/
theorem abs_sub_apply_mul (s : Sign) (a b : ℚ) :
    |a - s.apply 1 * b| = |s.apply 1 * a - b| := by
  have h : s.apply 1 * a - b = s.apply 1 * (a - s.apply 1 * b) := by
    rw [mul_sub, ← mul_assoc, apply_one_mul_self, one_mul]
  rw [h, abs_mul, abs_apply_one, one_mul]

theorem OnGrid.apply_mul {t : Int} {b : ℚ} (h : OnGrid t b) (s : Sign) :
    OnGrid t (s.apply 1 * b) := by
  rcases h with ⟨j, rfl⟩ | h
  · exact .inl ⟨s.apply 1 * j, by push_cast; ring⟩
  · rw [OnGrid, abs_mul, abs_apply_one, one_mul]
    exact .inr h

theorem isNearest_of_unpacked {x : Float} {s : Sign} {r : Nat} {t : Int} {p : ℚ}
    (hx : x.toModel.unpack = unpacked s r t) (hle : r ≤ 2 ^ 53) (hr : RoundsTo p r)
    (hp : t = -1074 ∨ 2 ^ 52 ≤ p) : IsNearest x (s.apply 1 * (p * 2 ^ t)) := by
  have heven (h : Even r) : Even (mantissa x) := by
    rw [mantissa, hx, unpacked]
    split_ifs
    · exact .zero
    · exact h
    · exact Nat.even_pow.2 ⟨even_two, by decide⟩
  refine ⟨s.apply 1 * (r * 2 ^ t), ?_, fun y b hb => ?_⟩
  · rw [value?, hx, unpackedValue?_unpacked hle]
  obtain ⟨hnear, htie⟩ := hr.nearest hp ((onGrid_of_value? hb t).apply_mul s)
  rw [abs_sub_apply_mul, abs_sub_apply_mul, ← mul_assoc, apply_one_mul_self, one_mul]
  refine ⟨hnear, fun h => (htie h).imp (fun hb => ?_) heven⟩
  rw [← hb, ← mul_assoc, apply_one_mul_self, one_mul]

theorem IsNearest.eq_of_value?_eq {x y : Float} {q : ℚ} (h : IsNearest x q)
    (hy : value? y = some q) : value? x = some q := by
  obtain ⟨a, ha, hnear⟩ := h
  have hle := (hnear y q hy).1
  rw [sub_self, abs_zero, abs_nonpos_iff, sub_eq_zero] at hle
  exact hle ▸ ha

/-! ## Integers -/

theorem log2_mul_two_pow {n : Nat} (hn : n ≠ 0) (k : Nat) :
    (n * 2 ^ k).log2 = n.log2 + k := by
  have hlower := Nat.log2_self_le hn
  have hupper : n < 2 ^ (n.log2 + 1) := Nat.lt_log2_self
  rw [Nat.log2_eq_iff (by positivity), Nat.add_right_comm, pow_add, pow_add _ (n.log2 + 1)]
  exact ⟨Nat.mul_le_mul_right _ hlower, (Nat.mul_lt_mul_right (by positivity)).2 hupper⟩

/-- The first 53 bits of an integer, rounded. -/
theorem exists_unpack_ofSignedNat (s : Sign) {n : Nat} (hn : n ≠ 0) (hlog : n.log2 < 1023) :
    ∃ r ≤ 2 ^ 53, RoundsTo (n * 2 ^ (52 - n.log2 : Int)) r ∧
      2 ^ 52 ≤ (n : ℚ) * 2 ^ (52 - n.log2 : Int) ∧
      (ofSignedNat s n).toModel.unpack = unpacked s r (n.log2 - 52) := by
  obtain ⟨k, hk⟩ : ∃ k, k = 52 - n.log2 := ⟨_, rfl⟩
  have hround : UnpackedFloat.round .binary64 s n 0 =
      roundWithAccuracy .binary64 s (n * 2 ^ k) (-k) .exact := by
    have hshift : (0 - max ((n.log2 : Int) + 0 - 52) (-1074)).toNat = k := by omega
    rw [UnpackedFloat.round, targetExponent_binary64, decreaseExponent, hshift,
      Nat.shiftLeft_eq, zero_sub]
  have htarget : max (((n * 2 ^ k).log2 : Int) + -k - 52) (-1074) = n.log2 - 52 := by
    rw [log2_mul_two_pow hn]
    omega
  have hscale : ((n * 2 ^ k : Nat) : ℚ) * 2 ^ (-(k : Int) - (n.log2 - 52)) =
      n * 2 ^ (52 - n.log2 : Int) := by
    rw [Nat.cast_mul, Nat.cast_pow, Nat.cast_ofNat, mul_assoc, ← zpow_natCast,
      ← zpow_add₀ two_ne_zero]
    congr 2
    omega
  obtain ⟨r, hle, hrounds, hfull, heq⟩ := exists_roundWithAccuracy_eq s
    (represents_exact (n * 2 ^ k)) htarget (by omega)
  rw [hscale] at hrounds hfull
  have hfull : 2 ^ 52 ≤ (n : ℚ) * 2 ^ (52 - n.log2 : Int) := hfull.resolve_left (by omega)
  refine ⟨r, hle, hrounds, hfull, ?_⟩
  change (Float.Model.pack (UnpackedFloat.round .binary64 s n 0)).unpack = _
  rw [hround, heq]
  refine unpack_pack_unpacked hle (.inr (hrounds.le_of_le ?_)) (by omega) (.inl (by omega))
  exact_mod_cast hfull

/-- An integer is rounded to the nearest number. -/
theorem isNearest_ofSignedNat (s : Sign) {n : Nat} (hn : n ≠ 0) (hlog : n.log2 < 1023) :
    IsNearest (ofSignedNat s n) (s.apply n) := by
  obtain ⟨r, hle, hrounds, hfull, hx⟩ := exists_unpack_ofSignedNat s hn hlog
  have hnearest := isNearest_of_unpacked hx hle hrounds (.inr hfull)
  have hscale : (n : ℚ) * 2 ^ (52 - n.log2 : Int) * 2 ^ (n.log2 - 52 : Int) = n := by
    rw [mul_assoc, ← zpow_add₀ two_ne_zero, sub_add_sub_cancel, sub_self, zpow_zero, mul_one]
  rwa [hscale, ← Int.cast_natCast, ← apply_eq_mul] at hnearest

end StyleValues.Number
