import StyleValues.Proofs.Number.Order
import StyleValues.Proofs.Number.Truncation

/-!
# Bytes

A number is rounded, limited to the range of the bytes and taken as a byte. Each of the three
operations does to a number what it says to the rational where the number lies. What lies outside
the bytes has the nearer end of their range as its nearest one, so together they give the nearest
byte.

## Main definitions

* `Number.IsNearestInteger`: the integer of a set that is nearest to a rational.
* `Number.RoundsToByte`: the limits of the bytes do not matter to a number.

## Main results

* `Number.position?_roundHalfAway`, `Number.value?_clamp`, `Number.saturate_of_value?`: the three
  operations.
* `Number.isNearestInteger_toByte`: the byte of a number is the nearest one.
* `Number.toByte_le_toByte`: the byte grows with the number.
-/

namespace StyleValues.Number

open Float.Model (UnpackedFloat)

/-! ## Nearest integers -/

/-- No integer of a set is nearer to a rational, and none that is as near is greater. -/
structure IsNearestInteger (s : Set ℤ) (q : ℚ) (n : ℤ) : Prop where
  mem : n ∈ s
  near : ∀ k ∈ s, |q - n| ≤ |q - k|
  greatest : ∀ k ∈ s, |q - k| = |q - n| → k ≤ n

variable {s : Set ℤ} {p q : ℚ} {m n a b : ℤ}

namespace IsNearestInteger

/-- The nearest integer grows with the rational. -/
theorem le_of_le (hm : IsNearestInteger s p m) (hn : IsNearestInteger s q n) (h : p ≤ q) :
    m ≤ n := by
  by_contra hlt
  have hgap : (n : ℚ) < m := by exact_mod_cast lt_of_not_ge hlt
  have hp := hm.near n hn.mem
  have hq := hn.near m hm.mem
  -- Both rationals lie halfway, where the greater integer is taken.
  have hlower : (m + n : ℚ) / 2 ≤ p := by
    by_contra hp'
    rcases abs_cases (p - m) with hm' | hm' <;> rcases abs_cases (p - n) with hn' | hn' <;> linarith
  have hupper : q ≤ (m + n : ℚ) / 2 := by
    by_contra hq'
    rcases abs_cases (q - m) with hm' | hm' <;> rcases abs_cases (q - n) with hn' | hn' <;> linarith
  refine hlt (hn.greatest m hm.mem ?_)
  have hmid : q = (m + n) / 2 := by linarith
  rw [abs_of_nonpos, abs_of_nonneg] <;> linarith

/-- An integer of the set is itself the nearest one. -/
theorem eq_of_intCast (hn : IsNearestInteger s m n) (hm : m ∈ s) : n = m := by
  have hnear := hn.near m hm
  rw [sub_self, abs_zero, abs_nonpos_iff, sub_eq_zero] at hnear
  exact_mod_cast hnear.symm

/-- Limits do not matter to what lies between them. -/
theorem univ_of_mem (hn : IsNearestInteger (Set.Icc a b) q n) (ha : a ≤ q) (hb : q ≤ b) :
    IsNearestInteger Set.univ q n := by
  have hab : a ≤ b := by exact_mod_cast ha.trans hb
  have hfar (k : ℤ) (hk : k ∉ Set.Icc a b) : |q - n| < |q - k| := by
    rcases not_and_or.1 hk with hlt | hlt
    · have hka : (k : ℚ) < a := by exact_mod_cast lt_of_not_ge hlt
      calc |q - n| ≤ |q - a| := hn.near a ⟨le_rfl, hab⟩
        _ = q - a := abs_of_nonneg (by linarith)
        _ < |q - k| := lt_of_lt_of_le (by linarith) (le_abs_self _)
    · have hbk : (b : ℚ) < k := by exact_mod_cast lt_of_not_ge hlt
      calc |q - n| ≤ |q - b| := hn.near b ⟨hab, le_rfl⟩
        _ = -(q - b) := abs_of_nonpos (by linarith)
        _ < |q - k| := lt_of_lt_of_le (by linarith) (neg_le_abs _)
  refine ⟨trivial, fun k _ => ?_, fun k _ heq => ?_⟩ <;> by_cases hk : k ∈ Set.Icc a b
  · exact hn.near k hk
  · exact (hfar k hk).le
  · exact hn.greatest k hk heq
  · exact absurd heq (hfar k hk).ne'

end IsNearestInteger

/-- An integer is the nearest one if the rational lies within half a unit of it, except beyond the
ends. -/
theorem isNearestInteger_Icc (hmem : n ∈ Set.Icc a b) (hlower : n = a ∨ n ≤ q + 1 / 2)
    (hupper : n = b ∨ q + 1 / 2 < n + 1) : IsNearestInteger (Set.Icc a b) q n := by
  have hbelow (k : ℤ) (hk : k ∈ Set.Icc a b) (hlt : k < n) : |q - n| ≤ |q - k| := by
    have hhalf := hlower.resolve_left (by rintro rfl; exact absurd hk.1 (by omega))
    have hstep : (k : ℚ) + 1 ≤ n := by exact_mod_cast hlt
    rcases abs_cases (q - n) with hn | hn <;> rcases abs_cases (q - k) with hk | hk <;> linarith
  have habove (k : ℤ) (hk : k ∈ Set.Icc a b) (hlt : n < k) : |q - n| < |q - k| := by
    have hhalf := hupper.resolve_left (by rintro rfl; exact absurd hk.2 (by omega))
    have hstep : (n : ℚ) + 1 ≤ k := by exact_mod_cast hlt
    rcases abs_cases (q - n) with hn | hn <;> rcases abs_cases (q - k) with hk | hk <;> linarith
  refine ⟨hmem, fun k hk => ?_, fun k hk heq => ?_⟩
  · rcases lt_trichotomy k n with hlt | rfl | hlt
    · exact hbelow k hk hlt
    · exact le_rfl
    · exact (habove k hk hlt).le
  · by_contra hlt
    exact (habove k hk (lt_of_not_ge hlt)).ne heq.symm

theorem isNearestInteger_lower (hab : a ≤ b) (h : q ≤ a) :
    IsNearestInteger (Set.Icc a b) q a :=
  isNearestInteger_Icc ⟨le_rfl, hab⟩ (.inl rfl) (.inr (by linarith))

/-- A half goes away from zero, so above zero it goes up. -/
theorem isNearestInteger_halfAway (hb : 0 ≤ b) (q : ℚ) :
    IsNearestInteger (Set.Icc 0 b) q (max 0 (min b (halfAway q))) := by
  rcases le_or_gt 0 q with hq | hq
  · have hfloor : halfAway q = ⌊q + 1 / 2⌋ := if_pos hq
    have hnonneg : 0 ≤ halfAway q := by
      rw [hfloor]
      exact Int.floor_nonneg.2 (by linarith)
    have hlower : (halfAway q : ℚ) ≤ q + 1 / 2 := hfloor ▸ Int.floor_le _
    have hupper : q + 1 / 2 < halfAway q + 1 := hfloor ▸ Int.lt_floor_add_one _
    rcases le_total b (halfAway q) with hle | hle
    · have hbig : (b : ℚ) ≤ halfAway q := by exact_mod_cast hle
      rw [min_eq_left hle, max_eq_right hb]
      exact isNearestInteger_Icc ⟨hb, le_rfl⟩ (.inr (hbig.trans hlower)) (.inl rfl)
    · rw [min_eq_right hle, max_eq_right hnonneg]
      exact isNearestInteger_Icc ⟨hnonneg, hle⟩ (.inr hlower) (.inr hupper)
  · have hceil : halfAway q = ⌈q - 1 / 2⌉ := if_neg (not_le.2 hq)
    have hnonpos : halfAway q ≤ 0 := by
      rw [hceil]
      exact Int.ceil_le.2 (by push_cast; linarith)
    rw [max_eq_left ((min_le_right _ _).trans hnonpos)]
    exact isNearestInteger_lower hb (by exact_mod_cast hq.le)

/-! ## Bytes -/

variable {x y low high : Float}

theorem exists_intCast_limit : ∃ n : ℤ, limit = n := by
  refine ⟨2 ^ 1024, ?_⟩
  rw [limit, Int.cast_pow, Int.cast_ofNat]

/-- Rounding leaves infinities where they lie. -/
theorem position?_roundHalfAway (h : position? x = some q) :
    position? (roundHalfAway x) = some (halfAway q : ℚ) := by
  cases hx : value? x with
  | some v =>
    obtain rfl : v = q := Option.some.inj ((position?_of_value? hx).symm.trans h)
    exact position?_of_value? (value?_roundHalfAway hx)
  | none =>
    have hfar : |q| = limit := by
      rcases position?_cases h with hv | hfar
      · cases hx.symm.trans hv
      · exact hfar
    obtain ⟨n, hn⟩ := exists_intCast_limit
    obtain ⟨m, rfl⟩ : ∃ m : ℤ, q = m := by
      rcases eq_or_eq_neg_of_abs_eq (hfar.trans hn) with rfl | rfl
      · exact ⟨n, rfl⟩
      · exact ⟨-n, by push_cast; rfl⟩
    rw [halfAway_intCast, roundHalfAway, roundMagnitude_of_value?_eq_none hx, h]

/-- Limiting a number to a range leaves it finite, even if it was infinite. -/
theorem value?_clamp {u v : ℚ} (hlow : value? low = some u) (hhigh : value? high = some v)
    (huv : u ≤ v) (h : position? x = some q) :
    value? (clamp low high x) = some (max u (min v q)) := by
  have hbelow : x < low ↔ q < u := by
    simp [lt_iff, h, position?_of_value? hlow]
  have habove : high < x ↔ v < q := by
    simp [lt_iff, h, position?_of_value? hhigh]
  rw [clamp]
  split
  next hlt =>
    have hqu := hbelow.1 hlt
    rw [max_eq_left ((min_le_right v q).trans hqu.le), hlow]
  next hnlt =>
    have huq : u ≤ q := not_lt.1 (mt hbelow.2 hnlt)
    split
    next hgt =>
      have hvq := habove.1 hgt
      rw [min_eq_left hvq.le, max_eq_right huv, hhigh]
    next hngt =>
      have hqv : q ≤ v := not_lt.1 (mt habove.2 hngt)
      rw [min_eq_right hqv, max_eq_right huq]
      have hlower := (abs_lt.1 (abs_lt_limit_of_value? hlow)).1
      have hupper := (abs_lt.1 (abs_lt_limit_of_value? hhigh)).2
      exact value?_of_abs_lt h (abs_lt.2 ⟨hlower.trans_le huq, hqv.trans_lt hupper⟩)

/-- Rounding a number toward zero rounds its magnitude down. -/
theorem towardZero_apply_integralPart (s : UnpackedFloat.Sign) (m : Nat) (e : Int) :
    towardZero (s.apply m * 2 ^ e) = s.apply (integralPart m e) := by
  cases e with
  | ofNat e =>
    refine apply_of_magnitude towardZero_neg ?_ s
    have hinteger : (m : ℚ) * 2 ^ Int.ofNat e = ((m * 2 ^ e : Nat) : ℤ) := by
      push_cast
      rfl
    rw [hinteger, towardZero_intCast]
    rfl
  | negSucc e => exact towardZero_apply_mul s m (e + 1)

/-- Taking a number as a byte rounds it toward zero, and limits it to the bytes. -/
theorem saturate_of_value? (h : value? x = some q) :
    ((saturate x : Nat) : ℤ) = max 0 (min 255 (towardZero q)) := by
  rw [value?] at h
  unfold saturate
  cases hx : x.toModel.unpack with
  | notANumber | infinity s =>
    rw [hx] at h
    cases h
  | zero s =>
    rw [hx] at h
    obtain rfl : 0 = q := Option.some.inj h
    rfl
  | finite s m e hm =>
    rw [hx] at h
    obtain rfl : (s.apply m : ℚ) * 2 ^ e = q := Option.some.inj h
    rw [towardZero_apply_integralPart]
    cases s <;> dsimp only [UnpackedFloat.Sign.apply] <;> omega

/-- The byte of a number is where the number lies, rounded and limited. -/
theorem toByte_of_position? (h : position? x = some q) :
    ((toByte x : Nat) : ℤ) = max 0 (min 255 (halfAway q)) := by
  have hnan : x.isNaN = false := isNaN_eq_false_iff.2 ⟨q, h⟩
  have hlow : value? 0 = some ((0 : ℤ) : ℚ) := by decide +kernel
  have hhigh : value? 255 = some ((255 : ℤ) : ℚ) := by decide +kernel
  have hclamp := value?_clamp hlow hhigh (by norm_num) (position?_roundHalfAway h)
  have hinteger : max ((0 : ℤ) : ℚ) (min ((255 : ℤ) : ℚ) (halfAway q)) =
      (max 0 (min 255 (halfAway q)) : ℤ) := by
    push_cast
    rfl
  rw [hinteger] at hclamp
  rw [toByte, hnan, if_neg Bool.false_ne_true, saturate_of_value? hclamp, towardZero_intCast]
  omega

/-- The byte of a number is the nearest one. That of an infinity is the end of the range. -/
theorem isNearestInteger_toByte (h : position? x = some q) :
    IsNearestInteger (Set.Icc 0 255) q (toByte x : Nat) := by
  rw [toByte_of_position? h]
  exact isNearestInteger_halfAway (by decide) q

example : toByte 127.5 = 128 := by
  decide +kernel

theorem toByte_of_isNaN (h : x.isNaN = true) : toByte x = 0 :=
  if_pos h

theorem toByte_of_isZero (h : IsZero x) : toByte x = 0 := by
  rcases h with rfl | rfl <;> rfl

/-- The byte grows with the number. -/
theorem toByte_le_toByte (h : x ≤ y) : toByte x ≤ toByte y := by
  obtain ⟨p, q, hx, hy, hpq⟩ := le_iff.1 h
  have hle := (isNearestInteger_toByte hx).le_of_le (isNearestInteger_toByte hy) hpq
  exact_mod_cast hle

/-- A number is written as the byte that it is rounded to without any limits. -/
def RoundsToByte (x : Float) : Prop :=
  ∃ q, value? x = some q ∧ IsNearestInteger Set.univ q (toByte x : Nat)

theorem roundsToByte_of_value? (h : value? x = some q) (hlower : 0 ≤ q) (hupper : q ≤ 255) :
    RoundsToByte x := by
  have hnearest := isNearestInteger_toByte (position?_of_value? h)
  exact ⟨q, h, hnearest.univ_of_mem (by exact_mod_cast hlower) (by exact_mod_cast hupper)⟩

end StyleValues.Number
