import StyleValues.Blend
import StyleValues.Proofs.Number.Arithmetic
import StyleValues.Proofs.Value.Color

/-!
# Tints and shades

Each of the four operations of a blend keeps the order, so a blended channel moves one way as the
percentage grows. At no percentage it is the channel itself, and at `100` it is the endpoint, where
a rounding error of the difference is made good by that of the sum. So a blend between these
percentages lies between the channel and the endpoint.

## Main results

* `blend_ordered`: blends lie between their endpoints, and move one way.
* `blend_endpoints`: blends reach their endpoints.
-/

namespace StyleValues

open Number

variable {c : Color} {p q : Percentage} {e : Endpoint} {k : Channel} {x d : Float}
  {a b f g u v : ℚ}

@[simp] theorem get_blend (c : Color) (p : Percentage) (e : Endpoint) (k : Channel) :
    (blend c p e).get k = c.get k + p.fraction * (e.channel - c.get k) := by
  rw [blend, Color.get_map]

/-! ## Steps of a blend -/

theorem value?_zero : value? 0 = some 0 :=
  IsZero.value? (.inl rfl)

theorem value?_one : value? 1 = some 1 := by
  decide +kernel

theorem value?_hundred : value? 100 = some 100 := by
  decide +kernel

theorem value?_channelMax : value? 255 = some 255 := by
  decide +kernel

theorem Percentage.isRounding_fraction (hp : value? p.value = some u) :
    IsRounding p.fraction (u / 100) :=
  isRounding_div hp value?_hundred (by norm_num)

/-- No percentage is so large that its fraction is infinite. -/
theorem Percentage.exists_value?_fraction (hp : value? p.value = some u) :
    ∃ f, value? p.fraction = some f := by
  refine (isRounding_fraction hp).exists_value?_of_near hp ?_
  calc |u / 100| = |u| / 100 := by rw [abs_div, abs_of_pos (show (0 : ℚ) < 100 by norm_num)]
    _ ≤ |u| := div_le_self (abs_nonneg u) (by norm_num)
    _ < |u| + 2 ^ (970 : Int) := lt_add_of_pos_right _ (zpow_pos two_pos _)

theorem Percentage.fraction_le (hp : value? p.value = some u) (hq : value? q.value = some v)
    (h : p.value ≤ q.value) : p.fraction ≤ q.fraction := by
  refine (isRounding_fraction hp).le (isRounding_fraction hq) ?_
  have huv := (le_iff_of_value? hp hq).1 h
  gcongr

/-- The rational that an endpoint has in each channel. -/
def Endpoint.level : Endpoint → ℚ
  | .white => 255
  | .black => 0

theorem Endpoint.value?_channel (e : Endpoint) : value? e.channel = some e.level := by
  cases e with
  | white => exact value?_channelMax
  | black => exact value?_zero

/-- No channel is so far from an endpoint that their difference is infinite. -/
theorem exists_value?_sub (hx : value? x = some a) (e : Endpoint) :
    ∃ b, value? (e.channel - x) = some b := by
  refine (isRounding_sub e.value?_channel hx).exists_value?_of_near hx ?_
  have hlevel : |e.level| < 2 ^ (8 : Int) := by
    cases e <;> norm_num [Endpoint.level]
  calc |e.level - a| ≤ |a| + |e.level| := abs_sub_comm e.level a ▸ abs_sub a e.level
    _ < |a| + 2 ^ (8 : Int) := by gcongr
    _ < |a| + 2 ^ (970 : Int) := by
      gcongr
      · exact one_lt_two
      · decide

/-- What is added to a channel may overflow, but it is no NaN, and neither is the sum. -/
theorem exists_position?_blend (hx : value? (c.get k) = some a) (hp : value? p.value = some u) :
    ∃ w, position? ((blend c p e).get k) = some w := by
  obtain ⟨f, hf⟩ := Percentage.exists_value?_fraction hp
  obtain ⟨b, hb⟩ := exists_value?_sub hx e
  obtain ⟨m, hm⟩ := isNaN_eq_false_iff.1 (isRounding_mul hf hb).isNaN
  rw [get_blend]
  exact exists_position?_add hx hm

/-! ## Percentages in order -/

/-- Blends are in the order of what is added to the channel. -/
theorem blend_le_of_mul_le (hx : value? (c.get k) = some a) (hf : value? p.fraction = some f)
    (hg : value? q.fraction = some g) (hb : value? (e.channel - c.get k) = some b)
    (h : f * b ≤ g * b) : (blend c p e).get k ≤ (blend c q e).get k := by
  rw [get_blend, get_blend]
  exact add_le_add_of_value? hx ((isRounding_mul hf hb).le (isRounding_mul hg hb) h)

/-- A channel grows with the percentage if it is below the endpoint. -/
theorem blend_le_blend (hx : value? (c.get k) = some a) (hp : value? p.value = some u)
    (hq : value? q.value = some v) (h : p.value ≤ q.value) (ha : a ≤ e.level) :
    (blend c p e).get k ≤ (blend c q e).get k := by
  obtain ⟨f, hf⟩ := Percentage.exists_value?_fraction hp
  obtain ⟨g, hg⟩ := Percentage.exists_value?_fraction hq
  obtain ⟨b, hb⟩ := exists_value?_sub hx e
  have hfg := (le_iff_of_value? hf hg).1 (Percentage.fraction_le hp hq h)
  have hnonneg : 0 ≤ b :=
    (isRounding_sub e.value?_channel hx).le_of_value? hb value?_zero (sub_nonneg.2 ha)
  exact blend_le_of_mul_le hx hf hg hb (mul_le_mul_of_nonneg_right hfg hnonneg)

/-- A channel shrinks with the percentage if it is above the endpoint. -/
theorem blend_ge_blend (hx : value? (c.get k) = some a) (hp : value? p.value = some u)
    (hq : value? q.value = some v) (h : p.value ≤ q.value) (ha : e.level ≤ a) :
    (blend c q e).get k ≤ (blend c p e).get k := by
  obtain ⟨f, hf⟩ := Percentage.exists_value?_fraction hp
  obtain ⟨g, hg⟩ := Percentage.exists_value?_fraction hq
  obtain ⟨b, hb⟩ := exists_value?_sub hx e
  have hfg := (le_iff_of_value? hf hg).1 (Percentage.fraction_le hp hq h)
  have hnonpos : b ≤ 0 :=
    (isRounding_sub e.value?_channel hx).ge_of_value? hb value?_zero (sub_nonpos.2 ha)
  exact blend_le_of_mul_le hx hg hf hb (mul_le_mul_of_nonpos_right hfg hnonpos)

/-! ## Endpoints -/

/-- At no percentage a channel stays what it is. -/
theorem value?_blend_zero (hx : value? (c.get k) = some a) (hp : IsZero p.value) :
    value? ((blend c p e).get k) = some a := by
  obtain ⟨b, hb⟩ := exists_value?_sub hx e
  have hf : value? p.fraction = some 0 :=
    (Percentage.isRounding_fraction hp.value?).value?_eq value?_zero (zero_div _)
  have hm : value? (p.fraction * (e.channel - c.get k)) = some 0 :=
    (isRounding_mul hf hb).value?_eq value?_zero (zero_mul b)
  rw [get_blend]
  exact (isRounding_add hx hm).value?_eq hx (add_zero a)

theorem fraction_hundred : (Percentage.mk 100).fraction = 1 := by
  have hf : value? (Percentage.mk 100).fraction = some 1 :=
    (Percentage.isRounding_fraction value?_hundred).value?_eq value?_one (div_self (by norm_num))
  exact eq_of_value?_eq hf value?_one one_ne_zero

/-- At `100` percent the whole difference is added. -/
theorem value?_mul_hundred (hd : value? d = some b) :
    value? ((Percentage.mk 100).fraction * d) = some b := by
  rw [fraction_hundred]
  exact (isRounding_mul value?_one hd).value?_eq hd (one_mul b)

/-- The difference from black is exact. -/
theorem value?_sub_black (hx : value? x = some a) :
    value? (Endpoint.black.channel - x) = some (-a) :=
  (isRounding_sub Endpoint.black.value?_channel hx).value?_eq (value?_neg hx) (zero_sub a)

theorem value?_shade_hundred (hx : value? (c.get k) = some a) :
    value? ((shade c ⟨100⟩).get k) = some 0 := by
  have hm := value?_mul_hundred (value?_sub_black hx)
  rw [shade, get_blend]
  exact (isRounding_add hx hm).value?_eq value?_zero (add_neg_cancel a)

/-- The difference from white is off by at most `2 ^ -46`, half a unit of the numbers below `256`.
So the sum is rounded to `255`, the mantissa of which is even. -/
theorem value?_tint_hundred (hx : value? (c.get k) = some a) (hlower : 0 ≤ a) (hupper : a ≤ 255) :
    value? ((tint c ⟨100⟩).get k) = some 255 := by
  obtain ⟨b, hb⟩ := exists_value?_sub hx .white
  have hsmall : |Endpoint.white.level - a| < 2 ^ 53 * 2 ^ (-45 : Int) := by
    rw [Endpoint.level, abs_of_nonneg (by linarith)]
    norm_num
    linarith
  have herror := (isRounding_sub Endpoint.white.value?_channel hx).abs_sub_le hb (by decide) hsmall
  have hwhite : ((255 * 2 ^ 45 : Nat) : ℚ) * 2 ^ (-45 : Int) = 255 := by norm_num
  have hsum := isRounding_add hx (value?_mul_hundred hb)
  rw [tint, get_blend, ← hwhite]
  refine hsum.value?_of_even (by decide) (by decide) (by decide) (by decide) (by decide) ?_
  rw [hwhite, abs_sub_comm]
  convert herror using 2
  rw [Endpoint.level]
  ring

/-- At `100` percent a shade is positive zero. -/
theorem shade_hundred (hx : value? (c.get k) = some a) : (shade c ⟨100⟩).get k = 0 := by
  rw [shade, get_blend]
  by_cases ha : a = 0
  · subst ha
    rcases isZero_of_value? hx with h | h <;> rw [h] <;> decide +kernel
  · have hneg := value?_neg hx
    have hm := value?_mul_hundred (value?_sub_black hx)
    rw [eq_of_value?_eq hm hneg (neg_ne_zero.2 ha)]
    exact add_neg_of_value? hx ha

/-! ## Between the endpoints -/

/-- Between no percentage and `100`, a tint lies between the channel and white. -/
theorem exists_value?_tint (hx : value? (c.get k) = some a) (hlower : 0 ≤ a) (hupper : a ≤ 255)
    (hp : value? p.value = some u) (hzero : 0 ≤ p.value) (hhundred : p.value ≤ 100) :
    ∃ v, value? ((tint c p).get k) = some v ∧ a ≤ v ∧ v ≤ 255 := by
  have hstart : value? ((tint c ⟨0⟩).get k) = some a := value?_blend_zero hx (.inl rfl)
  exact exists_value?_of_le_of_le hstart (value?_tint_hundred hx hlower hupper)
    (blend_le_blend hx value?_zero hp hzero hupper)
    (blend_le_blend hx hp value?_hundred hhundred hupper)

/-- Between no percentage and `100`, a shade lies between black and the channel. -/
theorem exists_value?_shade (hx : value? (c.get k) = some a) (hlower : 0 ≤ a)
    (hp : value? p.value = some u) (hzero : 0 ≤ p.value) (hhundred : p.value ≤ 100) :
    ∃ v, value? ((shade c p).get k) = some v ∧ 0 ≤ v ∧ v ≤ a := by
  have hstart : value? ((shade c ⟨0⟩).get k) = some a := value?_blend_zero hx (.inl rfl)
  exact exists_value?_of_le_of_le (value?_shade_hundred hx) hstart
    (blend_ge_blend hx hp value?_hundred hhundred hlower)
    (blend_ge_blend hx value?_zero hp hzero hlower)

/-! ## Blends -/

/-- The channels of a color lie between its tints and shades, and move one way as the percentage
grows. The blends between the endpoints are written as they would be without limits. No blend is a
NaN, whatever overflows. -/
theorem blend_ordered (c : Color) (k : Channel) :
    (∀ p : Percentage, 0 ≤ c.get k → c.get k ≤ 255 → 0 ≤ p.value → p.value ≤ 100 →
      (c.get k ≤ (tint c p).get k ∧ (tint c p).get k ≤ 255) ∧
      (0 ≤ (shade c p).get k ∧ (shade c p).get k ≤ c.get k) ∧
      RoundsToByte ((tint c p).get k) ∧ RoundsToByte ((shade c p).get k)) ∧
    (∀ p q : Percentage, (c.get k).isFinite = true → p.value.isFinite = true →
      q.value.isFinite = true → p.value ≤ q.value →
      (c.get k ≤ 255 → (tint c p).get k ≤ (tint c q).get k) ∧
      (255 ≤ c.get k → (tint c q).get k ≤ (tint c p).get k) ∧
      (0 ≤ c.get k → (shade c q).get k ≤ (shade c p).get k) ∧
      (c.get k ≤ 0 → (shade c p).get k ≤ (shade c q).get k)) ∧
    (∀ p : Percentage, (c.get k).isFinite = true → p.value.isFinite = true →
      ((tint c p).get k).isNaN = false ∧ ((shade c p).get k).isNaN = false) := by
  have hzero := value?_zero
  have hmax := value?_channelMax
  refine ⟨fun p hlower hupper hp0 hp100 => ?_, fun p q hx hp hq hpq => ?_, fun p hx hp => ?_⟩
  · obtain ⟨a, hx, ha0, ha255⟩ := exists_value?_of_le_of_le hzero hmax hlower hupper
    obtain ⟨u, hp, -, -⟩ := exists_value?_of_le_of_le hzero value?_hundred hp0 hp100
    obtain ⟨v, hv, hav, hv255⟩ := exists_value?_tint hx ha0 ha255 hp hp0 hp100
    obtain ⟨w, hw, hw0, hwa⟩ := exists_value?_shade hx ha0 hp hp0 hp100
    refine ⟨⟨?_, ?_⟩, ⟨?_, ?_⟩, ?_, ?_⟩
    · exact (le_iff_of_value? hx hv).2 hav
    · exact (le_iff_of_value? hv hmax).2 hv255
    · exact (le_iff_of_value? hzero hw).2 hw0
    · exact (le_iff_of_value? hw hx).2 hwa
    · exact roundsToByte_of_value? hv (ha0.trans hav) hv255
    · exact roundsToByte_of_value? hw hw0 (hwa.trans ha255)
  · obtain ⟨a, hx⟩ := isFinite_iff.1 hx
    obtain ⟨u, hp⟩ := isFinite_iff.1 hp
    obtain ⟨v, hq⟩ := isFinite_iff.1 hq
    refine ⟨fun h => ?_, fun h => ?_, fun h => ?_, fun h => ?_⟩
    · exact blend_le_blend hx hp hq hpq ((le_iff_of_value? hx hmax).1 h)
    · exact blend_ge_blend hx hp hq hpq ((le_iff_of_value? hmax hx).1 h)
    · exact blend_ge_blend hx hp hq hpq ((le_iff_of_value? hzero hx).1 h)
    · exact blend_le_blend hx hp hq hpq ((le_iff_of_value? hx hzero).1 h)
  · obtain ⟨a, hx⟩ := isFinite_iff.1 hx
    obtain ⟨u, hp⟩ := isFinite_iff.1 hp
    exact ⟨isNaN_eq_false_iff.2 (exists_position?_blend hx hp),
      isNaN_eq_false_iff.2 (exists_position?_blend hx hp)⟩

theorem blend_ordered_ten_twenty :
    (((100 : Float) ≤ (tint ⟨100, 300, -20⟩ ⟨10⟩).get .red ∧
        (tint ⟨100, 300, -20⟩ ⟨10⟩).get .red ≤ 255) ∧
      (tint ⟨100, 300, -20⟩ ⟨10⟩).get .red ≤ (tint ⟨100, 300, -20⟩ ⟨20⟩).get .red ∧
      (shade ⟨100, 300, -20⟩ ⟨20⟩).get .red ≤ (shade ⟨100, 300, -20⟩ ⟨10⟩).get .red) ∧
    (tint ⟨100, 300, -20⟩ ⟨20⟩).get .green ≤ (tint ⟨100, 300, -20⟩ ⟨10⟩).get .green ∧
    (shade ⟨100, 300, -20⟩ ⟨10⟩).get .blue ≤ (shade ⟨100, 300, -20⟩ ⟨20⟩).get .blue ∧
    ((tint ⟨100, 300, -20⟩ ⟨10⟩).get .blue).isNaN = false := by
  have hle : (10 : Float) ≤ 20 := by decide +kernel
  obtain ⟨hbetween, hred, -⟩ := blend_ordered ⟨100, 300, -20⟩ .red
  obtain ⟨-, hgreen, -⟩ := blend_ordered ⟨100, 300, -20⟩ .green
  obtain ⟨-, hblue, hnumber⟩ := blend_ordered ⟨100, 300, -20⟩ .blue
  have hten := hbetween ⟨10⟩ (by decide +kernel) (by decide +kernel) (by decide +kernel)
    (by decide +kernel)
  have hred := hred ⟨10⟩ ⟨20⟩ (by decide +kernel) (by decide +kernel) (by decide +kernel) hle
  have hgreen := hgreen ⟨10⟩ ⟨20⟩ (by decide +kernel) (by decide +kernel) (by decide +kernel) hle
  have hblue := hblue ⟨10⟩ ⟨20⟩ (by decide +kernel) (by decide +kernel) (by decide +kernel) hle
  exact ⟨⟨hten.1, hred.1 (by decide +kernel), hred.2.2.1 (by decide +kernel)⟩,
    hgreen.2.1 (by decide +kernel), hblue.2.2.2 (by decide +kernel),
    (hnumber ⟨10⟩ (by decide +kernel) (by decide +kernel)).1⟩

/-- A blend at no percentage is the color itself, and one at `100` is the endpoint exactly. A tint
gets there from a color that is not lighter than white. -/
theorem blend_endpoints (c : Color) :
    ((∀ k, (c.get k).isFinite = true) →
      (∀ p : Percentage, (p.value == 0) = true →
        (tint c p == c) = true ∧ (shade c p == c) = true) ∧
      shade c ⟨100⟩ = ⟨0, 0, 0⟩) ∧
    ((∀ k, 0 ≤ c.get k ∧ c.get k ≤ 255) → tint c ⟨100⟩ = ⟨255, 255, 255⟩) := by
  refine ⟨fun hfinite => ⟨fun p hp => ?_, ?_⟩, fun hgamut => ?_⟩
  · have hzero := beq_zero_iff.1 hp
    have hsame (e : Endpoint) : (blend c p e == c) = true := by
      refine Color.beq_iff_get.2 fun k => ?_
      obtain ⟨a, hx⟩ := isFinite_iff.1 (hfinite k)
      exact beq_of_value?_eq (value?_blend_zero hx hzero) hx
    exact ⟨hsame .white, hsame .black⟩
  · refine Color.ext_get fun k => ?_
    obtain ⟨a, hx⟩ := isFinite_iff.1 (hfinite k)
    rw [shade_hundred hx]
    cases k <;> rfl
  · refine Color.ext_get fun k => ?_
    obtain ⟨hlower, hupper⟩ := hgamut k
    obtain ⟨a, hx, ha0, ha255⟩ :=
      exists_value?_of_le_of_le value?_zero value?_channelMax hlower hupper
    rw [eq_of_value?_eq (value?_tint_hundred hx ha0 ha255) value?_channelMax (by norm_num)]
    cases k <;> rfl

theorem blend_endpoints_fractional :
    ((tint ⟨0.1, 99.9, 254.7⟩ ⟨-0⟩ == (⟨0.1, 99.9, 254.7⟩ : Color)) = true ∧
      shade ⟨0.1, 99.9, 254.7⟩ ⟨100⟩ = ⟨0, 0, 0⟩) ∧
    tint ⟨0.1, 99.9, 254.7⟩ ⟨100⟩ = ⟨255, 255, 255⟩ := by
  obtain ⟨hfinite, hgamut⟩ := blend_endpoints ⟨0.1, 99.9, 254.7⟩
  obtain ⟨hzero, hhundred⟩ := hfinite fun k => by cases k <;> decide +kernel
  exact ⟨⟨(hzero ⟨-0⟩ (by decide +kernel)).1, hhundred⟩,
    hgamut fun k => by cases k <;> decide +kernel⟩

end StyleValues
