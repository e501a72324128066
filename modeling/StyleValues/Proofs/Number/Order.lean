import StyleValues.Proofs.Number.Value

/-!
# The order of numbers

Numbers are compared by the rationals that they denote. The infinities lie right outside of the
finite numbers, and NaN lies nowhere.

## Main definitions

* `Number.position?`: where a number lies among the rationals.

## Main results

* `Number.le_iff`: numbers compare as their positions do.
-/

namespace StyleValues.Number

open Float.Model (Format UnpackedFloat)
open Float.Model.UnpackedFloat

variable {m n : Nat} {e f : Int} {x y z : Float} {p q : ℚ}

/-! ## Finite numbers -/

/-- A greater exponent is that of a greater number. -/
theorem Canonical.mul_lt_mul (hm : Canonical m e) (hn : Canonical n f) (h : e < f) :
    (m : ℚ) * 2 ^ e < n * 2 ^ f := by
  have hleast := hm.least
  have hfull : (2 ^ 52 : ℚ) ≤ n := by exact_mod_cast hn.full.resolve_right (by omega)
  have hlt : (m : ℚ) < 2 ^ 53 := by exact_mod_cast hm.lt
  calc (m : ℚ) * 2 ^ e < 2 ^ 53 * 2 ^ e := by gcongr
    _ = 2 ^ 52 * 2 ^ (e + 1) := by rw [zpow_add_one₀ two_ne_zero]; ring
    _ ≤ n * 2 ^ f := by
      gcongr
      · exact one_le_two
      · omega

theorem Canonical.compare_eq (hm : Canonical m e) (hn : Canonical n f) :
    (compare e f).then (compare m n) = compare ((m : ℚ) * 2 ^ e) (n * 2 ^ f) := by
  rcases lt_trichotomy e f with h | rfl | h
  · rw [compare_lt_iff_lt.2 h, compare_lt_iff_lt.2 (hm.mul_lt_mul hn h)]
    rfl
  · have hpos : (0 : ℚ) < 2 ^ e := zpow_pos two_pos e
    rw [compare_eq_iff_eq.2 rfl, Ordering.then]
    rcases lt_trichotomy m n with h | rfl | h
    · rw [compare_lt_iff_lt.2 h, compare_lt_iff_lt.2 (by gcongr)]
    · rw [compare_eq_iff_eq.2 rfl, compare_eq_iff_eq.2 rfl]
    · rw [compare_gt_iff_gt.2 h, compare_gt_iff_gt.2 (by gcongr)]
  · rw [compare_gt_iff_gt.2 h, compare_gt_iff_gt.2 (hn.mul_lt_mul hm h)]
    rfl

theorem compare_neg (a b : ℚ) : compare (-a) (-b) = (compare a b).swap := by
  rw [← Std.OrientedCmp.eq_swap]
  rcases lt_trichotomy a b with h | rfl | h
  · rw [compare_gt_iff_gt.2 h, compare_gt_iff_gt.2 (neg_lt_neg h)]
  · rw [compare_eq_iff_eq.2 rfl, compare_eq_iff_eq.2 rfl]
  · rw [compare_lt_iff_lt.2 h, compare_lt_iff_lt.2 (neg_lt_neg h)]

/-- The least power of two beyond all finite numbers. -/
@[irreducible] def limit : ℚ := 2 ^ 1024

theorem limit_pos : 0 < limit := by
  rw [limit]
  positivity

theorem limit_eq : limit = 2 ^ 53 * 2 ^ (971 : Int) := by
  rw [limit, ← zpow_natCast, ← zpow_natCast, ← zpow_add₀ two_ne_zero]
  rfl

theorem Canonical.mul_lt_limit (h : Canonical m e) : (m : ℚ) * 2 ^ e < limit := by
  have hlt : (m : ℚ) < 2 ^ 53 := by exact_mod_cast h.lt
  calc (m : ℚ) * 2 ^ e < 2 ^ 53 * 2 ^ e := by gcongr
    _ ≤ 2 ^ 53 * 2 ^ (971 : Int) := by
      gcongr
      · exact one_le_two
      · exact h.greatest
    _ = limit := limit_eq.symm

/-! ## Positions -/

/-- Where an unpacked number lies among the rationals. -/
def unpackedPosition? : UnpackedFloat → Option ℚ
  | .infinity s => some (s.apply 1 * limit)
  | u => unpackedValue? u

/-- Where a number lies among the rationals. The infinities lie where the next numbers would, if
there were greater exponents. -/
def position? (x : Float) : Option ℚ := unpackedPosition? x.toModel.unpack

/-- An unpacked number is zero, or its mantissa and exponent are those of a number. -/
def IsCanonical : UnpackedFloat → Prop
  | .finite _ m e _ => Canonical m e
  | _ => True

theorem isCanonical_unpack (x : Float) : IsCanonical x.toModel.unpack := by
  cases hx : x.toModel.unpack with
  | finite s m e hm => exact canonical_of_unpack hx
  | _ => trivial

/-- A finite number other than zero lies on its side of zero, and inside of the infinities. -/
theorem Canonical.bounds (h : Canonical m e) : 0 < (m : ℚ) * 2 ^ e ∧ (m : ℚ) * 2 ^ e < limit := by
  have hm : (0 : ℚ) < m := by exact_mod_cast h.pos
  exact ⟨by positivity, h.mul_lt_limit⟩

theorem compare_unpacked {u v : UnpackedFloat} (hu : IsCanonical u) (hv : IsCanonical v)
    (hp : unpackedPosition? u = some p) (hq : unpackedPosition? v = some q) :
    u.compare v = some (compare p q) := by
  have hlimit := limit_pos
  have hlt {a b : ℚ} (h : a < b) : some Ordering.lt = some (compare a b) := by
    rw [compare_lt_iff_lt.2 h]
  have hgt {a b : ℚ} (h : b < a) : some Ordering.gt = some (compare a b) := by
    rw [compare_gt_iff_gt.2 h]
  have heq (a : ℚ) : some Ordering.eq = some (compare a a) := by rw [compare_eq_iff_eq.2 rfl]
  cases u <;> cases v <;>
    simp only [unpackedPosition?, unpackedValue?, Option.some.injEq, reduceCtorEq] at hp hq <;>
    subst hp <;> subst hq
  case infinity.infinity s t =>
    cases s <;> cases t <;> simp only [Sign.apply, Int.cast_neg, Int.cast_one, neg_mul, one_mul]
    · exact heq _
    · exact hlt (by linarith)
    · exact hgt (by linarith)
    · exact heq _
  case infinity.zero s t =>
    cases s <;> simp only [Sign.apply, Int.cast_neg, Int.cast_one, neg_mul, one_mul]
    · exact hlt (by linarith)
    · exact hgt (by linarith)
  case zero.infinity s t =>
    cases t <;> simp only [Sign.apply, Int.cast_neg, Int.cast_one, neg_mul, one_mul]
    · exact hgt (by linarith)
    · exact hlt (by linarith)
  case zero.zero s t => exact heq 0
  case infinity.finite s t n f hn =>
    have := Canonical.bounds hv
    cases s <;> cases t <;>
      simp only [Sign.apply, Int.cast_neg, Int.cast_one, Int.cast_natCast, neg_mul, one_mul]
    · exact hlt (by linarith)
    · exact hlt (by linarith)
    · exact hgt (by linarith)
    · exact hgt (by linarith)
  case finite.infinity s m e hm t =>
    have := Canonical.bounds hu
    cases s <;> cases t <;>
      simp only [Sign.apply, Int.cast_neg, Int.cast_one, Int.cast_natCast, neg_mul, one_mul]
    · exact hgt (by linarith)
    · exact hlt (by linarith)
    · exact hgt (by linarith)
    · exact hlt (by linarith)
  case zero.finite s t n f hn =>
    have := Canonical.bounds hv
    cases t <;> simp only [Sign.apply, Int.cast_neg, Int.cast_natCast, neg_mul]
    · exact hgt (by linarith)
    · exact hlt (by linarith)
  case finite.zero s m e hm t =>
    have := Canonical.bounds hu
    cases s <;> simp only [Sign.apply, Int.cast_neg, Int.cast_natCast, neg_mul]
    · exact hlt (by linarith)
    · exact hgt (by linarith)
  case finite.finite s m e hm t n f hn =>
    have hmn := Canonical.compare_eq hu hv
    have := Canonical.bounds hu
    have := Canonical.bounds hv
    cases s <;> cases t <;> simp only [Sign.apply, Int.cast_neg, Int.cast_natCast, neg_mul]
    · rw [compare_neg, ← hmn]
      rfl
    · exact hlt (by linarith)
    · exact hgt (by linarith)
    · rw [← hmn]
      rfl

theorem unpackedPosition?_eq_none_iff {u : UnpackedFloat} :
    unpackedPosition? u = none ↔ u = .notANumber := by
  cases u <;> simp [unpackedPosition?, unpackedValue?]

/-- Numbers compare as their positions do, if both have one. -/
theorem compare_eq_some_iff {o : Ordering} :
    x.toModel.unpack.compare y.toModel.unpack = some o ↔
      ∃ p q, position? x = some p ∧ position? y = some q ∧ compare p q = o := by
  have hx := isCanonical_unpack x
  have hy := isCanonical_unpack y
  rw [position?, position?]
  generalize x.toModel.unpack = u at hx
  generalize y.toModel.unpack = v at hy
  cases hp : unpackedPosition? u with
  | none =>
    obtain rfl := unpackedPosition?_eq_none_iff.1 hp
    simp [UnpackedFloat.compare]
  | some p =>
    cases hq : unpackedPosition? v with
    | none =>
      obtain rfl := unpackedPosition?_eq_none_iff.1 hq
      cases u <;> simp [UnpackedFloat.compare]
    | some q => simp [compare_unpacked hx hy hp hq]

theorem le_iff : x ≤ y ↔ ∃ p q, position? x = some p ∧ position? y = some q ∧ p ≤ q := by
  change decide (x.toModel ≤ y.toModel) = true ↔ _
  rw [decide_eq_true_iff]
  change (x.toModel.unpack.compare y.toModel.unpack).any (·.isLE) = true ↔ _
  simp only [Option.any_eq_true, compare_eq_some_iff]
  constructor
  · rintro ⟨_, ⟨p, q, hp, hq, rfl⟩, hle⟩
    exact ⟨p, q, hp, hq, compare_le_iff_le.1 (Ordering.isLE_iff_ne_gt.1 hle)⟩
  · rintro ⟨p, q, hp, hq, hle⟩
    exact ⟨_, ⟨p, q, hp, hq, rfl⟩, Ordering.isLE_iff_ne_gt.2 (compare_le_iff_le.2 hle)⟩

theorem lt_iff : x < y ↔ ∃ p q, position? x = some p ∧ position? y = some q ∧ p < q := by
  change decide (x.toModel < y.toModel) = true ↔ _
  rw [decide_eq_true_iff]
  change (x.toModel.unpack.compare y.toModel.unpack == some .lt) = true ↔ _
  simp only [beq_iff_eq, compare_eq_some_iff, compare_lt_iff_lt]

/-! ## Finite numbers and the others -/

theorem position?_of_value? (h : value? x = some p) : position? x = some p := by
  rw [value?] at h
  rw [position?]
  cases hx : x.toModel.unpack with
  | infinity s =>
    rw [hx] at h
    cases h
  | _ =>
    rw [hx] at h
    exact h

/-- Finite numbers compare as the rationals that they denote. -/
theorem le_iff_of_value? (hx : value? x = some p) (hy : value? y = some q) : x ≤ y ↔ p ≤ q := by
  simp [le_iff, position?_of_value? hx, position?_of_value? hy]

theorem abs_lt_limit_of_value? (h : value? x = some p) : |p| < limit := by
  by_cases hp : p = 0
  · rw [hp, abs_zero]
    exact limit_pos
  · obtain ⟨s, m, e, hm, hx, rfl⟩ := exists_unpack_of_value? h hp
    have hlt := (canonical_of_unpack hx).mul_lt_limit
    cases s <;> simpa [Sign.apply, abs_mul] using hlt

/-- An infinity lies at the limit. -/
theorem position?_cases (h : position? x = some p) :
    value? x = some p ∨ |p| = limit := by
  rw [position?] at h
  rw [value?]
  cases hx : x.toModel.unpack with
  | infinity s =>
    rw [hx] at h
    obtain rfl : s.apply 1 * limit = p := Option.some.inj h
    cases s <;> simp [Sign.apply, abs_of_pos limit_pos]
  | _ =>
    rw [hx] at h
    exact .inl h

theorem value?_of_abs_lt (h : position? x = some p) (hlt : |p| < limit) : value? x = some p :=
  (position?_cases h).resolve_right hlt.ne

/-- What lies between two finite numbers is finite. -/
theorem exists_value?_of_le_of_le (hx : value? x = some p) (hz : value? z = some q) (hxy : x ≤ y)
    (hyz : y ≤ z) : ∃ v, value? y = some v ∧ p ≤ v ∧ v ≤ q := by
  obtain ⟨p', a, hp', ha, hpa⟩ := le_iff.1 hxy
  obtain ⟨a', q', ha', hq', haq⟩ := le_iff.1 hyz
  rw [position?_of_value? hx, Option.some.injEq] at hp'
  rw [position?_of_value? hz, Option.some.injEq] at hq'
  rw [ha, Option.some.injEq] at ha'
  subst hp' hq' ha'
  have hlower := (abs_lt.1 (abs_lt_limit_of_value? hx)).1
  have hupper := (abs_lt.1 (abs_lt_limit_of_value? hz)).2
  refine ⟨a, value?_of_abs_lt ha (abs_lt.2 ⟨?_, ?_⟩), hpa, haq⟩
  · linarith
  · linarith

theorem isFinite_iff : x.isFinite = true ↔ ∃ p, value? x = some p := by
  constructor
  · intro h
    change x.toModel.unpack.isFinite = true at h
    rw [value?]
    cases hx : x.toModel.unpack with
    | notANumber | infinity s =>
      rw [hx] at h
      cases h
    | zero s | finite s m e hm => exact ⟨_, rfl⟩
  · rintro ⟨p, h⟩
    exact isFinite_of_value? h

theorem isNaN_eq_false_iff : x.isNaN = false ↔ ∃ p, position? x = some p := by
  change x.toModel.unpack.isNaN = false ↔ _
  rw [position?, ← Option.isSome_iff_exists, Option.isSome_iff_ne_none, ne_eq,
    unpackedPosition?_eq_none_iff]
  cases x.toModel.unpack <;> simp [UnpackedFloat.isNaN]

end StyleValues.Number
