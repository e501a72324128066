import StyleValues.Proofs.Conversion.Leafwise
import StyleValues.Proofs.Number.Truncation
import StyleValues.Proofs.Settings.Grammar

/-!
# The base of an option string

The base that an option string sets is the number for a signed word of 64 bits. Such a number is
an integer, so it can be given as an explicit base as well, which would be truncated otherwise.

## Main definitions

* `Settings.HasWordBase`: the base is the number for a word.

## Main results

* `Settings.base_of_ofOptions`: an option string sets an integer, and conversions under it are
  those with this base given explicitly.
-/

namespace StyleValues

theorem effectiveBase_number {x : Float} {n : Int} (h : Number.value? x = some (n : ℚ))
    (units : Units) (settings : Settings) :
    effectiveBase (some (.dimension ⟨.number x, units⟩)) settings = .ok x := by
  rw [effectiveBase, Number.truncate_of_value? h]

namespace Settings

/-- The base is the number for a signed word of 64 bits. -/
def HasWordBase (s : Settings) : Prop :=
  ∃ n : Int, -2 ^ 63 ≤ n ∧ n ≤ 2 ^ 63 - 1 ∧ s.basePx = Number.ofInt n

variable {s settings : Settings} {ts : List (List Char)} {options : String}

theorem hasWordBase_default : HasWordBase {} :=
  ⟨16, by decide, by decide, rfl⟩

theorem bounds_of_baseAssigned {t : List Char} {n : Int} (h : baseAssigned t = .ok n) :
    -2 ^ 63 ≤ n ∧ n ≤ 2 ^ 63 - 1 := by
  unfold baseAssigned at h
  split at h
  · cases h
  · split_ifs at h
    split at h
    next hword =>
      cases h
      exact (wordOfText?_eq_some_iff.1 hword).2
    next => cases h

/-- Assignments keep bases that are words. -/
theorem HasWordBase.assign (hs : s.HasWordBase) (h : s.assign ts = .ok settings) :
    settings.HasWordBase := by
  induction ts generalizing s with
  | nil =>
    cases h
    exact hs
  | cons t ts ih =>
    cases ht : baseAssigned t with
    | error e =>
      rw [assign_cons_of_error ht] at h
      cases h
    | ok n =>
      rw [assign_cons_of_ok ht] at h
      obtain ⟨hmin, hmax⟩ := bounds_of_baseAssigned ht
      exact ih ⟨n, hmin, hmax, rfl⟩ h

theorem HasWordBase.exists_value? (h : s.HasWordBase) :
    ∃ k : Int, Number.value? s.basePx = some (k : ℚ) ∧ |k| ≤ 2 ^ 63 := by
  obtain ⟨n, hmin, hmax, hbase⟩ := h
  obtain ⟨k, hvalue, -, hbound⟩ := Number.exists_value?_ofInt (Number.log2_natAbs_lt hmin hmax)
  have hk := hbound 63 (by omega)
  exact ⟨k, hbase ▸ hvalue, abs_le.2 (by omega)⟩

theorem HasWordBase.ne_neg_zero (h : s.HasWordBase) : s.basePx ≠ -0 := by
  obtain ⟨n, hmin, hmax, hbase⟩ := h
  exact hbase ▸ Number.ofInt_ne_neg_zero (Number.log2_natAbs_lt hmin hmax)

/-- The base of an accepted option string is an integer of at most `2 ^ 63` in absolute value, and
not negative zero. Any value is converted under it as it is with this base given explicitly, with
any units and under any other settings. -/
theorem base_of_ofOptions (h : ofOptions options = .ok settings) :
    (∃ k : Int, Number.value? settings.basePx = some (k : ℚ) ∧ |k| ≤ 2 ^ 63) ∧
      settings.basePx.isFinite = true ∧ settings.basePx.isNaN = false ∧ settings.basePx ≠ -0 ∧
      ∀ (v : Value) (target : RelativeUnit) (other : Settings) (units : Units),
        convert v none target settings =
          convert v (some (.dimension ⟨.number settings.basePx, units⟩)) target other := by
  have hword : settings.HasWordBase := hasWordBase_default.assign h
  obtain ⟨k, hvalue, hbound⟩ := hword.exists_value?
  refine ⟨⟨k, hvalue, hbound⟩, Number.isFinite_of_value? hvalue, Number.isNaN_of_value? hvalue,
    hword.ne_neg_zero, fun v target other units => ?_⟩
  rw [convert_of_base (effectiveBase_number hvalue units other) v]
  rfl

/-- The greatest word is rounded to `2 ^ 63`. -/
theorem base_of_ofOptions_greatest :
    ofOptions "base-px=-0 base-px=9223372036854775807" = .ok { basePx := 9223372036854775808 } ∧
      Float.isFinite 9223372036854775808 = true ∧
      ∀ v : Value, convert v none .rem { basePx := 9223372036854775808 } =
        convert v (some (.dimension (.px 9223372036854775808))) .rem {} := by
  have h : ofOptions "base-px=-0 base-px=9223372036854775807" =
      .ok { basePx := 9223372036854775808 } := rfl
  obtain ⟨-, hfinite, -, -, hconvert⟩ := base_of_ofOptions h
  exact ⟨h, hfinite, fun v => hconvert v .rem {} (.single "px")⟩

end Settings

end StyleValues
