import StyleValues.Proofs.Conversion.Leafwise
import StyleValues.Proofs.Value.Reflexive

/-!
# Normal values

A value is normal for a target if conversion to it has nothing left to do. Conversion makes a
value normal, and leaves exactly the normal values as they are, whatever the base.

## Main definitions

* `Value.IsNormal`: all leaves are automatic, zero, or exempt.

## Main results

* `convert_normalizes`: conversion as a normalization.
-/

namespace StyleValues

namespace Value

def IsNormal (target : RelativeUnit) (v : Value) : Prop :=
  ∀ l ∈ v.leaves, NormalLeaf target l

variable {base : Float} {target : RelativeUnit} {v w : Value}

/-- Conversion makes a value normal. -/
theorem isNormal_of_toUnit_eq_ok (h : v.toUnit base target = .ok w) : w.IsNormal target := by
  intro k hk
  obtain ⟨l, hl, hlk⟩ := (leafwise_of_toUnit_eq_ok h).exists_of_mem_leaves hk
  exact normalLeaf_of_toUnit_eq_ok (mem_leaves_iff.1 hl).1 hlk

/-- Conversion does not touch normal values. -/
theorem toUnit_of_isNormal (h : v.IsNormal target) : v.toUnit base target = .ok v := by
  induction v with
  | dimension d => exact toUnit_of_normalLeaf (h _ (by simp [leaves]))
  | keyword k => exact toUnit_of_normalLeaf (h _ (by simp [leaves]))
  | color c => exact toUnit_of_normalLeaf (h _ (by simp [leaves]))
  | composite vs ih =>
    have hvs : vs.mapM (toUnit base target) = .ok vs := by
      refine mapM_eq_ok_iff.2 (List.forall₂_same.2 fun v hv => ih v hv fun l hl => h l ?_)
      rw [leaves_composite]
      exact List.mem_flatMap.2 ⟨v, hv, hl⟩
    rw [toUnit, toUnitAll_eq_mapM, hvs]
    rfl

theorem toUnit_eq_self_iff : v.toUnit base target = .ok v ↔ v.IsNormal target :=
  ⟨isNormal_of_toUnit_eq_ok, toUnit_of_isNormal⟩

/-- Only a NaN keeps a normal value from being equal to itself. -/
theorem IsNormal.beq_self_iff (h : v.IsNormal target) :
    (v == v) = true ↔ ¬ v.HasNaNMagnitude := by
  rw [Value.beq_self_iff]
  constructor
  · rintro hv ⟨x, u, hl, hx⟩
    have hnumber := dimension_beq_self_iff.1 (hv _ hl) x rfl
    exact nomatch hx.symm.trans hnumber
  · intro hn l hl
    have number (x : Float) (u : Units) (hl : dimension ⟨.number x, u⟩ ∈ v.leaves) :
        (dimension ⟨.number x, u⟩ == dimension ⟨.number x, u⟩) = true := by
      rw [dimension_beq_self_iff]
      rintro y ⟨⟩
      exact eq_false_of_ne_true fun hx => hn ⟨x, u, hl, hx⟩
    cases h l hl with
    | keyword _ => exact keyword_beq_self _
    | auto u => exact dimension_beq_self_iff.2 (by simp)
    | zero _ u => exact number _ u hl
    | exempt x _ => exact number x _ hl

end Value

/-- What conversion returns is normal, and exactly the normal values are returned unchanged. So a
second conversion to the same target changes nothing under any base, and compares as equal to the
first unless that holds a NaN. -/
theorem convert_normalizes (v : Value) (target : RelativeUnit) :
    (∀ base? settings w, convert v base? target settings = .ok w → w.IsNormal target) ∧
    (∀ base? settings b, effectiveBase base? settings = .ok b →
      (convert v base? target settings = .ok v ↔ v.IsNormal target)) ∧
    ∀ base? settings w, convert v base? target settings = .ok w →
      ∀ again? settings' b, effectiveBase again? settings' = .ok b →
        convert w again? target settings' = .ok w ∧
        ∀ w', convert w again? target settings' = .ok w' →
          ((w == w') = true ↔ ¬ w.HasNaNMagnitude) := by
  have normal {base? settings w} (h : convert v base? target settings = .ok w) :
      w.IsNormal target := by
    obtain ⟨b, -, hw⟩ := convert_eq_ok_iff.1 h
    exact Value.isNormal_of_toUnit_eq_ok hw
  refine ⟨fun _ _ _ => normal, fun base? settings b hb => ?_,
    fun base? settings w h again? settings' b hb => ?_⟩
  · rw [convert_of_base hb, Value.toUnit_eq_self_iff]
  · have hw : convert w again? target settings' = .ok w := by
      rw [convert_of_base hb, Value.toUnit_of_isNormal (normal h)]
    refine ⟨hw, fun w' hw' => ?_⟩
    obtain rfl : w = w' := by simpa [hw] using hw'
    exact (normal h).beq_self_iff

/-- A NaN length is divided once, and no base of zero is noticed the second time. -/
theorem convert_normalizes_nan :
    convert (.composite [.dimension (.px (0 / 0)), .keyword "Auto"]) none .rem {} =
      .ok (.composite [.dimension (.withUnit (0 / 0) "rem"), .keyword "Auto"]) ∧
    convert (.composite [.dimension (.withUnit (0 / 0) "rem"), .keyword "Auto"])
      (some (.dimension (.px 0))) .rem {} =
      .ok (.composite [.dimension (.withUnit (0 / 0) "rem"), .keyword "Auto"]) ∧
    (Value.composite [.dimension (.withUnit (0 / 0) "rem"), .keyword "Auto"] ==
      Value.composite [.dimension (.withUnit (0 / 0) "rem"), .keyword "Auto"]) = false := by
  have hlength : Dimension.NeedsDivision .rem (.px (0 / 0)) := by
    refine ⟨0 / 0, rfl, ?_, ?_⟩
    · decide +kernel
    · decide
  have hfirst : convert (.composite [.dimension (.px (0 / 0)), .keyword "Auto"]) none .rem {} =
      .ok (.composite [.dimension (.withUnit (0 / 0) "rem"), .keyword "Auto"]) := by
    have hnan : (0 / 0 : Float) / 16 = 0 / 0 := by decide +kernel
    have hbase : ¬ Number.IsZero 16 := by decide +kernel
    have hnumber : (Value.dimension (.px (0 / 0))).toUnit 16 .rem =
        .ok (.dimension (.withUnit (0 / 0) "rem")) := by
      rw [Dimension.px, Dimension.withUnit, Value.toUnit_of_needsDivision hlength, if_neg hbase,
        hnan]
      rfl
    have hauto : (Value.keyword "Auto").toUnit 16 .rem = .ok (.keyword "Auto") :=
      Value.toUnit_of_normalLeaf (.keyword rfl)
    refine convert_eq_ok_iff.2 ⟨16, rfl, ?_⟩
    rw [Value.toUnit, Value.toUnitAll, hnumber, Value.toUnitAll, hauto]
    rfl
  have hbase : effectiveBase (some (.dimension (.px 0))) {} = .ok 0 := by decide +kernel
  obtain ⟨hagain, hequal⟩ := (convert_normalizes _ _).2.2 none {} _ hfirst _ {} 0 hbase
  refine ⟨hfirst, hagain, eq_false_of_ne_true fun h => (hequal _ hagain).1 h ?_⟩
  exact ⟨0 / 0, .single "rem", by simp [Dimension.withUnit, Value.leaves], by decide +kernel⟩

end StyleValues
