import StyleValues.Proofs.Conversion.Base
import StyleValues.Proofs.Number.Arithmetic
import StyleValues.Proofs.Value.Equality

/-!
# Conversions of equal values

Equal values under equal bases fail with the same error, or their conversions are equal. Equal
values can differ in the signs of zeros, and no sign of a zero is looked at: zeros are not divided,
a base of either zero is refused, and messages quote neither magnitudes nor channels. Conversions of
equal values differ only in that the quotient of two infinities is NaN, which equals nothing.

## Main definitions

* `Value.ConvertedAlike`: the conversions of equal values.

## Main results

* `Value.toUnit_eq_error_iff_of_beq`: equal values fail with the same error.
* `convert_respects_beq`: equal inputs are converted alike.
-/

namespace StyleValues

open Number (IsZero)

namespace Value

/-- Both are numbers in the same unit, and both numbers are NaN. -/
inductive BothNaN : Value → Value → Prop
  | intro {x y : Float} (hx : x.isNaN = true) (hy : y.isNaN = true) (u : Units) :
    BothNaN (.dimension ⟨.number x, u⟩) (.dimension ⟨.number y, u⟩)

/-- Conversion divides an infinite magnitude, at the path, by an infinite base. -/
def DividesInfinities (base : Float) (target : RelativeUnit) (v : Value) (path : List Nat) : Prop :=
  base.isInf = true ∧ ∃ x u, v.at? path = some (.dimension ⟨.number x, u⟩) ∧ x.isInf = true ∧
    Dimension.NeedsDivision target ⟨.number x, u⟩

/-- The conversions `w` of `v` under `base`, and `w'` of `v'` under `base'`, have the same shape.
Leaves at the same path are equal, or they are both NaN since infinities have been divided. -/
structure ConvertedAlike (base base' : Float) (target : RelativeUnit) (v v' w w' : Value) :
    Prop where
  shape : SameShape w w'
  leaf : ∀ path k, w.at? path = some k → k.IsLeaf → ∃ k', w'.at? path = some k' ∧
    ((k == k') = true ∨ BothNaN k k' ∧ DividesInfinities base target v path ∧
      DividesInfinities base' target v' path)

variable {base base' : Float} {target : RelativeUnit} {v v' w w' l l' k k' : Value}

theorem toUnit_eq_of_beq_base (h : (base == base') = true) (v : Value) :
    v.toUnit base target = v.toUnit base' target := by
  rcases Number.beq_iff.1 h with ⟨hb, hb'⟩ | ⟨rfl, -⟩
  · exact toUnit_eq_of_isZero hb hb'
  · rfl

/-- Equal values fail with the same error. -/
theorem toUnit_eq_error_iff_of_beq (h : (v == v') = true) :
    ∀ e, v.toUnit base target = .error e ↔ v'.toUnit base target = .error e := by
  refine beq_induct ?same ?zero ?color ?composite h
  case same =>
    intro l hl h e
    rfl
  case zero =>
    intro x y u hx hy e
    rw [toUnit_of_normalLeaf (.zero hx u), toUnit_of_normalLeaf (.zero hy u)]
    simp
  case color =>
    intro c d h e
    rw [toUnit_of_invalidLeaf (.color c), toUnit_of_invalidLeaf (.color d)]
  case composite =>
    intro vs ws h e
    rw [composite_toUnit_eq_error_iff, composite_toUnit_eq_error_iff]
    exact firstError_congr (h.imp fun _ _ h => h.2)

/-- Equal leaves are kept or divided alike. -/
theorem toUnit_leaf_of_beq (hl : l.IsLeaf) (h : (l == l') = true) (hbase : base.isNaN = false)
    (hk : l.toUnit base target = .ok k) (hk' : l'.toUnit base target = .ok k') :
    (k == k') = true ∨ BothNaN k k' ∧ base.isInf = true ∧
      ∃ x u, l = .dimension ⟨.number x, u⟩ ∧ l' = l ∧ x.isInf = true ∧
        Dimension.NeedsDivision target ⟨.number x, u⟩ := by
  rcases beq_leaf_cases hl h with rfl | ⟨x, y, u, rfl, rfl, hx, hy⟩ | ⟨c, d, rfl, rfl, -⟩
  · obtain rfl : k = k' := by simpa [hk] using hk'
    rcases toUnit_eq_ok_cases hl hk with ⟨-, rfl⟩ | ⟨x, u, rfl, hd, rfl⟩
    · exact .inl h
    · have hzero : ¬ IsZero base := by
        intro hzero
        rw [toUnit_of_needsDivision hd, if_pos hzero] at hk
        cases hk
      cases hquotient : (x / base).isNaN with
      | false => exact .inl (dimension_beq_iff.2 ⟨Number.beq_self_iff.2 hquotient, rfl⟩)
      | true =>
        have hx := dimension_beq_self_iff.1 h x rfl
        obtain ⟨hxinf, hbinf⟩ := Number.isInf_of_isNaN_div hx hbase hzero hquotient
        exact .inr ⟨.intro hquotient hquotient _, hbinf, x, u, rfl, rfl, hxinf, hd⟩
  · rw [toUnit_of_normalLeaf (.zero hx u)] at hk
    rw [toUnit_of_normalLeaf (.zero hy u)] at hk'
    cases hk
    cases hk'
    exact .inl h
  · rw [toUnit_of_invalidLeaf (.color c)] at hk
    cases hk

theorem isInf_of_beq {x y : Float} (h : (x == y) = true) (hx : x.isInf = true) :
    y.isInf = true := by
  rcases Number.beq_iff.1 h with ⟨rfl | rfl, -⟩ | ⟨rfl, -⟩
  · cases hx
  · cases hx
  · exact hx

/-- Conversions of equal values that succeed are alike. -/
theorem convertedAlike_of_beq (hv : (v == v') = true) (hbase : (base == base') = true)
    (hw : v.toUnit base target = .ok w) (hw' : v'.toUnit base' target = .ok w') :
    ConvertedAlike base base' target v v' w w' := by
  have hnan : base.isNaN = false := Number.beq_self_iff.1 (BEq.trans hbase (BEq.symm hbase))
  rw [← toUnit_eq_of_beq_base hbase] at hw'
  have hequal := leafwise_of_beq hv
  have hleft := leafwise_of_toUnit_eq_ok hw
  have hright := leafwise_of_toUnit_eq_ok hw'
  constructor
  · intro path
    exact (hleft.shape path).symm.trans ((hequal.shape path).trans (hright.shape path))
  · intro path k hk hleaf
    obtain ⟨l, hl, hlleaf, hlk⟩ := hleft.exists_left hk hleaf
    obtain ⟨l', hl', hll'⟩ := hequal.leaf path l hl hlleaf
    obtain ⟨k', hk', hlk'⟩ := hright.leaf path l' hl' ((hequal.shape.isLeaf_iff hl hl').1 hlleaf)
    refine ⟨k', hk', ?_⟩
    rcases toUnit_leaf_of_beq hlleaf hll' hnan hlk hlk' with
      h | ⟨hboth, hinf, x, u, rfl, rfl, hx, hd⟩
    · exact .inl h
    · exact .inr ⟨hboth, ⟨hinf, x, u, hl, hx, hd⟩, isInf_of_beq hbase hinf, x, u, hl', hx, hd⟩

end Value

/-- Equal bases are in error alike, or have equal integral parts. -/
theorem effectiveBase_of_beq {base? base'? : Option Value} {settings settings' : Settings}
    (hbase : (base? == base'?) = true) (hsettings : (settings == settings') = true) :
    (∃ e, effectiveBase base? settings = .error e ∧ effectiveBase base'? settings' = .error e) ∨
    ∃ b b', effectiveBase base? settings = .ok b ∧ effectiveBase base'? settings' = .ok b' ∧
      (b == b') = true := by
  cases base? <;> cases base'?
  case none.none => exact .inr ⟨_, _, rfl, rfl, hsettings⟩
  case some.some v w =>
    rw [Option.some_beq_some] at hbase
    refine Value.beq_induct ?same ?zero ?color ?composite hbase
    case same =>
      intro l hl h
      match l with
      | .dimension ⟨.number x, u⟩ =>
        have hx := Value.dimension_beq_self_iff.1 h x rfl
        exact .inr ⟨_, _, rfl, rfl, Number.beq_self_iff.2 (Number.isNaN_truncate hx)⟩
      | .dimension ⟨.auto, u⟩ | .dimension ⟨.reference _, u⟩ | .keyword _ | .color _
      | .composite _ => exact .inl ⟨_, rfl, rfl⟩
    case zero =>
      intro x y u hx hy
      refine .inr ⟨_, _, rfl, rfl, ?_⟩
      rw [Number.truncate_of_isZero hx, Number.truncate_of_isZero hy]
      exact hx.beq hy
    case color =>
      intro c d h
      exact .inl ⟨_, rfl, rfl⟩
    case composite =>
      intro vs ws h
      exact .inl ⟨_, rfl, rfl⟩
  all_goals cases hbase

/-- Equal values, with bases that are both absent or equal, under equal settings: either both
conversions fail with the same error, or their results have the same shape, with leaves that are
equal but for the quotients of two infinities. -/
theorem convert_respects_beq {v v' : Value} {base? base'? : Option Value}
    {settings settings' : Settings} (hv : (v == v') = true) (hbase : (base? == base'?) = true)
    (hsettings : (settings == settings') = true) (target : RelativeUnit) :
    (∃ e, convert v base? target settings = .error e ∧
      convert v' base'? target settings' = .error e) ∨
    ∃ b b' w w', effectiveBase base? settings = .ok b ∧ effectiveBase base'? settings' = .ok b' ∧
      convert v base? target settings = .ok w ∧ convert v' base'? target settings' = .ok w' ∧
      Value.ConvertedAlike b b' target v v' w w' := by
  rcases effectiveBase_of_beq hbase hsettings with ⟨e, he, he'⟩ | ⟨b, b', hb, hb', hequal⟩
  · exact .inl ⟨e, convert_of_base_error he v, convert_of_base_error he' v'⟩
  · have herror (e : Error) : v.toUnit b target = .error e ↔ v'.toUnit b' target = .error e := by
      rw [← Value.toUnit_eq_of_beq_base hequal]
      exact Value.toUnit_eq_error_iff_of_beq hv e
    rw [convert_of_base hb, convert_of_base hb']
    cases hw : v.toUnit b target with
    | error e => exact .inl ⟨e, rfl, (herror e).1 hw⟩
    | ok w =>
      obtain ⟨w', hw'⟩ : ∃ w', v'.toUnit b' target = .ok w' := by
        rw [exists_ok_iff]
        intro e he
        cases hw.symm.trans ((herror e).2 he)
      exact .inr ⟨b, b', w, w', hb, hb', rfl, hw', Value.convertedAlike_of_beq hv hequal hw hw'⟩

/-- A base of either zero that is set is not read, zeros of either sign are kept, and the quotient
of infinities is NaN. -/
theorem convert_respects_beq_infinities :
    (Value.composite [.dimension (.px (1 / 0)), .dimension (.px 0)] ==
        .composite [.dimension (.px (1 / 0)), .dimension (.px (-0))]) = true ∧
    (some (Value.dimension (.ofNumber (1 / 0))) == some (.dimension (.ofNumber (1 / 0)))) = true ∧
    (({ basePx := 0 } : Settings) == { basePx := -0 }) = true ∧
    ∃ w', convert (.composite [.dimension (.px (1 / 0)), .dimension (.px (-0))])
        (some (.dimension (.ofNumber (1 / 0)))) .rem { basePx := -0 } = .ok w' ∧
      Value.ConvertedAlike (1 / 0) (1 / 0) .rem
        (.composite [.dimension (.px (1 / 0)), .dimension (.px 0)])
        (.composite [.dimension (.px (1 / 0)), .dimension (.px (-0))])
        (.composite [.dimension (.withUnit (0 / 0) "rem"), .dimension (.px 0)]) w' := by
  have hv : (Value.composite [.dimension (.px (1 / 0)), .dimension (.px 0)] ==
      .composite [.dimension (.px (1 / 0)), .dimension (.px (-0))]) = true := by decide +kernel
  have hbase : (some (Value.dimension (.ofNumber (1 / 0))) ==
      some (.dimension (.ofNumber (1 / 0)))) = true := by decide +kernel
  have hsettings : (({ basePx := 0 } : Settings) == { basePx := -0 }) = true := by decide +kernel
  have heffective (settings : Settings) :
      effectiveBase (some (.dimension (.ofNumber (1 / 0)))) settings = .ok (1 / 0) := by
    have htruncate : Number.truncate (1 / 0) = 1 / 0 := by decide +kernel
    exact congrArg Except.ok htruncate
  have hconvert : convert (.composite [.dimension (.px (1 / 0)), .dimension (.px 0)])
      (some (.dimension (.ofNumber (1 / 0)))) .rem { basePx := 0 } =
        .ok (.composite [.dimension (.withUnit (0 / 0) "rem"), .dimension (.px 0)]) := by
    have hd : Dimension.NeedsDivision .rem (.px (1 / 0)) := by
      refine ⟨1 / 0, rfl, ?_, ?_⟩ <;> decide +kernel
    have hinf : ¬ IsZero (1 / 0) := by decide +kernel
    have hquotient : (1 : Float) / 0 / (1 / 0) = 0 / 0 := by decide +kernel
    have hdivided : (Value.dimension (.px (1 / 0))).toUnit (1 / 0) .rem =
        .ok (.dimension (.withUnit (0 / 0) "rem")) := by
      refine (Value.toUnit_of_needsDivision hd).trans ?_
      rw [if_neg hinf, hquotient]
      rfl
    have hzero : (Value.dimension (.px 0)).toUnit (1 / 0) .rem = .ok (.dimension (.px 0)) :=
      Value.toUnit_of_normalLeaf (.zero (.inl rfl) _)
    refine convert_eq_ok_iff.2 ⟨1 / 0, heffective _, ?_⟩
    rw [Value.toUnit, Value.toUnitAll, hdivided, Value.toUnitAll, hzero]
    rfl
  rcases convert_respects_beq hv hbase hsettings .rem with
    ⟨e, he, -⟩ | ⟨b, b', w, w', hb, hb', hw, hw', halike⟩
  · cases hconvert.symm.trans he
  · obtain rfl := Except.ok.inj ((heffective _).symm.trans hb)
    obtain rfl := Except.ok.inj ((heffective _).symm.trans hb')
    obtain rfl := Except.ok.inj (hconvert.symm.trans hw)
    exact ⟨hv, hbase, hsettings, w', hw', halike⟩

end StyleValues
