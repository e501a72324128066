import StyleValues.Proofs.Conversion.Leafwise

/-!
# Conversion to either target

A value without relative units is converted to `rem` as it is to `em`. What is divided gets another
unit, and the messages on some leaves name another target. Nothing else depends on the target.

## Main definitions

* `Units.IsRelative`: the unit is one of the targets, in any case.
* `Value.Retargeted`: the results of converting a value to two targets.
* `Error.Retargeted`: two errors that are the same but for the target that they name.

## Main results

* `rem_em_agree`: conversions to `rem` and to `em` succeed or fail together.
-/

namespace StyleValues

open Number (IsZero)

/-- The first numerator token is one of the targets, in any case. -/
def Units.IsRelative (u : Units) : Prop :=
  ∃ token, u.numerator.head? = some token ∧
    ∃ target : RelativeUnit, equalIgnoringCase token target.token = true

/-- Some dimension inside the value has a relative unit. -/
def Value.HasRelativeUnit (v : Value) : Prop :=
  ∃ d, .dimension d ∈ v.leaves ∧ d.units.IsRelative

/-- Errors for the same cause that quote the same value. Only the target may differ. -/
inductive Error.Retargeted (t t' : RelativeUnit) : Error → Error → Prop
  | unconvertible (value : String) (kind : Kind) :
    Retargeted t t' (.invalidValue value (.unconvertible kind t))
      (.invalidValue value (.unconvertible kind t'))
  | same (e : Error) : Retargeted t t' e e

/-- A leaf with its conversions to two targets. -/
inductive RetargetedLeaf (t t' : RelativeUnit) : Value → Value → Value → Prop
  | divided {d : Dimension} (hd : d.NeedsDivision t) (x : Float) :
    RetargetedLeaf t t' (.dimension d) (.dimension (.withUnit x t.token))
      (.dimension (.withUnit x t'.token))
  | kept {l : Value} (hl : NormalLeaf t l) : RetargetedLeaf t t' l l l

/-- A value with its conversions to two targets. All three have the same shape, and at each path
there is a leaf with its two conversions. -/
structure Value.Retargeted (t t' : RelativeUnit) (v w w' : Value) : Prop where
  left : v.SameShape w
  right : v.SameShape w'
  leaf : ∀ path l, v.at? path = some l → l.IsLeaf →
    ∃ k k', w.at? path = some k ∧ w'.at? path = some k' ∧ RetargetedLeaf t t' l k k'

variable {t t' : RelativeUnit} {u : Units} {l k v w : Value} {e : Error} {base : Float}

/-- A message ends with the target, if it names one. -/
theorem Error.Retargeted.message {e e' : Error} (h : Error.Retargeted t t' e e') :
    e.message = e'.message ∨
      ∃ text, e.message = text ++ t.token ∧ e'.message = text ++ t'.token := by
  cases h with
  | unconvertible value kind =>
    exact .inr ⟨_, String.append_assoc.symm, String.append_assoc.symm⟩
  | same e => exact .inl rfl

/-! ## Leaves -/

/-- Of the units that are not relative, percentages are exempt, for any target. -/
theorem Units.isExempt_iff_of_not_isRelative (h : ¬ u.IsRelative) :
    u.IsExempt t ↔ u.numerator.head? = some "%" := by
  constructor
  · rintro ⟨token, htoken, rfl | hequal⟩
    · exact htoken
    · exact absurd ⟨token, htoken, t, hequal⟩ h
  · intro htoken
    exact ⟨"%", htoken, .inl rfl⟩

theorem Dimension.NeedsDivision.retarget {d : Dimension} (hd : d.NeedsDivision t)
    (h : ¬ d.units.IsRelative) : d.NeedsDivision t' := by
  obtain ⟨x, hx, hzero, hexempt⟩ := hd
  rw [Units.isExempt_iff_of_not_isRelative h] at hexempt
  exact ⟨x, hx, hzero, (Units.isExempt_iff_of_not_isRelative h).not.2 hexempt⟩

theorem NormalLeaf.retarget (hl : NormalLeaf t l)
    (h : ∀ d, l = .dimension d → ¬ d.units.IsRelative) : NormalLeaf t' l := by
  cases hl with
  | keyword hk => exact .keyword hk
  | auto u => exact .auto u
  | zero hx u => exact .zero hx u
  | exempt x hu =>
    rw [Units.isExempt_iff_of_not_isRelative (h _ rfl)] at hu
    exact .exempt x ((Units.isExempt_iff_of_not_isRelative (h _ rfl)).2 hu)

/-- A leaf that can be converted to one target can be converted to any. -/
theorem exists_retargetedLeaf (hl : l.IsLeaf) (h : ∀ d, l = .dimension d → ¬ d.units.IsRelative)
    (hk : l.toUnit base t = .ok k) :
    ∃ k', l.toUnit base t' = .ok k' ∧ RetargetedLeaf t t' l k k' := by
  rcases Value.toUnit_eq_ok_cases hl hk with ⟨hn, rfl⟩ | ⟨x, u, rfl, hd, rfl⟩
  · exact ⟨k, Value.toUnit_of_normalLeaf (hn.retarget h), .kept hn⟩
  · have hb : ¬ IsZero base := by
      intro hb
      rw [Value.toUnit_of_needsDivision hd, if_pos hb] at hk
      cases hk
    have hd' : Dimension.NeedsDivision t' ⟨.number x, u⟩ := hd.retarget (h _ rfl)
    refine ⟨_, ?_, .divided hd (x / base)⟩
    rw [Value.toUnit_of_needsDivision hd', if_neg hb]

/-- A leaf that cannot be converted to one target fails in the same way for any. -/
theorem LeafFault.retarget (he : LeafFault base t l e)
    (h : ∀ d, l = .dimension d → ¬ d.units.IsRelative) :
    ∃ e', LeafFault base t' l e' ∧ e.Retargeted t t' e' := by
  cases he with
  | invalid hi =>
    cases hi with
    | color c => exact ⟨_, .invalid (.color c), .unconvertible "color" .color⟩
    | @keyword name hk => exact ⟨_, .invalid (.keyword hk), .unconvertible name .keyword⟩
    | reference name u => exact ⟨_, .invalid (.reference name u), .same _⟩
  | division hd hb => exact ⟨_, .division (hd.retarget (h _ rfl)) hb, .same _⟩

/-! ## Values -/

namespace Value

theorem not_isRelative_of_mem_leaves (h : ¬ v.HasRelativeUnit) (hl : l ∈ v.leaves) :
    ∀ d, l = .dimension d → ¬ d.units.IsRelative := by
  rintro d rfl hd
  exact h ⟨d, hl, hd⟩

theorem exists_retargeted (h : ¬ v.HasRelativeUnit) (hw : v.toUnit base t = .ok w)
    (t' : RelativeUnit) :
    ∃ w', v.toUnit base t' = .ok w' ∧ Retargeted t t' v w w' := by
  have hleaf : ∀ l ∈ v.leaves, ∀ k, l.toUnit base t = .ok k →
      ∃ k', l.toUnit base t' = .ok k' ∧ RetargetedLeaf t t' l k k' := fun l hl k hk =>
    exists_retargetedLeaf (mem_leaves_iff.1 hl).1 (not_isRelative_of_mem_leaves h hl) hk
  obtain ⟨w', hw'⟩ : ∃ w', v.toUnit base t' = .ok w' := by
    refine exists_toUnit_eq_ok_iff.2 fun l hl => ?_
    obtain ⟨k, hk⟩ := exists_toUnit_eq_ok_iff.1 ⟨w, hw⟩ l hl
    obtain ⟨k', hk', -⟩ := hleaf l hl k hk
    exact ⟨k', hk'⟩
  have hleft := leafwise_of_toUnit_eq_ok hw
  have hright := leafwise_of_toUnit_eq_ok hw'
  refine ⟨w', hw', hleft.shape, hright.shape, fun path l hl hisLeaf => ?_⟩
  obtain ⟨k, hk, hlk⟩ := hleft.leaf path l hl hisLeaf
  obtain ⟨k', hk', hlk'⟩ := hright.leaf path l hl hisLeaf
  obtain ⟨k'', hlk'', hretargeted⟩ := hleaf l (mem_leaves_iff.2 ⟨hisLeaf, path, hl⟩) k hlk
  obtain rfl : k'' = k' := by simpa [hlk''] using hlk'
  exact ⟨k, k'', hk, hk', hretargeted⟩

/-- The leaf that fails first for one target fails first for any. -/
theorem exists_error_retargeted (h : ¬ v.HasRelativeUnit) (he : v.toUnit base t = .error e)
    (t' : RelativeUnit) :
    ∃ e', v.toUnit base t' = .error e' ∧ e.Retargeted t t' e' := by
  obtain ⟨before, l, after, hleaves, hbefore, hl⟩ := toUnit_eq_error_iff_firstError.1 he
  have hmem : l ∈ v.leaves := by simp [hleaves]
  have hisLeaf := (mem_leaves_iff.1 hmem).1
  have hfault := (toUnit_eq_error_iff hisLeaf).1 hl
  obtain ⟨e', hfault', hretargeted⟩ := hfault.retarget (not_isRelative_of_mem_leaves h hmem)
  refine ⟨e', toUnit_eq_error_iff_firstError.2 ⟨before, l, after, hleaves, fun y hy => ?_, ?_⟩,
    hretargeted⟩
  · have hy' : y ∈ v.leaves := hleaves ▸ List.mem_append_left _ hy
    obtain ⟨z, hz⟩ := hbefore y hy
    obtain ⟨z', hz', -⟩ := exists_retargetedLeaf (mem_leaves_iff.1 hy').1
      (not_isRelative_of_mem_leaves h hy') hz
    exact ⟨z', hz'⟩
  · exact (toUnit_eq_error_iff hisLeaf).2 hfault'

end Value

/-- If no dimension has a relative unit, then conversions to `rem` and to `em` succeed or fail
together. Their results differ in the units of what has been divided, and their errors in the
target that the message names. -/
theorem rem_em_agree (h : ¬ v.HasRelativeUnit) (base? : Option Value) (settings : Settings) :
    (∃ w w', rem v base? settings = .ok w ∧ em v base? settings = .ok w' ∧
      Value.Retargeted .rem .em v w w') ∨
    ∃ e e', rem v base? settings = .error e ∧ em v base? settings = .error e' ∧
      Error.Retargeted .rem .em e e' ∧
      (e.message = e'.message ∨ ∃ text, e.message = text ++ "rem" ∧ e'.message = text ++ "em") := by
  rw [rem, em]
  cases hbase : effectiveBase base? settings with
  | error e =>
    have hsame : Error.Retargeted .rem .em e e := .same e
    rw [convert_of_base_error hbase, convert_of_base_error hbase]
    exact .inr ⟨e, e, rfl, rfl, hsame, hsame.message⟩
  | ok b =>
    rw [convert_of_base hbase, convert_of_base hbase]
    cases hrem : v.toUnit b .rem with
    | ok w =>
      obtain ⟨w', hem, hw⟩ := Value.exists_retargeted h hrem .em
      exact .inl ⟨w, w', rfl, hem, hw⟩
    | error e =>
      obtain ⟨e', hem, he⟩ := Value.exists_error_retargeted h hrem .em
      exact .inr ⟨e, e', rfl, hem, he, he.message⟩

/-- A relative unit below the stroke does not matter. -/
theorem rem_em_agree_denominator :
    ¬ Value.HasRelativeUnit (.composite [.dimension ⟨.number 8, ⟨["px"], ["rem"]⟩⟩]) ∧
    ∃ w', em (.composite [.dimension ⟨.number 8, ⟨["px"], ["rem"]⟩⟩]) none {} = .ok w' ∧
      Value.Retargeted .rem .em
        (.composite [.dimension ⟨.number 8, ⟨["px"], ["rem"]⟩⟩])
        (.composite [.dimension (.withUnit 0.5 "rem")]) w' := by
  have hunits : ¬ Value.HasRelativeUnit
      (.composite [.dimension ⟨.number 8, ⟨["px"], ["rem"]⟩⟩]) := by
    rintro ⟨d, hd, token, htoken, target, hequal⟩
    obtain rfl : d = ⟨.number 8, ⟨["px"], ["rem"]⟩⟩ := by simpa [Value.leaves] using hd
    obtain rfl : "px" = token := by simpa using htoken
    cases target <;> revert hequal <;> decide
  have hrem : rem (.composite [.dimension ⟨.number 8, ⟨["px"], ["rem"]⟩⟩]) none {} =
      .ok (.composite [.dimension (.withUnit 0.5 "rem")]) := by
    have hd : Dimension.NeedsDivision .rem ⟨.number 8, ⟨["px"], ["rem"]⟩⟩ := by
      refine ⟨8, rfl, ?_, ?_⟩ <;> decide +kernel
    have hbase : ¬ IsZero 16 := by decide +kernel
    have hhalf : (8 : Float) / 16 = 0.5 := by decide +kernel
    refine convert_eq_ok_iff.2 ⟨16, rfl, ?_⟩
    rw [Value.toUnit, Value.toUnitAll, Value.toUnit_of_needsDivision hd, if_neg hbase, hhalf]
    rfl
  rcases rem_em_agree hunits none {} with ⟨w, w', hw, hw', hboth⟩ | ⟨e, -, he, -⟩
  · obtain rfl := Except.ok.inj (hrem.symm.trans hw)
    exact ⟨hunits, w', hw', hboth⟩
  · cases hrem.symm.trans he

end StyleValues
