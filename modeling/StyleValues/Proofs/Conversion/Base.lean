import StyleValues.Proofs.Conversion.Normal
import StyleValues.Proofs.Function.Result
import StyleValues.Proofs.Number.Truncation

/-!
# What can be seen of the base

A conversion reads its base only if it comes to a number that needs division. Of an explicit base
only the integral part counts. So a call shows nothing of the base that is set, unless it converts
a single value in which such a number comes before every invalid leaf.

## Main definitions

* `Value.ReachesDivision`: a number that needs division comes before every invalid leaf.

## Main results

* `Value.toUnit_eq_divisionByZero_iff`: such a value cannot be converted under a base of zero.
* `Value.toUnit_eq_of_not_reachesDivision`: any other is converted alike under all bases.
* `invoke_observes_base`: when the base can be seen in the result of a call.
-/

namespace StyleValues

open Number (IsZero SameIntegralPart)

namespace Value

/-- A number that needs division comes before every invalid leaf. -/
def ReachesDivision (target : RelativeUnit) (v : Value) : Prop :=
  ∃ before d after, v.leaves = before ++ .dimension d :: after ∧ d.NeedsDivision target ∧
    ∀ l ∈ before, ∀ e, ¬ InvalidLeaf target l e

variable {base other : Float} {target : RelativeUnit} {v : Value}

theorem reachesDivision_of_leaves_eq {before after : List Value} {d : Dimension}
    (hleaves : v.leaves = before ++ .dimension d :: after) (hd : d.NeedsDivision target)
    (hok : ∀ l ∈ before, ∃ k, l.toUnit base target = .ok k) : v.ReachesDivision target := by
  refine ⟨before, d, after, hleaves, hd, fun l hl e hi => ?_⟩
  obtain ⟨k, hk⟩ := hok l hl
  rw [toUnit_of_invalidLeaf hi] at hk
  cases hk

/-! ## Bases of zero -/

/-- Before every invalid leaf, the first number that needs division is the first to fail. -/
theorem ReachesDivision.toUnit (h : v.ReachesDivision target) (hb : IsZero base) :
    v.toUnit base target = .error .divisionByZero := by
  obtain ⟨before, d, after, hleaves, hd, hbefore⟩ := h
  have hleaf : ∀ l ∈ before, l.IsLeaf := by
    intro l hl
    have hmem : l ∈ v.leaves := hleaves ▸ List.mem_append_left _ hl
    exact (mem_leaves_iff.1 hmem).1
  rw [toUnit_eq_error_iff_firstError, hleaves, firstError_append]
  by_cases hok : ∀ l ∈ before, ∃ k, l.toUnit base target = .ok k
  · have hfault := (toUnit_eq_error_iff (isLeaf_dimension d)).2 (.division hd hb)
    exact .inr ⟨hok, firstError_cons.2 (.inl hfault)⟩
  · rw [forall_ok_iff] at hok
    push Not at hok
    obtain ⟨e, xs, l, ys, rfl, hxs, hl⟩ := hok
    have hmem : l ∈ xs ++ l :: ys := by simp
    left
    refine ⟨xs, l, ys, rfl, hxs, ?_⟩
    cases (toUnit_eq_error_iff (hleaf l hmem)).1 hl with
    | invalid hi => exact absurd hi (hbefore l hmem _)
    | division => exact hl

/-- Only a value with a number that needs division reports a division by zero. -/
theorem toUnit_eq_divisionByZero_iff :
    v.toUnit base target = .error .divisionByZero ↔ IsZero base ∧ v.ReachesDivision target := by
  constructor
  · intro h
    obtain ⟨before, l, after, hleaves, hbefore, hl⟩ := toUnit_eq_error_iff_firstError.1 h
    have hmem : l ∈ v.leaves := by simp [hleaves]
    cases (toUnit_eq_error_iff (mem_leaves_iff.1 hmem).1).1 hl with
    | invalid hi => cases hi
    | @division d hd hb =>
      exact ⟨hb, reachesDivision_of_leaves_eq hleaves hd hbefore⟩
  · rintro ⟨hb, h⟩
    exact h.toUnit hb

/-! ## Bases that are not read -/

/-- As long as all goes well, no leaf needs division. -/
theorem normalLeaf_of_not_reachesDivision (h : ¬ v.ReachesDivision target)
    {before after : List Value} (hleaves : v.leaves = before ++ after)
    (hok : ∀ l ∈ before, ∃ k, l.toUnit base target = .ok k) :
    ∀ l ∈ before, NormalLeaf target l := by
  intro l hl
  have hmem : l ∈ v.leaves := hleaves ▸ List.mem_append_left _ hl
  obtain ⟨k, hk⟩ := hok l hl
  rcases toUnit_eq_ok_cases (mem_leaves_iff.1 hmem).1 hk with ⟨hn, -⟩ | ⟨x, u, rfl, hd, -⟩
  · exact hn
  · obtain ⟨xs, ys, rfl⟩ := List.append_of_mem hl
    have hsplit : v.leaves = xs ++ .dimension ⟨.number x, u⟩ :: (ys ++ after) := by
      simp [hleaves]
    have hbefore := fun y hy => hok y (List.mem_append_left _ hy)
    exact absurd (reachesDivision_of_leaves_eq hsplit hd hbefore) h

/-- A value whose conversion comes to no division is converted alike under all bases. -/
theorem toUnit_eq_of_not_reachesDivision (h : ¬ v.ReachesDivision target) (base other : Float) :
    v.toUnit base target = v.toUnit other target := by
  cases hv : v.toUnit base target with
  | ok w =>
    have hok := exists_toUnit_eq_ok_iff.1 ⟨w, hv⟩
    have hnormal : v.IsNormal target :=
      normalLeaf_of_not_reachesDivision h (List.append_nil _).symm hok
    rw [← hv, toUnit_of_isNormal hnormal, toUnit_of_isNormal hnormal]
  | error e =>
    obtain ⟨before, l, after, hleaves, hbefore, hl⟩ := toUnit_eq_error_iff_firstError.1 hv
    have hnormal := normalLeaf_of_not_reachesDivision h hleaves hbefore
    have hmem : l ∈ v.leaves := by simp [hleaves]
    symm
    refine toUnit_eq_error_iff_firstError.2 ⟨before, l, after, hleaves, fun y hy => ?_, ?_⟩
    · exact ⟨y, toUnit_of_normalLeaf (hnormal y hy)⟩
    · cases (toUnit_eq_error_iff (mem_leaves_iff.1 hmem).1).1 hl with
      | invalid hi => exact toUnit_of_invalidLeaf hi
      | division hd => exact absurd (reachesDivision_of_leaves_eq hleaves hd hbefore) h

/-- Both zeros are the same base. -/
theorem toUnit_eq_of_isZero (hb : IsZero base) (ho : IsZero other) :
    v.toUnit base target = v.toUnit other target := by
  by_cases h : v.ReachesDivision target
  · rw [h.toUnit hb, h.toUnit ho]
  · exact toUnit_eq_of_not_reachesDivision h base other

end Value

variable {target : RelativeUnit} {v : Value}

theorem effectiveBase_some (base : Value) (s t : Settings) :
    effectiveBase (some base) s = effectiveBase (some base) t := by
  unfold effectiveBase
  split <;> simp_all

/-- A base that is set can be seen in a conversion that reaches a division. -/
theorem exists_convert_ne_iff :
    (∃ s t : Settings, convert v none target s ≠ convert v none target t) ↔
      v.ReachesDivision target := by
  simp only [convert_of_base (show effectiveBase none _ = .ok _ from rfl)]
  constructor
  · rintro ⟨s, t, hne⟩
    by_contra h
    exact hne (Value.toUnit_eq_of_not_reachesDivision h _ _)
  · intro h
    refine ⟨⟨0⟩, ⟨1⟩, fun heq => ?_⟩
    have hone := Value.toUnit_eq_divisionByZero_iff.1 (heq ▸ h.toUnit (.inl rfl))
    exact absurd hone.1 (by decide +kernel)

/-- Of an explicit base only the integral part counts. -/
theorem convert_eq_of_sameIntegralPart {x y : Float} (h : SameIntegralPart x y) (v : Value)
    (target : RelativeUnit) (u w : Units) (settings : Settings) :
    convert v (some (.dimension ⟨.number x, u⟩)) target settings =
      convert v (some (.dimension ⟨.number y, w⟩)) target settings := by
  have hx : effectiveBase (some (.dimension ⟨.number x, u⟩)) settings = .ok _ := rfl
  have hy : effectiveBase (some (.dimension ⟨.number y, w⟩)) settings = .ok _ := rfl
  rw [convert_of_base hx, convert_of_base hy]
  rcases h.truncate with heq | ⟨hzero, hzero'⟩
  · rw [heq]
  · exact Value.toUnit_eq_of_isZero hzero hzero'

/-- The results of functions other than conversions do not depend on the settings. -/
theorem builtinResult_eq_of_ne_token {name : String}
    (h : ∀ target : RelativeUnit, name ≠ target.token) (args : List Value) (s t : Settings) :
    builtinResult name args s = builtinResult name args t := by
  have hrem : name ≠ "rem" := h .rem
  have hem : name ≠ "em" := h .em
  simp only [builtinResult, if_neg hrem, if_neg hem]

/-- Only the conversion of a single value reads the base that is set. -/
theorem conversionResult_eq_of_ne_singleton {args : List Value} (h : ∀ v, args ≠ [v])
    (target : RelativeUnit) (s t : Settings) :
    conversionResult target args s = conversionResult target args t := by
  unfold conversionResult
  split
  next v => exact absurd rfl (h v)
  next v base => rw [convert, effectiveBase_some base s t, convert]
  next => rfl

/-- The base that is set can be seen in the result of a call exactly if the call converts a single
value in which a number that needs division comes before every invalid leaf. Of an explicit base
nothing but its integral part can be seen. -/
theorem invoke_observes_base :
    (∀ (name : String) (args : List Value),
      (∃ s t, FunctionTable.builtin.invoke name args s ≠
          FunctionTable.builtin.invoke name args t) ↔
        ∃ (target : RelativeUnit) (v : Value),
          name = target.token ∧ args = [v] ∧ v.ReachesDivision target) ∧
    ∀ (target : RelativeUnit) (v : Value) (x y : Float) (u w : Units) (settings : Settings),
      SameIntegralPart x y →
        FunctionTable.builtin.invoke target.token [v, .dimension ⟨.number x, u⟩] settings =
          FunctionTable.builtin.invoke target.token [v, .dimension ⟨.number y, w⟩] settings := by
  simp only [FunctionTable.invoke_builtin]
  refine ⟨fun name args => ⟨?_, ?_⟩, fun target v x y u w settings h => ?_⟩
  · rintro ⟨s, t, hne⟩
    by_cases hname : ∃ target : RelativeUnit, name = target.token
    · obtain ⟨target, rfl⟩ := hname
      rw [builtinResult_token, builtinResult_token] at hne
      by_cases hargs : ∃ v, args = [v]
      · obtain ⟨v, rfl⟩ := hargs
        exact ⟨target, v, rfl, rfl, exists_convert_ne_iff.1 ⟨s, t, hne⟩⟩
      · exact absurd (conversionResult_eq_of_ne_singleton (not_exists.1 hargs) target s t) hne
    · exact absurd (builtinResult_eq_of_ne_token (not_exists.1 hname) args s t) hne
  · rintro ⟨target, v, rfl, rfl, h⟩
    obtain ⟨s, t, hne⟩ := exists_convert_ne_iff.2 h
    refine ⟨s, t, ?_⟩
    rwa [builtinResult_token, builtinResult_token]
  · rw [builtinResult_token, builtinResult_token]
    exact convert_eq_of_sameIntegralPart h v target u w settings

/-- Bases between minus one and one are all a base of zero, whatever their units. -/
theorem invoke_observes_base_zero :
    SameIntegralPart (-0.5) 0.25 ∧
    FunctionTable.builtin.invoke "rem" [.dimension (.px 8),
        .dimension ⟨.number (-0.5), ⟨["s"], ["em"]⟩⟩] {} =
      FunctionTable.builtin.invoke "rem" [.dimension (.px 8), .dimension (.ofNumber 0.25)] {} := by
  have hparts : SameIntegralPart (-0.5) 0.25 := by
    refine .inr (.inr ⟨-1 / 2, 1 / 4, ?_, ?_, ?_⟩) <;> decide +kernel
  exact ⟨hparts, invoke_observes_base.2 .rem _ _ _ _ _ {} hparts⟩

end StyleValues
