import StyleValues.Proofs.Conversion.Normal

/-!
# Chains of conversions

In a chain each conversion is applied to the result of the one before. A number is divided again
whenever the target changes, unless it has become zero, and not when the target is repeated.

## Main definitions

* `Conversion`, `convertAll`: a conversion, and a chain of them.
* `Conversion.withoutRepeats`: a chain without the steps that repeat a target.
* `Conversion.dividing`: the steps of a chain that divide the number at a path.

## Main results

* `convertAll_withoutRepeats_and_divisions`: what a chain does as a whole, and to each number.
-/

namespace StyleValues

open Number (IsZero)

structure Conversion where
  target : RelativeUnit
  base? : Option Value := none
  settings : Settings := {}

namespace Conversion

def base (c : Conversion) : Except Error Float :=
  effectiveBase c.base? c.settings

def apply (c : Conversion) (v : Value) : Except Error Value :=
  convert v c.base? c.target c.settings

/-- Leaves out every step whose target is that of the step just before it. The target before the
first step is given, if there is one. -/
def withoutRepeats (before? : Option RelativeUnit) : List Conversion → List Conversion
  | [] => []
  | c :: cs =>
    if before? = some c.target then withoutRepeats (some c.target) cs
    else c :: withoutRepeats (some c.target) cs

/-- The number at a path is not zero, and its unit is not exempt. -/
def divides (c : Conversion) (path : List Nat) (v : Value) : Bool :=
  match v.at? path with
  | some (.dimension ⟨.number x, u⟩) => !decide (IsZero x) && !decide (u.IsExempt c.target)
  | _ => false

/-- The steps of a chain, in order, that divide what stands at a path when they are applied. -/
def dividing (path : List Nat) (v : Value) : List Conversion → List Conversion
  | [] => []
  | c :: cs =>
    match c.apply v with
    | .ok w => if c.divides path v then c :: dividing path w cs else dividing path w cs
    | .error _ => []

end Conversion

/-- Applies conversions in turn, up to the first that fails. -/
def convertAll (v : Value) : List Conversion → Except Error Value
  | [] => .ok v
  | c :: cs => do convertAll (← c.apply v) cs

namespace Conversion

variable {c : Conversion} {cs : List Conversion} {v w : Value} {path : List Nat}

theorem convertAll_cons (h : c.apply v = .ok w) : convertAll v (c :: cs) = convertAll w cs := by
  rw [convertAll, h]
  rfl

theorem divides_iff {x : Float} {u : Units} (h : v.at? path = some (.dimension ⟨.number x, u⟩)) :
    c.divides path v = true ↔ Dimension.NeedsDivision c.target ⟨.number x, u⟩ := by
  rw [divides, h, Dimension.needsDivision_number]
  simp

/-! ## Repeated targets -/

theorem isNormal_of_apply_eq_ok (h : c.apply v = .ok w) : w.IsNormal c.target := by
  obtain ⟨b, -, hw⟩ := convert_eq_ok_iff.1 h
  exact Value.isNormal_of_toUnit_eq_ok hw

theorem eq_of_apply_eq_ok (hv : v.IsNormal c.target) (h : c.apply v = .ok w) : w = v := by
  obtain ⟨b, -, hw⟩ := convert_eq_ok_iff.1 h
  rw [Value.toUnit_of_isNormal hv] at hw
  exact (Except.ok.inj hw).symm

/-- The value stays normal for the target of the step before, so a step that repeats this target
changes nothing. -/
theorem convertAll_withoutRepeats {before? : Option RelativeUnit}
    (hv : ∀ target, before? = some target → v.IsNormal target) (h : convertAll v cs = .ok w) :
    convertAll v (withoutRepeats before? cs) = .ok w := by
  induction cs generalizing before? v with
  | nil => exact h
  | cons c cs ih =>
    obtain ⟨v', hc, hrest⟩ := exists_of_bind_eq_ok h
    have hnormal : ∀ target, some c.target = some target → v'.IsNormal target := by
      rintro _ ⟨⟩
      exact isNormal_of_apply_eq_ok hc
    rw [withoutRepeats]
    split
    next hrepeat =>
      obtain rfl := eq_of_apply_eq_ok (hv _ hrepeat) hc
      exact ih hnormal hrest
    next =>
      rw [convertAll_cons hc]
      exact ih hnormal hrest

/-! ## Divisions -/

/-- A step divides the number at a path, or leaves it as it is. -/
theorem at?_of_apply_eq_ok {x : Float} {u : Units}
    (hx : v.at? path = some (.dimension ⟨.number x, u⟩)) (h : c.apply v = .ok w) :
    c.divides path v = true ∧ (∃ b, c.base = .ok b ∧
        w.at? path = some (.dimension (.withUnit (x / b) c.target.token))) ∨
      c.divides path v = false ∧ w.at? path = some (.dimension ⟨.number x, u⟩) := by
  obtain ⟨b, hb, hw⟩ := convert_eq_ok_iff.1 h
  obtain ⟨k, hk, hl⟩ :=
    (Value.leafwise_of_toUnit_eq_ok hw).leaf _ _ hx (Value.isLeaf_dimension _)
  by_cases hd : Dimension.NeedsDivision c.target ⟨.number x, u⟩
  · rw [Value.toUnit_of_needsDivision hd] at hl
    split at hl
    · cases hl
    · cases hl
      exact .inl ⟨(divides_iff hx).2 hd, b, hb, hk⟩
  · have hdiv : c.divides path v = false := eq_false_of_ne_true ((divides_iff hx).not.2 hd)
    rcases Value.toUnit_eq_ok_cases (Value.isLeaf_dimension _) hl with
      ⟨-, rfl⟩ | ⟨y, u', he, hd', -⟩
    · exact .inr ⟨hdiv, hk⟩
    · cases he
      exact absurd hd' hd

/-- The number at a path is divided, in order, by the bases of the steps that divide it, and has
the target unit of the last of them. -/
theorem at?_of_convertAll_eq_ok {x : Float} {u : Units}
    (hx : v.at? path = some (.dimension ⟨.number x, u⟩)) (h : convertAll v cs = .ok w) :
    ∃ bases, List.Forall₂ (fun c b => c.base = .ok b) (dividing path v cs) bases ∧
      w.at? path = some (.dimension ⟨.number (bases.foldl (· / ·) x),
        (dividing path v cs).getLast?.elim u fun c => .single c.target.token⟩) := by
  induction cs generalizing v x u with
  | nil =>
    obtain rfl : v = w := Except.ok.inj h
    exact ⟨[], .nil, hx⟩
  | cons c cs ih =>
    obtain ⟨v', hc, hrest⟩ := exists_of_bind_eq_ok h
    rw [dividing, hc]
    dsimp only
    rcases at?_of_apply_eq_ok hx hc with ⟨hdiv, b, hb, hx'⟩ | ⟨hdiv, hx'⟩
    · obtain ⟨bases, hbases, hlast⟩ := ih hx' hrest
      rw [if_pos hdiv]
      refine ⟨b :: bases, .cons hb hbases, ?_⟩
      rw [hlast, List.foldl_cons, List.getLast?_cons]
      cases (dividing path v' cs).getLast? <;> rfl
    · rw [hdiv]
      exact ih hx' hrest

end Conversion

/-- A chain can be run without the steps that repeat a target, to the same result. It divides each
number, in order, by the bases of the steps that find it neither zero nor exempt. The last of them
gives the unit, and without any the number stays as it is. -/
theorem convertAll_withoutRepeats_and_divisions {v w : Value} {cs : List Conversion}
    (h : convertAll v cs = .ok w) :
    convertAll v (Conversion.withoutRepeats none cs) = .ok w ∧
    ∀ path x u, v.at? path = some (.dimension ⟨.number x, u⟩) →
      ∃ bases, List.Forall₂ (fun c b => c.base = .ok b) (Conversion.dividing path v cs) bases ∧
        w.at? path = some (.dimension ⟨.number (bases.foldl (· / ·) x),
          (Conversion.dividing path v cs).getLast?.elim u fun c => .single c.target.token⟩) :=
  ⟨Conversion.convertAll_withoutRepeats nofun h,
    fun _ _ _ hx => Conversion.at?_of_convertAll_eq_ok hx h⟩

/-- A repeated target under a base of zero, and a change of target after it. -/
theorem convertAll_rem_rem_em :
    convertAll (.composite [.dimension (.px 32)])
      [⟨.rem, none, {}⟩, ⟨.rem, some (.dimension (.px 0)), {}⟩, ⟨.em, none, ⟨4⟩⟩] =
      .ok (.composite [.dimension (.withUnit 0.5 "em")]) ∧
    convertAll (.composite [.dimension (.px 32)]) [⟨.rem, none, {}⟩, ⟨.em, none, ⟨4⟩⟩] =
      .ok (.composite [.dimension (.withUnit 0.5 "em")]) := by
  have divided {b x y : Float} {u : Units} {target : RelativeUnit}
      (hd : Dimension.NeedsDivision target ⟨.number x, u⟩) (hb : ¬ IsZero b) (hy : x / b = y) :
      (Value.composite [.dimension ⟨.number x, u⟩]).toUnit b target =
        .ok (.composite [.dimension (.withUnit y target.token)]) := by
    rw [Value.toUnit, Value.toUnitAll, Value.toUnit_of_needsDivision hd, if_neg hb, hy]
    rfl
  have hrem : Conversion.apply ⟨.rem, none, {}⟩ (.composite [.dimension (.px 32)]) =
      .ok (.composite [.dimension (.withUnit 2 "rem")]) := by
    refine convert_eq_ok_iff.2 ⟨16, rfl, divided ⟨32, rfl, ?_, ?_⟩ ?_ ?_⟩ <;> decide +kernel
  have hem : Conversion.apply ⟨.em, none, ⟨4⟩⟩ (.composite [.dimension (.withUnit 2 "rem")]) =
      .ok (.composite [.dimension (.withUnit 0.5 "em")]) := by
    refine convert_eq_ok_iff.2 ⟨4, rfl, divided ⟨2, rfl, ?_, ?_⟩ ?_ ?_⟩ <;> decide +kernel
  have hnormal := Conversion.isNormal_of_apply_eq_ok hrem
  have hagain : Conversion.apply ⟨.rem, some (.dimension (.px 0)), {}⟩
      (.composite [.dimension (.withUnit 2 "rem")]) =
      .ok (.composite [.dimension (.withUnit 2 "rem")]) :=
    convert_eq_ok_iff.2 ⟨0, by decide +kernel, Value.toUnit_of_isNormal hnormal⟩
  have hall : convertAll (.composite [.dimension (.px 32)])
      [⟨.rem, none, {}⟩, ⟨.rem, some (.dimension (.px 0)), {}⟩, ⟨.em, none, ⟨4⟩⟩] =
      .ok (.composite [.dimension (.withUnit 0.5 "em")]) := by
    rw [Conversion.convertAll_cons hrem, Conversion.convertAll_cons hagain,
      Conversion.convertAll_cons hem]
    rfl
  exact ⟨hall, (convertAll_withoutRepeats_and_divisions hall).1⟩

end StyleValues
