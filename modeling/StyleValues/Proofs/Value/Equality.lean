import StyleValues.Proofs.Value.Color
import StyleValues.Proofs.Value.Reflexive

/-!
# Equality as a relation

Equal values have the same shape and equal leaves. Equal leaves are the same leaf, or they are zeros
or colors that differ in the signs of zeros. So equality is symmetric and transitive, and of equal
values only the signs of zero magnitudes show in the texts.

## Main definitions

* `Value.beq_induct`: induction on two equal values.
* `Value.HasNaN`: what keeps a value from being equal to itself.
* `Value.SameZeroSigns`: zero magnitudes have the same signs.

## Main results

* `Value.leafwise_of_beq`: equal values have equal leaves at the same paths.
* `Value.beq_laws`: equality as a relation, and the texts of equal values.
-/

namespace StyleValues

open Number (IsZero)

/-! ## Colors -/

namespace Color

variable {c d : Color}

instance : PartialEquivBEq Color where
  symm h := beq_iff_get.2 fun k => BEq.symm (beq_iff_get.1 h k)
  trans h h' := beq_iff_get.2 fun k => BEq.trans (beq_iff_get.1 h k) (beq_iff_get.1 h' k)

/-- The channels of two colors are the same but for the signs of zeros. -/
def SameButZeroSigns (c d : Color) : Prop :=
  ∀ k, c.get k = d.get k ∨ IsZero (c.get k) ∧ IsZero (d.get k)

theorem sameButZeroSigns_of_beq (h : (c == d) = true) : c.SameButZeroSigns d := by
  intro k
  rcases Number.beq_iff.1 (beq_iff_get.1 h k) with hzero | ⟨heq, -⟩
  · exact .inr hzero
  · exact .inl heq

theorem SameButZeroSigns.css (h : c.SameButZeroSigns d) : c.css = d.css := by
  apply css_congr
  intro k
  rcases h k with heq | ⟨hc, hd⟩
  · rw [heq]
  · rw [Number.toByte_of_isZero hc, Number.toByte_of_isZero hd]

end Color

namespace Value

variable {u v w l k : Value}

/-! ## Cases -/

theorem dimension_beq_iff {m n : Magnitude} {u u' : Units} :
    (dimension ⟨m, u⟩ == dimension ⟨n, u'⟩) = true ↔ (m == n) = true ∧ u = u' := by
  change (m.beq n && u == u') = true ↔ _
  rw [Bool.and_eq_true, beq_iff_eq]
  rfl

/-- Equal leaves are the same, or zeros in the same unit, or colors with equal channels. -/
theorem beq_leaf_cases (hl : l.IsLeaf) (h : (l == k) = true) :
    l = k ∨
      (∃ x y u, l = .dimension ⟨.number x, u⟩ ∧ k = .dimension ⟨.number y, u⟩ ∧
        IsZero x ∧ IsZero y) ∨
      ∃ c d, l = .color c ∧ k = .color d ∧ (c == d) = true := by
  cases l with
  | dimension d =>
    cases k with
    | dimension e =>
      obtain ⟨m, u⟩ := d
      obtain ⟨n, u'⟩ := e
      obtain ⟨hm, rfl⟩ := dimension_beq_iff.1 h
      cases m <;> cases n
      case number.number x y =>
        rcases Number.beq_iff.1 hm with ⟨hx, hy⟩ | ⟨rfl, -⟩
        · exact .inr (.inl ⟨x, y, u, rfl, rfl, hx, hy⟩)
        · exact .inl rfl
      case auto.auto => exact .inl rfl
      case reference.reference a b =>
        obtain rfl : a = b := beq_iff_eq.1 hm
        exact .inl rfl
      all_goals exact absurd hm Bool.false_ne_true
    | keyword _ | composite _ | color _ => cases h
  | keyword a =>
    cases k with
    | keyword b =>
      obtain rfl : a = b := beq_iff_eq.1 h
      exact .inl rfl
    | dimension _ | composite _ | color _ => cases h
  | color c =>
    cases k with
    | color d => exact .inr (.inr ⟨c, d, rfl, rfl, h⟩)
    | dimension _ | keyword _ | composite _ => cases h
  | composite vs => exact absurd hl (not_isLeaf_composite vs)

theorem list_beq_iff_forall₂ {vs ws : List Value} :
    (vs == ws) = true ↔ List.Forall₂ (fun v w => (v == w) = true) vs ws := by
  induction vs generalizing ws with
  | nil => cases ws <;> simp
  | cons v vs ih =>
    cases ws with
    | nil => simp
    | cons w ws => rw [List.cons_beq_cons, Bool.and_eq_true, ih, List.forall₂_cons]

/-- What equals a list is a list of equal elements. -/
theorem composite_beq_iff {vs : List Value} :
    (composite vs == w) = true ↔
      ∃ ws, w = composite ws ∧ List.Forall₂ (fun v w => (v == w) = true) vs ws := by
  cases w with
  | composite ws => simp [list_beq_iff_forall₂]
  | dimension _ | keyword _ | color _ =>
    constructor
    · intro h
      cases h
    · rintro ⟨ws, ⟨⟩, -⟩

/-- Induction on two equal values. -/
@[elab_as_elim]
theorem beq_induct {motive : Value → Value → Prop}
    (same : ∀ l, l.IsLeaf → (l == l) = true → motive l l)
    (zero : ∀ x y u, IsZero x → IsZero y →
      motive (.dimension ⟨.number x, u⟩) (.dimension ⟨.number y, u⟩))
    (color : ∀ c d, (c == d) = true → motive (.color c) (.color d))
    (composite : ∀ vs ws, List.Forall₂ (fun v w => (v == w) = true ∧ motive v w) vs ws →
      motive (.composite vs) (.composite ws))
    {v w : Value} (h : (v == w) = true) : motive v w := by
  have leaf {l k : Value} (hl : l.IsLeaf) (h : (l == k) = true) : motive l k := by
    rcases beq_leaf_cases hl h with rfl | ⟨x, y, u, rfl, rfl, hx, hy⟩ | ⟨c, d, rfl, rfl, hcd⟩
    · exact same l hl h
    · exact zero x y u hx hy
    · exact color c d hcd
  induction v generalizing w with
  | dimension d => exact leaf (isLeaf_dimension d) h
  | keyword k => exact leaf (isLeaf_keyword k) h
  | color c => exact leaf (isLeaf_color c) h
  | composite vs ih =>
    obtain ⟨ws, rfl, hall⟩ := composite_beq_iff.1 h
    refine composite vs ws (((List.forall₂_and_left vs ws).2 ⟨ih, hall⟩).imp ?_)
    rintro v w ⟨ihv, hvw⟩
    exact ⟨hvw, ihv hvw⟩

/-! ## Symmetry and transitivity -/

theorem beq_symm (h : (v == w) = true) : (w == v) = true := by
  refine beq_induct ?same ?zero ?color ?composite h
  case same =>
    intro l hl h
    exact h
  case zero =>
    intro x y u hx hy
    exact dimension_beq_iff.2 ⟨hy.beq hx, rfl⟩
  case color =>
    intro c d h
    exact BEq.symm (α := Color) h
  case composite =>
    intro vs ws h
    exact composite_beq_iff.2 ⟨vs, rfl, .flip (h.imp fun _ _ h => h.2)⟩

theorem forall₂_comp {α : Type} {R S T : α → α → Prop} {xs ys zs : List α}
    (h : ∀ x y z, R x y → S y z → T x z) (hxy : List.Forall₂ R xs ys)
    (hyz : List.Forall₂ S ys zs) : List.Forall₂ T xs zs := by
  induction hxy generalizing zs with
  | nil =>
    cases hyz
    exact .nil
  | cons hxy _ ih =>
    cases hyz with
    | cons hyz hrest => exact .cons (h _ _ _ hxy hyz) (ih hrest)

theorem beq_trans (h : (u == v) = true) : ∀ w : Value, (v == w) = true → (u == w) = true := by
  refine beq_induct ?same ?zero ?color ?composite h
  case same =>
    intro l hl h w hw
    exact hw
  case zero =>
    intro x y u hx hy w hw
    rcases beq_leaf_cases (isLeaf_dimension _) hw with
      rfl | ⟨y', z, u', heq, rfl, -, hz⟩ | ⟨c, d, heq, -⟩
    · exact dimension_beq_iff.2 ⟨hx.beq hy, rfl⟩
    · cases heq
      exact dimension_beq_iff.2 ⟨hx.beq hz, rfl⟩
    · cases heq
  case color =>
    intro c d h w hw
    rcases beq_leaf_cases (isLeaf_color _) hw with
      rfl | ⟨y, z, u, heq, -⟩ | ⟨d', e, heq, rfl, hde⟩
    · exact h
    · cases heq
    · cases heq
      exact BEq.trans (α := Color) h hde
  case composite =>
    intro vs ws h us hus
    obtain ⟨us, rfl, hall⟩ := composite_beq_iff.1 hus
    exact composite_beq_iff.2 ⟨us, rfl, forall₂_comp (fun _ _ u hvw hwu => hvw.2 u hwu) h hall⟩

instance : PartialEquivBEq Value where
  symm := beq_symm
  trans h h' := beq_trans h _ h'

/-- Equal values have the same shape, with equal leaves. -/
theorem leafwise_of_beq (h : (v == w) = true) : Leafwise (fun l k => (l == k) = true) v w := by
  refine beq_induct ?same ?zero ?color ?composite h
  case same =>
    intro l hl h
    exact leafwise_of_isLeaf hl hl h
  case zero =>
    intro x y u hx hy
    exact leafwise_of_isLeaf (isLeaf_dimension _) (isLeaf_dimension _)
      (dimension_beq_iff.2 ⟨hx.beq hy, rfl⟩)
  case color =>
    intro c d h
    exact leafwise_of_isLeaf (isLeaf_color c) (isLeaf_color d) h
  case composite =>
    intro vs ws h
    exact leafwise_composite (h.imp fun _ _ h => h.2)

/-! ## Values equal to themselves -/

/-- Some dimension inside the value has NaN as its magnitude, or some color has NaN as a channel. -/
def HasNaN (v : Value) : Prop :=
  v.HasNaNMagnitude ∨ ∃ c k, color c ∈ v.leaves ∧ (c.get k).isNaN = true

theorem beq_self_iff_not_hasNaN : (v == v) = true ↔ ¬ v.HasNaN := by
  rw [beq_self_iff]
  constructor
  · intro h
    rintro (⟨x, u, hl, hx⟩ | ⟨c, k, hl, hk⟩)
    · have hnumber := dimension_beq_self_iff.1 (h _ hl) x rfl
      exact nomatch hx.symm.trans hnumber
    · have hchannel := Number.beq_self_iff.1 (Color.beq_iff_get.1 (h _ hl) k)
      exact nomatch hk.symm.trans hchannel
  · intro h l hl
    cases l with
    | dimension d =>
      obtain ⟨m, u⟩ := d
      rw [dimension_beq_self_iff]
      rintro x rfl
      exact eq_false_of_ne_true fun hx => h (.inl ⟨x, u, hl, hx⟩)
    | keyword k => exact keyword_beq_self k
    | color c =>
      refine Color.beq_iff_get.2 fun k => Number.beq_self_iff.2 ?_
      exact eq_false_of_ne_true fun hk => h (.inr ⟨c, k, hl, hk⟩)
    | composite vs => exact absurd (mem_leaves_iff.1 hl).1 (not_isLeaf_composite vs)

/-! ## Texts of equal values -/

/-- Where zero magnitudes stand at the same path of two values, they are the same of the two
zeros. -/
def SameZeroSigns (v w : Value) : Prop :=
  ∀ path x y u u', v.at? path = some (.dimension ⟨.number x, u⟩) →
    w.at? path = some (.dimension ⟨.number y, u'⟩) → IsZero x → IsZero y → x = y

theorem sameZeroSigns_refl (v : Value) : SameZeroSigns v v := by
  intro path x y u u' hx hy _ _
  cases hx.symm.trans hy
  rfl

theorem sameZeroSigns_color (c d : Color) : SameZeroSigns (color c) (color d) := by
  intro path x y u u' hx
  cases path <;> cases hx

theorem sameZeroSigns_composite {vs ws : List Value} (h : List.Forall₂ SameZeroSigns vs ws) :
    SameZeroSigns (composite vs) (composite ws) := by
  intro path x y u u' hx hy
  cases path with
  | nil => cases hx
  | cons i path =>
    rcases getElem?_of_forall₂ h i with ⟨hv, -⟩ | ⟨v, w, hv, hw, hvw⟩
    · simp [hv] at hx
    · exact hvw path x y u u' (by simpa [hv] using hx) (by simpa [hw] using hy)

theorem SameZeroSigns.element {vs ws : List Value}
    (h : SameZeroSigns (composite vs) (composite ws)) {i : Nat} (hv : vs[i]? = some v)
    (hw : ws[i]? = some w) : SameZeroSigns v w := by
  intro path x y u u' hx hy
  exact h (i :: path) x y u u' (by simpa [hv] using hx) (by simpa [hw] using hy)

theorem css_color_congr {c d : Color} (h : c.SameButZeroSigns d) :
    (color c).css = (color d).css := by
  rw [css, css, write, write, h.css]

theorem css_eq_of_beq (h : (v == w) = true) : SameZeroSigns v w → v.css = w.css := by
  refine beq_induct ?same ?zero ?color ?composite h
  case same =>
    intro l hl h _
    rfl
  case zero =>
    intro x y u hx hy h
    rw [h [] x y u u rfl rfl hx hy]
  case color =>
    intro c d h _
    exact css_color_congr (Color.sameButZeroSigns_of_beq h)
  case composite =>
    intro vs ws h hzeros
    have hmap : vs.map css = ws.map css := by
      apply List.ext_getElem?
      intro i
      rcases getElem?_of_forall₂ h i with ⟨hv, hw⟩ | ⟨v, w, hv, hw, hvw⟩
      · simp [hv, hw]
      · simp [hv, hw, hvw.2 (hzeros.element hv hw)]
    rw [css_composite, css_composite, hmap]

/-- Joined texts are taken apart from left to right. -/
theorem forall₂_of_intercalate_eq {vs ws : List Value}
    (h : List.Forall₂ (fun v w => ∀ s t : String, v.css ++ s = w.css ++ t →
      SameZeroSigns v w ∧ s = t) vs ws) :
    ∀ s t, " ".intercalate (vs.map css) ++ s = " ".intercalate (ws.map css) ++ t →
      List.Forall₂ SameZeroSigns vs ws ∧ s = t := by
  induction h with
  | nil =>
    intro s t hst
    exact ⟨.nil, by simpa using hst⟩
  | cons hvw hrest ih =>
    intro s t hst
    cases hrest with
    | nil =>
      obtain ⟨hzeros, rfl⟩ := hvw s t (by simpa using hst)
      exact ⟨.cons hzeros .nil, rfl⟩
    | cons hvw' hrest' =>
      simp only [List.map_cons, String.intercalate_cons_cons, String.append_assoc] at hst ih
      obtain ⟨hzeros, hst⟩ := hvw _ _ hst
      obtain ⟨hall, rfl⟩ := ih s t ((String.append_right_inj _).1 hst)
      exact ⟨.cons hzeros hall, rfl⟩

/-- The texts of equal values part where two different zeros stand, whatever follows them. -/
theorem sameZeroSigns_of_css_append (h : (v == w) = true) :
    ∀ s t : String, v.css ++ s = w.css ++ t → SameZeroSigns v w ∧ s = t := by
  refine beq_induct ?same ?zero ?color ?composite h
  case same =>
    intro l hl h s t hst
    exact ⟨sameZeroSigns_refl l, (String.append_right_inj _).1 hst⟩
  case zero =>
    intro x y u hx hy s t hst
    by_cases hxy : x = y
    · subst hxy
      exact ⟨sameZeroSigns_refl _, (String.append_right_inj _).1 hst⟩
    · have hfirst := congrArg (·.toList.head?) hst
      have hpositive : Number.text 0 = "0" := by decide +kernel
      have hnegative : Number.text (-0) = "-0" := by decide +kernel
      rcases hx with rfl | rfl <;> rcases hy with rfl | rfl
      · exact absurd rfl hxy
      · simp [css, write, Dimension.css, hpositive, hnegative] at hfirst
      · simp [css, write, Dimension.css, hpositive, hnegative] at hfirst
      · exact absurd rfl hxy
  case color =>
    intro c d h s t hst
    rw [css_color_congr (Color.sameButZeroSigns_of_beq h)] at hst
    exact ⟨sameZeroSigns_color c d, (String.append_right_inj _).1 hst⟩
  case composite =>
    intro vs ws h s t hst
    rw [css_composite, css_composite] at hst
    obtain ⟨hall, rfl⟩ := forall₂_of_intercalate_eq (h.imp fun _ _ h => h.2) s t hst
    exact ⟨sameZeroSigns_composite hall, rfl⟩

theorem css_eq_iff_of_beq (h : (v == w) = true) : v.css = w.css ↔ SameZeroSigns v w := by
  constructor
  · intro hcss
    exact (sameZeroSigns_of_css_append h "" "" (by rw [hcss])).1
  · exact css_eq_of_beq h

/-- Equality of values is symmetric and transitive, and a value equals itself unless some magnitude
or channel in it is NaN. Equal values have the same text exactly if zero magnitudes at the same path
have the same sign. The signs of zeros in colors do not show. -/
theorem beq_laws :
    (∀ v w : Value, (v == w) = true → (w == v) = true) ∧
    (∀ u v w : Value, (u == v) = true → (v == w) = true → (u == w) = true) ∧
    (∀ v : Value, (v == v) = true ↔ ¬ v.HasNaN) ∧
    (∀ v w : Value, (v == w) = true → (v.css = w.css ↔ SameZeroSigns v w)) ∧
    ∀ c d : Color, c.SameButZeroSigns d → (color c).css = (color d).css := by
  refine ⟨fun _ _ => beq_symm, fun _ _ w h => beq_trans h w, fun _ => beq_self_iff_not_hasNaN,
    fun _ _ => css_eq_iff_of_beq, fun _ _ => css_color_congr⟩

/-- The sign of a zero shows in a magnitude, and not in a channel. -/
theorem beq_laws_negative_zeros :
    (composite [.color ⟨-0, 16, 255⟩, .dimension (.px 0)] ==
      composite [.color ⟨0, 16, 255⟩, .dimension (.px (-0))]) = true ∧
    css (.composite [.color ⟨-0, 16, 255⟩, .dimension (.px 0)]) ≠
      css (.composite [.color ⟨0, 16, 255⟩, .dimension (.px (-0))]) ∧
    css (.color ⟨-0, 16, 255⟩) = css (.color ⟨0, 16, 255⟩) ∧
    (composite [.color ⟨0, 16, 255⟩, .dimension (.px (-0))] ==
      composite [.color ⟨-0, 16, 255⟩, .dimension (.px 0)]) = true ∧
    (composite [.color ⟨-0, 16, 255⟩, .dimension (.px 0)] ==
      composite [.color ⟨-0, 16, 255⟩, .dimension (.px 0)]) = true := by
  have hequal : (composite [.color ⟨-0, 16, 255⟩, .dimension (.px 0)] ==
      composite [.color ⟨0, 16, 255⟩, .dimension (.px (-0))]) = true := by decide +kernel
  obtain ⟨hsymm, htrans, -, htext, hcolor⟩ := beq_laws
  have hback := hsymm _ _ hequal
  refine ⟨hequal, fun hcss => ?_, hcolor _ _ fun k => ?_, hback, htrans _ _ _ hequal hback⟩
  · have hzero := (htext _ _ hequal).1 hcss [1] 0 (-0) _ _ rfl rfl (.inl rfl) (.inr rfl)
    revert hzero
    decide +kernel
  · cases k with
    | red => exact .inr ⟨.inr rfl, .inl rfl⟩
    | green | blue => exact .inl rfl

end Value

end StyleValues
