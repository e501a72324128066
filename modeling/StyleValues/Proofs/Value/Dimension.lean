import StyleValues.Proofs.Number.Text
import StyleValues.Value.Css

/-!
# The text of a dimension

A dimension is written as a number and the units behind it. If stars and strokes occur between unit
tokens only, and the first token does not go on with the number, then both are read back.

## Main definitions

* `Units.Separable`: all unit tokens can be told apart.

## Main results

* `Units.ofCss_css`: units are read from their text.
* `Dimension.css_determines`: a dimension is read from its text.
-/

namespace StyleValues

/-- The tokens are not empty, and stars and strokes occur between them only. -/
def Units.Separable (u : Units) : Prop :=
  ∀ token ∈ u.numerator ++ u.denominator,
    token ≠ "" ∧ '*' ∉ token.toList ∧ '/' ∉ token.toList

/-- The first unit token does not go on with a number. -/
def Units.EndsNumber (u : Units) : Prop :=
  ∀ token ∈ u.leading?, EndsNumeral token.toList

namespace Units

variable {tokens : List String} {u : Units}

theorem toList_css (u : Units) :
    u.css.toList = ['*'].intercalate (u.numerator.map String.toList) ++
      if u.denominator = [] then []
      else '/' :: ['*'].intercalate (u.denominator.map String.toList) := by
  rw [css, String.toList_append, String.toList_intercalate]
  split <;> simp_all [String.toList_intercalate]

theorem exists_intercalate_eq_append (token : String) (tokens : List String) :
    ∃ more, ['*'].intercalate ((token :: tokens).map String.toList) = token.toList ++ more := by
  cases tokens with
  | nil => exact ⟨[], by simp⟩
  | cons next tokens =>
    rw [List.map_cons, List.map_cons, List.intercalate_cons_cons, List.append_assoc]
    exact ⟨_, rfl⟩

@[simp] theorem factors_nil : factors [] = [] := rfl

theorem factors_intercalate (hne : ∀ token ∈ tokens, token ≠ "")
    (hstar : ∀ token ∈ tokens, '*' ∉ token.toList) :
    factors (['*'].intercalate (tokens.map String.toList)) = tokens := by
  cases tokens with
  | nil => rfl
  | cons token tokens =>
    have hsplit : (['*'].intercalate ((token :: tokens).map String.toList)).splitOn '*' =
        (token :: tokens).map String.toList :=
      List.splitOn_intercalate '*' (by simpa using hstar) (by simp)
    have hlong : (['*'].intercalate ((token :: tokens).map String.toList)).isEmpty = false := by
      obtain ⟨more, hmore⟩ := exists_intercalate_eq_append token tokens
      rw [hmore]
      simp [hne token List.mem_cons_self]
    rw [factors, hlong, hsplit]
    simp [Function.comp_def]

theorem not_mem_intercalate (h : ∀ token ∈ tokens, '/' ∉ token.toList) :
    '/' ∉ ['*'].intercalate (tokens.map String.toList) := by
  induction tokens with
  | nil => simp
  | cons token tokens ih =>
    cases tokens with
    | nil => simpa using h
    | cons next tokens =>
      rw [List.map_cons, List.map_cons, List.intercalate_cons_cons]
      grind

/-- Units are read from their text. -/
theorem ofCss_css (h : u.Separable) : ofCss u.css.toList = u := by
  obtain ⟨numerator, denominator⟩ := u
  simp only [Separable, List.mem_append] at h
  have habove : factors (['*'].intercalate (numerator.map String.toList)) = numerator :=
    factors_intercalate (by grind) (by grind)
  have hbelow : factors (['*'].intercalate (denominator.map String.toList)) = denominator :=
    factors_intercalate (by grind) (by grind)
  have hstroke : '/' ∉ ['*'].intercalate (numerator.map String.toList) :=
    not_mem_intercalate (by grind)
  have hpos : ∀ c ∈ ['*'].intercalate (numerator.map String.toList), (c != '/') = true := by
    intro c hc
    rw [bne_iff_ne]
    rintro rfl
    exact hstroke hc
  rw [ofCss, toList_css, List.span_eq_takeWhile_dropWhile, List.takeWhile_append_of_pos hpos,
    List.dropWhile_append_of_pos hpos]
  dsimp only
  by_cases hnone : denominator = []
  · subst hnone
    simp [habove]
  · simp [hnone, habove, hbelow]

theorem endsNumeral_css (h : u.Separable) (hnumber : u.EndsNumber) :
    EndsNumeral u.css.toList := by
  rw [toList_css]
  obtain ⟨numerator, denominator⟩ := u
  cases numerator with
  | nil =>
    intro c hc
    dsimp only at hc
    split at hc
    · simp at hc
    · obtain rfl : c = '/' := by simpa using hc.symm
      decide
  | cons token tokens =>
    have hne : token.toList ≠ [] := by
      have := (h token (by simp)).1
      simpa using this
    obtain ⟨more, hmore⟩ := exists_intercalate_eq_append token tokens
    dsimp only
    rw [hmore, List.append_assoc]
    obtain ⟨c, cs, hcs⟩ := List.exists_cons_of_ne_nil hne
    have hfirst := hnumber token rfl
    rw [hcs] at hfirst ⊢
    exact hfirst

end Units

namespace Dimension

variable {x : Float} {u : Units}

theorem toList_css (x : Float) (u : Units) :
    (css ⟨.number x, u⟩).toList = (Number.text x).toList ++ u.css.toList :=
  String.toList_append

/-- A number with units is read from its text: the number from the longest numeral in front, which
has no exponent, and the units from what follows. -/
theorem css_determines (hx : x.isNaN = false) (hunits : u.Separable) (hnumber : u.EndsNumber) :
    ofCss? (css ⟨.number x, u⟩) = some ⟨.number x, u⟩ ∧
    ∃ numeral, (css ⟨.number x, u⟩).toList = numeral ++ u.css.toList ∧
      Number.IsSignedNumeral numeral x ∧
      (∀ other y, Number.IsSignedNumeral other y → other <+: (css ⟨.number x, u⟩).toList →
        other <+: numeral) ∧
      (x.isFinite = true → ∃ (ds : List Char) (d : Decimal), (numeral = ds ∨ numeral = '-' :: ds) ∧
        IsPositional ds d ∧ Number.IsNearest x.abs d.value) := by
  have hnumeral : Number.IsSignedNumeral (Number.text x).toList x :=
    Number.isSignedNumeral_text hx
  have hends : EndsNumeral u.css.toList := Units.endsNumeral_css hunits hnumber
  refine ⟨?_, (Number.text x).toList, toList_css x u, hnumeral, fun other y ho hfront => ?_,
    Number.exists_isPositional_text⟩
  · simp [ofCss?, toList_css, Number.ofText?_append hnumeral hends, Units.ofCss_css hunits]
  · rw [toList_css] at hfront
    exact hnumeral.longest hends ho hfront

/-- The `e` of a unit is no exponent, and a numerator without tokens is read as such. -/
theorem css_determines_em_rad :
    css ⟨.number (-1.5), ⟨["em", "rad"], ["s"]⟩⟩ = "-1.5em*rad/s" ∧
    ofCss? "-1.5em*rad/s" = some ⟨.number (-1.5), ⟨["em", "rad"], ["s"]⟩⟩ ∧
    ofCss? (css ⟨.number (-0), ⟨[], ["em"]⟩⟩) = some ⟨.number (-0), ⟨[], ["em"]⟩⟩ := by
  have htext : css ⟨.number (-1.5), ⟨["em", "rad"], ["s"]⟩⟩ = "-1.5em*rad/s" := by
    decide +kernel
  have hread : ofCss? (css ⟨.number (-1.5), ⟨["em", "rad"], ["s"]⟩⟩) =
      some ⟨.number (-1.5), ⟨["em", "rad"], ["s"]⟩⟩ :=
    (css_determines (by decide +kernel) (by simp [Units.Separable])
      (by simp [Units.EndsNumber, Units.leading?, EndsNumeral])).1
  refine ⟨htext, htext ▸ hread, ?_⟩
  exact (css_determines (by decide +kernel) (by simp [Units.Separable])
    (by simp [Units.EndsNumber, Units.leading?])).1

end Dimension

end StyleValues
