import StyleValues.Proofs.Text.Identifier
import StyleValues.Value.Css

/-!
# Lists of keywords

Keywords that stand side by side are identifier tokens with a space between any two, and can be
read back from there.

## Main results

* `Value.keywords_css`: what is read are the keywords, in order, but for their null characters.
-/

namespace StyleValues

open Identifier (IsToken decode decodeAll encode replaceNull)

@[simp] theorem toList_keywordCss (name : String) :
    (keywordCss name).toList = encode name.toList := by
  simp [keywordCss]

namespace Value

@[simp] theorem css_keyword (name : String) : (Value.keyword name).css = keywordCss name := by
  simp [css, write]

theorem toList_css_keywords (names : List String) :
    (css (.composite (names.map .keyword))).toList =
      [' '].intercalate ((names.map String.toList).map encode) := by
  simp [Function.comp_def]

theorem map_replaceNull {name : String} (h : '\x00' ∉ name.toList) :
    name.toList.map replaceNull = name.toList := by
  have hsame : ∀ c ∈ name.toList, replaceNull c = c := by
    intro c hc
    have hne : c ≠ '\x00' := by
      rintro rfl
      exact h hc
    simp [replaceNull, hne]
  simpa using List.map_congr_left hsame

/-- Keywords that stand side by side are written as identifier tokens, each of which is read as its
keyword, with a space between any two. Reading the whole text gives the keywords, in order and none
more. Of a null character only its replacement is read, and without such characters no two keywords
have the same text. -/
theorem keywords_css {names : List String} (hne : names ≠ []) (hnames : ∀ k ∈ names, k ≠ "") :
    (∃ tokens : List (List Char),
      (css (.composite (names.map .keyword))).toList = [' '].intercalate tokens ∧
      List.Forall₂ (fun token name => IsToken token ∧
        decode token = (name.toList.map replaceNull, [])) tokens names) ∧
    decodeAll (css (.composite (names.map .keyword))).toList =
      names.map (·.toList.map replaceNull) ∧
    ∀ j k : String, '\x00' ∉ j.toList → '\x00' ∉ k.toList →
      css (.keyword j) = css (.keyword k) → j = k := by
  have hread (name : String) : decode (encode name.toList) = (name.toList.map replaceNull, []) := by
    simpa using Identifier.decode_encode_append name.toList []
  refine ⟨⟨(names.map String.toList).map encode, toList_css_keywords names, ?_⟩, ?_, ?_⟩
  · rw [List.map_map, List.forall₂_map_left_iff, List.forall₂_same]
    intro name hname
    exact ⟨Identifier.isToken_encode (by simpa using hnames name hname), hread name⟩
  · rw [toList_css_keywords, Identifier.decodeAll_intercalate (by simpa using hne)]
    simp
  · intro j k hj hk heq
    have htexts : encode j.toList = encode k.toList := by
      simpa using congrArg String.toList heq
    have hnames := hread j
    rw [htexts, hread k, map_replaceNull hj, map_replaceNull hk] at hnames
    exact (String.toList_injective (congrArg Prod.fst hnames)).symm

/-- The space in a keyword, the space that ends an escape and the space between keywords are told
apart. -/
theorem keywords_css_three_spaces :
    css (.composite (["1 st", "-", "\x00"].map .keyword)) = "\\31 \\ st \\- \uFFFD" ∧
    decodeAll (css (.composite (["1 st", "-", "\x00"].map .keyword))).toList =
      ["1 st".toList, "-".toList, "\uFFFD".toList] :=
  ⟨by decide, (@keywords_css ["1 st", "-", "\x00"] (by decide) (by decide)).2.1⟩

end Value

end StyleValues
