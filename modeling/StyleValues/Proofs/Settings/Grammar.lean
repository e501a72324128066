import StyleValues.Proofs.Number.Integer
import StyleValues.Proofs.Number.Numeral
import StyleValues.Proofs.Text.Tokens
import StyleValues.Proofs.Traversal
import StyleValues.Settings.Options

/-!
# The grammar of option strings

A token is read on its own: it assigns an integer, or it is wrong in one of three ways. An option
string is accepted if all its tokens assign integers. The last one counts.

## Main definitions

* `TokenReads`: what a token assigns, or what is wrong with it.

## Main results

* `Settings.ofOptions_grammar`: what option strings are accepted, and with which answers.
-/

namespace StyleValues

/-- What a token without blanks assigns, or what is wrong with it. -/
inductive TokenReads : List Char → Except Error Int → Prop
  | assigns {value : List Char} {n : Int} (h : IsNumeral value n) (hmin : -2 ^ 63 ≤ n)
    (hmax : n ≤ 2 ^ 63 - 1) : TokenReads ("base-px=".toList ++ value) (.ok n)
  | noEqualsSign {token : List Char} (h : '=' ∉ token) :
    TokenReads token (.error (.invalidOption (String.ofList token) .noEqualsSign))
  | baseNotInteger {value : List Char}
    (h : ∀ n, IsNumeral value n → n < -2 ^ 63 ∨ 2 ^ 63 - 1 < n) :
    TokenReads ("base-px=".toList ++ value)
      (.error (.invalidOption (String.ofList ("base-px=".toList ++ value)) .baseNotInteger))
  | unknownKey {key value : List Char} (hkey : '=' ∉ key) (hne : key ≠ "base-px".toList) :
    TokenReads (key ++ '=' :: value) (.error (.invalidOption (String.ofList key) .unknownKey))

/-! ## One token -/

variable {token key value : List Char} {r : Except Error Int}

theorem baseAssigned_of_not_mem (h : '=' ∉ token) :
    baseAssigned token = .error (.invalidOption (String.ofList token) .noEqualsSign) := by
  have hspan : token.span (· != '=') = (token, []) := by
    grind [List.span_eq_takeWhile_dropWhile, List.takeWhile_eq_self_iff, List.dropWhile_eq_nil_iff]
  rw [baseAssigned, hspan]

/-- Nothing is trimmed from a token without blanks. -/
theorem baseAssigned_append (hkey : '=' ∉ key)
    (hblank : ∀ c ∈ key ++ '=' :: value, isBlank c = false) :
    baseAssigned (key ++ '=' :: value) =
      if key = baseOption.toList then
        (wordOfText? value).elim
          (.error (.invalidOption (String.ofList (key ++ '=' :: value)) .baseNotInteger)) .ok
      else .error (.invalidOption (String.ofList key) .unknownKey) := by
  have hspan : (key ++ '=' :: value).span (· != '=') = (key, '=' :: value) := by
    have hne : ∀ c ∈ key, (c != '=') = true := by grind
    rw [List.span_eq_takeWhile_dropWhile, List.takeWhile_append_of_pos hne,
      List.dropWhile_append_of_pos hne]
    simp
  rw [baseAssigned, hspan]
  dsimp only
  rw [trim_of_forall (by grind), trim_of_forall (by grind)]
  cases wordOfText? value <;> rfl

theorem base_append (value : List Char) :
    "base-px=".toList ++ value = baseOption.toList ++ '=' :: value := rfl

theorem tokenReads_baseAssigned (hblank : ∀ c ∈ token, isBlank c = false) :
    TokenReads token (baseAssigned token) := by
  by_cases heq : '=' ∈ token
  · obtain ⟨key, value, rfl, hkey⟩ := List.eq_append_cons_of_mem heq
    rw [baseAssigned_append hkey hblank]
    split
    next hbase =>
      subst hbase
      cases hword : wordOfText? value with
      | some n =>
        obtain ⟨hnumeral, hmin, hmax⟩ := wordOfText?_eq_some_iff.1 hword
        exact .assigns hnumeral hmin hmax
      | none => exact .baseNotInteger (wordOfText?_eq_none_iff.1 hword)
    next hbase => exact .unknownKey hkey hbase
  · rw [baseAssigned_of_not_mem heq]
    exact .noEqualsSign heq

theorem TokenReads.baseAssigned_eq (h : TokenReads token r)
    (hblank : ∀ c ∈ token, isBlank c = false) : baseAssigned token = r := by
  have hbase : '=' ∉ baseOption.toList := by decide
  cases h with
  | @assigns value n h hmin hmax =>
    rw [base_append] at hblank ⊢
    rw [baseAssigned_append hbase hblank, if_pos rfl,
      wordOfText?_eq_some_iff.2 ⟨h, hmin, hmax⟩, Option.elim_some]
  | noEqualsSign h => exact baseAssigned_of_not_mem h
  | @baseNotInteger value h =>
    rw [base_append] at hblank ⊢
    rw [baseAssigned_append hbase hblank, if_pos rfl, wordOfText?_eq_none_iff.2 h,
      Option.elim_none]
  | unknownKey hkey hne =>
    rw [baseAssigned_append hkey hblank]
    exact if_neg hne

theorem baseAssigned_eq_iff (hblank : ∀ c ∈ token, isBlank c = false) :
    baseAssigned token = r ↔ TokenReads token r :=
  ⟨fun h => h ▸ tokenReads_baseAssigned hblank, fun h => h.baseAssigned_eq hblank⟩

/-! ## Assignments in turn -/

namespace Settings

variable {s settings : Settings} {ts us : List (List Char)} {e : Error}

theorem assign_cons_of_ok {t : List Char} {n : Int} (h : baseAssigned t = .ok n) :
    s.assign (t :: ts) = assign { s with basePx := Number.ofInt n } ts := by
  rw [assign, h]

theorem assign_cons_of_error {t : List Char} (h : baseAssigned t = .error e) :
    s.assign (t :: ts) = .error e := by
  rw [assign, h]

/-- Assignments fail as the first of them that fails. -/
theorem assign_eq_error_iff : s.assign ts = .error e ↔ FirstError baseAssigned ts e := by
  induction ts generalizing s with
  | nil => simp [assign]
  | cons t ts ih =>
    rw [firstError_cons]
    cases h : baseAssigned t with
    | error d => simp [assign_cons_of_error h]
    | ok n => simp [assign_cons_of_ok h, ih]

theorem exists_assign_eq_ok_iff :
    (∃ settings, s.assign ts = .ok settings) ↔ ∀ t ∈ ts, ∃ n, baseAssigned t = .ok n := by
  rw [exists_ok_iff, forall_ok_iff]
  simp only [ne_eq, assign_eq_error_iff]

/-- The last assignment counts. -/
theorem basePx_of_assign_concat {t : List Char} {n : Int}
    (h : s.assign (ts ++ [t]) = .ok settings) (ht : baseAssigned t = .ok n) :
    settings.basePx = Number.ofInt n := by
  induction ts generalizing s with
  | nil =>
    rw [List.nil_append, assign_cons_of_ok ht, assign] at h
    cases h
    rfl
  | cons u ts ih =>
    cases hu : baseAssigned u with
    | error d =>
      rw [List.cons_append, assign_cons_of_error hu] at h
      cases h
    | ok m =>
      rw [List.cons_append, assign_cons_of_ok hu] at h
      exact ih h

/-! ## Option strings -/

theorem isBlank_of_tokenized {cs t : List Char} (h : Tokenized isOptionSeparator cs ts)
    (ht : t ∈ ts) : ∀ c ∈ t, isBlank c = false := by
  intro c hc
  have hseparator := not_isSeparator_of_mem_tokens (tokenized_iff.1 h ▸ ht) hc
  exact (Bool.or_eq_false_iff.1 hseparator).2

theorem ofOptions_eq (options : String)
    (h : Tokenized isOptionSeparator options.toList ts) :
    ofOptions options = ({} : Settings).assign ts := by
  rw [ofOptions, h.tokens_eq]

/-- The tokens of an option string decide the answer. The string is accepted if all of them assign
integers, and then the last one gives the base, as the nearest number. Otherwise the first token
that assigns none is reported. -/
theorem ofOptions_grammar (options : String) :
    ∃ ts, (∀ us, Tokenized isOptionSeparator options.toList us ↔ us = ts) ∧
      ((∃ settings, ofOptions options = .ok settings) ↔ ∀ t ∈ ts, ∃ n, TokenReads t (.ok n)) ∧
      (∀ settings, ofOptions options = .ok settings →
        (ts = [] → settings.basePx = 16) ∧
        ∀ before last n, ts = before ++ [last] → TokenReads last (.ok n) →
          settings.basePx = Number.ofInt n ∧ Number.IsNearest settings.basePx n) ∧
      (∀ e, ofOptions options = .error e ↔ ∃ before t after, ts = before ++ t :: after ∧
        (∀ u ∈ before, ∃ n, TokenReads u (.ok n)) ∧ TokenReads t (.error e)) ∧
      (∀ other : String, Tokenized isOptionSeparator other.toList ts →
        ofOptions other = ofOptions options) ∧
      ∀ key value, key ++ '=' :: value ∈ ts → trim key = key ∧ trim value = value := by
  have htokens := tokenized_tokens isOptionSeparator options.toList
  generalize tokens isOptionSeparator options.toList = ts at htokens
  have hblank {t : List Char} (ht : t ∈ ts) := isBlank_of_tokenized htokens ht
  have hreads {t : List Char} (ht : t ∈ ts) (r : Except Error Int) :
      baseAssigned t = r ↔ TokenReads t r := baseAssigned_eq_iff (hblank ht)
  refine ⟨ts, fun us => ?_, ?_, fun settings h => ⟨?_, ?_⟩, fun e => ?_, fun other h => ?_,
    fun key value h => ?_⟩
  · rw [tokenized_iff, htokens.tokens_eq]
  · rw [ofOptions_eq options htokens, exists_assign_eq_ok_iff]
    exact forall₂_congr fun t ht => exists_congr fun n => hreads ht _
  · rintro rfl
    rw [ofOptions_eq options htokens, assign] at h
    cases h
    rfl
  · rintro before last n rfl hlast
    rw [ofOptions_eq options htokens] at h
    have hbase := basePx_of_assign_concat h ((hreads (by simp) _).2 hlast)
    refine ⟨hbase, hbase ▸ Number.isNearest_ofInt ?_⟩
    cases hlast with
    | assigns _ hmin hmax => exact Number.log2_natAbs_lt hmin hmax
  · rw [ofOptions_eq options htokens, assign_eq_error_iff]
    refine exists_congr fun before => exists₂_congr fun t after => and_congr_right ?_
    rintro rfl
    refine and_congr (forall₂_congr fun u hu => exists_congr fun n => hreads ?_ _) (hreads ?_ _)
    · exact List.mem_append_left _ hu
    · simp
  · rw [ofOptions_eq other h, ofOptions_eq options htokens]
  · have := hblank h
    exact ⟨trim_of_forall (by grind), trim_of_forall (by grind)⟩

/-- The last token counts, and its leading zeros do not. -/
theorem ofOptions_grammar_leading_zeros :
    ∃ settings, ofOptions "base-px=1,, base-px=-0012" = .ok settings ∧
      settings.basePx = Number.ofInt (-12) ∧ Number.IsNearest settings.basePx (-12) := by
  obtain ⟨ts, hts, hok, hbase, -⟩ := ofOptions_grammar "base-px=1,, base-px=-0012"
  obtain rfl : ["base-px=1".toList, "base-px=-0012".toList] = ts :=
    (hts _).1 (tokenized_iff.2 rfl)
  have hone : IsDigits ['1'] 1 := ⟨by simp, List.all_eq_true.1 rfl, rfl⟩
  have htwelve : IsDigits ['0', '0', '1', '2'] 12 := ⟨by simp, List.all_eq_true.1 rfl, rfl⟩
  have hfirst : TokenReads "base-px=1".toList (.ok 1) :=
    .assigns (.unsigned hone) (by decide) (by decide)
  have hlast : TokenReads "base-px=-0012".toList (.ok (-12)) :=
    .assigns (.minus htwelve) (by decide) (by decide)
  have hall : ∀ t ∈ ["base-px=1".toList, "base-px=-0012".toList], ∃ n, TokenReads t (.ok n) := by
    intro t ht
    rcases List.mem_pair.1 ht with rfl | rfl
    · exact ⟨1, hfirst⟩
    · exact ⟨-12, hlast⟩
  obtain ⟨settings, hsettings⟩ := hok.2 hall
  obtain ⟨heq, hnearest⟩ := (hbase settings hsettings).2 ["base-px=1".toList] _ (-12) rfl hlast
  exact ⟨settings, hsettings, heq, by exact_mod_cast hnearest⟩

/-- The first token that is wrong is reported, and keys are compared exactly. -/
example : ofOptions "base-px=8,, BASE-px=1 rem" =
    .error (.invalidOption "BASE-px" .unknownKey) := rfl

end Settings

end StyleValues
