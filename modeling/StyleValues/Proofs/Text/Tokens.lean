import Mathlib
import StyleValues.Text.Tokens

/-!
# Tokens as maximal runs

The tokens of a text are its maximal runs of characters that are not separators, from left to
right. Every text has exactly one such list.

## Main definitions

* `Tokenized`: a text is divided into its maximal runs.

## Main results

* `tokenized_iff`: the runs of a text are its tokens.
-/

namespace StyleValues

/-- A text consists of separators and of runs without separators. After a run the text ends, or
there is a separator. -/
inductive Tokenized (isSeparator : Char → Bool) : List Char → List (List Char) → Prop
  | nil : Tokenized isSeparator [] []
  | separator {c : Char} {cs : List Char} {ts : List (List Char)} (hc : isSeparator c = true)
    (h : Tokenized isSeparator cs ts) : Tokenized isSeparator (c :: cs) ts
  | run {t cs : List Char} {ts : List (List Char)} (hne : t ≠ [])
    (ht : ∀ c ∈ t, isSeparator c = false) (hend : ∀ c ∈ cs.head?, isSeparator c = true)
    (h : Tokenized isSeparator cs ts) : Tokenized isSeparator (t ++ cs) (t :: ts)

variable {isSeparator : Char → Bool} {t cs : List Char} {ts : List (List Char)}

theorem tokens_run_append (hne : t ≠ []) (ht : ∀ c ∈ t, isSeparator c = false)
    (hend : ∀ c ∈ cs.head?, isSeparator c = true) :
    tokens isSeparator (t ++ cs) = t :: tokens isSeparator cs := by
  cases cs with
  | nil => rw [List.append_nil, tokens_eq_singleton ht hne, tokens_nil]
  | cons c cs =>
    have hc : isSeparator c = true := hend c rfl
    rw [tokens_append_cons hc, tokens_eq_singleton ht hne, tokens_cons hc, List.singleton_append]

theorem Tokenized.tokens_eq (h : Tokenized isSeparator cs ts) : tokens isSeparator cs = ts := by
  induction h with
  | nil => exact tokens_nil
  | separator hc _ ih => rw [tokens_cons hc, ih]
  | run hne ht hend _ ih => rw [tokens_run_append hne ht hend, ih]

/-- What does not start with a separator starts with a run. -/
theorem exists_run_append {c : Char} (hc : isSeparator c = false) (cs : List Char) :
    ∃ t rest, c :: cs = t ++ rest ∧ t ≠ [] ∧ (∀ d ∈ t, isSeparator d = false) ∧
      ∀ d ∈ rest.head?, isSeparator d = true := by
  refine ⟨(c :: cs).takeWhile (!isSeparator ·), (c :: cs).dropWhile (!isSeparator ·),
    List.takeWhile_append_dropWhile.symm, by simp [hc], fun d hd => ?_, fun d hd => ?_⟩
  · simpa using List.mem_takeWhile_imp hd
  · have hhead := List.head?_dropWhile_not (!isSeparator ·) (c :: cs)
    rw [Option.mem_def.1 hd] at hhead
    simpa using hhead

theorem tokenized_tokens (isSeparator : Char → Bool) (cs : List Char) :
    Tokenized isSeparator cs (tokens isSeparator cs) := by
  induction h : cs.length using Nat.strong_induction_on generalizing cs with
  | _ n ih =>
    subst h
    cases cs with
    | nil =>
      rw [tokens_nil]
      exact .nil
    | cons c cs =>
      cases hc : isSeparator c with
      | true =>
        rw [tokens_cons hc]
        exact .separator hc (ih _ (by simp) cs rfl)
      | false =>
        obtain ⟨t, rest, heq, hne, ht, hend⟩ := exists_run_append hc cs
        have hpos := List.length_pos_of_ne_nil hne
        rw [heq, tokens_run_append hne ht hend]
        exact .run hne ht hend (ih _ (by simp [heq]; omega) rest rfl)

theorem tokenized_iff : Tokenized isSeparator cs ts ↔ ts = tokens isSeparator cs :=
  ⟨fun h => h.tokens_eq.symm, fun h => h ▸ tokenized_tokens isSeparator cs⟩

end StyleValues
