/-!
# Tokens

The tokens of a text are its longest runs of characters that are not separators. How many
separators stand between two tokens, and which, makes no difference.
-/

namespace StyleValues

/-- The pieces between separators that are not empty. -/
def tokens (isSeparator : Char → Bool) (cs : List Char) : List (List Char) :=
  (cs.splitOnP isSeparator).filter fun t => !t.isEmpty

variable {isSeparator : Char → Bool} {as bs cs t : List Char} {c : Char}

@[simp] theorem tokens_nil : tokens isSeparator [] = [] := by
  simp [tokens]

theorem tokens_append_cons (hc : isSeparator c = true) :
    tokens isSeparator (as ++ c :: bs) = tokens isSeparator as ++ tokens isSeparator bs := by
  simp [tokens, List.splitOnP_append_cons _ _ hc]

theorem tokens_cons (hc : isSeparator c = true) :
    tokens isSeparator (c :: cs) = tokens isSeparator cs := by
  simpa using @tokens_append_cons isSeparator [] cs c hc

theorem tokens_eq_singleton (h : ∀ c ∈ cs, isSeparator c = false) (hne : cs ≠ []) :
    tokens isSeparator cs = [cs] := by
  simp [tokens, List.splitOnP_eq_singleton h, hne]

theorem not_isSeparator_of_mem_tokens (ht : t ∈ tokens isSeparator cs) (hc : c ∈ t) :
    isSeparator c = false := by
  have hs : t ∈ cs.splitOnP isSeparator := (List.mem_filter.1 ht).1
  clear ht
  induction cs generalizing t with
  | nil => simp_all
  | cons d cs ih =>
    rw [List.splitOnP_cons_eq_if_modifyHead] at hs
    split at hs
    · rcases List.mem_cons.1 hs with rfl | hs
      · simp at hc
      · exact ih hc hs
    next hd =>
      obtain ⟨p, ps, hp⟩ := List.exists_cons_of_ne_nil (List.splitOnP_ne_nil isSeparator cs)
      rw [hp, List.modifyHead_cons] at hs
      rcases List.mem_cons.1 hs with rfl | hs
      · rcases List.mem_cons.1 hc with rfl | hc
        · simpa using hd
        · exact ih hc (hp ▸ List.mem_cons_self)
      · exact ih hc (hp ▸ List.mem_cons_of_mem _ hs)

end StyleValues
