import StyleValues.Proofs.Number.Digits
import StyleValues.Proofs.Number.Numeral

/-!
# Positional numerals

A fraction is written with digits, and with a point if it has decimal places. Reading takes the
numeral and nothing of what follows it, as long as that does not go on with a digit or a point.

## Main definitions

* `IsPositional`: the positional numerals, and the fractions that they denote.

## Main results

* `Decimal.isPositional_text`: a fraction is written as a numeral that denotes it.
* `Decimal.ofText?_append`: a numeral is read as the fraction that it denotes.
-/

namespace StyleValues

/-- Digits, with a point between any two of them or without one. -/
inductive IsPositional : List Char → Decimal → Prop
  | integer {ds : List Char} {n : Nat} (h : IsDigits ds n) : IsPositional ds ⟨n, 0⟩
  | fraction {ds fs : List Char} {n : Nat} (hds : ds ≠ []) (hfs : fs ≠ [])
    (h : IsDigits (ds ++ fs) n) : IsPositional (ds ++ '.' :: fs) ⟨n, fs.length⟩

/-- The text does not go on with a digit or a point. -/
def EndsNumeral (rest : List Char) : Prop :=
  ∀ c ∈ rest.head?, c.isDigit = false ∧ c ≠ '.'

variable {cs ds rest : List Char} {d : Decimal} {n : Nat}

/-! ## Digits -/

theorem isDigits_toDigits (n : Nat) : IsDigits (Nat.toDigits 10 n) n := by
  have hdigit : ∀ k < 10, (Nat.digitChar k).isDigit = true := by decide
  have hvalue : ∀ k < 10, (Nat.digitChar k).toNat - '0'.toNat = k := by decide
  refine ⟨Nat.toDigits_ne_nil, fun c hc => ?_, ?_⟩
  · obtain ⟨k, hk, rfl⟩ := exists_of_mem_toDigits (by decide) hc
    exact hdigit k hk
  · rw [← digitsValue_eq_ofDigits]
    exact foldl_toDigits (by decide) hvalue n

/-- Leading zeros do not count. -/
theorem IsDigits.replicate_append (h : IsDigits ds n) (k : Nat) :
    IsDigits (List.replicate k '0' ++ ds) n := by
  induction k with
  | zero => exact h
  | succ k ih =>
    refine ⟨by simp [h.ne_nil], ?_, ?_⟩
    · intro c hc
      rcases List.mem_append.1 hc with hc | hc
      · rw [List.eq_of_mem_replicate hc]
        rfl
      · exact h.isDigit c hc
    · rw [← ih.value, ← digitsValue_eq_ofDigits, ← digitsValue_eq_ofDigits]
      rfl

theorem IsDigits.leftpad (h : IsDigits ds n) (k : Nat) : IsDigits (ds.leftpad k '0') n :=
  h.replicate_append _

theorem IsPositional.isDigit_or_eq (h : IsPositional cs d) :
    ∀ c ∈ cs, c.isDigit = true ∨ c = '.' := by
  cases h with
  | integer h => exact fun c hc => .inl (h.isDigit c hc)
  | fraction hds hfs h =>
    intro c hc
    have hdigit := h.isDigit c
    grind

theorem IsPositional.exists_eq_cons (h : IsPositional cs d) :
    ∃ c ds, cs = c :: ds ∧ c.isDigit = true := by
  cases h with
  | integer h =>
    obtain ⟨c, ds, rfl⟩ := List.exists_cons_of_ne_nil h.ne_nil
    exact ⟨c, ds, rfl, h.isDigit c List.mem_cons_self⟩
  | fraction hds hfs h =>
    obtain ⟨c, ds, rfl⟩ := List.exists_cons_of_ne_nil hds
    exact ⟨c, _, rfl, h.isDigit c List.mem_cons_self⟩

namespace Decimal

/-! ## Writing -/

/-- A fraction is written as a numeral that denotes it. -/
theorem isPositional_text (d : Decimal) : IsPositional d.text d := by
  obtain ⟨digits, places⟩ := d
  have hdigits : IsDigits ((Nat.toDigits 10 digits).leftpad (places + 1) '0') digits :=
    (isDigits_toDigits digits).leftpad (places + 1)
  have hlength : places + 1 ≤ ((Nat.toDigits 10 digits).leftpad (places + 1) '0').length := by
    rw [List.leftpad, List.length_append, List.length_replicate]
    omega
  rw [text]
  dsimp only
  generalize (Nat.toDigits 10 digits).leftpad (places + 1) '0' = ds at hdigits hlength ⊢
  split
  next hplaces =>
    subst hplaces
    exact .integer hdigits
  next hplaces =>
    have hlast : (ds.drop (ds.length - places)).length = places := by
      rw [List.length_drop]
      omega
    have hpositional : IsPositional
        (ds.take (ds.length - places) ++ '.' :: ds.drop (ds.length - places))
        ⟨digits, (ds.drop (ds.length - places)).length⟩ := by
      refine .fraction ?_ ?_ (by rwa [List.take_append_drop])
      · refine List.ne_nil_of_length_pos ?_
        rw [List.length_take]
        omega
      · refine List.ne_nil_of_length_pos ?_
        omega
    rwa [hlast] at hpositional

/-! ## Reading -/

theorem takeWhile_isDigit_append (hds : ∀ c ∈ ds, c.isDigit = true)
    (hrest : ∀ c ∈ rest.head?, c.isDigit = false) :
    (ds ++ rest).takeWhile Char.isDigit = ds ∧ (ds ++ rest).dropWhile Char.isDigit = rest := by
  rw [List.takeWhile_append_of_pos hds, List.dropWhile_append_of_pos hds]
  cases rest with
  | nil => simp
  | cons c rest => simp [hrest c rfl]

/-- A numeral is read as the fraction that it denotes, whatever follows it but digits and points. -/
theorem ofText?_append (h : IsPositional cs d) (hrest : EndsNumeral rest) :
    ofText? (cs ++ rest) = some (d, rest) := by
  have hdigit : ∀ c ∈ rest.head?, c.isDigit = false := fun c hc => (hrest c hc).1
  cases h with
  | @integer ds n h =>
    obtain ⟨htake, hdrop⟩ := takeWhile_isDigit_append h.isDigit hdigit
    rw [ofText?, htake, hdrop, ← h.value, digitsValue_eq_ofDigits]
    have hne := h.ne_nil
    have hpoint (cs : List Char) : rest ≠ '.' :: cs := by
      rintro rfl
      exact (hrest '.' rfl).2 rfl
    grind
  | @fraction ds fs n hds hfs h =>
    have hfirst : ∀ c ∈ ('.' :: (fs ++ rest)).head?, c.isDigit = false := by
      rintro c ⟨⟩
      rfl
    have hleft : ∀ c ∈ ds, c.isDigit = true := fun c hc => h.isDigit c (List.mem_append_left _ hc)
    have hright : ∀ c ∈ fs, c.isDigit = true := fun c hc => h.isDigit c (List.mem_append_right _ hc)
    obtain ⟨htake, hdrop⟩ := takeWhile_isDigit_append hleft hfirst
    obtain ⟨htake', hdrop'⟩ := takeWhile_isDigit_append hright hdigit
    rw [List.append_assoc, List.cons_append, ofText?, htake, hdrop, ← h.value,
      ← digitsValue_eq_ofDigits]
    simp [hds, htake', hdrop', hfs]

end Decimal

end StyleValues
