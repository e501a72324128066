import StyleValues.Number.Text
import StyleValues.Proofs.Number.Fraction
import StyleValues.Proofs.Number.Positional

/-!
# The text of a number as a numeral

A number is written as a numeral, a finite one as a positional numeral of a fraction that it is
nearest to. It is read back from this numeral, which is the longest one in front of any text that
does not go on with a digit or a point.

## Main definitions

* `Number.IsUnsignedNumeral`, `Number.IsSignedNumeral`: the numerals and the numbers read from them.

## Main results

* `Number.isSignedNumeral_text`: a number is read from its text.
* `Number.ofText?_append`, `Number.IsSignedNumeral.longest`: a numeral is read up to its end.
* `Number.exists_isPositional_text`: the text of a finite number is positional.
-/

namespace StyleValues.Number

open Float.Model (UnpackedFloat)
open Float.Model.UnpackedFloat

/-- `inf`, or a positional numeral. -/
inductive IsUnsignedNumeral : List Char → Float → Prop
  | infinity : IsUnsignedNumeral ['i', 'n', 'f'] infinity
  | positional {cs : List Char} {d : Decimal} (h : IsPositional cs d) :
    IsUnsignedNumeral cs d.toFloat

/-- An unsigned numeral, with at most one minus sign in front of it. -/
inductive IsSignedNumeral : List Char → Float → Prop
  | unsigned {cs : List Char} {x : Float} (h : IsUnsignedNumeral cs x) : IsSignedNumeral cs x
  | minus {cs : List Char} {x : Float} (h : IsUnsignedNumeral cs x) :
    IsSignedNumeral ('-' :: cs) (-x)

variable {cs other rest : List Char} {x y : Float} {s : Sign} {m : Nat} {e : Int} {hm : 0 < m}

/-! ## Reading -/

theorem IsUnsignedNumeral.exists_eq_cons (h : IsUnsignedNumeral cs x) :
    ∃ c ds, cs = c :: ds ∧ c ≠ '-' := by
  cases h with
  | infinity => exact ⟨'i', ['n', 'f'], rfl, by decide⟩
  | positional h =>
    obtain ⟨c, ds, rfl, hc⟩ := h.exists_eq_cons
    refine ⟨c, ds, rfl, ?_⟩
    rintro rfl
    cases hc

theorem unsignedOfText?_append (h : IsUnsignedNumeral cs x) (hrest : EndsNumeral rest) :
    unsignedOfText? (cs ++ rest) = some (x, rest) := by
  cases h with
  | infinity => rfl
  | positional h =>
    have hread := Decimal.ofText?_append h hrest
    obtain ⟨c, ds, rfl, hc⟩ := h.exists_eq_cons
    unfold unsignedOfText?
    split
    next heq =>
      obtain rfl : c = 'i' := (List.cons.inj heq).1
      cases hc
    next =>
      rw [hread]
      rfl

/-- A numeral is read up to its end. -/
theorem ofText?_append (h : IsSignedNumeral cs x) (hrest : EndsNumeral rest) :
    ofText? (cs ++ rest) = some (x, rest) := by
  cases h with
  | unsigned h =>
    have hread := unsignedOfText?_append h hrest
    obtain ⟨c, ds, rfl, hc⟩ := h.exists_eq_cons
    unfold ofText?
    split
    next heq => exact absurd (List.cons.inj heq).1 hc
    next => exact hread
  | minus h =>
    rw [List.cons_append, ofText?, unsignedOfText?_append h hrest]
    rfl

/-- What ends a numeral does not belong to a longer one. -/
theorem IsUnsignedNumeral.eq_nil_of_append (h : IsUnsignedNumeral cs x)
    (ho : IsUnsignedNumeral (cs ++ rest) y) (hrest : EndsNumeral rest) : rest = [] := by
  generalize hother : cs ++ rest = other at ho
  cases ho with
  | infinity =>
    cases h with
    | infinity => simpa using hother
    | positional h =>
      obtain ⟨c, ds, rfl, hc⟩ := h.exists_eq_cons
      obtain rfl : c = 'i' := (List.cons.inj hother).1
      cases hc
  | positional ho =>
    subst hother
    by_contra hne
    obtain ⟨c, ds, rfl⟩ := List.exists_cons_of_ne_nil hne
    obtain ⟨hdigit, hpoint⟩ := hrest c rfl
    rcases ho.isDigit_or_eq c (by simp) with hc | hc
    · exact absurd hc (by simp [hdigit])
    · exact hpoint hc

theorem IsSignedNumeral.eq_nil_of_append (h : IsSignedNumeral cs x)
    (ho : IsSignedNumeral (cs ++ rest) y) (hrest : EndsNumeral rest) : rest = [] := by
  generalize hother : cs ++ rest = other at ho
  cases h with
  | unsigned h =>
    cases ho with
    | unsigned ho => exact h.eq_nil_of_append (hother ▸ ho) hrest
    | minus ho =>
      obtain ⟨c, ds, rfl, hc⟩ := h.exists_eq_cons
      exact absurd (List.cons.inj hother).1 hc
  | minus h =>
    cases ho with
    | unsigned ho =>
      obtain ⟨c, ds, rfl, hc⟩ := ho.exists_eq_cons
      exact absurd (List.cons.inj hother).1.symm hc
    | minus ho => exact h.eq_nil_of_append ((List.cons.inj hother).2 ▸ ho) hrest

/-- Of the numerals in front of a text, the one before its end is the longest. -/
theorem IsSignedNumeral.longest (h : IsSignedNumeral cs x) (hrest : EndsNumeral rest)
    (ho : IsSignedNumeral other y) (hfront : other <+: cs ++ rest) : other <+: cs := by
  rcases List.prefix_or_prefix_of_prefix hfront (List.prefix_append cs rest) with hle | hle
  · exact hle
  · obtain ⟨more, rfl⟩ := hle
    have hmore : more <+: rest := (List.prefix_append_right_inj cs).1 hfront
    have hends : EndsNumeral more := by
      intro c hc
      obtain ⟨tail, rfl⟩ := hmore
      refine hrest c ?_
      rw [List.head?_append, Option.mem_def.1 hc]
      rfl
    obtain rfl := h.eq_nil_of_append ho hends
    simp

/-! ## Writing -/

theorem unpack_neg (hx : x.toModel.unpack = .finite s m e hm) :
    (-x).toModel.unpack = .finite (-s) m e hm := by
  change (Float.Model.pack x.toModel.unpack.neg).unpack = _
  rw [hx]
  exact unpack_pack (canonical_of_unpack hx)

theorem unpack_abs (hx : x.toModel.unpack = .finite s m e hm) :
    x.abs.toModel.unpack = .finite .positive m e hm := by
  change (Float.Model.pack x.toModel.unpack.abs).unpack = _
  rw [hx]
  exact unpack_pack (canonical_of_unpack hx)

/-- Every finite number is a decimal fraction. -/
theorem value_ofBinary (m : Nat) (e : Int) : (Decimal.ofBinary m e).value = m * 2 ^ e := by
  cases e with
  | ofNat e =>
    change ((m * 2 ^ e : Nat) : ℚ) / 10 ^ 0 = m * 2 ^ (e : Int)
    rw [zpow_natCast]
    push_cast
    ring
  | negSucc e =>
    change ((m * 5 ^ (e + 1) : Nat) : ℚ) / 10 ^ (e + 1) = m * 2 ^ Int.negSucc e
    have hten : (10 : ℚ) ^ (e + 1) = 5 ^ (e + 1) * 2 ^ (e + 1) := by
      rw [← mul_pow]
      norm_num
    rw [zpow_negSucc, hten, Nat.cast_mul, Nat.cast_pow, Nat.cast_ofNat, ← div_div,
      mul_div_assoc, div_self (by positivity), mul_one, div_eq_mul_inv]

/-- The fraction that is written is read as the number without its sign. -/
theorem toFloat_shortest_ofBinary (hx : x.toModel.unpack = .finite s m e hm) :
    ((Decimal.ofBinary m e).shortest x.abs).toFloat = x.abs := by
  have hvalue : value? x.abs = some (Decimal.ofBinary m e).value := by
    rw [value?, unpack_abs hx, value_ofBinary]
    simp [unpackedValue?, Sign.apply]
  refine Decimal.toFloat_shortest (Decimal.toFloat_eq_of_value? hvalue ?_)
  rw [value_ofBinary]
  positivity

/-- A number with a sign. -/
def withSign : Sign → Float → Float
  | .positive, x => x
  | .negative, x => -x

theorem IsUnsignedNumeral.signed (h : IsUnsignedNumeral cs x) (s : Sign) :
    IsSignedNumeral (signText s ++ cs) (withSign s x) := by
  cases s with
  | positive => exact .unsigned h
  | negative => exact .minus h

/-- A finite number is written as its sign and a fraction that is read as the number without it. -/
theorem exists_toList_text (hx : x.isFinite = true) :
    ∃ (s : Sign) (d : Decimal) (v : ℚ), (text x).toList = signText s ++ d.text ∧
      d.toFloat = x.abs ∧ x = withSign s x.abs ∧ value? x.abs = some v := by
  change x.toModel.unpack.isFinite = true at hx
  cases hunpack : x.toModel.unpack with
  | notANumber | infinity s =>
    rw [hunpack] at hx
    cases hx
  | zero s =>
    have htext : (text x).toList = signText s ++ (⟨0, 0⟩ : Decimal).text := by
      simp [text, hunpack]
      rfl
    obtain rfl : x = withSign s 0 := by
      refine unpack_injective (hunpack.trans ?_)
      cases s <;> rfl
    have habs : (withSign s 0).abs = 0 := by cases s <;> exact unpack_injective rfl
    rw [habs]
    exact ⟨s, ⟨0, 0⟩, 0, htext, unpack_injective rfl, rfl, rfl⟩
  | finite s m e hm =>
    refine ⟨s, (Decimal.ofBinary m e).shortest x.abs, _, ?_, toFloat_shortest_ofBinary hunpack,
      unpack_injective (hunpack.trans ?_), congrArg unpackedValue? (unpack_abs hunpack)⟩
    · simp [text, hunpack]
    · cases s with
      | positive => exact (unpack_abs hunpack).symm
      | negative => exact (unpack_neg (unpack_abs hunpack)).symm

/-- A number is read from its text. -/
theorem isSignedNumeral_text (hx : x.isNaN = false) : IsSignedNumeral (text x).toList x := by
  by_cases hfinite : x.isFinite = true
  · obtain ⟨s, d, v, htext, hread, hsign, -⟩ := exists_toList_text hfinite
    have hsigned := (IsUnsignedNumeral.positional d.isPositional_text).signed s
    rwa [← htext, hread, ← hsign] at hsigned
  · change x.toModel.unpack.isNaN = false at hx
    change ¬ x.toModel.unpack.isFinite = true at hfinite
    cases hunpack : x.toModel.unpack with
    | infinity s =>
      have htext : (text x).toList = signText s ++ ['i', 'n', 'f'] := by simp [text, hunpack]
      have hsign : x = withSign s infinity := by
        refine unpack_injective (hunpack.trans ?_)
        cases s <;> rfl
      rw [htext, hsign]
      exact IsUnsignedNumeral.infinity.signed s
    | _ => simp [hunpack, UnpackedFloat.isNaN, UnpackedFloat.isFinite] at hx hfinite

/-- A finite number is written without an exponent, and is nearest to the fraction that is written
behind its sign. -/
theorem exists_isPositional_text (hx : x.isFinite = true) :
    ∃ (ds : List Char) (d : Decimal), ((text x).toList = ds ∨ (text x).toList = '-' :: ds) ∧
      IsPositional ds d ∧ IsNearest x.abs d.value := by
  obtain ⟨s, d, v, htext, hread, -, hv⟩ := exists_toList_text hx
  rw [← hread] at hv
  refine ⟨d.text, d, ?_, d.isPositional_text, hread ▸ Decimal.isNearest_toFloat hv⟩
  cases s with
  | positive => exact .inl htext
  | negative => exact .inr htext

end StyleValues.Number
