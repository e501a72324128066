import StyleValues.Proofs.Number.Byte
import StyleValues.Proofs.Number.Truncation
import StyleValues.Proofs.Text.Identifier
import StyleValues.Value.Css
import StyleValues.Value.Equality

/-!
# The text of a color

A color is written as `#` and two hexadecimal digits for each channel. The digits say which byte is
nearest to the channel, so they determine a color with the same text.

## Main definitions

* `Channel`, `Color.get`: the channels of a color.
* `Color.bytes?`, `Color.ofCss?`: read the text of a color.
* `IsChannelByte`: the byte that a channel should be written as.

## Main results

* `Color.css_reads_back`: the text of a color has the bytes of its channels.
-/

namespace StyleValues

open Number

/-! ## Channels -/

inductive Channel
  | red
  | green
  | blue
deriving DecidableEq, Repr

variable {c d : Color}

namespace Color

def get (c : Color) : Channel → Float
  | .red => c.red
  | .green => c.green
  | .blue => c.blue

@[simp] theorem get_map (f : Float → Float) (c : Color) (k : Channel) :
    (c.map f).get k = f (c.get k) := by
  cases k <;> rfl

@[ext] theorem ext_get (h : ∀ k, c.get k = d.get k) : c = d := by
  cases c
  cases d
  rw [Color.mk.injEq]
  exact ⟨h .red, h .green, h .blue⟩

/-- Colors are equal if their channels are equal as numbers. -/
theorem beq_iff_get : (c == d) = true ↔ ∀ k, (c.get k == d.get k) = true := by
  change (c.red == d.red && c.green == d.green && c.blue == d.blue) = true ↔ _
  rw [Bool.and_eq_true, Bool.and_eq_true]
  constructor
  · rintro ⟨⟨hred, hgreen⟩, hblue⟩ k
    cases k <;> assumption
  · intro h
    exact ⟨⟨h .red, h .green⟩, h .blue⟩

end Color

/-! ## Reading -/

/-- The number of two hexadecimal digits. -/
def hexPair? (high low : Char) : Option Nat := do
  let a ← Identifier.hexValue? high
  let b ← Identifier.hexValue? low
  return 16 * a + b

namespace Color

/-- The bytes of a text such as `#ff0010`, one for each channel. -/
def bytes? (text : String) : Option (Channel → Nat) :=
  match text.toList with
  | ['#', r, r', g, g', b, b'] => do
    let red ← hexPair? r r'
    let green ← hexPair? g g'
    let blue ← hexPair? b b'
    return fun
      | .red => red
      | .green => green
      | .blue => blue
  | _ => none

def ofBytes (n : Channel → Nat) : Color :=
  ⟨ofInt (n .red), ofInt (n .green), ofInt (n .blue)⟩

/-- Reads the text of a color. -/
def ofCss? (text : String) : Option Color := (bytes? text).map ofBytes

@[simp] theorem get_ofBytes (n : Channel → Nat) (k : Channel) :
    (ofBytes n).get k = ofInt (n k) := by
  cases k <;> rfl

end Color

theorem hexPair?_hexByte (b : Fin 256) :
    hexPair? (Nat.digitChar (b / 16)) (Nat.digitChar (b % 16)) = some b := by
  have hhigh : (b / 16 : Nat) < 16 := by omega
  have hlow : (b % 16 : Nat) < 16 := by omega
  simp [hexPair?, Identifier.hexValue?_digitChar _ hhigh, Identifier.hexValue?_digitChar _ hlow,
    Nat.div_add_mod]

/-- The lowercase hexadecimal digits. -/
def hexAlphabet : List Char := "0123456789abcdef".toList

theorem mem_hexAlphabet : ∀ d < 16, Nat.digitChar d ∈ hexAlphabet := by
  decide

theorem mem_hexAlphabet_of_mem_hexByte {b : Fin 256} {digit : Char} (h : digit ∈ hexByte b) :
    digit ∈ hexAlphabet := by
  simp only [hexByte, List.mem_cons, List.not_mem_nil, or_false] at h
  rcases h with rfl | rfl
  · exact mem_hexAlphabet _ (by omega)
  · exact mem_hexAlphabet _ (by omega)

/-! ## Bytes -/

/-- The byte that a channel should be written as. -/
structure IsChannelByte (x : Float) (n : Nat) : Prop where
  of_finite : ∀ q, value? x = some q → IsNearestInteger (Set.Icc 0 255) q n
  of_infinite : x.isInf = true → n = if 0 < x then 255 else 0
  of_nan : x.isNaN = true → n = 0

theorem isChannelByte_toByte (x : Float) : IsChannelByte x (toByte x) := by
  refine ⟨fun q hq => isNearestInteger_toByte (position?_of_value? hq), fun h => ?_, fun h => ?_⟩
  · change x.toModel.unpack.isInf = true at h
    cases hx : x.toModel.unpack with
    | infinity s =>
      cases s with
      | negative =>
        obtain rfl : x = -1 / 0 := unpack_injective hx
        decide +kernel
      | positive =>
        obtain rfl : x = 1 / 0 := unpack_injective hx
        decide +kernel
    | notANumber | zero s | finite s m e hm =>
      rw [hx] at h
      cases h
  · rw [toByte_of_isNaN h]
    rfl

theorem value?_ofInt_byte (b : Fin 256) : value? (ofInt (b : Nat)) = some (b : Nat) := by
  have hlog : ∀ b : Fin 256, (b : Nat).log2 ≤ 52 := by decide +kernel
  simpa using value?_ofInt (n := (b : Nat)) (hlog b)

@[simp] theorem toByte_ofInt (b : Fin 256) : toByte (ofInt (b : Nat)) = b := by
  have hnearest := isNearestInteger_toByte (position?_of_value? (value?_ofInt_byte b))
  have hb := hnearest.eq_of_intCast (m := (b : Nat)) (by simp; omega)
  exact Fin.ext (by exact_mod_cast hb)

namespace Color

theorem toList_css (c : Color) :
    c.css.toList = '#' :: (hexByte (toByte c.red) ++ (hexByte (toByte c.green) ++
      hexByte (toByte c.blue))) := by
  simp [css]

theorem bytes?_css (c : Color) :
    bytes? c.css = some fun k => (toByte (c.get k) : Nat) := by
  have hread := hexPair?_hexByte
  unfold bytes?
  simp only [toList_css, hexByte, List.cons_append, List.nil_append, hread]
  refine congrArg some (funext fun k => ?_)
  cases k <;> rfl

theorem ofCss?_css (c : Color) :
    ofCss? c.css = some (ofBytes fun k => toByte (c.get k)) := by
  rw [ofCss?, bytes?_css, Option.map_some]

/-- Only the bytes of a color show in its text. -/
theorem css_congr (h : ∀ k, toByte (c.get k) = toByte (d.get k)) : c.css = d.css := by
  apply String.toList_inj.1
  rw [toList_css, toList_css, show toByte c.red = toByte d.red from h .red,
    show toByte c.green = toByte d.green from h .green,
    show toByte c.blue = toByte d.blue from h .blue]

/-- The text of a color is `#` and two lowercase hexadecimal digits for each channel, which give
the byte that the channel should be written as. So the byte grows with the channel, a color whose
channels are bytes is read back, and any color is read back as one with the same text. -/
theorem css_reads_back (c : Color) :
    (∃ digits, c.css.toList = '#' :: digits ∧ digits.length = 6 ∧
      ∀ digit ∈ digits, digit ∈ hexAlphabet) ∧
    (∃ n, bytes? c.css = some n ∧ ∀ k, IsChannelByte (c.get k) (n k)) ∧
    (∀ (d : Color) (j k), c.get j ≤ d.get k →
      ∃ m n, bytes? c.css = some m ∧ bytes? d.css = some n ∧ m j ≤ n k) ∧
    ((∀ k, ∃ n : Nat, n ≤ 255 ∧ value? (c.get k) = some (n : ℚ)) →
      ∃ d, ofCss? c.css = some d ∧ (d == c) = true) ∧
    ∃ d, ofCss? c.css = some d ∧ d.css = c.css := by
  refine ⟨⟨_, toList_css c, rfl, fun digit h => ?_⟩, ⟨_, bytes?_css c, fun k => ?_⟩,
    fun d j k h => ⟨_, _, bytes?_css c, bytes?_css d, ?_⟩,
    fun h => ⟨_, ofCss?_css c, beq_iff_get.2 fun k => ?_⟩, ⟨_, ofCss?_css c, css_congr fun k => ?_⟩⟩
  · simp only [List.mem_append] at h
    rcases h with h | h | h <;> exact mem_hexAlphabet_of_mem_hexByte h
  · exact isChannelByte_toByte (c.get k)
  · exact Fin.le_def.1 (toByte_le_toByte h)
  · obtain ⟨n, hn, hvalue⟩ := h k
    have hbyte : (toByte (c.get k) : Nat) = n := by
      have hnearest := (isChannelByte_toByte (c.get k)).of_finite n hvalue
      exact_mod_cast hnearest.eq_of_intCast (m := n) ⟨by omega, by omega⟩
    rw [get_ofBytes]
    exact beq_of_value?_eq (value?_ofInt_byte _) (hbyte ▸ hvalue)
  · rw [get_ofBytes, toByte_ofInt]

theorem css_reads_back_in_order :
    (∃ m n, bytes? (css ⟨255, 16, 0⟩) = some m ∧ bytes? (css ⟨410, 16.5, -20⟩) = some n ∧
      m .green ≤ n .green) ∧
    ∃ d, ofCss? (css ⟨255, 16, 0⟩) = some d ∧ (d == (⟨255, 16, 0⟩ : Color)) = true := by
  obtain ⟨-, -, hordered, hread, -⟩ := css_reads_back ⟨255, 16, 0⟩
  refine ⟨hordered ⟨410, 16.5, -20⟩ .green .green (by decide +kernel), hread fun k => ?_⟩
  cases k with
  | red => exact ⟨255, le_rfl, by decide +kernel⟩
  | green => exact ⟨16, by decide, by decide +kernel⟩
  | blue => exact ⟨0, by decide, by decide +kernel⟩

end Color

end StyleValues
