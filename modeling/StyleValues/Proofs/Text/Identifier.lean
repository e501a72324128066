import StyleValues.Proofs.Number.Digits
import StyleValues.Text.Identifier

/-!
# Identifier tokens

A text is written as one identifier token, and reading the token gives the text back, whatever
follows. Only the null character is lost, which has no written form.

## Main definitions

* `Identifier.IsToken`: the grammar of identifier tokens.
* `Identifier.decodeAll`: reads identifiers with a space between any two.

## Main results

* `Identifier.isToken_encode`: the written form of a text is an identifier token.
* `Identifier.decode_encode_append`: reading it gives the text and what follows.
* `Identifier.decodeAll_intercalate`: so do several written forms in turn.
-/

namespace StyleValues.Identifier

/-! ## The grammar of tokens -/

def isHexDigit (c : Char) : Bool := (hexValue? c).isSome

/-- The blanks that can end an escape. -/
def blanks : List Char := [' ', '\t', '\n', '\r', '\x0c']

/-- The characters that end a line. -/
def lineEnds : List Char := ['\n', '\r', '\x0c']

/-- A letter, `_`, or a character beyond ASCII. -/
def StartsName (c : Char) : Prop := c.isAlpha ∨ c = '_' ∨ 0x80 ≤ c.toNat

/-- A backslash with one to six hexadecimal digits and at most one blank, or with another character
that does not end the line. -/
inductive IsEscape : List Char → Prop
  | hex {ds bs : List Char} (hne : ds ≠ []) (hlength : ds.length ≤ 6)
    (hds : ∀ c ∈ ds, isHexDigit c) (hone : bs.length ≤ 1) (hbs : ∀ c ∈ bs, c ∈ blanks) :
    IsEscape ('\\' :: (ds ++ bs))
  | char {c : Char} (hhex : ¬ isHexDigit c) (hline : c ∉ lineEnds) : IsEscape ['\\', c]

/-- Escapes and characters that can stand for themselves inside an identifier. -/
inductive IsName : List Char → Prop
  | nil : IsName []
  | char {c : Char} {cs : List Char} (hc : StartsName c ∨ c.isDigit ∨ c = '-')
    (h : IsName cs) : IsName (c :: cs)
  | escape {e cs : List Char} (he : IsEscape e) (h : IsName cs) : IsName (e ++ cs)

/-- A name that starts with an escape, or with no digit and no hyphen. -/
inductive IsStart : List Char → Prop
  | char {c : Char} {cs : List Char} (hc : StartsName c) (h : IsName cs) : IsStart (c :: cs)
  | escape {e cs : List Char} (he : IsEscape e) (h : IsName cs) : IsStart (e ++ cs)

/-- An identifier token. A first hyphen needs a proper start after it, and two hyphens do not. -/
inductive IsToken : List Char → Prop
  | start {cs : List Char} (h : IsStart cs) : IsToken cs
  | hyphen {cs : List Char} (h : IsStart cs) : IsToken ('-' :: cs)
  | hyphens {cs : List Char} (h : IsName cs) : IsToken ('-' :: '-' :: cs)

variable {c : Char} {cs ds rest : List Char}

/-! ## Escapes -/

theorem hexValue?_digitChar : ∀ d < 16, hexValue? (Nat.digitChar d) = some d := by
  decide

theorem isHexDigit_of_mem_toDigits {n : Nat} (hc : c ∈ Nat.toDigits 16 n) : isHexDigit c := by
  obtain ⟨d, hd, rfl⟩ := exists_of_mem_toDigits (by decide) hc
  simp [isHexDigit, hexValue?_digitChar d hd]

theorem length_toDigits_toNat_le (c : Char) : (Nat.toDigits 16 c.toNat).length ≤ 6 := by
  rw [Nat.length_toDigits_le_iff (by decide) (by decide)]
  have hc := c.valid
  simp only [UInt32.isValidChar, Nat.isValidChar] at hc
  change c.val.toNat < _
  omega

theorem isEscape_hexEscape (c : Char) : IsEscape (hexEscape c) :=
  .hex Nat.toDigits_ne_nil (length_toDigits_toNat_le c) (fun _ hd => isHexDigit_of_mem_toDigits hd)
    (by simp) (by simp [blanks])

/-- What stands for itself includes all hexadecimal digits. -/
theorem not_isHexDigit_of_not_isPlain (h : ¬ isPlain c) : ¬ isHexDigit c := by
  simp only [isHexDigit, hexValue?, isPlain, Char.isAlphanum, Char.isAlpha, Char.isUpper,
    Char.isLower, Char.isDigit, Char.le_def] at h ⊢
  grind

theorem startsName_of_isPlain (h : isPlain c) : StartsName c ∨ c.isDigit ∨ c = '-' := by
  simp only [isPlain, Char.isAlphanum, StartsName] at h ⊢
  grind

/-- Control characters include the ends of lines. -/
theorem not_mem_lineEnds_of_not_isControl (h : ¬ isControl c) : c ∉ lineEnds := by
  intro hc
  simp only [lineEnds, List.mem_cons, List.not_mem_nil, or_false] at hc
  rcases hc with rfl | rfl | rfl <;> exact h rfl

/-! ## Writing gives tokens -/

/-- A character is written as itself, or as an escape. -/
theorem encodeChar_cases (c : Char) :
    (∃ d, encodeChar c = [d] ∧ (d = c ∨ StartsName d) ∧ (StartsName d ∨ d.isDigit ∨ d = '-')) ∨
      IsEscape (encodeChar c) := by
  unfold encodeChar
  split
  · have hstart : StartsName '\uFFFD' := .inr (.inr (by decide))
    exact .inl ⟨_, rfl, .inr hstart, .inl hstart⟩
  · split
    next hplain => exact .inl ⟨c, rfl, .inl rfl, startsName_of_isPlain hplain⟩
    next hplain =>
      split
      · exact .inr (isEscape_hexEscape c)
      next hcontrol =>
        exact .inr (.char (not_isHexDigit_of_not_isPlain hplain)
          (not_mem_lineEnds_of_not_isControl hcontrol))

theorem isName_encodeName (cs : List Char) : IsName (encodeName cs) := by
  induction cs with
  | nil => exact .nil
  | cons c cs ih =>
    rw [encodeName, List.flatMap_cons, ← encodeName]
    rcases encodeChar_cases c with ⟨d, hd, -, hname⟩ | hescape
    · rw [hd]
      exact .char hname ih
    · exact .escape hescape ih

theorem isStart_encodeStart (hc : c ≠ '-') (cs : List Char) : IsStart (encodeStart (c :: cs)) := by
  rw [encodeStart]
  split
  · exact .escape (isEscape_hexEscape c) (isName_encodeName cs)
  next hdigit =>
    rw [encodeName, List.flatMap_cons, ← encodeName]
    rcases encodeChar_cases c with ⟨d, hd, hstart, hname⟩ | hescape
    · rw [hd]
      exact .char (by grind) (isName_encodeName cs)
    · exact .escape hescape (isName_encodeName cs)

/-- The written form of a text is an identifier token. -/
theorem isToken_encode (h : cs ≠ []) : IsToken (encode cs) := by
  fun_cases encode cs with
  | case1 cs => exact .hyphens (isName_encodeName cs)
  | case2 => exact .start (.escape (.char (by decide) (by decide)) .nil)
  | case3 cs hhyphen hne =>
    obtain ⟨c, cs, rfl⟩ := List.exists_cons_of_ne_nil hne
    exact .hyphen (isStart_encodeStart (fun hc => hhyphen cs (by rw [hc])) cs)
  | case4 _ _ _ hhyphen =>
    obtain ⟨c, cs, rfl⟩ := List.exists_cons_of_ne_nil h
    exact .start (isStart_encodeStart (fun hc => hhyphen cs (by rw [hc])) cs)

/-! ## Reading -/

/-- What a character becomes in its written form. -/
def replaceNull (c : Char) : Char := if c = '\x00' then '\uFFFD' else c

@[simp] theorem decode_nil : decode [] = ([], []) := by
  rw [decode]

@[simp] theorem decode_space (cs : List Char) : decode (' ' :: cs) = ([], ' ' :: cs) := by
  rw [decode]

theorem decode_cons (hspace : c ≠ ' ') (hslash : c ≠ '\\') (cs : List Char) :
    decode (c :: cs) = ((decode cs).1.cons c, (decode cs).2) := by
  rw [decode] <;> grind

theorem hexDigits_append {limit : Nat} (hds : ∀ d ∈ ds, isHexDigit d)
    (hlength : ds.length ≤ limit) (hrest : ∀ d ∈ rest.head?, ¬ isHexDigit d) :
    hexDigits limit (ds ++ rest) = (ds.map fun d => (hexValue? d).getD 0, rest) := by
  induction ds generalizing limit with
  | nil =>
    cases rest with
    | nil => simp [hexDigits]
    | cons r rest =>
      have hr : hexValue? r = none := by simpa [isHexDigit] using hrest r rfl
      cases limit <;> simp [hexDigits, hr]
  | cons d ds ih =>
    obtain ⟨value, hd⟩ := Option.isSome_iff_exists.1 (hds d List.mem_cons_self)
    cases limit with
    | zero => simp at hlength
    | succ limit =>
      have htail : ∀ c ∈ ds, isHexDigit c := fun c hc => hds c (List.mem_cons_of_mem _ hc)
      have hrow := @ih limit htail (by simpa using hlength)
      simp [hexDigits, hd, hrow]

theorem decode_hex (hne : ds ≠ []) (hlength : ds.length ≤ 6) (hds : ∀ d ∈ ds, isHexDigit d)
    (hrest : ∀ d ∈ rest.head?, ¬ isHexDigit d) :
    decode ('\\' :: (ds ++ rest)) =
      ((decode (dropBlank rest)).1.cons (charOfHex (ds.map fun d => (hexValue? d).getD 0)),
        (decode (dropBlank rest)).2) := by
  have hdigits := hexDigits_append hds hlength hrest
  obtain ⟨d, ds, rfl⟩ := List.exists_cons_of_ne_nil hne
  rw [List.cons_append, decode]
  split <;> grind

theorem decode_char (hc : ¬ isHexDigit c) (cs : List Char) :
    decode ('\\' :: c :: cs) = ((decode cs).1.cons c, (decode cs).2) := by
  have hdigits : hexDigits 6 (c :: cs) = ([], c :: cs) := by
    grind [hexDigits, isHexDigit]
  rw [decode]
  split <;> grind

/-- Hexadecimal digits denote the character whose code point they are. -/
theorem charOfHex_toDigits (hc : c ≠ '\x00') :
    charOfHex ((Nat.toDigits 16 c.toNat).map fun d => (hexValue? d).getD 0) = c := by
  have hvalue : ((Nat.toDigits 16 c.toNat).map fun d => (hexValue? d).getD 0).foldl
      (fun n d => 16 * n + d) 0 = c.toNat := by
    rw [List.foldl_map]
    exact foldl_toDigits (by decide) (fun d hd => by simp [hexValue?_digitChar d hd]) _
  have hne : c.toNat ≠ 0 := by
    intro h
    exact hc (Char.toNat_inj.1 h)
  have hvalid : c.toNat.isValidChar := c.valid
  simp [charOfHex, hvalue, hne, hvalid]

theorem decode_hexEscape (hc : c ≠ '\x00') (rest : List Char) :
    decode (hexEscape c ++ rest) = ((decode rest).1.cons c, (decode rest).2) := by
  have hspace : ∀ d ∈ (' ' :: rest).head?, ¬ isHexDigit d := by simp [isHexDigit, hexValue?]
  have hhex := decode_hex Nat.toDigits_ne_nil (length_toDigits_toNat_le c)
    (fun _ hd => isHexDigit_of_mem_toDigits hd) hspace
  rw [charOfHex_toDigits hc] at hhex
  simpa [hexEscape, dropBlank] using hhex

theorem decode_encodeChar (c : Char) (rest : List Char) :
    decode (encodeChar c ++ rest) = ((decode rest).1.cons (replaceNull c), (decode rest).2) := by
  unfold encodeChar replaceNull
  split
  · exact decode_cons (by decide) (by decide) rest
  next hnull =>
    split
    next hplain =>
      refine decode_cons ?_ ?_ rest <;> rintro rfl <;> exact absurd hplain (by decide)
    next hplain =>
      split
      · exact decode_hexEscape hnull rest
      · exact decode_char (not_isHexDigit_of_not_isPlain hplain) rest

theorem decode_encodeName (cs rest : List Char) :
    decode (encodeName cs ++ rest) = (cs.map replaceNull ++ (decode rest).1, (decode rest).2) := by
  induction cs with
  | nil => rfl
  | cons c cs ih =>
    rw [encodeName, List.flatMap_cons, ← encodeName, List.append_assoc, decode_encodeChar, ih]
    rfl

theorem decode_encodeStart (cs rest : List Char) :
    decode (encodeStart cs ++ rest) = (cs.map replaceNull ++ (decode rest).1, (decode rest).2) := by
  cases cs with
  | nil => rfl
  | cons c cs =>
    rw [encodeStart]
    split
    next hdigit =>
      have hnull : c ≠ '\x00' := by
        rintro rfl
        exact absurd hdigit (by decide)
      rw [List.append_assoc, decode_hexEscape hnull, decode_encodeName]
      simp [replaceNull, hnull]
    · exact decode_encodeName (c :: cs) rest

/-- Reading an identifier gives its text, and leaves what follows to be read on. -/
theorem decode_encode_append (cs rest : List Char) :
    decode (encode cs ++ rest) = (cs.map replaceNull ++ (decode rest).1, (decode rest).2) := by
  have hhyphen (cs : List Char) :
      decode ('-' :: cs) = ((decode cs).1.cons '-', (decode cs).2) :=
    decode_cons (by decide) (by decide) cs
  fun_cases encode cs with
  | case1 cs =>
    rw [List.cons_append, List.cons_append, hhyphen, hhyphen, decode_encodeName]
    rfl
  | case2 => exact decode_char (by decide) rest
  | case3 cs =>
    rw [List.cons_append, hhyphen, decode_encodeStart]
    rfl
  | case4 => exact decode_encodeStart cs rest

/-! ## Several identifiers -/

theorem length_decode_le (cs : List Char) : (decode cs).2.length ≤ cs.length := by
  fun_induction decode cs with
  | case1 | case2 => simp
  | case3 c cs after h name rest hdecode ih => grind
  | case4 c cs d ds after h name rest hdecode ih =>
    have := length_hexDigits_le 6 (c :: cs)
    have := length_dropBlank_le after
    grind
  | case5 c cs hspace hslash name rest hdecode ih => grind

/-- Reads identifiers to the end of a text. An unescaped space ends one and starts another. -/
def decodeAll (cs : List Char) : List (List Char) :=
  match _h : decode cs with
  | (name, []) => [name]
  | (name, _ :: rest) => name :: decodeAll rest
termination_by cs.length
decreasing_by
  have := length_decode_le cs
  simp_all

theorem decodeAll_of_nil {name : List Char} (h : decode cs = (name, [])) :
    decodeAll cs = [name] := by
  rw [decodeAll]
  split <;> simp_all

theorem decodeAll_of_cons {name : List Char} (h : decode cs = (name, c :: rest)) :
    decodeAll cs = name :: decodeAll rest := by
  rw [decodeAll]
  split <;> simp_all

/-- Several texts, written with a space between any two, are read in turn. -/
theorem decodeAll_intercalate {names : List (List Char)} (h : names ≠ []) :
    decodeAll ([' '].intercalate (names.map encode)) = names.map (·.map replaceNull) := by
  induction names with
  | nil => exact absurd rfl h
  | cons name names ih =>
    cases names with
    | nil =>
      have hread := decode_encode_append name []
      simp only [List.append_nil, decode_nil] at hread
      simpa using decodeAll_of_nil hread
    | cons next names =>
      have hread := decode_encode_append name
        (' ' :: [' '].intercalate ((next :: names).map encode))
      simp only [decode_space, List.append_nil] at hread
      have hrest := ih (List.cons_ne_nil _ _)
      rw [List.map_cons, List.map_cons, List.intercalate_cons_cons, List.append_assoc,
        List.singleton_append, ← List.map_cons, decodeAll_of_cons hread, hrest]
      rfl

end StyleValues.Identifier
