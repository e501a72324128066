/-!
# Identifiers

Any text can be written as an identifier of a style sheet. Letters, digits, `_`, `-` and all
characters beyond ASCII stand for themselves, a control character is written in hexadecimal, and
any other character after a backslash. What could not start an identifier is escaped there.

## Main definitions

* `Identifier.encode`: the written form of a text.
* `Identifier.decode`: reads one identifier, up to an unescaped space.
-/

namespace StyleValues.Identifier

/-! ## Writing -/

/-- A backslash, the code point in lowercase hexadecimal, and a space that ends it. -/
def hexEscape (c : Char) : List Char :=
  '\\' :: Nat.toDigits 16 c.toNat ++ [' ']

/-- A character that stands for itself inside an identifier. -/
def isPlain (c : Char) : Bool :=
  c.isAlphanum || c == '_' || c == '-' || 0x80 ≤ c.toNat

def isControl (c : Char) : Bool :=
  c.toNat < 0x20 || c.toNat == 0x7f

/-- The null character cannot be written, and U+FFFD takes its place. -/
def encodeChar (c : Char) : List Char :=
  if c = '\x00' then ['\uFFFD']
  else if isPlain c then [c]
  else if isControl c then hexEscape c
  else ['\\', c]

/-- The characters after those that decide whether an identifier starts. -/
def encodeName (cs : List Char) : List Char :=
  cs.flatMap encodeChar

/-- A digit cannot come first, nor right after a first hyphen. -/
def encodeStart : List Char → List Char
  | [] => []
  | c :: cs => if c.isDigit then hexEscape c ++ encodeName cs else encodeName (c :: cs)

def encode : List Char → List Char
  | '-' :: '-' :: cs => '-' :: '-' :: encodeName cs
  | ['-'] => ['\\', '-']
  | '-' :: cs => '-' :: encodeStart cs
  | cs => encodeStart cs

/-! ## Reading -/

/-- The value of a hexadecimal digit. -/
def hexValue? (c : Char) : Option Nat :=
  if c.isDigit then some (c.toNat - '0'.toNat)
  else if 'a' ≤ c ∧ c ≤ 'f' then some (c.toNat - 'a'.toNat + 10)
  else if 'A' ≤ c ∧ c ≤ 'F' then some (c.toNat - 'A'.toNat + 10)
  else none

/-- The leading hexadecimal digits, at most `limit` of them, and what follows. -/
def hexDigits : Nat → List Char → List Nat × List Char
  | limit + 1, c :: cs =>
    match hexValue? c with
    | some d => let (ds, rest) := hexDigits limit cs; (d :: ds, rest)
    | none => ([], c :: cs)
  | _, cs => ([], cs)

theorem length_hexDigits_le (limit : Nat) (cs : List Char) :
    (hexDigits limit cs).2.length ≤ cs.length := by
  fun_induction hexDigits limit cs <;> grind

/-- One blank after the digits of an escape belongs to it. -/
def dropBlank : List Char → List Char
  | ' ' :: cs | '\t' :: cs | '\n' :: cs | '\r' :: cs | '\x0c' :: cs => cs
  | cs => cs

theorem length_dropBlank_le (cs : List Char) : (dropBlank cs).length ≤ cs.length := by
  unfold dropBlank
  split <;> simp

/-- The character that hexadecimal digits denote. A number that denotes none, and zero, give
U+FFFD. -/
def charOfHex (ds : List Nat) : Char :=
  let n := ds.foldl (fun n d => 16 * n + d) 0
  if n ≠ 0 ∧ n.isValidChar then Char.ofNat n else '\uFFFD'

/-- Reads an identifier and returns its text and what follows it. A backslash and one to six
hexadecimal digits denote a code point, a backslash and any other character that character, and
an unescaped space ends the identifier. -/
def decode : List Char → List Char × List Char
  | [] => ([], [])
  | ' ' :: cs => ([], ' ' :: cs)
  | '\\' :: c :: cs =>
    match _h : hexDigits 6 (c :: cs) with
    | ([], _) => let (name, rest) := decode cs; (c :: name, rest)
    | (d :: ds, after) =>
      let (name, rest) := decode (dropBlank after)
      (charOfHex (d :: ds) :: name, rest)
  | c :: cs => let (name, rest) := decode cs; (c :: name, rest)
termination_by cs => cs.length
decreasing_by
  all_goals simp only [List.length_cons]
  · omega
  · have := length_hexDigits_le 6 (c :: cs)
    have := length_dropBlank_le after
    simp_all
    omega
  · omega

end StyleValues.Identifier
