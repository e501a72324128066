import StyleValues.Error
import StyleValues.Number.Numeral
import StyleValues.Number.Rounding
import StyleValues.Settings.Basic
import StyleValues.Text.Blank
import StyleValues.Text.Tokens

/-!
# Option strings

Settings can be given as text: assignments `base-px=<integer>`, separated by commas or blanks.
Later assignments win over earlier ones, and the first token that is none is reported.

## Main definitions

* `baseAssigned`: the base that one token assigns.
* `Settings.ofOptions`: the settings that an option string describes.
* `SettingsSource`: the ways in which settings can be given.
-/

namespace StyleValues

/-- The key of the only option. -/
def baseOption : String := "base-px"

def isOptionSeparator (c : Char) : Bool :=
  c == ',' || isBlank c

/-- The base that a token assigns. Blanks around the key and the value do not count. An unknown key
is quoted alone, and otherwise the whole token. -/
def baseAssigned (token : List Char) : Except Error Int :=
  match token.span (· != '=') with
  | (_, []) => .error (.invalidOption (String.ofList token) .noEqualsSign)
  | (key, _ :: value) =>
    if trim key = baseOption.toList then
      match wordOfText? (trim value) with
      | some n => .ok n
      | none => .error (.invalidOption (String.ofList token) .baseNotInteger)
    else .error (.invalidOption (String.ofList (trim key)) .unknownKey)

/-- Applies assignments in turn, up to the first token that is none. -/
def Settings.assign (s : Settings) : List (List Char) → Except Error Settings
  | [] => .ok s
  | t :: ts =>
    match baseAssigned t with
    | .ok n => assign { s with basePx := Number.ofInt n } ts
    | .error e => .error e

/-- The settings that an option string describes. -/
def Settings.ofOptions (options : String) : Except Error Settings :=
  ({} : Settings).assign (tokens isOptionSeparator options.toList)

/-- A base, an option string, or neither. -/
inductive SettingsSource
  | px (x : Float)
  | options (text : String)
  | default

def SettingsSource.settings : SettingsSource → Except Error Settings
  | .px x => .ok { basePx := x }
  | .options text => Settings.ofOptions text
  | .default => .ok {}

end StyleValues
