import StyleValues.Builder.Basic
import StyleValues.Value.Css

/-!
# Building texts

Two builders of texts. One writes what a style sheet holds, and the other makes the lists visible
and shows channels as they are.
-/

namespace StyleValues.Builder

/-- The text of a style sheet, put together from the texts of the elements. -/
def css : Builder Id String where
  dimension d := d.css
  keyword k := keywordCss k
  composite texts := " ".intercalate texts
  color c := c.css

/-- Dimensions with their leading unit, lists in parentheses, and channels as numbers. -/
def outline : Builder Id String where
  dimension d := d.label
  keyword k := k
  composite texts := "(" ++ " ".intercalate texts ++ ")"
  color c :=
    "rgb(" ++ ", ".intercalate ([c.red, c.green, c.blue].map Number.text) ++ ")"

end StyleValues.Builder
