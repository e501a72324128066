import StyleValues.Number.Text
import StyleValues.Number.Rounding
import StyleValues.Number.Numeral
import StyleValues.Text.Ascii
import StyleValues.Text.Blank
import StyleValues.Text.Tokens
import StyleValues.Text.Identifier
import StyleValues.Value.Equality
import StyleValues.Value.Css
import StyleValues.Settings.Options
import StyleValues.Conversion
import StyleValues.Blend
import StyleValues.Builder.Text
import StyleValues.Builder.Record
import StyleValues.Function.Builtin
import StyleValues.Session.Step
import StyleValues.Session.WellFormed
import StyleValues.Proofs.Conversion.Chain
import StyleValues.Proofs.Session.Sharing
import StyleValues.Proofs.Number.Value
import StyleValues.Proofs.Number.Nearest
import StyleValues.Proofs.Number.Integer
import StyleValues.Proofs.Number.Truncation
import StyleValues.Proofs.Number.Numeral
import StyleValues.Proofs.Text.Tokens
import StyleValues.Proofs.Settings.Grammar
import StyleValues.Proofs.Settings.WordBase
import StyleValues.Proofs.Session.Isolation
import StyleValues.Proofs.Session.Routes
import StyleValues.Proofs.Number.Digits
import StyleValues.Proofs.Text.Identifier
import StyleValues.Proofs.Value.Keywords
import StyleValues.Proofs.Session.Actions
import StyleValues.Proofs.Session.Frame
import StyleValues.Proofs.Function.Lookup
import StyleValues.Proofs.Session.Host
import StyleValues.Proofs.Number.Fraction
import StyleValues.Proofs.Number.Positional
import StyleValues.Proofs.Number.Text
import StyleValues.Proofs.Value.Dimension
import StyleValues.Proofs.Conversion.Base
import StyleValues.Proofs.Conversion.Target
import StyleValues.Proofs.Value.Frontier
import StyleValues.Proofs.Builder.Record
import StyleValues.Proofs.Builder.Universal
import StyleValues.Proofs.Number.Order
import StyleValues.Proofs.Number.Arithmetic
import StyleValues.Proofs.Number.Byte
import StyleValues.Proofs.Value.Color
import StyleValues.Proofs.Value.Blend
import StyleValues.Proofs.Value.Equality
import StyleValues.Proofs.Conversion.Equality
import StyleValues.Proofs.Function.Arity
import StyleValues.Proofs.Session.Calls
