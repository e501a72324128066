import StyleValues.Builder.Basic
import StyleValues.Error
import StyleValues.Settings.Basic

/-!
# Functions on values

A function is called by name, with a number of arguments in a fixed range.

## Main definitions

* `ValueFunction.call`: counts the arguments, then evaluates the body.
-/

namespace StyleValues

/-- A function on values with its name and the range of its argument counts. -/
structure ValueFunction where
  name : String
  least : Nat
  most : Nat
  /-- The result, or nothing if an argument that it needs is absent. -/
  body : List Value → Settings → Option (Except Error Value)

namespace ValueFunction

/-- The function takes this number of arguments. There is none if `most < least`. -/
def Accepts (f : ValueFunction) (found : Nat) : Prop :=
  f.least ≤ found ∧ found ≤ f.most

instance (f : ValueFunction) (found : Nat) : Decidable (f.Accepts found) :=
  inferInstanceAs (Decidable (_ ∧ _))

def arityError (f : ValueFunction) (found : Nat) : Error :=
  .arity f.name f.least f.most found

/-- Evaluates the body if the number of arguments is right. -/
def call (f : ValueFunction) (args : List Value) (settings : Settings) : Except Error Value :=
  if f.Accepts args.length then
    (f.body args settings).getD (.error (f.arityError args.length))
  else .error (f.arityError args.length)

theorem call_of_not_accepts {f : ValueFunction} {args : List Value}
    (h : ¬ f.Accepts args.length) (settings : Settings) :
    f.call args settings = .error (f.arityError args.length) := by
  simp [call, h]

theorem call_of_accepts {f : ValueFunction} {args : List Value} {settings : Settings}
    {r : Except Error Value} (h : f.Accepts args.length) (hr : f.body args settings = some r) :
    f.call args settings = r := by
  simp [call, h, hr]

/-- The name and the range, as shown to those who look a function up. -/
def summary (f : ValueFunction) : String :=
  "ToolkitFunction \x7b name: \"" ++ f.name ++ "\", min_args: " ++ toString f.least ++
    ", max_args: " ++ toString f.most ++ ", .. \x7d"

end ValueFunction

end StyleValues
