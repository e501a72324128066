/-!
# Settings

The settings under which functions are evaluated.
-/

namespace StyleValues

/-- The size in pixels that one relative unit stands for, unless a call gives its own. -/
structure Settings where
  basePx : Float := 16

/-- Settings are compared as their numbers are. -/
instance : BEq Settings where
  beq a b := a.basePx == b.basePx

end StyleValues
