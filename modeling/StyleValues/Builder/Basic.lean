import StyleValues.Value.Basic

/-!
# Rebuilding values

A value is rebuilt with other constructors, which may have effects. Elements are built from left
to right, and a list after its elements.

## Main definitions

* `Builder`: one constructor for each shape of a value.
* `Builder.build`: a value rebuilt.
-/

namespace StyleValues

/-- Constructors for `α` with effects in `m`. -/
structure Builder (m : Type → Type) (α : Type) where
  dimension : Dimension → m α
  keyword : String → m α
  /-- Puts elements that are built already into a list. -/
  composite : List α → m α
  color : Color → m α

namespace Builder

variable {m : Type → Type} {α : Type} [Monad m]

mutual

/-- Rebuilds a value, children first. -/
def build (b : Builder m α) : Value → m α
  | .dimension d => b.dimension d
  | .keyword k => b.keyword k
  | .color c => b.color c
  | .composite vs => do b.composite (← b.buildAll vs)

/-- Rebuilds each value in turn. -/
def buildAll (b : Builder m α) : List Value → m (List α)
  | [] => pure []
  | v :: vs => do
    let x ← b.build v
    let xs ← b.buildAll vs
    return x :: xs

end

/-- Without effects, the elements are built independently. -/
theorem buildAll_eq_map (b : Builder Id α) (vs : List Value) :
    b.buildAll vs = vs.map b.build := by
  induction vs with
  | nil => rfl
  | cons v vs ih =>
    rw [List.map_cons, ← ih]
    rfl

end Builder

/-- Builds the value itself. -/
def Builder.tree : Builder Id Value where
  dimension d := .dimension d
  keyword k := .keyword k
  composite vs := .composite vs
  color c := .color c

@[simp] theorem Builder.build_tree (v : Value) : tree.build v = v := by
  induction v with
  | dimension d => rfl
  | keyword k => rfl
  | color c => rfl
  | composite vs ih =>
    have hall : tree.buildAll vs = vs := by
      rw [buildAll_eq_map, List.map_congr_left ih, List.map_id']
    exact congrArg Value.composite hall

end StyleValues
