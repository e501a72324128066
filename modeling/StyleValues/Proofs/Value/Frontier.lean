import StyleValues.Builder.Text

/-!
# The frontier of a value

The text of a value shows what stands at its frontier, and not how that is nested. It can be written
from left to right or put together from the texts of the elements.

## Main definitions

* `Value.frontier`: the leaves and the empty lists of a value, from left to right.
* `Value.itemText`: the text of one of them.

## Main results

* `Builder.build_css`: the text is put together from the texts of the elements.
* `Value.css_of_frontier`: the text is that of the frontier.
-/

namespace StyleValues

/-- Joining texts that have been joined before is joining all of them. -/
theorem intercalate_flatMap {α : Type} (separator : String) {f : α → List String} {xs : List α}
    (h : ∀ x ∈ xs, f x ≠ []) :
    separator.intercalate (xs.flatMap f) =
      separator.intercalate (xs.map fun x => separator.intercalate (f x)) := by
  induction xs with
  | nil => rfl
  | cons x xs ih =>
    have hx := h x List.mem_cons_self
    have ih := ih fun y hy => h y (List.mem_cons_of_mem x hy)
    cases xs with
    | nil => simp
    | cons y ys =>
      have hne : (y :: ys).flatMap f ≠ [] := by simp [h y (by simp)]
      rw [List.flatMap_cons, String.intercalate_append_of_ne_nil hx hne, ih]
      exact (String.intercalate_cons_of_ne_nil (by simp)).symm

/-- A text is put together from the texts of the elements. -/
theorem Builder.build_css (v : Value) : Builder.css.build v = v.css := by
  induction v with
  | dimension d => simp [build, css, Value.css, Value.write]
  | keyword k => simp [build, css, Value.css, Value.write]
  | color c => simp [build, css, Value.css, Value.write]
  | composite vs ih =>
    have hall : Builder.css.buildAll vs = vs.map Value.css := by
      rw [buildAll_eq_map]
      exact List.map_congr_left ih
    rw [Value.css_composite, ← hall]
    rfl

namespace Value

mutual

/-- The leaves and the empty lists, from left to right. -/
def frontier : Value → List Value
  | .composite [] => [.composite []]
  | .composite (v :: vs) => v.frontier ++ frontierOf vs
  | v => [v]

/-- The frontier of each value in turn. -/
def frontierOf : List Value → List Value
  | [] => []
  | v :: vs => v.frontier ++ frontierOf vs

end

/-- The text of a leaf. An empty list has none. -/
def itemText : Value → String
  | .dimension d => d.css
  | .keyword k => keywordCss k
  | .color c => c.css
  | .composite _ => ""

theorem frontierOf_eq_flatMap (vs : List Value) : frontierOf vs = vs.flatMap frontier := by
  induction vs with
  | nil => rfl
  | cons v vs ih => rw [frontierOf, ih, List.flatMap_cons]

theorem frontier_composite_of_ne_nil {vs : List Value} (h : vs ≠ []) :
    (composite vs).frontier = vs.flatMap frontier := by
  cases vs with
  | nil => exact absurd rfl h
  | cons v vs => rw [frontier, frontierOf_eq_flatMap, List.flatMap_cons]

/-- No value disappears from a frontier, so no space does. -/
theorem frontier_ne_nil (v : Value) : v.frontier ≠ [] := by
  induction v with
  | dimension d => simp [frontier]
  | keyword k => simp [frontier]
  | color c => simp [frontier]
  | composite vs ih =>
    cases vs with
    | nil => simp [frontier]
    | cons v vs =>
      rw [frontier]
      exact List.append_ne_nil_of_left_ne_nil (ih v List.mem_cons_self) _

/-- The text of a value is that of its frontier, with a space between any two items. -/
theorem css_eq_intercalate (v : Value) :
    v.css = " ".intercalate (v.frontier.map itemText) := by
  induction v with
  | dimension d => simp [css, write, frontier, itemText]
  | keyword k => simp [css, write, frontier, itemText]
  | color c => simp [css, write, frontier, itemText]
  | composite vs ih =>
    rw [css_composite]
    cases vs with
    | nil => simp [frontier, itemText]
    | cons v vs =>
      rw [frontier_composite_of_ne_nil (List.cons_ne_nil v vs), List.map_flatMap,
        intercalate_flatMap _ fun w _ => by simpa using frontier_ne_nil w,
        List.map_congr_left ih]

/-- The text of a value is the one put together from the texts of its elements, whatever has been
written before. It is that of the frontier, with a space between any two items, so that values with
the same frontier have the same text. -/
theorem css_of_frontier (v : Value) :
    (∀ out, v.write out = out ++ (Builder.css.build v).run) ∧
    v.css = (Builder.css.build v).run ∧
    v.css = " ".intercalate (v.frontier.map itemText) ∧
    ∀ w : Value, v.frontier = w.frontier → v.css = w.css := by
  refine ⟨fun out => ?_, (Builder.build_css v).symm, css_eq_intercalate v, fun w h => ?_⟩
  · rw [write_eq_append, Builder.build_css]
    rfl
  · rw [css_eq_intercalate, css_eq_intercalate, h]

/-- Two ways to nest a keyword between empty lists. -/
theorem css_of_frontier_nested :
    frontier (.composite [.composite [.composite [], .keyword "auto"], .composite []]) =
      frontier (.composite [.composite [.composite []],
        .composite [.keyword "auto", .composite []]]) ∧
    css (.composite [.composite [.composite [], .keyword "auto"], .composite []]) =
      css (.composite [.composite [.composite []],
        .composite [.keyword "auto", .composite []]]) ∧
    css (.composite [.composite [.composite [], .keyword "auto"], .composite []]) = " auto " :=
  ⟨rfl, (css_of_frontier _).2.2.2 _ rfl, by decide⟩

end Value

end StyleValues
