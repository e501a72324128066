import StyleValues.Proofs.Number.Comparison
import StyleValues.Proofs.Value.Paths
import StyleValues.Value.Equality

/-!
# Values equal to themselves

A value equals itself as values are compared if each of its leaves does. A dimension equals
itself unless its magnitude is NaN.

## Main definitions

* `Value.HasNaNMagnitude`: some dimension inside a value has NaN as its magnitude.
-/

namespace StyleValues.Value

/-- Some dimension inside the value has NaN as its magnitude. -/
def HasNaNMagnitude (v : Value) : Prop :=
  ∃ x u, dimension ⟨.number x, u⟩ ∈ v.leaves ∧ x.isNaN = true

theorem list_beq_self_iff {vs : List Value} : (vs == vs) = true ↔ ∀ v ∈ vs, (v == v) = true := by
  induction vs with
  | nil => simp
  | cons v vs ih => rw [List.cons_beq_cons, Bool.and_eq_true, ih, List.forall_mem_cons]

theorem beq_self_iff {v : Value} : (v == v) = true ↔ ∀ l ∈ v.leaves, (l == l) = true := by
  induction v with
  | dimension d => simp [leaves_of_isLeaf (isLeaf_dimension d)]
  | keyword k => simp [leaves_of_isLeaf (isLeaf_keyword k)]
  | color c => simp [leaves_of_isLeaf (isLeaf_color c)]
  | composite vs ih =>
    rw [composite_beq_composite, list_beq_self_iff, leaves_composite]
    constructor
    · intro h l hl
      obtain ⟨v, hv, hl⟩ := List.mem_flatMap.1 hl
      exact (ih v hv).1 (h v hv) l hl
    · intro h v hv
      exact (ih v hv).2 fun l hl => h l (List.mem_flatMap.2 ⟨v, hv, hl⟩)

theorem keyword_beq_self (k : String) : (keyword k == keyword k) = true := by
  change (k == k) = true
  exact beq_self_eq_true k

theorem dimension_beq_self_iff {m : Magnitude} {u : Units} :
    (dimension ⟨m, u⟩ == dimension ⟨m, u⟩) = true ↔ ∀ x, m = .number x → x.isNaN = false := by
  change (m.beq m && u == u) = true ↔ _
  cases m with
  | number x => simp [Magnitude.beq]
  | auto => simp [Magnitude.beq]
  | reference name => simp [Magnitude.beq]

end StyleValues.Value
