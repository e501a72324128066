import StyleValues.Proofs.Conversion.Leaf
import StyleValues.Proofs.Traversal

/-!
# Conversion leaf by leaf

The conversion of a value is that of its leaves from left to right. It keeps the shape of the
value, and it fails as the leftmost leaf that fails on its own.

## Main results

* `Value.leafwise_of_toUnit_eq_ok`: what a conversion that succeeds does to the leaves.
* `Value.toUnit_eq_error_iff_firstError`: which error a conversion reports.
* `convert_leaf_by_leaf`: both, and when each of them happens.
-/

namespace StyleValues

namespace Value

variable {base : Float} {target : RelativeUnit} {v w : Value}

/-- Each leaf is replaced, at its path, by its own conversion. -/
theorem leafwise_of_toUnit_eq_ok (h : v.toUnit base target = .ok w) :
    Leafwise (fun l k => l.toUnit base target = .ok k) v w := by
  induction v generalizing w with
  | dimension d =>
    have hl := isLeaf_dimension d
    exact leafwise_of_isLeaf hl (isLeaf_of_toUnit_eq_ok hl h) h
  | keyword k =>
    have hl := isLeaf_keyword k
    exact leafwise_of_isLeaf hl (isLeaf_of_toUnit_eq_ok hl h) h
  | color c =>
    have hl := isLeaf_color c
    exact leafwise_of_isLeaf hl (isLeaf_of_toUnit_eq_ok hl h) h
  | composite vs ih =>
    rw [toUnit, toUnitAll_eq_mapM] at h
    cases hvs : vs.mapM (toUnit base target) with
    | error e => simp [hvs, Except.map] at h
    | ok ws =>
      obtain rfl : composite ws = w := by simpa [hvs, Except.map] using h
      refine leafwise_composite ?_
      have hall := (List.forall₂_and_left vs ws).2 ⟨ih, mapM_eq_ok_iff.1 hvs⟩
      exact hall.imp fun _ _ h => h.1 h.2

/-- A list fails as its first element that fails. -/
theorem composite_toUnit_eq_error_iff {vs : List Value} {e : Error} :
    (composite vs).toUnit base target = .error e ↔ FirstError (toUnit base target) vs e := by
  rw [← mapM_eq_error_iff, toUnit, toUnitAll_eq_mapM]
  cases vs.mapM (toUnit base target) <;> simp [Except.map]

/-- A value fails as its leftmost leaf that fails on its own. -/
theorem toUnit_eq_error_iff_firstError {e : Error} :
    v.toUnit base target = .error e ↔ FirstError (toUnit base target) v.leaves e := by
  induction v generalizing e with
  | dimension d => rw [leaves_of_isLeaf (isLeaf_dimension d), firstError_singleton]
  | keyword k => rw [leaves_of_isLeaf (isLeaf_keyword k), firstError_singleton]
  | color c => rw [leaves_of_isLeaf (isLeaf_color c), firstError_singleton]
  | composite vs ih =>
    rw [composite_toUnit_eq_error_iff, leaves_composite, firstError_flatMap fun v hv e => ih v hv]

theorem exists_toUnit_eq_ok_iff :
    (∃ w, v.toUnit base target = .ok w) ↔ ∀ l ∈ v.leaves, ∃ k, l.toUnit base target = .ok k := by
  rw [exists_ok_iff, forall_ok_iff]
  exact forall_congr' fun e => not_congr toUnit_eq_error_iff_firstError

end Value

variable {v : Value} {base? : Option Value} {target : RelativeUnit} {settings : Settings}

theorem convert_of_base {b : Float} (h : effectiveBase base? settings = .ok b) (v : Value) :
    convert v base? target settings = v.toUnit b target := by
  rw [convert, h]
  rfl

theorem convert_of_base_error {e : Error} (h : effectiveBase base? settings = .error e)
    (v : Value) : convert v base? target settings = .error e := by
  rw [convert, h]
  rfl

theorem convert_eq_ok_iff {w : Value} :
    convert v base? target settings = .ok w ↔
      ∃ b, effectiveBase base? settings = .ok b ∧ v.toUnit b target = .ok w := by
  cases hb : effectiveBase base? settings with
  | error e => simp [convert_of_base_error hb]
  | ok b => simp [convert_of_base hb]

/-- A base in error is reported whatever the value is. Under a base, a conversion succeeds if every
leaf converts on its own; then each leaf is replaced, at its path, by its own conversion. Otherwise
the error is that of the leftmost leaf that fails on its own, in one of the ways of `LeafFault`. -/
theorem convert_leaf_by_leaf (v : Value) (base? : Option Value) (target : RelativeUnit)
    (settings : Settings) :
    (∀ e, effectiveBase base? settings = .error e →
      convert v base? target settings = .error e) ∧
    ∀ b, effectiveBase base? settings = .ok b →
      ((∃ w, convert v base? target settings = .ok w) ↔
        ∀ l ∈ v.leaves, ∃ k, convert l base? target settings = .ok k) ∧
      (∀ w, convert v base? target settings = .ok w →
        v.Leafwise (fun l k => convert l base? target settings = .ok k) w) ∧
      (∀ e, convert v base? target settings = .error e ↔
        FirstError (fun l => convert l base? target settings) v.leaves e) ∧
      (∀ l ∈ v.leaves, ∀ e, convert l base? target settings = .error e ↔
        LeafFault b target l e) := by
  refine ⟨fun e he => convert_of_base_error he v, fun b hb => ?_⟩
  simp only [convert_of_base hb]
  refine ⟨Value.exists_toUnit_eq_ok_iff, fun w hw => Value.leafwise_of_toUnit_eq_ok hw,
    fun e => Value.toUnit_eq_error_iff_firstError, fun l hl e => ?_⟩
  exact Value.toUnit_eq_error_iff (Value.mem_leaves_iff.1 hl).1

/-- The base `0.5` is truncated to zero, and the length before the reference decides. -/
theorem convert_leaf_by_leaf_zero_base :
    effectiveBase (some (.dimension (.ofNumber 0.5))) {} = .ok 0 ∧
    convert (.composite [.keyword "AUTO", .composite [.dimension (.px 10), .composite []],
        .dimension (.reference "@x")]) (some (.dimension (.ofNumber 0.5))) .rem {} =
      .error .divisionByZero := by
  have hb : effectiveBase (some (.dimension (.ofNumber 0.5))) {} = .ok 0 := by decide +kernel
  have hlength : LeafFault 0 .rem (.dimension (.px 10)) .divisionByZero := by
    refine .division ⟨10, rfl, ?_, ?_⟩ (.inl rfl)
    · decide +kernel
    · decide
  have hall := (convert_leaf_by_leaf (.composite [.keyword "AUTO",
    .composite [.dimension (.px 10), .composite []], .dimension (.reference "@x")])
    (some (.dimension (.ofNumber 0.5))) .rem {}).2 0 hb
  refine ⟨hb, (hall.2.2.1 _).2 ⟨[.keyword "AUTO"], .dimension (.px 10),
    [.dimension (.reference "@x")], rfl, ?_, ?_⟩⟩
  · simp only [List.mem_singleton, forall_eq]
    exact ⟨.keyword "AUTO", convert_of_base hb _ ▸ Value.toUnit_of_normalLeaf (.keyword rfl)⟩
  · exact (hall.2.2.2 _ (by simp [Value.leaves]) _).2 hlength

end StyleValues
