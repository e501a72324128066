import Mathlib
import StyleValues.Value.Basic

/-!
# Paths into values

A path names what stands inside a value by the index of an element at each level. Two values
have the same shape if they hold lists at the same paths, with as many elements.

## Main definitions

* `Value.at?`: what stands at a path.
* `Value.SameShape`: equality of shapes.
* `Value.Leafwise`: equality of shapes, with related leaves at the same paths.
-/

namespace StyleValues.Value

/-- What stands at a path, if anything does. -/
def at? : Value → List Nat → Option Value
  | v, [] => some v
  | .composite vs, i :: path => vs[i]?.bind fun v => v.at? path
  | _, _ :: _ => none

/-- The number of elements of a list. A leaf has none. -/
def elementCount? : Value → Option Nat
  | .composite vs => some vs.length
  | _ => none

def IsLeaf (v : Value) : Prop := v.elementCount? = none

/-- Lists stand at the same paths, with as many elements. -/
def SameShape (v w : Value) : Prop :=
  ∀ path, (v.at? path).map elementCount? = (w.at? path).map elementCount?

/-- The leaves at the same paths of two values of the same shape are related. -/
structure Leafwise (R : Value → Value → Prop) (v w : Value) : Prop where
  shape : SameShape v w
  leaf : ∀ path l, v.at? path = some l → l.IsLeaf → ∃ k, w.at? path = some k ∧ R l k

/-! ## Leaves -/

@[simp] theorem isLeaf_dimension (d : Dimension) : (dimension d).IsLeaf := rfl

@[simp] theorem isLeaf_keyword (name : String) : (keyword name).IsLeaf := rfl

@[simp] theorem isLeaf_color (c : Color) : (color c).IsLeaf := rfl

@[simp] theorem not_isLeaf_composite (vs : List Value) : ¬ (composite vs).IsLeaf := nofun

theorem leaves_of_isLeaf {v : Value} (h : v.IsLeaf) : v.leaves = [v] := by
  cases v with
  | composite vs => exact absurd h (not_isLeaf_composite vs)
  | _ => rfl

@[simp] theorem leaves_composite (vs : List Value) :
    (composite vs).leaves = vs.flatMap leaves := by
  rw [leaves, leavesOf_eq_flatMap]

@[simp] theorem at?_nil (v : Value) : v.at? [] = some v := by
  cases v <;> rfl

@[simp] theorem at?_composite_cons (vs : List Value) (i : Nat) (path : List Nat) :
    (composite vs).at? (i :: path) = vs[i]?.bind fun v => v.at? path := rfl

theorem at?_cons_of_isLeaf {v : Value} (h : v.IsLeaf) (i : Nat) (path : List Nat) :
    v.at? (i :: path) = none := by
  cases v with
  | composite vs => exact absurd h (not_isLeaf_composite vs)
  | _ => rfl

/-- A path can be followed in two parts. -/
theorem at?_append (v : Value) (path more : List Nat) :
    v.at? (path ++ more) = (v.at? path).bind fun w => w.at? more := by
  induction path generalizing v with
  | nil => simp
  | cons i path ih =>
    cases v with
    | composite vs => simp [at?_composite_cons, ih, Option.bind_assoc]
    | _ => rfl

/-- Whatever stands inside of a value is an element of a list. -/
theorem exists_list_of_at?_isSome {v : Value} {path : List Nat} (hne : path ≠ [])
    (h : (v.at? path).isSome) :
    ∃ parent i vs, path = parent ++ [i] ∧ v.at? parent = some (.composite vs) ∧ i < vs.length := by
  obtain ⟨parent, i, rfl⟩ := (List.eq_nil_or_concat path).resolve_left hne
  rw [List.concat_eq_append, at?_append] at h
  cases hparent : v.at? parent with
  | none => simp [hparent] at h
  | some w =>
    cases w with
    | composite vs =>
      refine ⟨parent, i, vs, List.concat_eq_append, hparent, ?_⟩
      simpa [hparent] using h
    | _ => simp [hparent, at?] at h

/-- The leaves are what stands at some path and is no list. -/
theorem mem_leaves_iff {v l : Value} : l ∈ v.leaves ↔ l.IsLeaf ∧ ∃ path, v.at? path = some l := by
  have leaf {v : Value} (hv : v.IsLeaf) :
      l ∈ v.leaves ↔ l.IsLeaf ∧ ∃ path, v.at? path = some l := by
    rw [leaves_of_isLeaf hv, List.mem_singleton]
    constructor
    · rintro rfl
      exact ⟨hv, [], at?_nil l⟩
    · rintro ⟨-, path, hp⟩
      cases path with
      | nil => simpa using hp.symm
      | cons i path => simp [at?_cons_of_isLeaf hv] at hp
  induction v with
  | dimension d => exact leaf (isLeaf_dimension d)
  | keyword k => exact leaf (isLeaf_keyword k)
  | color c => exact leaf (isLeaf_color c)
  | composite vs ih =>
    rw [leaves_composite, List.mem_flatMap]
    constructor
    · rintro ⟨v, hv, hl⟩
      obtain ⟨hl, path, hp⟩ := (ih v hv).1 hl
      obtain ⟨i, hi⟩ := List.mem_iff_getElem?.1 hv
      exact ⟨hl, i :: path, by simp [hi, hp]⟩
    · rintro ⟨hl, path, hp⟩
      cases path with
      | nil =>
        rw [at?_nil, Option.some.injEq] at hp
        exact absurd (hp ▸ hl) (not_isLeaf_composite vs)
      | cons i path =>
        obtain ⟨v, hi, hp⟩ := Option.bind_eq_some_iff.1 hp
        have hv := List.mem_of_getElem? hi
        exact ⟨v, hv, (ih v hv).2 ⟨hl, path, hp⟩⟩

/-! ## Shapes -/

theorem SameShape.isLeaf_iff {v w : Value} (h : SameShape v w) {path : List Nat} {l k : Value}
    (hl : v.at? path = some l) (hk : w.at? path = some k) : l.IsLeaf ↔ k.IsLeaf := by
  have hlk : l.elementCount? = k.elementCount? := by simpa [hl, hk] using h path
  rw [IsLeaf, IsLeaf, hlk]

variable {R : Value → Value → Prop}

/-- Every leaf on the right stands where there is a related one on the left. -/
theorem Leafwise.exists_left {v w k : Value} {path : List Nat} (h : Leafwise R v w)
    (hk : w.at? path = some k) (hleaf : k.IsLeaf) :
    ∃ l, v.at? path = some l ∧ l.IsLeaf ∧ R l k := by
  obtain ⟨l, hl, -⟩ : ∃ l, v.at? path = some l ∧ l.elementCount? = k.elementCount? := by
    simpa [hk] using h.shape path
  have hlleaf := (h.shape.isLeaf_iff hl hk).2 hleaf
  obtain ⟨k', hk', hlk⟩ := h.leaf path l hl hlleaf
  obtain rfl : k = k' := by simpa [hk] using hk'
  exact ⟨l, hl, hlleaf, hlk⟩

theorem Leafwise.exists_of_mem_leaves {v w k : Value} (h : Leafwise R v w) (hk : k ∈ w.leaves) :
    ∃ l ∈ v.leaves, R l k := by
  obtain ⟨hleaf, path, hk⟩ := mem_leaves_iff.1 hk
  obtain ⟨l, hl, hlleaf, hlk⟩ := h.exists_left hk hleaf
  exact ⟨l, mem_leaves_iff.2 ⟨hlleaf, path, hl⟩, hlk⟩

theorem leafwise_of_isLeaf {v w : Value} (hv : v.IsLeaf) (hw : w.IsLeaf) (h : R v w) :
    Leafwise R v w := by
  constructor
  · intro path
    cases path with
    | nil => simp [show v.elementCount? = none from hv, show w.elementCount? = none from hw]
    | cons i path => rw [at?_cons_of_isLeaf hv, at?_cons_of_isLeaf hw]
  · intro path l hl _
    cases path with
    | nil =>
      obtain rfl : v = l := by simpa using hl
      exact ⟨w, at?_nil w, h⟩
    | cons i path => simp [at?_cons_of_isLeaf hv] at hl

/-- Elements at the same index are related, and none is missing. -/
theorem getElem?_of_forall₂ {α β : Type} {R : α → β → Prop} {xs : List α} {ys : List β}
    (h : List.Forall₂ R xs ys) (i : Nat) :
    xs[i]? = none ∧ ys[i]? = none ∨ ∃ x y, xs[i]? = some x ∧ ys[i]? = some y ∧ R x y := by
  induction h generalizing i with
  | nil => simp
  | cons hxy _ ih =>
    cases i with
    | zero => exact .inr ⟨_, _, rfl, rfl, hxy⟩
    | succ i => exact ih i

theorem leafwise_composite {vs ws : List Value} (h : List.Forall₂ (Leafwise R) vs ws) :
    Leafwise R (composite vs) (composite ws) := by
  constructor
  · intro path
    cases path with
    | nil => simp [elementCount?, h.length_eq]
    | cons i path =>
      rcases getElem?_of_forall₂ h i with ⟨hv, hw⟩ | ⟨v, w, hv, hw, hvw⟩
      · simp [hv, hw]
      · simpa [hv, hw] using hvw.shape path
  · intro path l hl hleaf
    cases path with
    | nil =>
      rw [at?_nil, Option.some.injEq] at hl
      exact absurd (hl ▸ hleaf) (not_isLeaf_composite vs)
    | cons i path =>
      obtain ⟨v, hi, hl⟩ := Option.bind_eq_some_iff.1 hl
      rcases getElem?_of_forall₂ h i with ⟨hv, -⟩ | ⟨v', w, hv, hw, hvw⟩
      · simp [hv] at hi
      · obtain rfl : v = v' := by simpa [hv] using hi.symm
        obtain ⟨k, hk, hlk⟩ := hvw.leaf path l hl hleaf
        exact ⟨k, by simp [hw, hk], hlk⟩

end StyleValues.Value
