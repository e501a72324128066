import Mathlib

/-!
# Traversals that can fail

A traversal of a list succeeds with the results of all elements, or fails as the leftmost element
that fails does.

## Main definitions

* `FirstError`: the error of the leftmost element that fails.
-/

namespace StyleValues

variable {ε α β : Type} {f : α → Except ε β} {xs ys : List α} {e : ε}

/-- All elements before some element succeed, and that one fails with `e`. -/
def FirstError (f : α → Except ε β) (xs : List α) (e : ε) : Prop :=
  ∃ before x after, xs = before ++ x :: after ∧ (∀ y ∈ before, ∃ z, f y = .ok z) ∧ f x = .error e

@[simp] theorem not_firstError_nil : ¬ FirstError f [] e := by
  simp [FirstError]

theorem firstError_cons {x : α} :
    FirstError f (x :: xs) e ↔ f x = .error e ∨ (∃ z, f x = .ok z) ∧ FirstError f xs e := by
  constructor
  · rintro ⟨before, y, after, hxs, hbefore, hy⟩
    cases before with
    | nil =>
      obtain ⟨rfl, rfl⟩ := List.cons.inj hxs
      exact .inl hy
    | cons b before =>
      obtain ⟨rfl, rfl⟩ := List.cons.inj hxs
      have hrest := fun y hm => hbefore y (List.mem_cons_of_mem _ hm)
      exact .inr ⟨hbefore _ List.mem_cons_self, before, y, after, rfl, hrest, hy⟩
  · rintro (hx | ⟨hx, before, y, after, rfl, hbefore, hy⟩)
    · exact ⟨[], x, xs, rfl, by simp, hx⟩
    · exact ⟨x :: before, y, after, rfl, by simpa using ⟨hx, hbefore⟩, hy⟩

theorem firstError_singleton {x : α} : FirstError f [x] e ↔ f x = .error e := by
  simp [firstError_cons]

theorem firstError_append :
    FirstError f (xs ++ ys) e ↔
      FirstError f xs e ∨ (∀ x ∈ xs, ∃ z, f x = .ok z) ∧ FirstError f ys e := by
  induction xs with
  | nil => simp
  | cons x xs ih =>
    rw [List.cons_append, firstError_cons, firstError_cons, ih]
    simp only [List.mem_cons, forall_eq_or_imp]
    tauto

theorem exists_ok_iff {r : Except ε β} : (∃ z, r = .ok z) ↔ ∀ e, r ≠ .error e := by
  cases r <;> simp

/-- All elements succeed unless there is a first error. -/
theorem forall_ok_iff : (∀ x ∈ xs, ∃ z, f x = .ok z) ↔ ∀ e, ¬ FirstError f xs e := by
  induction xs with
  | nil => simp
  | cons x xs ih =>
    simp only [List.forall_mem_cons, firstError_cons, not_or, forall_and, ih]
    rw [exists_ok_iff]
    constructor
    · exact fun ⟨hx, hxs⟩ => ⟨hx, fun e h => hxs e h.2⟩
    · exact fun ⟨hx, hxs⟩ => ⟨hx, fun e h => hxs e ⟨hx, h⟩⟩

/-- Elements can be replaced by lists of their parts that fail as they do. -/
theorem firstError_flatMap {g : α → List α}
    (h : ∀ x ∈ xs, ∀ e, f x = .error e ↔ FirstError f (g x) e) :
    FirstError f (xs.flatMap g) e ↔ FirstError f xs e := by
  induction xs with
  | nil => simp
  | cons x xs ih =>
    have hx := h x List.mem_cons_self
    have hok : (∀ y ∈ g x, ∃ z, f y = .ok z) ↔ ∃ z, f x = .ok z := by
      rw [forall_ok_iff, exists_ok_iff]
      exact forall_congr' fun e => not_congr (hx e).symm
    rw [List.flatMap_cons, firstError_append, firstError_cons, hok, ← hx,
      ih fun y hy => h y (List.mem_cons_of_mem _ hy)]

/-- Traversals have the same first error if their elements fail alike. -/
theorem firstError_congr {γ : Type} {g : γ → Except ε β} {zs : List γ}
    (h : List.Forall₂ (fun x z => ∀ e, f x = .error e ↔ g z = .error e) xs zs) :
    FirstError f xs e ↔ FirstError g zs e := by
  induction h with
  | nil => simp
  | cons hxz _ ih =>
    have hok := forall_congr' fun e => not_congr (hxz e)
    rw [firstError_cons, firstError_cons, exists_ok_iff, exists_ok_iff, hok, hxz, ih]

/-! ## Traversals of lists -/

theorem mapM_eq_error_iff : xs.mapM f = .error e ↔ FirstError f xs e := by
  induction xs with
  | nil => simp [pure, Except.pure]
  | cons x xs ih =>
    rw [firstError_cons, ← ih, List.mapM_cons]
    cases f x with
    | error d => simp [bind, Except.bind]
    | ok z => cases xs.mapM f <;> simp [bind, Except.bind, pure, Except.pure]

theorem mapM_eq_ok_iff {zs : List β} :
    xs.mapM f = .ok zs ↔ List.Forall₂ (fun x z => f x = .ok z) xs zs := by
  induction xs generalizing zs with
  | nil => simp [pure, Except.pure, eq_comm]
  | cons x xs ih =>
    simp only [List.forall₂_cons_left_iff, ← ih, List.mapM_cons]
    cases f x with
    | error d => simp [bind, Except.bind]
    | ok z => cases xs.mapM f <;> simp [bind, Except.bind, pure, Except.pure, eq_comm]

end StyleValues
