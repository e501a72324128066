import Mathlib
import StyleValues.Function.Builtin

/-!
# Counting arguments

The body of a function looks its arguments up by index. It is evaluated only if the function accepts
the number of arguments, and the built-in functions accept only numbers at which all arguments that
they need are there.

## Main definitions

* `ValueFunction.Requires`: nothing results without an argument at an index.
* `ValueFunction.Guarded`: whether a call evaluates the body, and what it gives otherwise.
* `ValueFunction.InBounds`: the body finds all arguments that it looks for.

## Main results

* `ValueFunction.guarded`: the number of arguments alone decides whether the body is evaluated.
* `ValueFunction.requires_iff`: the indices at which a built-in function needs an argument.
* `ValueFunction.inBounds_of_accepts`: where a built-in function is evaluated, it finds them.
-/

namespace StyleValues.ValueFunction

variable {f : ValueFunction} {args : List Value} {settings : Settings} {i : Nat}

/-! ## The guard -/

/-- The function with another body behind the same guard. -/
def withBody (f : ValueFunction) (body : List Value → Settings → Option (Except Error Value)) :
    ValueFunction :=
  { f with body }

/-- The body is evaluated exactly if the function accepts the number of arguments. All other calls
are answered by an error that tells this number, and do not depend on the body. -/
structure Guarded (f : ValueFunction) (args : List Value) (settings : Settings) : Prop where
  accepted : f.Accepts args.length → ∀ r, f.body args settings = some r →
    f.call args settings = r
  refused : ¬ f.Accepts args.length →
    f.call args settings = .error (.arity f.name f.least f.most args.length)
  evaluated : (∃ body body', (f.withBody body).call args settings ≠
    (f.withBody body').call args settings) ↔ f.Accepts args.length
  inverted : f.most < f.least →
    f.call args settings = .error (.arity f.name f.least f.most args.length)

theorem not_accepts_of_most_lt_least (h : f.most < f.least) (found : Nat) :
    ¬ f.Accepts found := by
  rintro ⟨hleast, hmost⟩
  omega

theorem call_withBody_of_not_accepts (h : ¬ f.Accepts args.length)
    (body : List Value → Settings → Option (Except Error Value)) :
    (f.withBody body).call args settings = .error (f.arityError args.length) := by
  have hbody : ¬ (f.withBody body).Accepts args.length := h
  exact call_of_not_accepts hbody settings

theorem call_withBody_of_accepts (h : f.Accepts args.length) (r : Except Error Value) :
    (f.withBody fun _ _ => some r).call args settings = r := by
  have hbody : (f.withBody fun _ _ => some r).Accepts args.length := h
  exact call_of_accepts hbody rfl

/-- Calls tell bodies apart exactly if they are accepted. -/
theorem exists_call_withBody_ne_iff :
    (∃ body body', (f.withBody body).call args settings ≠
      (f.withBody body').call args settings) ↔ f.Accepts args.length := by
  constructor
  · rintro ⟨body, body', hne⟩
    by_contra h
    apply hne
    rw [call_withBody_of_not_accepts h, call_withBody_of_not_accepts h]
  · intro h
    refine ⟨fun _ _ => some (.ok (.composite [])), fun _ _ => some (.error .divisionByZero), ?_⟩
    rw [call_withBody_of_accepts h, call_withBody_of_accepts h]
    intro heq
    cases heq

theorem guarded (f : ValueFunction) (args : List Value) (settings : Settings) :
    f.Guarded args settings where
  accepted h _ hr := call_of_accepts h hr
  refused h := call_of_not_accepts h settings
  evaluated := exists_call_withBody_ne_iff
  inverted h := call_of_not_accepts (not_accepts_of_most_lt_least h _) settings

/-! ## The arguments that a body needs -/

/-- The body needs an argument at this index, whatever the others are. -/
def Requires (f : ValueFunction) (i : Nat) : Prop :=
  ∀ args settings, args.length ≤ i → f.body args settings = none

/-- The body is evaluated, and there is an argument at every index that it looks at. -/
structure InBounds (f : ValueFunction) (args : List Value) (settings : Settings) : Prop where
  body : f.body args settings = some (f.call args settings)
  required : ∀ i, f.Requires i → i < args.length

theorem Requires.lt_length {r : Except Error Value} (h : f.Requires i)
    (hr : f.body args settings = some r) : i < args.length := by
  by_contra hi
  rw [h args settings (not_lt.1 hi)] at hr
  cases hr

/-- A built-in function converts its first argument, or blends its first two. -/
theorem exists_eq_of_mem_builtins (hf : f ∈ builtins) :
    (∃ target, f = conversion target) ∨ ∃ name g, f = blending name g := by
  simp only [builtins, List.mem_cons, List.not_mem_nil, or_false] at hf
  rcases hf with rfl | rfl | rfl | rfl
  · exact .inl ⟨.rem, rfl⟩
  · exact .inl ⟨.em, rfl⟩
  · exact .inr ⟨"tint", tintValue, rfl⟩
  · exact .inr ⟨"shade", shadeValue, rfl⟩

/-- A built-in function finds the arguments that it needs once it has the least number of them. -/
theorem isSome_body_iff (hf : f ∈ builtins) (args : List Value) (settings : Settings) :
    (f.body args settings).isSome ↔ f.least ≤ args.length := by
  rcases exists_eq_of_mem_builtins hf with ⟨target, rfl⟩ | ⟨name, g, rfl⟩
  · cases args <;> simp [conversion]
  · match args with
    | [] | [_] | _ :: _ :: _ => simp [blending]

theorem requires_iff (hf : f ∈ builtins) : f.Requires i ↔ i < f.least := by
  constructor
  · intro h
    by_contra hi
    have hsome : (f.body (List.replicate i (.keyword "")) {}).isSome := by
      rw [isSome_body_iff hf, List.length_replicate]
      exact not_lt.1 hi
    rw [h _ _ (List.length_replicate ..).le] at hsome
    cases hsome
  · intro hi args settings hlength
    have hnone : ¬ (f.body args settings).isSome := by
      rw [isSome_body_iff hf]
      omega
    exact Option.not_isSome_iff_eq_none.1 hnone

theorem inBounds_of_accepts (hf : f ∈ builtins) (h : f.Accepts args.length) :
    f.InBounds args settings := by
  obtain ⟨r, hr⟩ := Option.isSome_iff_exists.1 ((isSome_body_iff hf args settings).2 h.1)
  have hcall : f.call args settings = r := call_of_accepts h hr
  exact ⟨hcall ▸ hr, fun i hi => hi.lt_length hr⟩

end StyleValues.ValueFunction
