import Mathlib
import StyleValues.Function.Builtin

/-!
# The results of built-in functions

What a call of a built-in function gives, by its name and its arguments. The table of built-in
functions evaluates calls accordingly.

## Main definitions

* `builtinResult`: the result of a call.

## Main results

* `FunctionTable.invoke_builtin`: the table gives these results.
-/

namespace StyleValues

variable {args : List Value} {settings : Settings} {f : ValueFunction} {name : String}

/-- `rem` and `em` take a value, and a base if there is one. -/
def conversionResult (target : RelativeUnit) (args : List Value) (settings : Settings) :
    Except Error Value :=
  match args with
  | [v] => convert v none target settings
  | [v, base] => convert v (some base) target settings
  | _ => .error (.arity target.token 1 2 args.length)

/-- `tint` and `shade` take a color and a percentage. -/
def blendingResult (name : String) (f : Value → Value → Except Error Value) (args : List Value) :
    Except Error Value :=
  match args with
  | [color, amount] => f color amount
  | _ => .error (.arity name 2 2 args.length)

/-- The result of a call under settings. Names are compared exactly. -/
def builtinResult (name : String) (args : List Value) (settings : Settings) :
    Except Error Value :=
  if name = "rem" then conversionResult .rem args settings
  else if name = "em" then conversionResult .em args settings
  else if name = "tint" then blendingResult "tint" tintValue args
  else if name = "shade" then blendingResult "shade" shadeValue args
  else .error (.unknownFunction name)

theorem builtinResult_token (target : RelativeUnit) (args : List Value) (settings : Settings) :
    builtinResult target.token args settings = conversionResult target args settings := by
  cases target <;> rfl

namespace ValueFunction

theorem call_conversion (target : RelativeUnit) (args : List Value) (settings : Settings) :
    (conversion target).call args settings = conversionResult target args settings := by
  match args with
  | [] => rfl
  | [v] => rfl
  | [v, base] => rfl
  | u :: v :: w :: vs =>
    have hcount : ¬ (conversion target).Accepts (u :: v :: w :: vs).length := by
      simp [Accepts, conversion]
    rw [call_of_not_accepts hcount]
    rfl

theorem call_blending (name : String) (g : Value → Value → Except Error Value)
    (args : List Value) (settings : Settings) :
    (blending name g).call args settings = blendingResult name g args := by
  match args with
  | [] => rfl
  | [v] => rfl
  | [color, amount] => rfl
  | u :: v :: w :: vs =>
    have hcount : ¬ (blending name g).Accepts (u :: v :: w :: vs).length := by
      simp [Accepts, blending]
    rw [call_of_not_accepts hcount]
    rfl

theorem call_of_mem_builtins (hf : f ∈ builtins) (args : List Value) (settings : Settings) :
    f.call args settings = builtinResult f.name args settings := by
  simp only [builtins, List.mem_cons, List.not_mem_nil, or_false] at hf
  rcases hf with rfl | rfl | rfl | rfl
  · exact call_conversion .rem args settings
  · exact call_conversion .em args settings
  · exact call_blending "tint" tintValue args settings
  · exact call_blending "shade" shadeValue args settings

end ValueFunction

/-- The names of the built-in functions. -/
def builtinNames : List String := ["rem", "em", "tint", "shade"]

theorem exists_mem_builtins_iff : (∃ f, f ∈ builtins ∧ f.name = name) ↔ name ∈ builtinNames := by
  have hnames : builtins.map (·.name) = builtinNames := rfl
  rw [← hnames, List.mem_map]

theorem builtinResult_of_not_mem (h : name ∉ builtinNames) :
    builtinResult name args settings = .error (.unknownFunction name) := by
  grind [builtinResult, builtinNames]

namespace FunctionTable

theorem invoke_of_find? {t : FunctionTable} (h : t.find? name = some f) :
    t.invoke name args settings = f.call args settings := by
  rw [invoke, h]

/-- The function found for a name is the built-in function of that name. -/
theorem find?_builtin_eq_some_iff :
    builtin.find? name = some f ↔ f ∈ builtins ∧ f.name = name := by
  constructor
  · intro h
    rw [find?, functions_builtin] at h
    have hmem := List.mem_of_find?_eq_some h
    have hname := List.find?_some h
    grind [builtins]
  · rintro ⟨hf, rfl⟩
    simp only [builtins, List.mem_cons, List.not_mem_nil, or_false] at hf
    rcases hf with rfl | rfl | rfl | rfl <;> rfl

theorem isSome_find?_builtin_iff : (builtin.find? name).isSome ↔ name ∈ builtinNames := by
  simp only [Option.isSome_iff_exists, find?_builtin_eq_some_iff]
  exact exists_mem_builtins_iff

theorem exists_find?_builtin (h : name ∈ builtinNames) : ∃ f, builtin.find? name = some f :=
  Option.isSome_iff_exists.1 (isSome_find?_builtin_iff.2 h)

theorem call_of_find?_builtin (h : builtin.find? name = some f) (args : List Value)
    (settings : Settings) : f.call args settings = builtinResult name args settings := by
  obtain ⟨hf, rfl⟩ := find?_builtin_eq_some_iff.1 h
  exact ValueFunction.call_of_mem_builtins hf args settings

theorem invoke_builtin (name : String) (args : List Value) (settings : Settings) :
    builtin.invoke name args settings = builtinResult name args settings := by
  cases h : builtin.find? name with
  | some f => rw [invoke_of_find? h, call_of_find?_builtin h]
  | none =>
    have hname : name ∉ builtinNames := by
      rw [← isSome_find?_builtin_iff, h]
      exact Bool.false_ne_true
    rw [invoke, h, builtinResult_of_not_mem hname]

end FunctionTable

end StyleValues
