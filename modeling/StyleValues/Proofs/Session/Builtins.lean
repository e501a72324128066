import StyleValues.Proofs.Function.Result
import StyleValues.Proofs.Session.History

/-!
# The functions of registries

Nothing is ever added to the table of a registry or a batch, so each of them holds the built-in
functions.

## Main definitions

* `Session.Standard`: all registries and batches hold the built-in functions.
-/

namespace StyleValues

namespace Session

structure Standard (s : Session) : Prop where
  registries : ∀ r ∈ s.registries, r.functions = .builtin
  batches : ∀ b ∈ s.batches, b.functions = .builtin

variable {s : Session}

theorem standard_empty : Standard {} :=
  ⟨by simp, by simp⟩

theorem Standard.addRegistry (h : s.Standard) {r : Registry} (hr : r.functions = .builtin) :
    (s.addRegistry r).2.Standard := by
  refine ⟨fun q hm => ?_, h.batches⟩
  rcases List.mem_append.1 hm with hm | hm
  · exact h.registries q hm
  · exact List.mem_singleton.1 hm ▸ hr

theorem Standard.addBatch (h : s.Standard) {b : Batch} (hb : b.functions = .builtin) :
    (s.addBatch b).2.Standard := by
  refine ⟨h.registries, fun q hm => ?_⟩
  rcases List.mem_append.1 hm with hm | hm
  · exact h.batches q hm
  · exact List.mem_singleton.1 hm ▸ hb

theorem Standard.change (h : s.Standard) {event? : Option Event} {next : Session}
    (hc : s.Change event? next) : next.Standard := by
  cases hc with
  | foundRegistry =>
    have hs : (s.addFamily {}).Standard := ⟨h.registries, h.batches⟩
    exact hs.addRegistry rfl
  | joinRegistry _ hr => exact h.addRegistry (hr.elim id (h.registries _))
  | batch hr => exact h.addBatch (h.registries _ hr)
  | _ => exact ⟨h.registries, h.batches⟩

/-- A step that only evaluates something answers with the result. -/
theorem advance_of_checked {α : Type} {t : Step} {r : Except Error α} (reply : α → Reply)
    (h : s.step t = do return (reply (← checked r), s)) :
    s.advance t = ((checked r).map reply, s) := by
  rw [advance, h]
  cases r <;> rfl

theorem advance_invoke {i : Nat} {r : Registry} (hr : s.registries[i]? = some r) (name : String)
    (args : List Value) :
    s.advance (.invoke i name args) =
      ((checked (r.functions.invoke name args (s.settingsOf r.family))).map .value, s) := by
  apply advance_of_checked
  rw [step, item_eq_ok_iff.2 hr]
  rfl

theorem Standard.exists_registry (h : s.Standard) {i : Nat} {settings : Settings}
    (hi : s.settings? (.registry i) = some settings) :
    ∃ r, s.registries[i]? = some r ∧ r.functions = .builtin ∧
      s.settingsOf r.family = settings := by
  obtain ⟨family, hfamily, hsettings⟩ := Option.map_eq_some_iff.1 hi
  obtain ⟨r, hr, rfl⟩ := Option.map_eq_some_iff.1 hfamily
  exact ⟨r, hr, h.registries r (List.mem_of_getElem? hr), hsettings⟩

/-- A registry evaluates built-in functions under the settings of its family. -/
theorem Standard.advance_invoke_builtin (h : s.Standard) {i : Nat} {settings : Settings}
    (hi : s.settings? (.registry i) = some settings) (name : String) (args : List Value) :
    s.advance (.invoke i name args) =
      ((checked (FunctionTable.builtin.invoke name args settings)).map .value, s) := by
  obtain ⟨r, hr, hfunctions, rfl⟩ := h.exists_registry hi
  rw [advance_invoke hr, hfunctions]

end Session

end StyleValues
