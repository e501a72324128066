import StyleValues.Proofs.Builder.Universal
import StyleValues.Proofs.Function.Arity
import StyleValues.Proofs.Session.Host

/-!
# Calls in a session

A session calls functions through its registries, its batches and the table of the host, and hands
out copies of functions that can be called directly. Every function carries its guard along, and
each function that is called or handed out is a built-in one or one that the host has registered
itself. So no call of a built-in function looks for an argument that is not there.

## Main definitions

* `Session.Calls`: the step calls a function.
* `Session.Offers`: a function can be called in the session.
* `Session.Answers`: what a reply to a step can show.

## Main results

* `Session.answers_of_step`: every value in a reply is the result of a call.
* `Session.mem_of_offers_afterAll`: where the functions of a session come from.
* `Session.calls_guarded`: all calls are guarded, and built-in functions find their arguments.
-/

namespace StyleValues

/-- The functions that a reply hands out. -/
def Reply.copies : Reply → List ValueFunction
  | .function f => [f]
  | .functions fs => fs
  | _ => []

/-- The reply shows a value, in some form. -/
def Reply.showsValue : Reply → Bool
  | .value _ | .text _ | .record _ _ => true
  | _ => false

/-- The form in which a step asks for values. -/
def Step.form : Step → Form
  | .invokeWith _ form _ _ => form
  | _ => .tree

/-- The step calls what the host has in its table. -/
def Step.callsHost : Step → Bool
  | .callHost _ _ _ => true
  | _ => false

theorem copies_reply (form : Form) (v : Value) : (form.reply v).copies = [] := by
  cases form <;> rfl

namespace FunctionTable

variable {t : FunctionTable} {name : String} {f : ValueFunction}

theorem mem_functions_of_find? (h : t.find? name = some f) : f ∈ t.functions :=
  (find?_eq_some_iff.1 h).1

theorem mem_functions_builtin_iff : f ∈ builtin.functions ↔ f ∈ builtins := by
  have hself : f ∈ builtin.functions ↔ builtin.find? f.name = some f := by
    simp [find?_eq_some_iff]
  rw [hself, find?_builtin_eq_some_iff]
  exact and_iff_left rfl

/-- A result is that of the function found for the name. -/
theorem exists_of_invoke_eq_ok {args : List Value} {settings : Settings} {v : Value}
    (h : t.invoke name args settings = .ok v) :
    ∃ f, t.find? name = some f ∧ f.call args settings = .ok v := by
  unfold invoke at h
  split at h
  next f hf => exact ⟨f, hf, h⟩
  next => cases h

end FunctionTable

namespace Session

/-- The step calls the function with these arguments under these settings. -/
inductive Calls (s : Session) : Step → ValueFunction → List Value → Settings → Prop
  | invoke {i : Nat} {r : Registry} {name : String} {f : ValueFunction}
    (hr : s.registries[i]? = some r) (hf : r.functions.find? name = some f) (args : List Value) :
    Calls s (.invoke i name args) f args (s.settingsOf r.family)
  | invokeWith {i : Nat} {r : Registry} {name : String} {f : ValueFunction}
    (hr : s.registries[i]? = some r) (hf : r.functions.find? name = some f) (form : Form)
    (args : List Value) : Calls s (.invokeWith i form name args) f args (s.settingsOf r.family)
  | invokeBatch {i : Nat} {b : Batch} {name : String} {f : ValueFunction}
    (hb : s.batches[i]? = some b) (hf : b.functions.find? name = some f) (args : List Value) :
    Calls s (.invokeBatch i name args) f args b.settings
  | callHost {name : String} {source : SettingsSource} {settings : Settings} {f : ValueFunction}
    (hsource : source.settings = .ok settings) (hf : s.host.table.find? name = some f)
    (args : List Value) : Calls s (.callHost name args source) f args settings

/-- The function can be called in the session. -/
inductive Offers (s : Session) (f : ValueFunction) : Prop
  | registry {r : Registry} (hr : r ∈ s.registries) (hf : f ∈ r.functions.functions)
  | batch {b : Batch} (hb : b ∈ s.batches) (hf : f ∈ b.functions.functions)
  | host (hf : f ∈ s.host.table.functions)

/-- What the reply to a step can show: the result of a call, or copies of functions. -/
inductive Answers (s : Session) (t : Step) : Reply → Prop
  | result {f : ValueFunction} {args : List Value} {settings : Settings} {v : Value}
    (hcall : s.Calls t f args settings) (hv : f.call args settings = .ok v) :
    Answers s t (t.form.reply v)
  | copies {reply : Reply} (hreply : reply.showsValue = false)
    (hcopies : ∀ f ∈ reply.copies, s.Offers f ∨ (Action.step t).defines? = some f) :
    Answers s t reply

variable {s next : Session} {t : Step} {f : ValueFunction} {args : List Value}
  {settings : Settings}

/-! ## Calls -/

/-- A step that calls a function answers with the result, and changes nothing. -/
theorem Calls.advance (h : s.Calls t f args settings) :
    s.advance t = ((checked (f.call args settings)).map t.form.reply, s) := by
  cases h with
  | invoke hr hf args =>
    rw [advance_invoke hr, FunctionTable.invoke_of_find? hf]
    rfl
  | invokeWith hr hf form args =>
    rw [advance_invokeWith, advance_invoke hr, FunctionTable.invoke_of_find? hf]
    cases f.call args _ <;> rfl
  | invokeBatch hb hf args =>
    rw [advance_invokeBatch hb, FunctionTable.invoke_of_find? hf]
    rfl
  | callHost hsource hf args =>
    rw [advance_callHost hsource hf]
    rfl

theorem Calls.offers (h : s.Calls t f args settings) : s.Offers f := by
  cases h with
  | invoke hr hf | invokeWith hr hf =>
    exact .registry (List.mem_of_getElem? hr) (FunctionTable.mem_functions_of_find? hf)
  | invokeBatch hb hf =>
    exact .batch (List.mem_of_getElem? hb) (FunctionTable.mem_functions_of_find? hf)
  | callHost hsource hf => exact .host (FunctionTable.mem_functions_of_find? hf)

/-! ## Replies -/

/-- Every value in a reply is the result of a call. -/
theorem answers_of_step {reply : Reply} (ht : s.step t = .ok (reply, next)) :
    s.Answers t reply := by
  cases t with
  | invoke i name args =>
    obtain ⟨r, hr, ht⟩ := exists_of_bind_eq_ok ht
    obtain ⟨v, hv, ht⟩ := exists_of_bind_eq_ok ht
    cases ht
    obtain ⟨f, hf, hcall⟩ := FunctionTable.exists_of_invoke_eq_ok (checked_eq_ok_iff.1 hv)
    exact .result (.invoke (item_eq_ok_iff.1 hr) hf args) hcall
  | invokeWith i form name args =>
    obtain ⟨r, hr, ht⟩ := exists_of_bind_eq_ok ht
    obtain ⟨shown, hshown, ht⟩ := exists_of_bind_eq_ok ht
    cases ht
    have hform := checked_eq_ok_iff.1 hshown
    rw [Form.invoke_eq_map] at hform
    cases hv : r.functions.invoke name args (s.settingsOf r.family) with
    | error e =>
      rw [hv] at hform
      cases hform
    | ok v =>
      rw [hv] at hform
      cases hform
      obtain ⟨f, hf, hcall⟩ := FunctionTable.exists_of_invoke_eq_ok hv
      exact .result (.invokeWith (item_eq_ok_iff.1 hr) hf form args) hcall
  | invokeBatch i name args =>
    obtain ⟨b, hb, ht⟩ := exists_of_bind_eq_ok ht
    obtain ⟨v, hv, ht⟩ := exists_of_bind_eq_ok ht
    cases ht
    obtain ⟨f, hf, hcall⟩ := FunctionTable.exists_of_invoke_eq_ok (checked_eq_ok_iff.1 hv)
    exact .result (.invokeBatch (item_eq_ok_iff.1 hb) hf args) hcall
  | callHost name args source =>
    obtain ⟨settings, hsource, ht⟩ := exists_of_bind_eq_ok ht
    split at ht
    next =>
      cases ht
      exact .copies rfl (by simp [Reply.copies])
    next f hf =>
      obtain ⟨v, hv, ht⟩ := exists_of_bind_eq_ok ht
      cases ht
      exact .result (.callHost (checked_eq_ok_iff.1 hsource) hf args)
        (checked_eq_ok_iff.1 hv)
  | lookup i name =>
    obtain ⟨r, hr, ht⟩ := exists_of_bind_eq_ok ht
    cases ht
    cases hfound : r.functions.find? name with
    | none => exact .copies rfl (by simp [Reply.ofFunction?, Reply.copies])
    | some f =>
      refine .copies rfl fun g hg => .inl ?_
      obtain rfl := List.mem_singleton.1 hg
      exact .registry (mem_of_item hr) (FunctionTable.mem_functions_of_find? hfound)
  | hostFunctions =>
    cases ht
    exact .copies rfl fun f hf => .inl (.host hf)
  | define name least most =>
    cases ht
    exact .copies rfl fun f hf => .inr (congrArg some (List.mem_singleton.1 hf).symm)
  | registryDefault =>
    cases ht
    exact .copies rfl (by simp [Reply.copies])
  | replace i source =>
    obtain ⟨family, -, ht⟩ := exists_of_bind_eq_ok ht
    obtain ⟨settings, -, ht⟩ := exists_of_bind_eq_ok ht
    cases ht
    exact .copies rfl (by simp [Reply.copies])
  | _ =>
    obtain ⟨a, -, ht⟩ := exists_of_bind_eq_ok ht
    cases ht
    exact .copies rfl (by simp [Reply.copies])

/-! ## Where functions come from -/

theorem Standard.mem_builtins_of_registry (hs : s.Standard) {r : Registry}
    (hr : r ∈ s.registries) (hf : f ∈ r.functions.functions) : f ∈ builtins := by
  rw [hs.registries r hr] at hf
  exact FunctionTable.mem_functions_builtin_iff.1 hf

theorem Standard.mem_builtins_of_batch (hs : s.Standard) {b : Batch} (hb : b ∈ s.batches)
    (hf : f ∈ b.functions.functions) : f ∈ builtins := by
  rw [hs.batches b hb] at hf
  exact FunctionTable.mem_functions_builtin_iff.1 hf

theorem Standard.mem_builtins_of_calls (hs : s.Standard) (h : s.Calls t f args settings)
    (ht : t.callsHost = false) : f ∈ builtins := by
  cases h with
  | invoke hr hf | invokeWith hr hf =>
    have hmem := FunctionTable.mem_functions_of_find? hf
    exact hs.mem_builtins_of_registry (List.mem_of_getElem? hr) hmem
  | invokeBatch hb hf =>
    have hmem := FunctionTable.mem_functions_of_find? hf
    exact hs.mem_builtins_of_batch (List.mem_of_getElem? hb) hmem
  | callHost => cases ht

/-- An action registers built-in functions, or a function of the host's own. -/
theorem mem_of_mem_action_registrations {a : Action} {answer : Except Fault Reply}
    (h : f ∈ a.registrations answer) : f ∈ builtins ∨ a.defines? = some f := by
  unfold Action.registrations at h
  split at h <;> grind [loadOrder, builtins, Action.defines?]

theorem mem_of_mem_registrations {as : List Action} (h : f ∈ s.registrations as) :
    f ∈ builtins ∨ f ∈ as.filterMap Action.defines? := by
  induction as generalizing s with
  | nil => cases h
  | cons a as ih =>
    rcases List.mem_append.1 h with h | h
    · refine (mem_of_mem_action_registrations h).imp_right fun hdefines => ?_
      exact List.mem_filterMap.2 ⟨a, List.mem_cons_self, hdefines⟩
    · refine (ih h).imp_right fun hmem => ?_
      obtain ⟨b, hb, hdefines⟩ := List.mem_filterMap.1 hmem
      exact List.mem_filterMap.2 ⟨b, List.mem_cons_of_mem a hb, hdefines⟩

/-- The functions of a session are built-in, with their guards, or the host's own. -/
theorem mem_of_offers_afterAll {as : List Action} (h : (afterAll {} as).Offers f) :
    f ∈ builtins ∨ f ∈ as.filterMap Action.defines? := by
  have hs : (afterAll {} as).Standard := standard_afterAll as
  cases h with
  | registry hr hf => exact .inl (hs.mem_builtins_of_registry hr hf)
  | batch hb hf => exact .inl (hs.mem_builtins_of_batch hb hf)
  | host hf =>
    have hfound : (afterAll {} as).host.table.find? f.name = some f :=
      FunctionTable.find?_eq_some_iff.2 ⟨hf, rfl⟩
    rw [(standard_empty.holds_afterAll Host.holds_empty as).last] at hfound
    apply mem_of_mem_registrations
    simpa using List.mem_of_find?_eq_some hfound

/-! ## All calls -/

/-- In the session only built-in functions and those in `own` can be called, the latter only by the
host. Copies that are handed out are of the same functions, and values come from calls only. -/
structure CallsFrom (s : Session) (own : List ValueFunction) : Prop where
  tables : ∀ f, s.Offers f → f ∈ builtins ∨ f ∈ own
  call : ∀ t f args settings, s.Calls t f args settings →
    s.advance t = ((checked (f.call args settings)).map t.form.reply, s) ∧
      (f ∈ builtins ∨ t.callsHost ∧ f ∈ own)
  copy : ∀ t reply f, (s.advance t).1 = .ok reply → f ∈ reply.copies →
    f ∈ builtins ∨ f ∈ own ∨ (Action.step t).defines? = some f
  value : ∀ t reply, (s.advance t).1 = .ok reply → reply.showsValue →
    ∃ f args settings v, s.Calls t f args settings ∧ f.call args settings = .ok v ∧
      reply = t.form.reply v

theorem answers_of_advance {reply : Reply} (h : (s.advance t).1 = .ok reply) :
    s.Answers t reply := by
  unfold advance at h
  split at h
  next ht =>
    cases h
    exact answers_of_step ht
  next => cases h

theorem callsFrom_afterAll (as : List Action) :
    (afterAll {} as).CallsFrom (as.filterMap Action.defines?) where
  tables _ := mem_of_offers_afterAll
  call t f args settings h := by
    refine ⟨h.advance, ?_⟩
    cases ht : t.callsHost with
    | false => exact .inl ((standard_afterAll as).mem_builtins_of_calls h ht)
    | true => exact (mem_of_offers_afterAll h.offers).imp_right fun hown => ⟨rfl, hown⟩
  copy t reply f h hf := by
    cases answers_of_advance h with
    | result hcall hv =>
      rw [copies_reply] at hf
      cases hf
    | copies hreply hcopies =>
      rcases hcopies f hf with hoffers | hdefines
      · exact (mem_of_offers_afterAll hoffers).imp_right .inl
      · exact .inr (.inr hdefines)
  value t reply h hshows := by
    cases answers_of_advance h with
    | result hcall hv => exact ⟨_, _, _, _, hcall, hv, rfl⟩
    | copies hreply hcopies =>
      rw [hreply] at hshows
      cases hshows

/-- A call evaluates the body of a function if the function accepts the number of arguments, and
otherwise reports that number. After any actions, all calls are of built-in functions or of
functions that the host has registered itself, and a built-in function that is evaluated has all the
arguments that it needs. -/
theorem calls_guarded :
    (∀ f args settings, ValueFunction.Guarded f args settings) ∧
    (∀ f ∈ builtins, (∀ i, f.Requires i ↔ i < f.least) ∧
      ∀ args settings, f.Accepts args.length → f.InBounds args settings) ∧
    ∀ as : List Action, (afterAll {} as).CallsFrom (as.filterMap Action.defines?) := by
  refine ⟨ValueFunction.guarded, fun f hf => ⟨fun i => ?_, fun args settings h => ?_⟩,
    callsFrom_afterAll⟩
  · exact ValueFunction.requires_iff hf
  · exact ValueFunction.inBounds_of_accepts hf h

/-- The host overrides a built-in function by one that accepts no number of arguments. -/
def invertActions : List Action :=
  [.step .registryDefault, .step (.load 0), .step (.define "rem" 2 1)]

/-- All calls by the host fail, and its registry goes on to call the built-in function. -/
theorem calls_guarded_inverted :
    (afterAll {} invertActions).advance (.callHost "rem" [.keyword "auto"] .default) =
      (.error (.error (.arity "rem" 2 1 1)), afterAll {} invertActions) ∧
    (afterAll {} invertActions).advance (.invokeWith 0 .outline "rem" [.keyword "auto"]) =
      (.ok (.text "auto"), afterAll {} invertActions) ∧
    ValueFunction.rem.InBounds [.keyword "auto"] {} := by
  obtain ⟨hguarded, hbuiltin, hafter⟩ := calls_guarded
  have hcalls := (hafter invertActions).call
  refine ⟨?_, ?_, (hbuiltin .rem List.mem_cons_self).2 _ _ (by decide)⟩
  · have hhost : (afterAll {} invertActions).Calls (.callHost "rem" [.keyword "auto"] .default)
        (.echo "rem" 2 1) [.keyword "auto"] {} := .callHost rfl rfl _
    rw [(hcalls _ _ _ _ hhost).1, (hguarded _ _ _).inverted (by decide)]
    rfl
  · have hregistry : (afterAll {} invertActions).Calls
        (.invokeWith 0 .outline "rem" [.keyword "auto"]) .rem [.keyword "auto"] {} :=
      .invokeWith (r := { family := 0 }) rfl rfl .outline _
    rw [(hcalls _ _ _ _ hregistry).1]
    rfl

end Session

end StyleValues
