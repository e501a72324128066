import StyleValues.Proofs.Conversion.Leafwise
import StyleValues.Proofs.Session.Isolation

/-!
# Routes to a function

A function can be called through a registry, a batch or the table of a host, and the function
itself can be looked up and called. All routes lead to the same result.

## Main definitions

* `Session.HostChange`: everything that one action can do to the table of the host.
* `Session.RoutesGive`: all routes to a function give a result.

## Main results

* `Session.routes_give_builtinResult`: they give the result of the built-in function.
-/

namespace StyleValues

/-- A function stays registered until another one of its name is registered. -/
theorem Host.find?_foldl_register_of_ne {name : String} {gs : List ValueFunction}
    (hne : ∀ g ∈ gs, g.name ≠ name) (h : Host) :
    (gs.foldl register h).table.find? name = h.table.find? name := by
  induction gs generalizing h with
  | nil => rfl
  | cons g gs ih =>
    rw [List.foldl_cons, ih fun k hk => hne k (List.mem_cons_of_mem _ hk), find?_register,
      if_neg (hne g List.mem_cons_self)]

/-- A result built with the constructors of values is the result itself. -/
theorem Form.invoke_tree (t : FunctionTable) (name : String) (args : List Value)
    (settings : Settings) :
    tree.invoke t name args settings = (t.invoke name args settings).map .value := by
  rw [invoke, FunctionTable.invokeWith]
  cases t.invoke name args settings with
  | error e => rfl
  | ok v =>
    dsimp only
    rw [Builder.build_tree]
    rfl

namespace Session

variable {s next : Session} {i : Nat} {settings : Settings} {f : ValueFunction} {name : String}
  {args : List Value}

/-! ## The table of the host -/

/-- Everything that an action can do to the host. -/
inductive HostChange (s : Session) : Action → Host → Prop
  | same (a : Action) : HostChange s a s.host
  | load {i : Nat} {r : Registry} (hr : r ∈ s.registries) :
    HostChange s (.step (.load i)) (s.host.load r.functions)
  | define {a : Action} {f : ValueFunction} (ha : a.defines? = some f) :
    HostChange s a (s.host.register f)

theorem hostChange_of_step {t : Step} {reply : Reply} (ht : s.step t = .ok (reply, next)) :
    s.HostChange (.step t) next.host := by
  cases t with
  | load i =>
    obtain ⟨r, hr, ht⟩ := exists_of_bind_eq_ok ht
    cases ht
    exact .load (mem_of_item hr)
  | define name least most =>
    cases ht
    exact .define rfl
  | callHost name args source =>
    obtain ⟨settings, -, ht⟩ := exists_of_bind_eq_ok ht
    split at ht
    · cases ht
      exact .same _
    · obtain ⟨v, -, ht⟩ := exists_of_bind_eq_ok ht
      cases ht
      exact .same _
  | registryDefault | hostFunctions =>
    cases ht
    exact .same _
  | replace i source | invoke i name args | invokeWith i form name args
  | invokeBatch i name args =>
    obtain ⟨a, -, ht⟩ := exists_of_bind_eq_ok ht
    obtain ⟨b, -, ht⟩ := exists_of_bind_eq_ok ht
    cases ht
    exact .same _
  | _ =>
    obtain ⟨a, -, ht⟩ := exists_of_bind_eq_ok ht
    cases ht
    exact .same _

theorem hostChange_act (s : Session) (a : Action) : s.HostChange a (s.act a).2.host := by
  cases a with
  | step t =>
    rw [act, advance]
    split
    next ht => exact hostChange_of_step ht
    next => exact .same _
  | register f => exact .define rfl

/-- A built-in function stays in the table of the host, since what registries load is that
function again. -/
theorem Standard.find?_hostChange (h : s.Standard) {a : Action} {host : Host}
    (hf : FunctionTable.builtin.find? name = some f) (hfound : s.host.table.find? name = some f)
    (ha : ∀ g, a.defines? = some g → g.name ≠ name) (hc : s.HostChange a host) :
    host.table.find? name = some f := by
  cases hc with
  | same => exact hfound
  | load hr => rw [Host.find?_load, h.registries _ hr, hf, Option.some_or]
  | define hdefines => rw [Host.find?_register, if_neg (ha _ hdefines), hfound]

theorem Standard.find?_host_afterAll (h : s.Standard) {as : List Action}
    (hf : FunctionTable.builtin.find? name = some f) (hfound : s.host.table.find? name = some f)
    (has : ∀ a ∈ as, ∀ g, a.defines? = some g → g.name ≠ name) :
    (s.afterAll as).host.table.find? name = some f := by
  induction as generalizing s with
  | nil => exact hfound
  | cons a as ih =>
    have ha := h.find?_hostChange hf hfound (has a List.mem_cons_self) (hostChange_act s a)
    exact ih (standard_act h a) ha fun b hb => has b (List.mem_cons_of_mem a hb)

/-! ## Routes -/

variable {held : Settings}

theorem Standard.advance_invokeWith_tree (h : s.Standard)
    (hi : s.settings? (.registry i) = some held) (name : String) (args : List Value) :
    s.advance (.invokeWith i .tree name args) =
      ((checked (FunctionTable.builtin.invoke name args held)).map .value, s) := by
  obtain ⟨r, hr, hfunctions, rfl⟩ := h.exists_registry hi
  apply advance_of_checked
  rw [step, item_eq_ok_iff.2 hr]
  dsimp only [bind, Except.bind]
  rw [Form.invoke_tree, hfunctions]
  cases FunctionTable.builtin.invoke name args (s.settingsOf r.family) <;> rfl

theorem Standard.advance_lookup (h : s.Standard) (hi : s.settings? (.registry i) = some held)
    (hf : FunctionTable.builtin.find? name = some f) :
    s.advance (.lookup i name) = (.ok (.function f), s) := by
  obtain ⟨r, hr, hfunctions, -⟩ := h.exists_registry hi
  rw [← hfunctions] at hf
  apply advance_of_ok
  rw [step, item_eq_ok_iff.2 hr]
  exact congrArg (fun found => Except.ok (Reply.ofFunction? found, s)) hf

theorem Standard.advance_lookup_of_not_mem (h : s.Standard)
    (hi : s.settings? (.registry i) = some held) (hname : name ∉ builtinNames) :
    s.advance (.lookup i name) = (.ok .nothing, s) := by
  obtain ⟨r, hr, hfunctions, -⟩ := h.exists_registry hi
  have hnone : r.functions.find? name = none := by
    rwa [hfunctions, ← Option.not_isSome_iff_eq_none, FunctionTable.isSome_find?_builtin_iff]
  apply advance_of_ok
  rw [step, item_eq_ok_iff.2 hr]
  exact congrArg (fun found => Except.ok (Reply.ofFunction? found, s)) hnone

theorem advance_load {r : Registry} (hr : s.registries[i]? = some r) :
    s.advance (.load i) =
      (.ok (.loaded (s.host.load r.functions).registered (s.host.load r.functions).table.size),
        { s with host := s.host.load r.functions }) := by
  apply advance_of_ok
  rw [step, item_eq_ok_iff.2 hr]
  rfl

theorem Standard.host_advance_load (h : s.Standard)
    (hi : s.settings? (.registry i) = some held) :
    (s.advance (.load i)).2.host = s.host.load .builtin := by
  obtain ⟨r, hr, hfunctions, -⟩ := h.exists_registry hi
  rw [advance_load hr, hfunctions]

theorem advance_callHost {source : SettingsSource} (hsource : source.settings = .ok settings)
    (hf : s.host.table.find? name = some f) (args : List Value) :
    s.advance (.callHost name args source) = ((checked (f.call args settings)).map .value, s) := by
  apply advance_of_checked
  rw [step, hsource]
  dsimp only [checked, Except.mapError, bind, Except.bind]
  rw [hf]

/-- All routes to a function by its name give the results in `result`. Registry `i` and its
batches evaluate calls under the settings `held` of the registry. A function that is looked up,
or called by a host, can be called under any settings. -/
structure RoutesGive (s : Session) (i : Nat) (held : Settings) (name : String)
    (args : List Value) (result : Settings → Except Error Value) : Prop where
  invoke : (s.advance (.invoke i name args)).1 = (checked (result held)).map .value
  invokeWith : (s.advance (.invokeWith i .tree name args)).1 = (checked (result held)).map .value
  batch : ∃ b created, s.advance (.batch i) = (.ok (.added b), created) ∧
    ∀ later, ((created.afterAll later).advance (.invokeBatch b name args)).1 =
      (checked (result held)).map .value
  entry : ∀ f ∈ builtins, f.name = name → ∀ settings, f.call args settings = result settings
  lookup : name ∈ builtinNames → ∃ f, (s.advance (.lookup i name)).1 = .ok (.function f) ∧
    f.name = name ∧ ∀ settings, f.call args settings = result settings
  lookup_unknown : name ∉ builtinNames → (s.advance (.lookup i name)).1 = .ok .nothing
  /-- Functions of other names may be registered after the registry is loaded. -/
  host : name ∈ builtinNames → ∀ r, s.registries[i]? = some r → ∀ (h : Host)
    (later : List ValueFunction), (∀ g ∈ later, g.name ≠ name) →
      ∃ f, (later.foldl Host.register (h.load r.functions)).table.find? name = some f ∧
        ∀ settings, f.call args settings = result settings
  callHost : name ∈ builtinNames →
    ∀ later : List Action, (∀ a ∈ later, ∀ g, a.defines? = some g → g.name ≠ name) →
      ∀ source settings, source.settings = .ok settings →
        (((s.advance (.load i)).2.afterAll later).advance (.callHost name args source)).1 =
          (checked (result settings)).map .value

/-- In any session, all routes give the results of the built-in function. -/
theorem routes_give_builtinResult (as : List Action)
    (hi : (afterAll {} as).settings? (.registry i) = some held) (name : String)
    (args : List Value) :
    (afterAll {} as).RoutesGive i held name args (builtinResult name args) := by
  have hs : (afterAll {} as).Standard := standard_afterAll as
  refine ⟨?_, ?_, ?_, ?_, ?_, ?_, ?_, ?_⟩
  · rw [hs.advance_invoke_builtin hi, FunctionTable.invoke_builtin]
  · rw [hs.advance_invokeWith_tree hi, FunctionTable.invoke_builtin]
  · obtain ⟨b, created, hb, -⟩ := hs.exists_batch hi
    refine ⟨b, created, hb, fun later => ?_⟩
    rw [hs.invokeBatch_afterAll hi hb, FunctionTable.invoke_builtin]
  · rintro f hf rfl settings
    exact ValueFunction.call_of_mem_builtins hf args settings
  · intro hname
    obtain ⟨f, hf⟩ := FunctionTable.exists_find?_builtin hname
    refine ⟨f, by rw [hs.advance_lookup hi hf], ?_, FunctionTable.call_of_find?_builtin hf args⟩
    exact (FunctionTable.find?_builtin_eq_some_iff.1 hf).2
  · intro hname
    rw [hs.advance_lookup_of_not_mem hi hname]
  · intro hname r hr h later hlater
    obtain ⟨f, hf⟩ := FunctionTable.exists_find?_builtin hname
    refine ⟨f, ?_, FunctionTable.call_of_find?_builtin hf args⟩
    rw [Host.find?_foldl_register_of_ne hlater, Host.find?_load,
      hs.registries r (List.mem_of_getElem? hr), hf, Option.some_or]
  · intro hname later hlater source settings hsource
    obtain ⟨f, hf⟩ := FunctionTable.exists_find?_builtin hname
    have hloaded : (advance (afterAll {} as) (.load i)).2.host.table.find? name = some f := by
      rw [hs.host_advance_load hi, Host.find?_load, hf, Option.some_or]
    have hs' : (advance (afterAll {} as) (.load i)).2.Standard :=
      standard_act hs (.step (.load i))
    rw [advance_callHost hsource (hs'.find?_host_afterAll hf hloaded hlater),
      FunctionTable.call_of_find?_builtin hf]

/-- The host registers functions of its own, one of them in the place of a built-in one. -/
def routeActions : List Action :=
  [.step (.handle (.px 10)), .step (.registry 0),
    .register { ValueFunction.tint with name := "rem" }, .register (.echo "twice" 1 1)]

def routeArguments : List Value := [.dimension (.px 20)]

/-- The registry converts by its base of ten, and so does its batch while the base changes. The
function that is looked up, that a host has loaded, or that it calls, converts by a base of four
that comes with the call. Names are compared exactly. -/
theorem routes_give_builtinResult_rem :
    (afterAll {} routeActions).settings? (.registry 0) = some { basePx := 10 } ∧
    ((afterAll {} routeActions).advance (.invoke 0 "rem" routeArguments)).1 =
      .ok (.value (.dimension (.withUnit 2 "rem"))) ∧
    ((afterAll {} routeActions).advance (.invokeWith 0 .tree "rem" routeArguments)).1 =
      .ok (.value (.dimension (.withUnit 2 "rem"))) ∧
    (∃ b created, (afterAll {} routeActions).advance (.batch 0) = (.ok (.added b), created) ∧
      ((created.afterAll [.step (.setBase 0 4), .step (.load 0)]).advance
        (.invokeBatch b "rem" routeArguments)).1 =
          .ok (.value (.dimension (.withUnit 2 "rem")))) ∧
    (∃ f, ((afterAll {} routeActions).advance (.lookup 0 "rem")).1 = .ok (.function f) ∧
      f.call routeArguments { basePx := 4 } = .ok (.dimension (.withUnit 5 "rem"))) ∧
    ((afterAll {} routeActions).advance (.lookup 0 "REM")).1 = .ok .nothing ∧
    (∃ f, ([.echo "half" 1 1].foldl Host.register ((afterAll {} routeActions).host.load
        FunctionTable.builtin)).table.find? "rem" = some f ∧
      f.call routeArguments { basePx := 4 } = .ok (.dimension (.withUnit 5 "rem"))) ∧
    ((((afterAll {} routeActions).advance (.load 0)).2.afterAll
        [.register (.echo "half" 1 1)]).advance (.callHost "rem" routeArguments (.px 4))).1 =
      .ok (.value (.dimension (.withUnit 5 "rem"))) := by
  have hi : (afterAll {} routeActions).settings? (.registry 0) = some { basePx := 10 } := rfl
  have hresult {base quotient : Float} (hbase : ¬ Number.IsZero base)
      (hquotient : 20 / base = quotient) :
      builtinResult "rem" routeArguments { basePx := base } =
        .ok (.dimension (.withUnit quotient "rem")) := by
    have hd : Dimension.NeedsDivision .rem (.px 20) := by
      refine ⟨20, rfl, ?_, ?_⟩ <;> decide +kernel
    refine convert_eq_ok_iff.2 ⟨base, rfl, (Value.toUnit_of_needsDivision hd).trans ?_⟩
    rw [if_neg hbase, hquotient]
    rfl
  have hten := hresult (show ¬ Number.IsZero 10 by decide +kernel)
    (show (20 : Float) / 10 = 2 by decide +kernel)
  have hfour := hresult (show ¬ Number.IsZero 4 by decide +kernel)
    (show (20 : Float) / 4 = 5 by decide +kernel)
  have hroutes := routes_give_builtinResult routeActions hi "rem" routeArguments
  have hunknown := routes_give_builtinResult routeActions hi "REM" routeArguments
  have hrem : "rem" ∈ builtinNames := by decide
  refine ⟨hi, ?_, ?_, ?_, ?_, hunknown.lookup_unknown (by decide), ?_, ?_⟩
  · rw [hroutes.invoke, hten]
    rfl
  · rw [hroutes.invokeWith, hten]
    rfl
  · obtain ⟨b, created, hb, hbatch⟩ := hroutes.batch
    refine ⟨b, created, hb, ?_⟩
    rw [hbatch, hten]
    rfl
  · obtain ⟨f, hf, -, hcall⟩ := hroutes.lookup hrem
    exact ⟨f, hf, (hcall _).trans hfour⟩
  · have hlater : ∀ g ∈ [ValueFunction.echo "half" 1 1], g.name ≠ "rem" := by
      intro g hg
      obtain rfl := List.mem_singleton.1 hg
      decide
    obtain ⟨f, hf, hcall⟩ := hroutes.host hrem { family := 0 } rfl _ _ hlater
    exact ⟨f, hf, (hcall _).trans hfour⟩
  · rw [hroutes.callHost hrem _ ?_ _ { basePx := 4 } rfl, hfour]
    · rfl
    · intro a ha g hg
      obtain rfl := List.mem_singleton.1 ha
      obtain rfl := Option.some.inj hg
      decide

end Session

end StyleValues
