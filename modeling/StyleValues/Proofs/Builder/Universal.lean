import StyleValues.Proofs.Session.Routes
import StyleValues.Proofs.Value.Frontier
import StyleValues.Proofs.Value.Postorder

/-!
# Rebuilding as a fold

Without effects, rebuilding is the only function on values that goes along with the constructors. So
what goes along with two sets of constructors turns one way of rebuilding into the other. The
result of a call is rebuilt node by node, and where a call fails nothing is constructed.

## Main definitions

* `Builder.Respects`: a function on values goes along with constructors.
* `Builder.Commutes`: a function goes along with the constructors on both sides.
* `Builder.counted`: the same constructors, which are counted.

## Main results

* `Builder.run_build_counted`: there is one construction for each node.
* `build_universal`: rebuilding is unique, and what calls rebuild.
-/

namespace StyleValues

variable {α β : Type}

namespace Builder

/-- The image of a value is constructed from its parts, and from the images of its elements. -/
structure Respects (b : Builder Id α) (g : Value → α) : Prop where
  dimension : ∀ d, g (.dimension d) = b.dimension d
  keyword : ∀ k, g (.keyword k) = b.keyword k
  composite : ∀ vs, g (.composite vs) = b.composite (vs.map g)
  color : ∀ c, g (.color c) = b.color c

/-- What one builder constructs is turned into what the other constructs. -/
structure Commutes (b : Builder Id α) (c : Builder Id β) (h : α → β) : Prop where
  dimension : ∀ d, h (b.dimension d) = c.dimension d
  keyword : ∀ k, h (b.keyword k) = c.keyword k
  composite : ∀ xs, h (b.composite xs) = c.composite (xs.map h)
  color : ∀ x, h (b.color x) = c.color x

variable {b : Builder Id α} {c : Builder Id β}

/-! ## Uniqueness -/

theorem build_composite (b : Builder Id α) (vs : List Value) :
    b.build (.composite vs) = b.composite (vs.map b.build) :=
  congrArg b.composite (buildAll_eq_map b vs)

theorem respects_build (b : Builder Id α) : b.Respects b.build where
  dimension _ := rfl
  keyword _ := rfl
  composite vs := build_composite b vs
  color _ := rfl

theorem Respects.eq_build {g : Value → α} (h : b.Respects g) : g = b.build := by
  funext v
  induction v with
  | dimension d => exact h.dimension d
  | keyword k => exact h.keyword k
  | color c => exact h.color c
  | composite vs ih => rw [h.composite, build_composite, List.map_congr_left ih]

theorem respects_iff {g : Value → α} : b.Respects g ↔ g = b.build := by
  constructor
  · exact Respects.eq_build
  · rintro rfl
    exact respects_build b

theorem Commutes.respects {h : α → β} (hc : b.Commutes c h) : c.Respects (h ∘ b.build) where
  dimension d := hc.dimension d
  keyword k := hc.keyword k
  composite vs := by simp [build_composite, hc.composite]
  color x := hc.color x

/-- Turning the result into another one is the same as rebuilding with the other constructors. -/
theorem Commutes.apply_build {h : α → β} (hc : b.Commutes c h) (v : Value) :
    h (b.build v) = c.build v :=
  congrFun hc.respects.eq_build v

/-- Writing goes along with the constructors of values and with those of texts. -/
theorem commutes_css : Commutes tree css Value.css where
  dimension d := (build_css (.dimension d)).symm
  keyword k := (build_css (.keyword k)).symm
  composite vs := Value.css_composite vs
  color c := (build_css (.color c)).symm

/-! ## Counting -/

/-- Counts one construction. -/
def count (x : α) : StateM Nat α := fun n => (x, n + 1)

/-- The same constructors, which are counted. -/
def counted (b : Builder Id α) : Builder (StateM Nat) α where
  dimension d := count (b.dimension d)
  keyword k := count (b.keyword k)
  composite xs := count (b.composite xs)
  color c := count (b.color c)

theorem run_buildAll_counted (b : Builder Id α) {vs : List Value}
    (h : ∀ v ∈ vs, ∀ n, (b.counted.build v).run n = (b.build v, n + v.nodePaths.length))
    (first n : Nat) :
    (b.counted.buildAll vs).run n =
      (vs.map b.build, n + (Value.elementPaths first vs).length) := by
  induction vs generalizing first n with
  | nil => rfl
  | cons v vs ih =>
    have hv := h v List.mem_cons_self n
    have hvs := ih (fun w hw => h w (List.mem_cons_of_mem v hw)) (first + 1)
      (n + v.nodePaths.length)
    rw [Value.elementPaths, List.length_append, List.length_map, ← Nat.add_assoc]
    rw [buildAll, StateT.run_bind, hv]
    exact congrArg (fun run => (b.build v :: run.1, run.2)) hvs

/-- There is one construction for each node. -/
theorem run_build_counted (b : Builder Id α) (v : Value) (n : Nat) :
    (b.counted.build v).run n = (b.build v, n + v.nodePaths.length) := by
  induction v generalizing n with
  | dimension d => rfl
  | keyword k => rfl
  | color c => rfl
  | composite vs ih =>
    have hvs := run_buildAll_counted b ih 0 n
    rw [build_composite, Value.nodePaths, List.length_append, List.length_singleton,
      ← Nat.add_assoc]
    rw [build, StateT.run_bind, hvs]
    rfl

end Builder

/-! ## Calls -/

/-- How many constructions it takes to rebuild the result of a call. -/
def constructions : Except Error Value → Nat
  | .ok v => v.nodePaths.length
  | .error _ => 0

namespace FunctionTable

variable {t : FunctionTable} {name : String} {args : List Value} {settings : Settings}

theorem invokeWith_eq_map (b : Builder Id α) (t : FunctionTable) (name : String)
    (args : List Value) (settings : Settings) :
    t.invokeWith b name args settings = (t.invoke name args settings).map b.build := by
  unfold invokeWith
  cases t.invoke name args settings <;> rfl

theorem run_invokeWith_counted (b : Builder Id α) (t : FunctionTable) (name : String)
    (args : List Value) (settings : Settings) (n : Nat) :
    (t.invokeWith b.counted name args settings).run n =
      ((t.invoke name args settings).map b.build,
        n + constructions (t.invoke name args settings)) := by
  unfold invokeWith
  cases t.invoke name args settings with
  | error e => rfl
  | ok v =>
    dsimp only
    rw [StateT.run_bind, b.run_build_counted]
    rfl

/-- A call that fails has no effects. -/
theorem invokeWith_of_error {m : Type → Type} [Monad m] (b : Builder m α) {e : Error}
    (h : t.invoke name args settings = .error e) :
    t.invokeWith b name args settings = pure (.error e) := by
  rw [invokeWith, h]

end FunctionTable

/-- The reply that shows a value in a form. -/
def Form.reply : Form → Value → Reply
  | .tree, v => .value v
  | .outline, v => .text (Builder.outline.build v)
  | .record, v => .record v.record.1 v.record.2

theorem Form.invoke_eq_map (form : Form) (t : FunctionTable) (name : String) (args : List Value)
    (settings : Settings) :
    form.invoke t name args settings = (t.invoke name args settings).map form.reply := by
  cases form with
  | tree => exact invoke_tree t name args settings
  | outline =>
    rw [invoke, FunctionTable.invokeWith_eq_map]
    cases t.invoke name args settings <;> rfl
  | record =>
    rw [invoke, FunctionTable.invokeWith]
    cases t.invoke name args settings <;> rfl

/-- The answer in a form, if the answer shows a value. -/
def Reply.inForm (form : Form) : Reply → Reply
  | .value v => form.reply v
  | reply => reply

/-- A registry answers in a form with what it answers otherwise, shown in that form. -/
theorem Session.advance_invokeWith (s : Session) (i : Nat) (form : Form) (name : String)
    (args : List Value) :
    s.advance (.invokeWith i form name args) =
      ((s.advance (.invoke i name args)).1.map (.inForm form), s) := by
  cases hr : s.registries[i]? with
  | none =>
    have hitem : item s.registries i = .error .noItem := by rw [item, hr]
    simp only [advance, step, hitem]
    rfl
  | some r =>
    rw [advance_invoke hr, advance_of_checked (r := form.invoke r.functions name args
      (s.settingsOf r.family)) id]
    · rw [Form.invoke_eq_map]
      cases r.functions.invoke name args (s.settingsOf r.family) <;> rfl
    · rw [step, item_eq_ok_iff.2 hr]
      rfl

/-- A call with constructors gives what the call gives, rebuilt, with one construction for each
node. If it fails there is no construction and no other effect. -/
structure RebuildsResult (b : Builder Id α) (t : FunctionTable) (name : String)
    (args : List Value) (settings : Settings) : Prop where
  result : t.invokeWith b name args settings = (t.invoke name args settings).map b.build
  counted : ∀ n, (t.invokeWith b.counted name args settings).run n =
    ((t.invoke name args settings).map b.build, n + constructions (t.invoke name args settings))
  failure : ∀ e, t.invoke name args settings = .error e →
    ∀ (m : Type → Type) (γ : Type) [Monad m] (effectful : Builder m γ),
      t.invokeWith effectful name args settings = pure (.error e)

/-- Rebuilding is the only function that goes along with the constructors. So the constructors of
values give a value back, and what goes along with two sets of constructors turns one way of
rebuilding into the other. Registries rebuild the results of calls in this way. -/
theorem build_universal (b : Builder Id α) (c : Builder Id β) :
    (∀ g : Value → α, b.Respects g ↔ g = b.build) ∧
      (∀ v, Builder.tree.build v = v) ∧
      (∀ h : α → β, b.Commutes c h → ∀ v, h (b.build v) = c.build v) ∧
      (∀ t name args settings, RebuildsResult b t name args settings) ∧
      ∀ (s : Session) (i : Nat) (form : Form) (name : String) (args : List Value),
        s.advance (.invokeWith i form name args) =
          ((s.advance (.invoke i name args)).1.map (.inForm form), s) := by
  refine ⟨fun g => Builder.respects_iff, Builder.build_tree, fun h hc v => hc.apply_build v,
    fun t name args settings => ?_, Session.advance_invokeWith⟩
  exact {
    result := t.invokeWith_eq_map b name args settings
    counted := t.run_invokeWith_counted b name args settings
    failure := fun e he m γ _ effectful => FunctionTable.invokeWith_of_error effectful he }

/-- A list with an empty list in it is written with two spaces in a row, as its text is put
together. A call of a function that does not exist constructs nothing. -/
theorem build_universal_css :
    Builder.tree.Commutes Builder.css Value.css ∧
      Builder.css.build (.composite [.keyword "auto", .composite [], .keyword "a b"]) =
        "auto  a\\ b" ∧
      FunctionTable.builtin.invoke "blend" [] {} = .error (.unknownFunction "blend") ∧
      (FunctionTable.builtin.invokeWith Builder.record "blend" [] {}).run [] =
        (.error (.unknownFunction "blend"), []) := by
  obtain ⟨-, -, hfusion, hcalls, -⟩ := build_universal Builder.tree Builder.css
  have hblend : FunctionTable.builtin.invoke "blend" [] {} = .error (.unknownFunction "blend") :=
    rfl
  refine ⟨Builder.commutes_css, ?_, hblend, ?_⟩
  · rw [← hfusion Value.css Builder.commutes_css]
    rfl
  · rw [(hcalls _ _ _ _).failure _ hblend]
    rfl

end StyleValues
