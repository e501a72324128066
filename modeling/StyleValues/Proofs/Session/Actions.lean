import StyleValues.Proofs.Session.Builtins

/-!
# Actions

Besides the steps of a session, a host can register any function of its own in its table. A step or
such a registration is an action. Runs of actions are runs of steps in which the host registers
something between two steps.

## Main definitions

* `Action`, `Session.act`, `Session.actAll`, `Session.afterAll`: actions and their runs.
* `Session.history`: the events of actions.
* `Action.isQuery`, `Action.usesHost`: actions that only read, and actions on the table of the host.

## Main results

* `Session.actAll_map_step`, `Session.afterAll_map_step`: runs of steps are runs of actions.
* `Session.change_act`: an action is a change, with its event.
* `Session.wellFormed_afterAll`, `Session.standard_afterAll`: the invariants of sessions.
-/

namespace StyleValues

inductive Action
  | step (t : Step)
  /-- The host registers a function of its own, under any name. -/
  | register (f : ValueFunction)

/-- The action looks something up or evaluates something. -/
def Action.isQuery : Action → Bool
  | .step (.names _) | .step (.contains _ _) | .step (.lookup _ _) | .step (.invoke _ _ _)
  | .step (.invokeWith _ _ _ _) | .step (.invokeBatch _ _ _) | .step .hostFunctions
  | .step (.callHost _ _ _) => true
  | _ => false

/-- The action registers something with the host. -/
def Action.registers : Action → Bool
  | .step (.load _) | .step (.define _ _ _) | .register _ => true
  | _ => false

/-- The action registers something with the host, or reads the table of the host. -/
def Action.usesHost : Action → Bool
  | .step .hostFunctions | .step (.callHost _ _ _) => true
  | a => a.registers

/-- The handle through which an action writes, if it does. -/
def Action.writesThrough? : Action → Option Nat
  | .step t => t.writesThrough?
  | .register _ => none

/-- The function of its own that a host registers, if the action does that. -/
def Action.defines? : Action → Option ValueFunction
  | .step (.define name least most) => some (.echo name least most)
  | .register f => some f
  | _ => none

def Event.ofAction? : Action → Except Fault Reply × Session → Option Event
  | .step t, answer => of? t answer
  | .register _, _ => none

theorem Event.exists_of_written_ofAction? {a : Action} {answer : Except Fault Reply × Session}
    {b : Holder} {settings : Settings} (h : ofAction? a answer = some (.written b settings)) :
    ∃ i, b = .handle i ∧ a.writesThrough? = some i := by
  cases a with
  | step t => exact exists_of_written h
  | register f => cases h

namespace Session

/-- The answer to an action, and the session after it. -/
def act (s : Session) : Action → Except Fault Reply × Session
  | .step t => s.advance t
  | .register f => (.ok (.function f), { s with host := s.host.register f })

/-- The answers to actions in turn, each with the session after it. -/
def actAll (s : Session) : List Action → List (Except Fault Reply × Session)
  | [] => []
  | a :: as => s.act a :: (s.act a).2.actAll as

/-- The session after actions. -/
def afterAll (s : Session) (as : List Action) : Session :=
  as.foldl (fun s a => (s.act a).2) s

/-- The events of actions, in turn. -/
def history (s : Session) (as : List Action) : List Event :=
  (as.zip (s.actAll as)).filterMap fun (a, answer) => Event.ofAction? a answer

/-- The session after steps. -/
def after (s : Session) (ts : List Step) : Session :=
  ((s.run ts).map (·.2)).getLastD s

variable {s next : Session} {a : Action} {as : List Action}

@[simp] theorem actAll_nil : s.actAll [] = [] := rfl

@[simp] theorem actAll_cons : s.actAll (a :: as) = s.act a :: (s.act a).2.actAll as := rfl

@[simp] theorem afterAll_nil : s.afterAll [] = s := rfl

@[simp] theorem afterAll_cons : s.afterAll (a :: as) = (s.act a).2.afterAll as := rfl

@[simp] theorem afterAll_append (as bs : List Action) :
    s.afterAll (as ++ bs) = (s.afterAll as).afterAll bs :=
  List.foldl_append

@[simp] theorem history_nil : s.history [] = [] := rfl

@[simp] theorem history_cons :
    s.history (a :: as) =
      (Event.ofAction? a (s.act a)).toList ++ (s.act a).2.history as := by
  rw [history, actAll_cons, List.zip_cons_cons, List.filterMap_cons]
  dsimp only
  cases Event.ofAction? a (s.act a) <;> rfl

/-! ## Runs of steps -/

/-- Runs of steps are runs of actions. -/
theorem actAll_map_step (s : Session) (ts : List Step) : s.actAll (ts.map .step) = s.run ts := by
  induction ts generalizing s with
  | nil => rfl
  | cons t ts ih => simp only [List.map_cons, actAll_cons, act, run, ih]

theorem getLastD_actAll (s : Session) (as : List Action) :
    ((s.actAll as).map (·.2)).getLastD s = s.afterAll as := by
  induction as generalizing s with
  | nil => rfl
  | cons a as ih =>
    rw [actAll_cons, List.map_cons, List.getLastD_cons]
    exact ih (s.act a).2

theorem afterAll_map_step (s : Session) (ts : List Step) :
    s.afterAll (ts.map .step) = s.after ts := by
  rw [← getLastD_actAll, actAll_map_step, after]

/-! ## Changes -/

/-- What every action keeps holds after all actions. -/
theorem afterAll_induction {p : Session → Prop} (hs : p s) (hact : ∀ s a, p s → p (s.act a).2)
    (as : List Action) : p (s.afterAll as) := by
  induction as generalizing s with
  | nil => exact hs
  | cons a as ih => exact ih (hact s a hs)

/-- Everything that an action can do to a session, with the event that it is. -/
theorem change_act (s : Session) (a : Action) :
    s.Change (Event.ofAction? a (s.act a)) (s.act a).2 := by
  cases a with
  | step t => exact change_advance s t
  | register f => exact .host _

/-! ## Invariants -/

theorem wellFormed_act (h : s.WellFormed) (a : Action) : (s.act a).2.WellFormed := by
  cases a with
  | step t => exact h.advance t
  | register f => exact ⟨h.handles, h.registries⟩

theorem standard_act (h : s.Standard) (a : Action) : (s.act a).2.Standard :=
  h.change (change_act s a)

theorem wellFormed_afterAll (as : List Action) : (afterAll {} as).WellFormed :=
  afterAll_induction wellFormed_empty (fun _ a hs => wellFormed_act hs a) as

theorem standard_afterAll (as : List Action) : (afterAll {} as).Standard :=
  afterAll_induction standard_empty (fun _ a hs => standard_act hs a) as

end Session

end StyleValues
