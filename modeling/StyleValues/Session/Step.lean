import StyleValues.Builder.Record
import StyleValues.Builder.Text
import StyleValues.Session.Basic

/-!
# The steps of a session

A step refers to the items of a session by their indices. It either fails, and then changes
nothing, or gives a reply.

## Main definitions

* `Step`, `Reply`, `Fault`: what is asked, and the answers.
* `Session.step`: the reply to a step and the session after it.
* `Session.run`: all answers to a list of steps.
-/

namespace StyleValues

/-- The forms in which the result of a call can be built. -/
inductive Form
  | tree
  | outline
  | record
deriving DecidableEq, Repr

inductive Step
  /-- A handle of a new family. -/
  | handle (source : SettingsSource)
  /-- Another handle of the same family. -/
  | cloneHandle (handle : Nat)
  /-- A handle of a new family with the settings of a snapshot. -/
  | handleOfSnapshot (snapshot : Nat)
  | setBase (handle : Nat) (px : Float)
  | replace (handle : Nat) (source : SettingsSource)
  | snapshot (handle : Nat)
  /-- A copy of a snapshot with another base. -/
  | rebase (snapshot : Nat) (px : Float)
  /-- A registry of the built-in functions in the family of a handle. -/
  | registry (handle : Nat)
  /-- A registry of the built-in functions in a new family. -/
  | registryDefault
  | cloneRegistry (registry : Nat)
  /-- A handle of the family of a registry. -/
  | handleOfRegistry (registry : Nat)
  | names (registry : Nat)
  | contains (registry : Nat) (name : String)
  | lookup (registry : Nat) (name : String)
  | invoke (registry : Nat) (name : String) (args : List Value)
  | invokeWith (registry : Nat) (form : Form) (name : String) (args : List Value)
  | batch (registry : Nat)
  | invokeBatch (batch : Nat) (name : String) (args : List Value)
  /-- Registers the functions of a registry with the host. -/
  | load (registry : Nat)
  /-- Registers an echo with the host. -/
  | define (name : String) (least most : Nat)
  | hostFunctions
  | callHost (name : String) (args : List Value) (source : SettingsSource)

inductive Reply
  | nothing
  /-- The index of a new item. -/
  | added (index : Nat)
  | names (names : List String)
  | truth (holds : Bool)
  | function (f : ValueFunction)
  | functions (fs : List ValueFunction)
  | value (v : Value)
  | text (s : String)
  | record (root : Nat) (entries : List Construction)
  /-- All registrations with the host so far, and the size of its table. -/
  | loaded (registered : List String) (size : Nat)

inductive Fault
  | error (e : Error)
  /-- A step refers to an item that does not exist. -/
  | noItem
deriving DecidableEq, Repr

/-- A function, if there is one. -/
def Reply.ofFunction? : Option ValueFunction → Reply
  | some f => .function f
  | none => .nothing

/-- Evaluates a call and builds its result in a form. -/
def Form.invoke (form : Form) (t : FunctionTable) (name : String) (args : List Value)
    (settings : Settings) : Except Error Reply :=
  match form with
  | .tree => (t.invokeWith .tree name args settings).run.map .value
  | .outline => (t.invokeWith .outline name args settings).run.map .text
  | .record =>
    let (root, entries) := (t.invokeWith .record name args settings).run []
    root.map (.record · entries)

namespace Session

/-- The item that an index refers to. -/
def item {α : Type} (items : List α) (index : Nat) : Except Fault α :=
  match items[index]? with
  | some a => .ok a
  | none => .error .noItem

/-- A result on which a step depends. -/
def checked {α : Type} (r : Except Error α) : Except Fault α :=
  r.mapError .error

def addHandle (s : Session) (family : Nat) : Reply × Session :=
  (.added s.handles.length, { s with handles := s.handles ++ [family] })

def addSnapshot (s : Session) (settings : Settings) : Reply × Session :=
  (.added s.snapshots.length, { s with snapshots := s.snapshots ++ [settings] })

def addRegistry (s : Session) (r : Registry) : Reply × Session :=
  (.added s.registries.length, { s with registries := s.registries ++ [r] })

def addBatch (s : Session) (b : Batch) : Reply × Session :=
  (.added s.batches.length, { s with batches := s.batches ++ [b] })

/-- The reply to a step, and the session after it. -/
def step (s : Session) : Step → Except Fault (Reply × Session)
  | .handle source => do
    return (s.addFamily (← checked source.settings)).addHandle s.families.length
  | .cloneHandle h => do
    return s.addHandle (← item s.handles h)
  | .handleOfSnapshot i => do
    return (s.addFamily (← item s.snapshots i)).addHandle s.families.length
  | .setBase h px => do
    let family ← item s.handles h
    return (.nothing, s.write family { s.settingsOf family with basePx := px })
  | .replace h source => do
    let family ← item s.handles h
    return (.nothing, s.write family (← checked source.settings))
  | .snapshot h => do
    return s.addSnapshot (s.settingsOf (← item s.handles h))
  | .rebase i px => do
    return s.addSnapshot { ← item s.snapshots i with basePx := px }
  | .registry h => do
    return s.addRegistry { family := ← item s.handles h }
  | .registryDefault =>
    return (s.addFamily {}).addRegistry { family := s.families.length }
  | .cloneRegistry r => do
    return s.addRegistry (← item s.registries r)
  | .handleOfRegistry r => do
    return s.addHandle (← item s.registries r).family
  | .names r => do
    return (.names (← item s.registries r).functions.names, s)
  | .contains r name => do
    return (.truth ((← item s.registries r).functions.contains name), s)
  | .lookup r name => do
    return (.ofFunction? ((← item s.registries r).functions.find? name), s)
  | .invoke r name args => do
    let registry ← item s.registries r
    let v ← checked (registry.functions.invoke name args (s.settingsOf registry.family))
    return (.value v, s)
  | .invokeWith r form name args => do
    let registry ← item s.registries r
    let reply ← checked
      (form.invoke registry.functions name args (s.settingsOf registry.family))
    return (reply, s)
  | .batch r => do
    let registry ← item s.registries r
    return s.addBatch ⟨registry.functions, s.settingsOf registry.family⟩
  | .invokeBatch b name args => do
    let batch ← item s.batches b
    return (.value (← checked (batch.functions.invoke name args batch.settings)), s)
  | .load r => do
    let host := s.host.load (← item s.registries r).functions
    return (.loaded host.registered host.table.size, { s with host })
  | .define name least most =>
    let f := ValueFunction.echo name least most
    return (.function f, { s with host := s.host.register f })
  | .hostFunctions =>
    return (.functions s.host.table.functions, s)
  | .callHost name args source => do
    let settings ← checked source.settings
    match s.host.table.find? name with
    | none => return (.nothing, s)
    | some f => return (.value (← checked (f.call args settings)), s)

/-- The answer to a step, and the session after it. A step that fails leaves the session as it
is. -/
def advance (s : Session) (t : Step) : Except Fault Reply × Session :=
  match s.step t with
  | .ok (reply, next) => (.ok reply, next)
  | .error fault => (.error fault, s)

/-- The answers to steps in turn, each with the session after it. -/
def run (s : Session) : List Step → List (Except Fault Reply × Session)
  | [] => []
  | t :: ts =>
    let (answer, next) := s.advance t
    (answer, next) :: next.run ts

theorem advance_of_error {s : Session} {t : Step} {fault : Fault} (h : s.step t = .error fault) :
    s.advance t = (.error fault, s) := by
  simp [advance, h]

theorem advance_of_ok {s next : Session} {t : Step} {reply : Reply}
    (h : s.step t = .ok (reply, next)) : s.advance t = (.ok reply, next) := by
  simp [advance, h]

end Session

end StyleValues
