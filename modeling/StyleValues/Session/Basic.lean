import StyleValues.Function.Builtin
import StyleValues.Settings.Options

/-!
# Sessions

A session holds handles to settings, copies of settings, registries and batches of functions, and
the table of a host. Handles of one family share their settings: what is written through one of
them is read through all. Snapshots and batches hold copies.

## Main definitions

* `Session`, with `Registry`, `Batch` and `Host`.
* `Session.settingsOf`, `Session.write`: the settings that a family shares.
-/

namespace StyleValues

/-- A table of functions, called under the settings that a family shares at the time. -/
structure Registry where
  functions : FunctionTable := .builtin
  family : Nat

/-- A table of functions, called under settings that do not change. -/
structure Batch where
  functions : FunctionTable
  settings : Settings

/-- The functions of a host, and the names of all registrations so far. -/
structure Host where
  table : FunctionTable := {}
  registered : List String := []

namespace Host

def register (h : Host) (f : ValueFunction) : Host :=
  ⟨h.table.insert f, h.registered ++ [f.name]⟩

/-- Registers all functions of a table, in the order of their names. -/
def load (h : Host) (t : FunctionTable) : Host :=
  t.functions.foldl register h

@[simp] theorem registered_register (h : Host) (f : ValueFunction) :
    (h.register f).registered = h.registered ++ [f.name] := rfl

@[simp] theorem find?_register (h : Host) (f : ValueFunction) (name : String) :
    (h.register f).table.find? name = if f.name = name then some f else h.table.find? name :=
  FunctionTable.find?_insert _ _ _

/-- Loading registers every name of the table once, in order. -/
@[simp] theorem registered_load (h : Host) (t : FunctionTable) :
    (h.load t).registered = h.registered ++ t.names := by
  obtain ⟨fs, hs⟩ := t
  unfold load FunctionTable.names
  induction fs generalizing h with
  | nil => simp
  | cons f fs ih => simp [ih _ (List.pairwise_cons.1 hs).2]

theorem find?_foldl_register (h : Host) {fs : List ValueFunction}
    (hs : fs.Pairwise fun f g => f.name < g.name) (name : String) :
    (fs.foldl register h).table.find? name =
      (fs.find? fun f => f.name == name).or (h.table.find? name) := by
  induction fs generalizing h with
  | nil => rfl
  | cons f fs ih =>
    obtain ⟨hlt, hfs⟩ := List.pairwise_cons.1 hs
    rw [List.foldl_cons, ih _ hfs, find?_register]
    by_cases hname : f.name = name
    · have hnone : fs.find? (fun g => g.name == name) = none := by
        rw [List.find?_eq_none]
        intro g hg heq
        have hsame : f.name = g.name := hname.trans (beq_iff_eq.1 heq).symm
        exact String.lt_irrefl _ (hsame ▸ hlt g hg)
      simp [hnone, hname]
    · simp [hname]

/-- What is loaded is found before what was there. -/
@[simp] theorem find?_load (h : Host) (t : FunctionTable) (name : String) :
    (h.load t).table.find? name = (t.find? name).or (h.table.find? name) :=
  find?_foldl_register h t.sorted name

end Host

structure Session where
  /-- The settings that each family shares. -/
  families : List Settings := []
  /-- The family of each handle. -/
  handles : List Nat := []
  snapshots : List Settings := []
  registries : List Registry := []
  batches : List Batch := []
  host : Host := {}

namespace Session

def settingsOf (s : Session) (family : Nat) : Settings :=
  s.families.getD family {}

/-- Changes the settings of a family for all its members. -/
def write (s : Session) (family : Nat) (settings : Settings) : Session :=
  { s with families := s.families.set family settings }

/-- Founds a family, which has no members yet. -/
def addFamily (s : Session) (settings : Settings) : Session :=
  { s with families := s.families ++ [settings] }

/-- The bases that the handles show. -/
def handleBases (s : Session) : List Float :=
  s.handles.map fun family => (s.settingsOf family).basePx

def snapshotBases (s : Session) : List Float :=
  s.snapshots.map (·.basePx)

def batchBases (s : Session) : List Float :=
  s.batches.map (·.settings.basePx)

@[simp] theorem settingsOf_write_self {s : Session} {family : Nat} (settings : Settings)
    (h : family < s.families.length) : (s.write family settings).settingsOf family = settings := by
  simp [settingsOf, write, h]

@[simp] theorem settingsOf_write_of_ne {s : Session} {family other : Nat} (settings : Settings)
    (h : family ≠ other) : (s.write family settings).settingsOf other = s.settingsOf other := by
  simp [settingsOf, write, List.getElem?_set_ne h]

end Session

end StyleValues
