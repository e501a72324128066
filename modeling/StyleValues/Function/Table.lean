import StyleValues.Function.Basic

/-!
# Tables of functions

A table holds at most one function of each name and lists them by name, in the order of code
points.

## Main definitions

* `FunctionTable.insert`: adds a function, in place of one of the same name.
* `FunctionTable.find?`: the function of a given name.
* `FunctionTable.invoke`, `FunctionTable.invokeWith`: evaluates a call, and rebuilds its result.
-/

namespace StyleValues

/-- Adds a function to a list in order of names. -/
def insertByName (f : ValueFunction) : List ValueFunction → List ValueFunction
  | [] => [f]
  | g :: gs =>
    if f.name < g.name then f :: g :: gs
    else if f.name = g.name then f :: gs
    else g :: insertByName f gs

theorem mem_insertByName {f g : ValueFunction} {gs : List ValueFunction}
    (h : g ∈ insertByName f gs) : g = f ∨ g ∈ gs := by
  induction gs with
  | nil => simpa [insertByName] using h
  | cons e gs ih =>
    simp only [insertByName] at h
    split at h
    · simpa using h
    · split at h
      · rcases List.mem_cons.1 h with h | h
        · exact .inl h
        · exact .inr (List.mem_cons_of_mem _ h)
      · rcases List.mem_cons.1 h with rfl | h
        · exact .inr List.mem_cons_self
        · exact (ih h).imp_right (List.mem_cons_of_mem _)

theorem pairwise_insertByName (f : ValueFunction) {gs : List ValueFunction}
    (h : gs.Pairwise fun a b => a.name < b.name) :
    (insertByName f gs).Pairwise fun a b => a.name < b.name := by
  induction gs with
  | nil => simp [insertByName]
  | cons e gs ih =>
    obtain ⟨he, hs⟩ := List.pairwise_cons.1 h
    simp only [insertByName]
    split
    next hlt =>
      refine List.pairwise_cons.2 ⟨fun a ha => ?_, h⟩
      rcases List.mem_cons.1 ha with rfl | ha
      · exact hlt
      · exact String.lt_trans hlt (he a ha)
    next hlt =>
      split
      next heq => exact List.pairwise_cons.2 ⟨fun a ha => heq ▸ he a ha, hs⟩
      next hne =>
        refine List.pairwise_cons.2 ⟨fun a ha => ?_, ih hs⟩
        rcases mem_insertByName ha with rfl | ha
        · exact Std.not_le.1 fun hle => hne (String.le_antisymm hle (String.not_lt.1 hlt))
        · exact he a ha

/-- Functions in strict order of their names. -/
structure FunctionTable where
  functions : List ValueFunction := []
  sorted : functions.Pairwise fun f g => f.name < g.name := by exact .nil

namespace FunctionTable

/-- Adds a function, in place of one of the same name. -/
def insert (t : FunctionTable) (f : ValueFunction) : FunctionTable :=
  ⟨insertByName f t.functions, pairwise_insertByName f t.sorted⟩

def ofList (fs : List ValueFunction) : FunctionTable :=
  fs.foldl insert {}

def find? (t : FunctionTable) (name : String) : Option ValueFunction :=
  t.functions.find? fun f => f.name == name

def contains (t : FunctionTable) (name : String) : Bool :=
  (t.find? name).isSome

/-- The names, in order. -/
def names (t : FunctionTable) : List String :=
  t.functions.map (·.name)

def size (t : FunctionTable) : Nat := t.functions.length

/-- Evaluates a call of the function of a given name. -/
def invoke (t : FunctionTable) (name : String) (args : List Value) (settings : Settings) :
    Except Error Value :=
  match t.find? name with
  | some f => f.call args settings
  | none => .error (.unknownFunction name)

/-- Evaluates a call and rebuilds its result. Nothing is built if the call fails. -/
def invokeWith {m : Type → Type} {α : Type} [Monad m] (b : Builder m α) (t : FunctionTable)
    (name : String) (args : List Value) (settings : Settings) : m (Except Error α) :=
  match t.invoke name args settings with
  | .ok v => do return .ok (← b.build v)
  | .error e => return .error e

end FunctionTable

theorem find?_insertByName (f : ValueFunction) (gs : List ValueFunction) (name : String) :
    (insertByName f gs).find? (fun g => g.name == name) =
      if f.name = name then some f else gs.find? fun g => g.name == name := by
  induction gs with
  | nil => by_cases h : f.name = name <;> simp [insertByName, h]
  | cons g gs ih =>
    by_cases h : f.name = name <;> simp only [insertByName] <;> split <;> grind

@[simp] theorem FunctionTable.find?_insert (t : FunctionTable) (f : ValueFunction)
    (name : String) :
    (t.insert f).find? name = if f.name = name then some f else t.find? name :=
  find?_insertByName f t.functions name

end StyleValues
