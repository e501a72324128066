import StyleValues.Proofs.Function.Lookup
import StyleValues.Proofs.Session.Frame

/-!
# The table of the host

Registries load their functions into the table of the host, and the host registers functions of its
own, in any order. The table holds what was last registered under each name. Registries, batches and
all else in a session do not depend on it.

## Main definitions

* `Host.Holds`: the table of a host holds what was registered, and nothing else.
* `Session.registrations`: the functions that actions register, in turn.
* `Session.Loads`: what loading a registry does to the table of the host.

## Main results

* `Session.host_holds_last_registered`: the table of the host after any actions.
-/

namespace StyleValues

/-- The functions of a registry, in the order in which they are loaded. -/
def loadOrder : List ValueFunction := [.em, .rem, .shade, .tint]

/-- The functions that an action registers with the host, by its answer. -/
def Action.registrations : Action → Except Fault Reply → List ValueFunction
  | .step (.load _), .ok _ => loadOrder
  | .step (.define name least most), .ok _ => [.echo name least most]
  | .register f, .ok _ => [f]
  | _, _ => []

/-- The table of a host holds one entry for every name that was registered, with the function that
was last registered under it. -/
structure Host.Holds (h : Host) (registrations : List ValueFunction) : Prop where
  registered : h.registered = registrations.map (·.name)
  last : ∀ name, h.table.find? name = registrations.reverse.find? (·.name == name)
  names : ∀ name, name ∈ h.table.names ↔ name ∈ registrations.map (·.name)
  distinct : h.table.names.Nodup
  size : h.table.size = (registrations.map (·.name)).dedup.length

namespace Host

variable {h : Host} {fs : List ValueFunction} {f : ValueFunction}

theorem Holds.of_last (hregistered : h.registered = fs.map (·.name))
    (hlast : ∀ name, h.table.find? name = fs.reverse.find? (·.name == name)) : h.Holds fs := by
  have hnames (name : String) : name ∈ h.table.names ↔ name ∈ fs.map (·.name) := by
    simp [FunctionTable.mem_names_iff, hlast]
  refine ⟨hregistered, hlast, hnames, h.table.nodup_names, ?_⟩
  have hperm : h.table.names.Perm (fs.map (·.name)).dedup := by
    rw [List.perm_ext_iff_of_nodup h.table.nodup_names (List.nodup_dedup _)]
    intro name
    rw [hnames, List.mem_dedup]
  rw [← FunctionTable.length_names, hperm.length_eq]

theorem holds_empty : Holds {} [] :=
  .of_last rfl fun _ => rfl

theorem Holds.register (hh : h.Holds fs) (f : ValueFunction) :
    (h.register f).Holds (fs ++ [f]) := by
  refine .of_last (by simp [hh.registered]) fun name => ?_
  rw [find?_register, hh.last]
  by_cases hname : f.name = name <;> simp [hname]

theorem Holds.foldl_register (hh : h.Holds fs) (gs : List ValueFunction) :
    (gs.foldl Host.register h).Holds (fs ++ gs) := by
  induction gs generalizing h fs with
  | nil => simpa using hh
  | cons g gs ih => simpa using ih (hh.register g)

/-- Loading the built-in functions once more does not change a table that has them. -/
theorem table_load_of_forall (hbuiltin : ∀ f ∈ builtins, h.table.find? f.name = some f) :
    (h.load .builtin).table = h.table := by
  refine FunctionTable.ext_find? fun name => ?_
  rw [find?_load]
  cases hfound : FunctionTable.builtin.find? name with
  | none => simp
  | some f =>
    obtain ⟨hf, rfl⟩ := FunctionTable.find?_builtin_eq_some_iff.1 hfound
    simp [hbuiltin f hf]

end Host

namespace Session

/-- The functions that actions register with the host, in turn. -/
def registrations (s : Session) (as : List Action) : List ValueFunction :=
  (as.zip (s.actAll as)).flatMap fun (a, answer) => a.registrations answer.1

/-- The session with another host. -/
def withHost (s : Session) (host : Host) : Session :=
  { s with host }

variable {s : Session} {a : Action} {as : List Action} {i : Nat} {r : Registry}

@[simp] theorem registrations_nil : s.registrations [] = [] := rfl

@[simp] theorem registrations_cons :
    s.registrations (a :: as) =
      a.registrations (s.act a).1 ++ (s.act a).2.registrations as := rfl

/-! ## Registrations -/

theorem advance_load_eq_none (hi : s.registries[i]? = none) :
    s.advance (.load i) = (.error .noItem, s) := by
  apply advance_of_error
  rw [step, item, hi]
  rfl

theorem host_eq_of_not_registers (h : a.registers = false) : (s.act a).2.host = s.host := by
  by_contra hne
  rw [registers_of_host_ne hne] at h
  cases h

theorem registrations_of_not_registers (h : a.registers = false) (answer : Except Fault Reply) :
    a.registrations answer = [] := by
  unfold Action.registrations
  split <;> first | rfl | cases h

/-- An action registers its functions one after the other. -/
theorem Standard.host_act (hs : s.Standard) (a : Action) :
    (s.act a).2.host = (a.registrations (s.act a).1).foldl Host.register s.host := by
  cases hregisters : a.registers with
  | false =>
    rw [host_eq_of_not_registers hregisters, registrations_of_not_registers hregisters]
    rfl
  | true =>
    unfold Action.registers at hregisters
    split at hregisters
    next i =>
      cases hi : s.registries[i]? with
      | none =>
        rw [act, advance_load_eq_none hi]
        rfl
      | some r =>
        rw [act, advance_load hi, hs.registries r (List.mem_of_getElem? hi)]
        rfl
    next => rfl
    next => rfl
    next => cases hregisters

theorem Standard.holds_afterAll (hs : s.Standard) {fs : List ValueFunction}
    (hh : s.host.Holds fs) (as : List Action) :
    (s.afterAll as).host.Holds (fs ++ s.registrations as) := by
  induction as generalizing s fs with
  | nil => simpa using hh
  | cons a as ih =>
    have hact : (s.act a).2.host.Holds (fs ++ a.registrations (s.act a).1) := by
      rw [hs.host_act a]
      exact hh.foldl_register _
    simpa using ih (standard_act hs a) hact

/-! ## Loading a registry -/

/-- Loading registry `i` registers the built-in functions in order, by whatever enumeration `keys`
of their names. After it the table has them again, keeps all other functions, and stays as it is if
any registry is loaded next. -/
structure Loads (s : Session) (i : Nat) (r : Registry) : Prop where
  answer : (s.act (.step (.load i))).1 =
    .ok (.loaded (s.host.registered ++ ["em", "rem", "shade", "tint"])
      (s.act (.step (.load i))).2.host.table.size)
  next : (s.act (.step (.load i))).2 = s.withHost (loadOrder.foldl Host.register s.host)
  anyOrder : ∀ keys : List String, keys.Perm r.functions.names →
    (s.act (.step (.load i))).2.host =
      ((keys.mergeSort (· ≤ ·)).filterMap r.functions.find?).foldl Host.register s.host
  builtin : ∀ f ∈ builtins, (s.act (.step (.load i))).2.host.table.find? f.name = some f
  other : ∀ name ∉ builtinNames,
    (s.act (.step (.load i))).2.host.table.find? name = s.host.table.find? name
  again : ∀ j, ((s.act (.step (.load i))).2.act (.step (.load j))).2.host.table =
    (s.act (.step (.load i))).2.host.table

theorem Standard.table_act_load (hs : s.Standard)
    (hbuiltin : ∀ f ∈ builtins, s.host.table.find? f.name = some f) (j : Nat) :
    (s.act (.step (.load j))).2.host.table = s.host.table := by
  cases hj : s.registries[j]? with
  | none => rw [act, advance_load_eq_none hj]
  | some r =>
    rw [act, advance_load hj, hs.registries r (List.mem_of_getElem? hj)]
    exact Host.table_load_of_forall hbuiltin

theorem Standard.loads (hs : s.Standard) (hi : s.registries[i]? = some r) : s.Loads i r := by
  have hfunctions : r.functions = .builtin := hs.registries r (List.mem_of_getElem? hi)
  have hact : s.act (.step (.load i)) =
      (.ok (.loaded (s.host.load .builtin).registered (s.host.load .builtin).table.size),
        s.withHost (s.host.load .builtin)) := by
    rw [act, advance_load hi, hfunctions]
    rfl
  have hbuiltin : ∀ f ∈ builtins,
      (s.act (.step (.load i))).2.host.table.find? f.name = some f := by
    intro f hf
    rw [hact]
    change (s.host.load .builtin).table.find? f.name = some f
    rw [Host.find?_load, FunctionTable.find?_builtin_eq_some_iff.2 ⟨hf, rfl⟩, Option.some_or]
  have hnext := standard_act hs (.step (.load i))
  refine ⟨?_, ?_, fun keys hkeys => ?_, hbuiltin, fun name hname => ?_,
    hnext.table_act_load hbuiltin⟩
  · rw [hact, Host.registered_load]
    rfl
  · rw [hact]
    rfl
  · rw [FunctionTable.filterMap_find?_mergeSort hkeys, hact, hfunctions]
    rfl
  · have hnone : FunctionTable.builtin.find? name = none := by
      rwa [← Option.not_isSome_iff_eq_none, FunctionTable.isSome_find?_builtin_iff]
    rw [hact]
    change (s.host.load .builtin).table.find? name = s.host.table.find? name
    rw [Host.find?_load, hnone, Option.none_or]

/-! ## Sessions apart from the host -/

@[simp] theorem handles_withHost (host : Host) : (s.withHost host).handles = s.handles := rfl

@[simp] theorem snapshots_withHost (host : Host) : (s.withHost host).snapshots = s.snapshots := rfl

@[simp] theorem registries_withHost (host : Host) :
    (s.withHost host).registries = s.registries := rfl

@[simp] theorem batches_withHost (host : Host) : (s.withHost host).batches = s.batches := rfl

@[simp] theorem settingsOf_withHost (host : Host) (family : Nat) :
    (s.withHost host).settingsOf family = s.settingsOf family := rfl

theorem step_withHost {t : Step} (ht : (Action.step t).usesHost = false) (host : Host) :
    (s.withHost host).step t =
      (s.step t).map fun (reply, next) => (reply, next.withHost host) := by
  cases t with
  | load i | define name least most | hostFunctions | callHost name args source => cases ht
  | registryDefault => rfl
  | handle source =>
    simp only [step]
    cases checked source.settings <;> rfl
  | cloneHandle i | setBase i px | snapshot i | registry i =>
    simp only [step, handles_withHost]
    cases item s.handles i <;> rfl
  | handleOfSnapshot i | rebase i px =>
    simp only [step, snapshots_withHost]
    cases item s.snapshots i <;> rfl
  | cloneRegistry i | handleOfRegistry i | names i | contains i name | lookup i name | batch i =>
    simp only [step, registries_withHost]
    cases item s.registries i <;> rfl
  | replace i source =>
    simp only [step, handles_withHost]
    cases item s.handles i with
    | error fault => rfl
    | ok family =>
      dsimp only [bind, Except.bind]
      cases checked source.settings <;> rfl
  | invoke i name args =>
    simp only [step, registries_withHost, settingsOf_withHost]
    cases item s.registries i with
    | error fault => rfl
    | ok r =>
      dsimp only [bind, Except.bind]
      cases checked (r.functions.invoke name args (s.settingsOf r.family)) <;> rfl
  | invokeWith i form name args =>
    simp only [step, registries_withHost, settingsOf_withHost]
    cases item s.registries i with
    | error fault => rfl
    | ok r =>
      dsimp only [bind, Except.bind]
      cases checked (form.invoke r.functions name args (s.settingsOf r.family)) <;> rfl
  | invokeBatch i name args =>
    simp only [step, batches_withHost]
    cases item s.batches i with
    | error fault => rfl
    | ok b =>
      dsimp only [bind, Except.bind]
      cases checked (b.functions.invoke name args b.settings) <;> rfl

/-- Only what uses the table of the host depends on it. -/
theorem act_withHost (ha : a.usesHost = false) (host : Host) :
    (s.withHost host).act a = ((s.act a).1, (s.act a).2.withHost host) := by
  cases a with
  | register f => cases ha
  | step t =>
    rw [act, act, advance, advance, step_withHost ha]
    cases s.step t <;> rfl

/-- What uses the table of the host changes nothing else. -/
theorem exists_act_eq_withHost (ha : a.usesHost) : ∃ host, (s.act a).2 = s.withHost host := by
  cases a with
  | register f => exact ⟨_, rfl⟩
  | step t =>
    cases t with
    | hostFunctions | callHost name args source => exact ⟨s.host, act_eq_of_isQuery rfl⟩
    | define name least most => exact ⟨_, rfl⟩
    | load i =>
      cases hi : s.registries[i]? with
      | none => exact ⟨s.host, congrArg Prod.snd (advance_load_eq_none hi)⟩
      | some r => exact ⟨_, congrArg Prod.snd (advance_load hi)⟩
    | _ => cases ha

/-- Without the actions on the table of the host, a session ends up the same apart from it. -/
theorem exists_afterAll_eq_withHost (s : Session) (as : List Action) :
    ∃ host, s.afterAll as = (s.afterAll (as.filter (!·.usesHost))).withHost host := by
  induction as using List.reverseRecOn with
  | nil => exact ⟨s.host, rfl⟩
  | append_singleton as a ih =>
    obtain ⟨host, hafter⟩ := ih
    rw [afterAll_append, List.filter_append, hafter]
    cases ha : a.usesHost with
    | true =>
      obtain ⟨last, hact⟩ := exists_act_eq_withHost (s := s.afterAll as) ha
      rw [hafter] at hact
      refine ⟨last, ?_⟩
      simp only [List.filter_singleton, ha, Bool.not_true, cond_false, List.append_nil]
      exact hact
    | false =>
      refine ⟨host, ?_⟩
      simp only [afterAll_cons, act_withHost ha, List.filter_singleton, ha, afterAll_append]
      rfl

/-- Sessions after the same actions, apart from those on the table of the host, give the same
answers to what does not use it. -/
theorem act_eq_of_filter_eq {as bs : List Action}
    (h : as.filter (!·.usesHost) = bs.filter (!·.usesHost)) (ha : a.usesHost = false) :
    ((s.afterAll as).act a).1 = ((s.afterAll bs).act a).1 := by
  obtain ⟨host, has⟩ := exists_afterAll_eq_withHost s as
  obtain ⟨host', hbs⟩ := exists_afterAll_eq_withHost s bs
  rw [has, hbs, h, act_withHost ha, act_withHost ha]

/-- After any actions, the host's table holds what was last registered under each name, and loading
any registry registers the built-in functions in order. What does not use the table does not depend
on any registration. -/
theorem host_holds_last_registered (as : List Action) :
    (afterAll {} as).host.Holds (registrations {} as) ∧
    (∀ i r, (afterAll {} as).registries[i]? = some r → (afterAll {} as).Loads i r) ∧
    ∀ bs a, as.filter (!·.usesHost) = bs.filter (!·.usesHost) → a.usesHost = false →
      ((afterAll {} as).act a).1 = ((afterAll {} bs).act a).1 := by
  have hs : (afterAll {} as).Standard := standard_afterAll as
  refine ⟨?_, fun _ _ => hs.loads, fun _ _ => act_eq_of_filter_eq⟩
  simpa using standard_empty.holds_afterAll Host.holds_empty as

/-- The host loads a registry, and registers two functions, one of them under a built-in name. -/
def overrideActions : List Action :=
  [.step .registryDefault, .step (.load 0), .register (.echo "rem" 0 9),
    .step (.define "twice" 1 1)]

/-- The table holds the function that overrides a built-in one until a registry is loaded again. The
registry goes on to call the built-in function. -/
theorem host_holds_last_registered_overrideActions :
    (afterAll {} overrideActions).host.table.find? "rem" = some (.echo "rem" 0 9) ∧
    (afterAll {} overrideActions).host.table.size = 5 ∧
    ((afterAll {} overrideActions).act (.step (.load 0))).2.host.table.find? "rem" =
      some .rem ∧
    ((afterAll {} overrideActions).act (.step (.load 0))).2.host.table.find? "twice" =
      some (.echo "twice" 1 1) ∧
    ((afterAll {} overrideActions).act (.step (.invoke 0 "rem" []))).1 =
      ((afterAll {} [.step .registryDefault]).act (.step (.invoke 0 "rem" []))).1 := by
  obtain ⟨hholds, hloads, hapart⟩ := host_holds_last_registered overrideActions
  have hload := hloads 0 { family := 0 } rfl
  refine ⟨hholds.last "rem", hholds.size, hload.builtin .rem (by simp [builtins]), ?_,
    hapart _ _ rfl rfl⟩
  rw [hload.other "twice" (by decide), hholds.last]
  rfl

end Session

end StyleValues
