import Mathlib
import StyleValues.Session.WellFormed

/-!
# What steps do to settings

Settings are held by handles, and by registries through handles of their own. What a step does to
settings is an event: a new holder founds a family or joins that of another holder, or settings
are written through a holder.

## Main definitions

* `Holder`, `Session.family?`, `Session.settings?`: who holds settings, and which.
* `Event`, `Event.of?`: the event that a step is.
* `Session.Change`: everything that one step can do to a session.

## Main results

* `Session.change_advance`: a step is a change, with its event.
-/

namespace StyleValues

/-- A handle, or the own handle of a registry. -/
inductive Holder
  | handle (index : Nat)
  | registry (index : Nat)
deriving DecidableEq

inductive Event
  /-- A new holder with settings of its own. -/
  | founded (holder : Holder) (settings : Settings)
  /-- A new holder that shares the settings of another. -/
  | joined (origin holder : Holder)
  | written (holder : Holder) (settings : Settings)

/-- The event that a step is by its answer. Steps that fail or only read settings are none. -/
def Event.of? : Step → Except Fault Reply × Session → Option Event
  | .handle source, (.ok (.added i), _) => source.settings.toOption.map (.founded (.handle i))
  | .handleOfSnapshot k, (.ok (.added i), next) => next.snapshots[k]?.map (.founded (.handle i))
  | .registryDefault, (.ok (.added i), _) => some (.founded (.registry i) {})
  | .cloneHandle h, (.ok (.added i), _) => some (.joined (.handle h) (.handle i))
  | .registry h, (.ok (.added i), _) => some (.joined (.handle h) (.registry i))
  | .cloneRegistry r, (.ok (.added i), _) => some (.joined (.registry r) (.registry i))
  | .handleOfRegistry r, (.ok (.added i), _) => some (.joined (.registry r) (.handle i))
  | .setBase h px, (.ok _, _) => some (.written (.handle h) { basePx := px })
  | .replace h source, (.ok _, _) => source.settings.toOption.map (.written (.handle h))
  | _, _ => none

/-- The handle through which a step writes, if it does. -/
def Step.writesThrough? : Step → Option Nat
  | .setBase h _ | .replace h _ => some h
  | _ => none

theorem Event.of?_error (t : Step) (fault : Fault) (s : Session) :
    of? t (.error fault, s) = none := by
  cases t <;> rfl

theorem Event.exists_of_written {t : Step} {answer : Except Fault Reply × Session} {a : Holder}
    {settings : Settings} (h : of? t answer = some (.written a settings)) :
    ∃ i, a = .handle i ∧ t.writesThrough? = some i := by
  unfold of? at h
  split at h <;> grind [Step.writesThrough?, Option.map_eq_some_iff]

namespace Session

def family? (s : Session) : Holder → Option Nat
  | .handle i => s.handles[i]?
  | .registry i => s.registries[i]?.map (·.family)

/-- The settings that a holder refers to. -/
def settings? (s : Session) (a : Holder) : Option Settings :=
  (s.family? a).map s.settingsOf

variable {s : Session} {t : Step}

/-! ## Families of holders -/

@[simp] theorem family?_addFamily (settings : Settings) (a : Holder) :
    (s.addFamily settings).family? a = s.family? a := by
  cases a <;> rfl

@[simp] theorem family?_write (family : Nat) (settings : Settings) (a : Holder) :
    (s.write family settings).family? a = s.family? a := by
  cases a <;> rfl

theorem family?_registry {i : Nat} {r : Registry} (h : s.registries[i]? = some r) :
    s.family? (.registry i) = some r.family := by
  rw [family?, h]
  rfl

theorem WellFormed.family?_lt (h : s.WellFormed) {a : Holder} {family : Nat}
    (ha : s.family? a = some family) : family < s.families.length := by
  cases a with
  | handle i => exact h.handles family (List.mem_of_getElem? ha)
  | registry i =>
    obtain ⟨r, hr, rfl⟩ := Option.map_eq_some_iff.1 ha
    exact h.registries r (List.mem_of_getElem? hr)

theorem settingsOf_of_append_of_lt {next : Session} {settings : Settings} {family : Nat}
    (h : next.families = s.families ++ [settings]) (hlt : family < s.families.length) :
    next.settingsOf family = s.settingsOf family := by
  simp [settingsOf, h, List.getElem?_append_left hlt]

theorem settingsOf_of_append_length {next : Session} {settings : Settings}
    (h : next.families = s.families ++ [settings]) :
    next.settingsOf s.families.length = settings := by
  simp [settingsOf, h]

/-- A new holder belongs to a family, and the others do as before. -/
structure Adds (s next : Session) (a : Holder) (family : Nat) : Prop where
  absent : s.family? a = none
  new : next.family? a = some family
  other : ∀ b, b ≠ a → next.family? b = s.family? b

namespace Adds

variable {next : Session} {a b : Holder} {family other : Nat}

theorem old (h : s.Adds next a family) (hb : s.family? b = some other) :
    next.family? b = some other := by
  rw [h.other b, hb]
  rintro rfl
  exact nomatch h.absent.symm.trans hb

theorem cases (h : s.Adds next a family) (hb : next.family? b = some other) :
    b = a ∧ other = family ∨ s.family? b = some other := by
  by_cases hba : b = a
  · subst hba
    exact .inl ⟨rfl, Option.some.inj (hb.symm.trans h.new)⟩
  · exact .inr (h.other b hba ▸ hb)

/-- A holder that founds a family does not touch the others. -/
theorem family?_eq_some_iff_of_lt (h : s.Adds next a s.families.length)
    (hlt : family < s.families.length) :
    next.family? b = some family ↔ s.family? b = some family := by
  refine ⟨fun hb => ?_, h.old⟩
  rcases h.cases hb with ⟨-, rfl⟩ | hb
  · omega
  · exact hb

/-- A holder that founds a family is its only member. -/
theorem eq_of_family?_eq_length (h : s.Adds next a s.families.length) (hs : s.WellFormed)
    (hb : next.family? b = some s.families.length) : b = a := by
  rcases h.cases hb with ⟨rfl, -⟩ | hb
  · rfl
  · have := hs.family?_lt hb
    omega

theorem of_addFamily {settings : Settings} (h : (s.addFamily settings).Adds next a family) :
    s.Adds next a family :=
  ⟨by simpa using h.absent, h.new, by simpa using h.other⟩

end Adds

theorem adds_addHandle (s : Session) (family : Nat) :
    s.Adds (s.addHandle family).2 (.handle s.handles.length) family where
  absent := by simp [family?]
  new := by simp [family?, addHandle]
  other b hb := by
    cases b with
    | handle i =>
      have hi : i ≠ s.handles.length := fun h => hb (congrArg Holder.handle h)
      simp only [family?, addHandle, List.getElem?_append]
      grind
    | registry i => rfl

theorem adds_addRegistry (s : Session) (r : Registry) :
    s.Adds (s.addRegistry r).2 (.registry s.registries.length) r.family where
  absent := by simp [family?]
  new := by simp [family?, addRegistry]
  other b hb := by
    cases b with
    | handle i => rfl
    | registry i =>
      have hi : i ≠ s.registries.length := fun h => hb (congrArg Holder.registry h)
      simp only [family?, addRegistry, List.getElem?_append]
      grind

/-! ## Changes -/

theorem checked_eq_ok_iff {α : Type} {r : Except Error α} {a : α} :
    checked r = .ok a ↔ r = .ok a := by
  cases r <;> simp [checked, Except.mapError]

/-- Everything that a step can do to a session, with the event that it is. -/
inductive Change (s : Session) : Option Event → Session → Prop
  | read : Change s none s
  | foundHandle (settings : Settings) :
    Change s (some (.founded (.handle s.handles.length) settings))
      ((s.addFamily settings).addHandle s.families.length).2
  | foundRegistry :
    Change s (some (.founded (.registry s.registries.length) {}))
      ((s.addFamily {}).addRegistry { family := s.families.length }).2
  | joinHandle {a : Holder} {family : Nat} (ha : s.family? a = some family) :
    Change s (some (.joined a (.handle s.handles.length))) (s.addHandle family).2
  | joinRegistry {a : Holder} {r : Registry} (ha : s.family? a = some r.family)
    (hr : r.functions = .builtin ∨ r ∈ s.registries) :
    Change s (some (.joined a (.registry s.registries.length))) (s.addRegistry r).2
  | write {i family : Nat} (settings : Settings) (hi : s.handles[i]? = some family) :
    Change s (some (.written (.handle i) settings)) (s.write family settings)
  | snapshot (settings : Settings) : Change s none (s.addSnapshot settings).2
  | batch {r : Registry} (hr : r ∈ s.registries) :
    Change s none (s.addBatch ⟨r.functions, s.settingsOf r.family⟩).2
  | host (host : Host) : Change s none { s with host }

theorem change_of_step {reply : Reply} {next : Session} (ht : s.step t = .ok (reply, next)) :
    s.Change (Event.of? t (.ok reply, next)) next := by
  cases t with
  | handle source =>
    obtain ⟨settings, hsettings, ht⟩ := exists_of_bind_eq_ok ht
    cases ht
    rw [checked_eq_ok_iff] at hsettings
    simp only [Event.of?, hsettings]
    exact .foundHandle settings
  | handleOfSnapshot k =>
    obtain ⟨settings, hsettings, ht⟩ := exists_of_bind_eq_ok ht
    cases ht
    rw [item_eq_ok_iff] at hsettings
    simp only [Event.of?, addFamily, hsettings]
    exact .foundHandle settings
  | registryDefault =>
    cases ht
    exact .foundRegistry
  | cloneHandle i =>
    obtain ⟨family, hf, ht⟩ := exists_of_bind_eq_ok ht
    cases ht
    exact .joinHandle (item_eq_ok_iff.1 hf)
  | handleOfRegistry i =>
    obtain ⟨r, hr, ht⟩ := exists_of_bind_eq_ok ht
    cases ht
    exact .joinHandle (family?_registry (item_eq_ok_iff.1 hr))
  | registry i =>
    obtain ⟨family, hf, ht⟩ := exists_of_bind_eq_ok ht
    cases ht
    exact .joinRegistry (item_eq_ok_iff.1 hf) (.inl rfl)
  | cloneRegistry i =>
    obtain ⟨r, hr, ht⟩ := exists_of_bind_eq_ok ht
    cases ht
    exact .joinRegistry (family?_registry (item_eq_ok_iff.1 hr)) (.inr (mem_of_item hr))
  | setBase i px =>
    obtain ⟨family, hf, ht⟩ := exists_of_bind_eq_ok ht
    cases ht
    exact .write _ (item_eq_ok_iff.1 hf)
  | replace i source =>
    obtain ⟨family, hf, ht⟩ := exists_of_bind_eq_ok ht
    obtain ⟨settings, hsettings, ht⟩ := exists_of_bind_eq_ok ht
    cases ht
    rw [checked_eq_ok_iff] at hsettings
    simp only [Event.of?, hsettings]
    exact .write settings (item_eq_ok_iff.1 hf)
  | snapshot i | rebase i px =>
    obtain ⟨a, -, ht⟩ := exists_of_bind_eq_ok ht
    cases ht
    exact .snapshot _
  | batch i =>
    obtain ⟨r, hr, ht⟩ := exists_of_bind_eq_ok ht
    cases ht
    exact .batch (mem_of_item hr)
  | load i =>
    obtain ⟨r, -, ht⟩ := exists_of_bind_eq_ok ht
    cases ht
    exact .host _
  | define name least most =>
    cases ht
    exact .host _
  | hostFunctions =>
    cases ht
    exact .read
  | names i | contains i name | lookup i name =>
    obtain ⟨r, -, ht⟩ := exists_of_bind_eq_ok ht
    cases ht
    exact .read
  | invoke i name args | invokeWith i form name args | invokeBatch i name args =>
    obtain ⟨a, -, ht⟩ := exists_of_bind_eq_ok ht
    obtain ⟨v, -, ht⟩ := exists_of_bind_eq_ok ht
    cases ht
    exact .read
  | callHost name args source =>
    obtain ⟨settings, -, ht⟩ := exists_of_bind_eq_ok ht
    split at ht
    · cases ht
      exact .read
    · obtain ⟨v, -, ht⟩ := exists_of_bind_eq_ok ht
      cases ht
      exact .read

theorem change_advance (s : Session) (t : Step) :
    s.Change (Event.of? t (s.advance t)) (s.advance t).2 := by
  unfold advance
  split
  next ht => exact change_of_step ht
  next =>
    rw [Event.of?_error]
    exact .read

end Session

end StyleValues
