import StyleValues.Proofs.Session.History

/-!
# Related holders

A history relates the holders that it connects by joins. The settings of related holders are those
last written through one of them, or else those that one of them was founded with. Nothing here
refers to the families of a session.

## Main definitions

* `Related`: connected by joins.
* `LastAmong`: the settings that certain holders have by a history.
-/

namespace StyleValues

/-- Connected by joins, in any direction. -/
def Related (history : List Event) : Holder → Holder → Prop :=
  Relation.EqvGen fun a b => .joined a b ∈ history

/-- The holders that are founded, with their settings. -/
def foundings (history : List Event) : List (Holder × Settings) :=
  history.filterMap fun
    | .founded a settings => some (a, settings)
    | _ => none

/-- The settings that are written, with the holders that they are written through. -/
def writings (history : List Event) : List (Holder × Settings) :=
  history.filterMap fun
    | .written a settings => some (a, settings)
    | _ => none

/-- Settings are founded or written with the holder. -/
def Named (history : List Event) (a : Holder) : Prop :=
  ∃ settings, .founded a settings ∈ history ∨ .written a settings ∈ history

open Classical in
/-- The settings that come with certain holders, in turn. -/
noncomputable def among (p : Holder → Prop) (l : List (Holder × Settings)) : List Settings :=
  (l.filter (p ·.1)).map (·.2)

/-- The settings that are last written through certain holders, or else those of the only founding
among them. -/
def LastAmong (p : Holder → Prop) (history : List Event) (settings : Settings) : Prop :=
  ∃ initial, among p (foundings history) = [initial] ∧
    settings = (among p (writings history)).getLast?.getD initial

namespace Related

variable {history : List Event} {a b : Holder}

theorem append (h : Related history a b) (later : List Event) : Related (history ++ later) a b :=
  Relation.EqvGen.mono (fun _ _ hj => List.mem_append_left later hj) _ _ h

theorem of_joined (h : .joined a b ∈ history) : Related history a b :=
  .rel a b h

end Related

/-! ## Foundings and writings -/

variable {p q : Holder → Prop} {history : List Event} {a b : Holder} {settings : Settings}

@[simp] theorem foundings_append (later : List Event) :
    foundings (history ++ later) = foundings history ++ foundings later :=
  List.filterMap_append

@[simp] theorem writings_append (later : List Event) :
    writings (history ++ later) = writings history ++ writings later :=
  List.filterMap_append

@[simp] theorem foundings_founded : foundings [.founded a settings] = [(a, settings)] := rfl

@[simp] theorem foundings_joined : foundings [.joined a b] = [] := rfl

@[simp] theorem foundings_written : foundings [.written a settings] = [] := rfl

@[simp] theorem writings_founded : writings [.founded a settings] = [] := rfl

@[simp] theorem writings_joined : writings [.joined a b] = [] := rfl

@[simp] theorem writings_written : writings [.written a settings] = [(a, settings)] := rfl

theorem mem_foundings {x : Holder × Settings} :
    x ∈ foundings history ↔ .founded x.1 x.2 ∈ history := by
  rw [foundings, List.mem_filterMap]
  constructor
  · rintro ⟨e, he, hx⟩
    split at hx <;> cases hx
    exact he
  · exact fun he => ⟨_, he, rfl⟩

theorem mem_writings {x : Holder × Settings} :
    x ∈ writings history ↔ .written x.1 x.2 ∈ history := by
  rw [writings, List.mem_filterMap]
  constructor
  · rintro ⟨e, he, hx⟩
    split at hx <;> cases hx
    exact he
  · exact fun he => ⟨_, he, rfl⟩

theorem named_append_founded :
    Named (history ++ [.founded b settings]) a ↔ Named history a ∨ a = b := by
  simp only [Named, List.mem_append, List.mem_singleton, Event.founded.injEq, reduceCtorEq]
  grind

theorem named_append_joined {c d : Holder} :
    Named (history ++ [.joined c d]) a ↔ Named history a := by
  simp [Named]

theorem named_append_written :
    Named (history ++ [.written b settings]) a ↔ Named history a ∨ a = b := by
  simp only [Named, List.mem_append, List.mem_singleton, Event.written.injEq, reduceCtorEq]
  grind

@[simp] theorem among_nil : among p [] = [] := rfl

@[simp] theorem among_append (l m : List (Holder × Settings)) :
    among p (l ++ m) = among p l ++ among p m := by
  simp [among]

theorem among_singleton_of (h : p a) : among p [(a, settings)] = [settings] := by
  simp [among, h]

theorem among_singleton_of_not (h : ¬ p a) : among p [(a, settings)] = [] := by
  simp [among, h]

theorem among_eq_nil {l : List (Holder × Settings)} (h : ∀ x ∈ l, ¬ p x.1) : among p l = [] := by
  rw [among, List.filter_eq_nil_iff.2 fun x hx => by simpa using h x hx]
  rfl

theorem among_congr {l : List (Holder × Settings)} (h : ∀ x ∈ l, p x.1 ↔ q x.1) :
    among p l = among q l := by
  rw [among, List.filter_congr fun x hx => decide_eq_decide.2 (h x hx)]
  rfl

/-! ## Last settings -/

namespace LastAmong

theorem congr (h : LastAmong p history settings)
    (hpq : ∀ a, Named history a → (p a ↔ q a)) : LastAmong q history settings := by
  obtain ⟨initial, hfounded, hlast⟩ := h
  rw [among_congr fun x hx => hpq x.1 ⟨x.2, .inl (mem_foundings.1 hx)⟩] at hfounded
  rw [among_congr fun x hx => hpq x.1 ⟨x.2, .inr (mem_writings.1 hx)⟩] at hlast
  exact ⟨initial, hfounded, hlast⟩

theorem founded (hp : ∀ a, Named history a → ¬ p a) (ha : p a) :
    LastAmong p (history ++ [.founded a settings]) settings := by
  have hfoundings := among_eq_nil fun x hx => hp x.1 ⟨x.2, .inl (mem_foundings.1 hx)⟩
  have hwritings := among_eq_nil fun x hx => hp x.1 ⟨x.2, .inr (mem_writings.1 hx)⟩
  exact ⟨settings, by simp [hfoundings, among_singleton_of ha], by simp [hwritings]⟩

theorem founded_of_not (h : LastAmong p history settings) (ha : ¬ p a) (other : Settings) :
    LastAmong p (history ++ [.founded a other]) settings := by
  obtain ⟨initial, hfounded, hlast⟩ := h
  exact ⟨initial, by simp [hfounded, among_singleton_of_not ha], by simpa using hlast⟩

theorem joined (h : LastAmong p history settings) (a b : Holder) :
    LastAmong p (history ++ [.joined a b]) settings := by
  obtain ⟨initial, hfounded, hlast⟩ := h
  exact ⟨initial, by simpa using hfounded, by simpa using hlast⟩

theorem written {other : Settings} (h : LastAmong p history other) (ha : p a) :
    LastAmong p (history ++ [.written a settings]) settings := by
  obtain ⟨initial, hfounded, -⟩ := h
  exact ⟨initial, by simpa using hfounded, by simp [among_singleton_of ha]⟩

theorem written_of_not (h : LastAmong p history settings) (ha : ¬ p a) (other : Settings) :
    LastAmong p (history ++ [.written a other]) settings := by
  obtain ⟨initial, hfounded, hlast⟩ := h
  exact ⟨initial, by simpa using hfounded, by simpa [among_singleton_of_not ha] using hlast⟩

end LastAmong

end StyleValues
