import StyleValues.Session.Step

/-!
# Well-formed sessions

The handles and registries of a session belong to families that exist. The empty session is well
formed, and every step keeps it so.
-/

namespace StyleValues.Session

/-- Every handle and every registry belongs to a family of the session. -/
structure WellFormed (s : Session) : Prop where
  handles : ∀ family ∈ s.handles, family < s.families.length
  registries : ∀ r ∈ s.registries, r.family < s.families.length

theorem wellFormed_empty : WellFormed {} :=
  ⟨by simp, by simp⟩

theorem item_eq_ok_iff {α : Type} {items : List α} {index : Nat} {a : α} :
    item items index = .ok a ↔ items[index]? = some a := by
  unfold item
  split <;> simp_all

theorem mem_of_item {α : Type} {items : List α} {index : Nat} {a : α}
    (h : item items index = .ok a) : a ∈ items :=
  List.mem_of_getElem? (item_eq_ok_iff.1 h)

variable {s : Session}

theorem WellFormed.addFamily (h : s.WellFormed) (settings : Settings) :
    (s.addFamily settings).WellFormed := by
  refine ⟨fun family hf => ?_, fun r hr => ?_⟩
  · have := h.handles family hf
    simp only [Session.addFamily, List.length_append, List.length_singleton]
    omega
  · have := h.registries r hr
    simp only [Session.addFamily, List.length_append, List.length_singleton]
    omega

theorem WellFormed.write (h : s.WellFormed) (family : Nat) (settings : Settings) :
    (s.write family settings).WellFormed :=
  ⟨by simpa [Session.write] using h.handles, by simpa [Session.write] using h.registries⟩

theorem WellFormed.addHandle (h : s.WellFormed) {family : Nat} (hf : family < s.families.length) :
    (s.addHandle family).2.WellFormed := by
  refine ⟨fun f hm => ?_, h.registries⟩
  rcases List.mem_append.1 hm with hm | hm
  · exact h.handles f hm
  · exact List.mem_singleton.1 hm ▸ hf

theorem WellFormed.addRegistry (h : s.WellFormed) {r : Registry}
    (hr : r.family < s.families.length) : (s.addRegistry r).2.WellFormed := by
  refine ⟨h.handles, fun q hm => ?_⟩
  rcases List.mem_append.1 hm with hm | hm
  · exact h.registries q hm
  · exact List.mem_singleton.1 hm ▸ hr

theorem WellFormed.step (h : s.WellFormed) {t : Step} {reply : Reply} {next : Session}
    (ht : s.step t = .ok (reply, next)) : next.WellFormed := by
  cases t with
  | handle source =>
    obtain ⟨settings, -, ht⟩ := exists_of_bind_eq_ok ht
    cases ht
    exact (h.addFamily settings).addHandle (by simp [Session.addFamily])
  | cloneHandle i =>
    obtain ⟨family, hf, ht⟩ := exists_of_bind_eq_ok ht
    cases ht
    exact h.addHandle (h.handles family (mem_of_item hf))
  | handleOfSnapshot i =>
    obtain ⟨settings, -, ht⟩ := exists_of_bind_eq_ok ht
    cases ht
    exact (h.addFamily settings).addHandle (by simp [Session.addFamily])
  | setBase i px =>
    obtain ⟨family, -, ht⟩ := exists_of_bind_eq_ok ht
    cases ht
    exact h.write family _
  | replace i source =>
    obtain ⟨family, -, ht⟩ := exists_of_bind_eq_ok ht
    obtain ⟨settings, -, ht⟩ := exists_of_bind_eq_ok ht
    cases ht
    exact h.write family settings
  | registry i =>
    obtain ⟨family, hf, ht⟩ := exists_of_bind_eq_ok ht
    cases ht
    exact h.addRegistry (h.handles family (mem_of_item hf))
  | registryDefault =>
    cases ht
    exact (h.addFamily _).addRegistry (by simp [Session.addFamily])
  | cloneRegistry i =>
    obtain ⟨r, hr, ht⟩ := exists_of_bind_eq_ok ht
    cases ht
    exact h.addRegistry (h.registries r (mem_of_item hr))
  | handleOfRegistry i =>
    obtain ⟨r, hr, ht⟩ := exists_of_bind_eq_ok ht
    cases ht
    exact h.addHandle (h.registries r (mem_of_item hr))
  | callHost name args source =>
    obtain ⟨settings, -, ht⟩ := exists_of_bind_eq_ok ht
    split at ht
    · cases ht
      exact h
    · obtain ⟨v, -, ht⟩ := exists_of_bind_eq_ok ht
      cases ht
      exact h
  | define name least most | hostFunctions =>
    cases ht
    exact ⟨h.handles, h.registries⟩
  | snapshot i | rebase i px | names i | contains i name | lookup i name | batch i | load i =>
    obtain ⟨a, -, ht⟩ := exists_of_bind_eq_ok ht
    cases ht
    exact ⟨h.handles, h.registries⟩
  | invoke i name args | invokeWith i form name args | invokeBatch i name args =>
    obtain ⟨a, -, ht⟩ := exists_of_bind_eq_ok ht
    obtain ⟨v, -, ht⟩ := exists_of_bind_eq_ok ht
    cases ht
    exact h

theorem WellFormed.advance (h : s.WellFormed) (t : Step) : (s.advance t).2.WellFormed := by
  unfold Session.advance
  split
  next ht => exact h.step ht
  next => exact h

end StyleValues.Session
