import StyleValues.Proofs.Session.Routes
import StyleValues.Proofs.Session.Sharing

/-!
# Frames of actions

An action changes one part of a session at most: settings change by writes, the table of the host
by registrations, and items are only added. Actions that fail and actions that only read change
nothing, so they can be erased from a run without a trace.

## Main definitions

* `Session.Framed`: all that an action may change.
* `kept`, `Session.Erasable`: erasing actions that fail or only read.

## Main results

* `Session.framed_and_erasable`: the frame of every action, and runs without the erased actions.
-/

namespace StyleValues

/-- The elements at the places that are marked. Those beyond all marks are kept, too. -/
def kept {α : Type} : List Bool → List α → List α
  | [], as => as
  | _, [] => []
  | true :: marks, a :: as => a :: kept marks as
  | false :: marks, _ :: as => kept marks as

namespace Session

/-- All that an action may change. -/
structure Framed (s : Session) (a : Action) : Prop where
  /-- Settings change by a write through a handle of their family. -/
  settings : ∀ b settings, s.settings? b = some settings →
    (s.act a).2.settings? b ≠ some settings →
      ∃ i reply, a.writesThrough? = some i ∧ (s.act a).1 = .ok reply ∧
        s.family? (.handle i) = s.family? b
  host : (s.act a).2.host ≠ s.host → a.registers ∧ ∃ reply, (s.act a).1 = .ok reply
  handles : s.handles <+: (s.act a).2.handles
  registries : s.registries <+: (s.act a).2.registries
  snapshots : s.snapshots <+: (s.act a).2.snapshots
  batches : s.batches <+: (s.act a).2.batches
  query : a.isQuery → (s.act a).2 = s
  failure : ∀ fault, (s.act a).1 = .error fault → (s.act a).2 = s

/-- All actions at places with the mark `false` fail or only read. -/
def Erasable (s : Session) (as : List Action) (marks : List Bool) : Prop :=
  ∀ (i : Nat) (a : Action) (answer : Except Fault Reply × Session),
    marks[i]? = some false → as[i]? = some a → (s.actAll as)[i]? = some answer →
    a.isQuery ∨ ∃ fault, answer.1 = .error fault

variable {s next : Session} {a : Action} {t : Step} {fault : Fault} {reply : Reply}

/-! ## Actions that change nothing -/

theorem act_eq_of_error (h : (s.act a).1 = .error fault) : (s.act a).2 = s := by
  cases a with
  | step t =>
    cases ht : s.step t with
    | error fault => simp [act, advance_of_error ht]
    | ok result => simp [act, advance_of_ok ht] at h
  | register f => cases h

theorem step_eq_of_isQuery (h : (Action.step t).isQuery) (ht : s.step t = .ok (reply, next)) :
    next = s := by
  cases t with
  | names i | contains i name | lookup i name =>
    obtain ⟨r, -, ht⟩ := exists_of_bind_eq_ok ht
    cases ht
    rfl
  | invoke i name args | invokeWith i form name args | invokeBatch i name args =>
    obtain ⟨a, -, ht⟩ := exists_of_bind_eq_ok ht
    obtain ⟨v, -, ht⟩ := exists_of_bind_eq_ok ht
    cases ht
    rfl
  | hostFunctions =>
    cases ht
    rfl
  | callHost name args source =>
    obtain ⟨settings, -, ht⟩ := exists_of_bind_eq_ok ht
    split at ht
    · cases ht
      rfl
    · obtain ⟨v, -, ht⟩ := exists_of_bind_eq_ok ht
      cases ht
      rfl
  | _ => cases h

theorem act_eq_of_isQuery (h : a.isQuery) : (s.act a).2 = s := by
  cases a with
  | step t =>
    cases ht : s.step t with
    | error fault => simp [act, advance_of_error ht]
    | ok result => simp [act, advance_of_ok ht, step_eq_of_isQuery h ht]
  | register f => cases h

/-! ## Frames -/

theorem handles_of_change {event? : Option Event} (hc : s.Change event? next) :
    s.handles <+: next.handles := by
  cases hc with
  | foundHandle settings | joinHandle ha => exact List.prefix_append _ _
  | _ => exact List.prefix_refl _

theorem registries_of_change {event? : Option Event} (hc : s.Change event? next) :
    s.registries <+: next.registries := by
  cases hc with
  | foundRegistry | joinRegistry ha hr => exact List.prefix_append _ _
  | _ => exact List.prefix_refl _

theorem registers_of_host_ne (h : (s.act a).2.host ≠ s.host) : a.registers := by
  have hc := hostChange_act s a
  generalize (s.act a).2.host = host at h hc
  cases hc with
  | same => exact absurd rfl h
  | load hr => rfl
  | define ha =>
    unfold Action.defines? at ha
    split at ha
    · rfl
    · rfl
    · cases ha

theorem exists_ok_of_ne (h : (s.act a).2 ≠ s) : ∃ reply, (s.act a).1 = .ok reply := by
  cases hanswer : (s.act a).1 with
  | error fault => exact absurd (act_eq_of_error hanswer) h
  | ok reply => exact ⟨reply, rfl⟩

theorem WellFormed.framed (hs : s.WellFormed) (a : Action) : s.Framed a where
  settings b settings hb hne := by
    obtain ⟨family, hfamily, rfl⟩ := Option.map_eq_some_iff.1 hb
    by_contra hno
    refine hne (settings?_of_change hs (change_act s a) hfamily fun c new hwritten hc => hno ?_)
    obtain ⟨i, rfl, hi⟩ := Event.exists_of_written_ofAction? hwritten
    obtain ⟨reply, hreply⟩ : ∃ reply, (s.act a).1 = .ok reply :=
      exists_ok_of_ne fun heq => hne (heq.symm ▸ hb)
    exact ⟨i, reply, hi, hreply, hc.trans hfamily.symm⟩
  host hne := ⟨registers_of_host_ne hne, exists_ok_of_ne fun heq => hne (congrArg host heq)⟩
  handles := handles_of_change (change_act s a)
  registries := registries_of_change (change_act s a)
  snapshots := (extends_of_change (change_act s a)).snapshots
  batches := (extends_of_change (change_act s a)).batches
  query := act_eq_of_isQuery
  failure _ := act_eq_of_error

/-! ## Erasing actions -/

theorem Erasable.head {as : List Action} {marks : List Bool}
    (h : s.Erasable (a :: as) (false :: marks)) : (s.act a).2 = s := by
  rcases h 0 a (s.act a) rfl rfl rfl with hquery | ⟨fault, hfault⟩
  · exact act_eq_of_isQuery hquery
  · exact act_eq_of_error hfault

theorem Erasable.tail {as : List Action} {mark : Bool} {marks : List Bool}
    (h : s.Erasable (a :: as) (mark :: marks)) : (s.act a).2.Erasable as marks :=
  fun i => h (i + 1)

theorem Erasable.run_kept {as : List Action} {marks : List Bool} (h : s.Erasable as marks) :
    s.actAll (kept marks as) = kept marks (s.actAll as) ∧
    s.afterAll (kept marks as) = s.afterAll as := by
  induction marks generalizing s as with
  | nil => exact ⟨rfl, rfl⟩
  | cons mark marks ih =>
    cases as with
    | nil => exact ⟨rfl, rfl⟩
    | cons a as =>
      obtain ⟨hanswers, hafter⟩ := ih h.tail
      cases mark with
      | true => exact ⟨congrArg (s.act a :: ·) hanswers, hafter⟩
      | false =>
        rw [h.head] at hanswers hafter
        refine ⟨?_, ?_⟩
        · simp only [kept, actAll_cons, h.head, hanswers]
        · simp only [kept, afterAll_cons, h.head, hafter]

/-- In a session after any actions, no action changes more than its frame. Without any of the
actions that fail or only read, a run gives the same answers to all others, and ends in the same
session. -/
theorem framed_and_erasable (earlier : List Action) :
    (∀ a, (afterAll {} earlier).Framed a) ∧
    ∀ as marks, (afterAll {} earlier).Erasable as marks →
      (afterAll {} earlier).actAll (kept marks as) = kept marks ((afterAll {} earlier).actAll as) ∧
      (afterAll {} earlier).afterAll (kept marks as) = (afterAll {} earlier).afterAll as :=
  ⟨(wellFormed_afterAll earlier).framed, fun _ _ h => h.run_kept⟩

/-- A handle and its registry, and a function of the host under a built-in name. -/
def frameActions : List Action :=
  [.step (.handle (.px 10)), .step (.registry 0), .register (.echo "rem" 0 9)]

/-- A call without its argument, options that are no assignment, and a call through the host. -/
def tracelessActions : List Action :=
  [.step (.invoke 0 "rem" []), .step (.replace 0 (.options "base-px=8 4")),
    .step (.callHost "rem" [] .default)]

/-- A write after actions that leave no trace has the same answer without them. Until then, the
handle keeps its base of ten. -/
theorem framed_and_erasable_tracelessActions :
    (afterAll {} frameActions).Erasable (tracelessActions ++ [.step (.setBase 0 4)])
      [false, false, false, true] ∧
    (afterAll {} frameActions).actAll [.step (.setBase 0 4)] =
      ((afterAll {} frameActions).actAll (tracelessActions ++ [.step (.setBase 0 4)])).drop 3 ∧
    ((afterAll {} frameActions).act (.step (.replace 0 (.options "base-px=8 4")))).2.settings?
      (.handle 0) = some { basePx := 10 } := by
  have hreplace : ((afterAll {} frameActions).act
      (.step (.replace 0 (.options "base-px=8 4")))).1 =
        .error (.error (.invalidOption "4" .noEqualsSign)) := by rfl
  have herasable : (afterAll {} frameActions).Erasable
      (tracelessActions ++ [.step (.setBase 0 4)]) [false, false, false, true] := by
    rintro (_ | _ | _ | _ | i) a answer hmark ha hanswer
    · cases ha
      exact .inl rfl
    · cases hanswer
      exact .inr ⟨_, hreplace⟩
    · cases ha
      exact .inl rfl
    all_goals cases hmark
  obtain ⟨hframed, herase⟩ := framed_and_erasable frameActions
  refine ⟨herasable, (herase _ _ herasable).1, ?_⟩
  rw [(hframed _).failure _ hreplace]
  rfl

end Session

end StyleValues
