import StyleValues.Proofs.Session.Actions

/-!
# Isolation of batches and snapshots

A batch and a snapshot hold copies of settings. Later actions add other copies after them and never
change those that exist, so a batch gives the same answers forever.

## Main definitions

* `Session.Extends`: a session keeps the copies of another.

## Main results

* `Session.copies_isolated`: what batches and snapshots hold and answer after any actions.
-/

namespace StyleValues.Session

/-- All snapshots and batches are kept, at their places. -/
structure Extends (s next : Session) : Prop where
  snapshots : s.snapshots <+: next.snapshots
  batches : s.batches <+: next.batches

variable {s next last : Session} {i : Nat} {settings : Settings}

theorem Extends.refl (s : Session) : s.Extends s :=
  ⟨List.prefix_refl _, List.prefix_refl _⟩

theorem Extends.trans (h : s.Extends next) (h' : next.Extends last) : s.Extends last :=
  ⟨h.snapshots.trans h'.snapshots, h.batches.trans h'.batches⟩

theorem extends_of_change {event? : Option Event} (hc : s.Change event? next) :
    s.Extends next := by
  cases hc with
  | snapshot settings => exact ⟨List.prefix_append _ _, List.prefix_refl _⟩
  | batch hr => exact ⟨List.prefix_refl _, List.prefix_append _ _⟩
  | _ => exact ⟨List.prefix_refl _, List.prefix_refl _⟩

theorem extends_afterAll (s : Session) (as : List Action) : s.Extends (s.afterAll as) := by
  induction as generalizing s with
  | nil => exact .refl s
  | cons a as ih => exact (extends_of_change (change_act s a)).trans (ih _)

theorem getElem?_of_isPrefix {α : Type} {as bs : List α} {a : α} (h : as <+: bs)
    (hi : as[i]? = some a) : bs[i]? = some a := by
  obtain ⟨rest, rfl⟩ := h
  grind

/-! ## Batches and snapshots when they are made -/

theorem advance_invokeBatch {b : Batch} (hi : s.batches[i]? = some b) (name : String)
    (args : List Value) :
    s.advance (.invokeBatch i name args) =
      ((checked (b.functions.invoke name args b.settings)).map .value, s) := by
  apply advance_of_checked
  rw [step, item_eq_ok_iff.2 hi]
  rfl

/-- A batch starts with the settings that its registry refers to. -/
theorem Standard.exists_batch (h : s.Standard)
    (hi : s.settings? (.registry i) = some settings) :
    ∃ b created, s.advance (.batch i) = (.ok (.added b), created) ∧
      created.batches[b]? = some ⟨.builtin, settings⟩ := by
  obtain ⟨r, hr, hfunctions, rfl⟩ := h.exists_registry hi
  have hstep : s.step (.batch i) = .ok (s.addBatch ⟨r.functions, s.settingsOf r.family⟩) := by
    rw [step, item_eq_ok_iff.2 hr]
    rfl
  refine ⟨_, _, advance_of_ok hstep, ?_⟩
  simp [hfunctions]

/-- A snapshot is added after the others, and holds the settings of its handle. -/
theorem advance_snapshot (hi : s.settings? (.handle i) = some settings) :
    s.advance (.snapshot i) =
      (.ok (.added s.snapshots.length), { s with snapshots := s.snapshots ++ [settings] }) := by
  obtain ⟨family, hfamily, rfl⟩ := Option.map_eq_some_iff.1 hi
  apply advance_of_ok
  rw [step, item_eq_ok_iff.2 hfamily]
  rfl

theorem exists_snapshot (hi : s.settings? (.handle i) = some settings) :
    ∃ k created, s.advance (.snapshot i) = (.ok (.added k), created) ∧
      created.snapshots[k]? = some settings :=
  ⟨_, _, advance_snapshot hi, List.getElem?_concat_length⟩

theorem Standard.batch_afterAll (h : s.Standard)
    (hi : s.settings? (.registry i) = some settings) {b : Nat}
    (hb : s.advance (.batch i) = (.ok (.added b), next)) (later : List Action) :
    (next.afterAll later).batches[b]? = some ⟨.builtin, settings⟩ := by
  obtain ⟨b', created, heq, hbatch⟩ := h.exists_batch hi
  rw [hb] at heq
  cases heq
  exact getElem?_of_isPrefix (extends_afterAll next later).batches hbatch

/-- A batch evaluates built-in functions under the settings that it started with. -/
theorem Standard.invokeBatch_afterAll (h : s.Standard)
    (hi : s.settings? (.registry i) = some settings) {b : Nat}
    (hb : s.advance (.batch i) = (.ok (.added b), next)) (later : List Action) (name : String)
    (args : List Value) :
    ((next.afterAll later).advance (.invokeBatch b name args)).1 =
      (checked (FunctionTable.builtin.invoke name args settings)).map .value := by
  rw [advance_invokeBatch (h.batch_afterAll hi hb later)]

/-! ## Runs -/

/-- Whatever actions follow, a batch holds the base that its registry had when the batch was made,
and answers any call as the registry did then. So do batches of two sessions if their registries
had the same settings. A snapshot holds what its handle had. -/
theorem copies_isolated (as : List Action) :
    (∀ r settings, (afterAll {} as).settings? (.registry r) = some settings →
      ∃ b created, (afterAll {} as).advance (.batch r) = (.ok (.added b), created) ∧
        (∀ later, (created.afterAll later).batchBases[b]? = some settings.basePx ∧
          ∀ name args, ((created.afterAll later).advance (.invokeBatch b name args)).1 =
            ((afterAll {} as).advance (.invoke r name args)).1) ∧
        ∀ as' r' b' created', (afterAll {} as').settings? (.registry r') = some settings →
          (afterAll {} as').advance (.batch r') = (.ok (.added b'), created') →
          ∀ later later' name args,
            ((created.afterAll later).advance (.invokeBatch b name args)).1 =
              ((created'.afterAll later').advance (.invokeBatch b' name args)).1) ∧
    ∀ h settings, (afterAll {} as).settings? (.handle h) = some settings →
      ∃ k created, (afterAll {} as).advance (.snapshot h) = (.ok (.added k), created) ∧
        ∀ later, (created.afterAll later).snapshots[k]? = some settings ∧
          (created.afterAll later).snapshotBases[k]? = some settings.basePx := by
  have hs (bs : List Action) : (afterAll {} bs).Standard := standard_afterAll bs
  refine ⟨fun r settings hr => ?_, fun h settings hh => ?_⟩
  · obtain ⟨b, created, hb, -⟩ := (hs as).exists_batch hr
    refine ⟨b, created, hb, fun later => ⟨?_, fun name args => ?_⟩, ?_⟩
    · rw [batchBases, List.getElem?_map, (hs as).batch_afterAll hr hb later]
      rfl
    · rw [(hs as).invokeBatch_afterAll hr hb, (hs as).advance_invoke_builtin hr]
    · intro as' r' b' created' hr' hb' later later' name args
      rw [(hs as).invokeBatch_afterAll hr hb, (hs as').invokeBatch_afterAll hr' hb']
  · obtain ⟨k, created, hk, hsnapshot⟩ := exists_snapshot hh
    refine ⟨k, created, hk, fun later => ?_⟩
    have hlater := getElem?_of_isPrefix (extends_afterAll created later).snapshots hsnapshot
    refine ⟨hlater, ?_⟩
    rw [snapshotBases, List.getElem?_map, hlater]
    rfl

/-- A batch keeps its base of ten while its registry goes on to a base of four, and while the host
puts a function of its own in the place of a built-in one. -/
theorem copies_isolated_setBase :
    ∃ b created,
      (after {} [.handle (.px 10), .registry 0]).advance (.batch 0) = (.ok (.added b), created) ∧
      (created.afterAll [.step (.setBase 0 4), .register (.echo "rem" 0 9)]).batchBases[b]? =
        some 10 ∧
      (created.afterAll [.step (.setBase 0 4), .register (.echo "rem" 0 9)]).settings?
        (.registry 0) = some { basePx := 4 } := by
  rw [← afterAll_map_step]
  obtain ⟨b, created, hb, hlater, -⟩ :=
    (copies_isolated ([.handle (.px 10), .registry 0].map .step)).1 0 { basePx := 10 } rfl
  refine ⟨b, created, hb, (hlater _).1, ?_⟩
  obtain rfl : _ = created := congrArg Prod.snd hb
  rfl

end StyleValues.Session
