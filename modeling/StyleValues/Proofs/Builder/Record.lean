import StyleValues.Builder.Record
import StyleValues.Proofs.Value.Postorder

/-!
# Records of constructions

The record of a value has one entry for each of its nodes, in post-order. The entry of a list gives
the places of its elements, and all of these are earlier. So the record can be replayed.

## Main definitions

* `Construction.Makes`: an entry constructs the node at a path.
* `Value.MadeBy`: the entries construct the nodes of a value in post-order.
* `IsRecord`: a record of a value, and the place of the value in it.

## Main results

* `recordsNodes`: what recording adds to any record.
* `exists_replay?_eq`: replaying constructs the nodes again.
* `record_postorder`: the record of a value.
-/

namespace StyleValues

/-- An entry constructs the node at a path of a value. The elements of a list have been constructed
at their places. -/
inductive Construction.Makes (v : Value) (place : List Nat → Nat → Prop) (path : List Nat) :
    Construction → Prop
  | dimension {d : Dimension} (h : v.at? path = some (.dimension d)) :
    Makes v place path (.dimension d)
  | keyword {name : String} (h : v.at? path = some (.keyword name)) :
    Makes v place path (.keyword name)
  | color {c : Color} (h : v.at? path = some (.color c)) : Makes v place path (.color c)
  | composite {vs : List Value} {places : List Nat} (h : v.at? path = some (.composite vs))
    (hlength : places.length = vs.length)
    (hplaces : ∀ i k, places[i]? = some k → place (path ++ [i]) k) :
    Makes v place path (.composite places)

open Construction (Makes)

/-- The node at a path has this place, if entries for `paths` follow a record of `n` entries. -/
def PlacedAt (n : Nat) (paths : List (List Nat)) (path : List Nat) (k : Nat) : Prop :=
  ∃ i, paths[i]? = some path ∧ k = n + i

namespace PlacedAt

variable {n i k : Nat} {paths more before : List (List Nat)} {path : List Nat}

theorem append (h : PlacedAt n paths path k) (more : List (List Nat)) :
    PlacedAt n (paths ++ more) path k := by
  obtain ⟨j, hj, rfl⟩ := h
  have hlt := (List.getElem?_eq_some_iff.1 hj).1
  exact ⟨j, by rw [List.getElem?_append_left hlt, hj], rfl⟩

theorem after (h : PlacedAt (n + before.length) paths path k) :
    PlacedAt n (before ++ paths) path k := by
  obtain ⟨j, hj, rfl⟩ := h
  refine ⟨before.length + j, ?_, Nat.add_assoc _ _ _⟩
  rw [List.getElem?_append_right (Nat.le_add_right _ _), Nat.add_sub_cancel_left, hj]

theorem map_cons (h : PlacedAt n paths path k) (i : Nat) :
    PlacedAt n (paths.map (i :: ·)) (i :: path) k := by
  obtain ⟨j, hj, rfl⟩ := h
  exact ⟨j, by rw [List.getElem?_map, hj]; rfl, rfl⟩

theorem last (n : Nat) (paths : List (List Nat)) (path : List Nat) :
    PlacedAt n (paths ++ [path]) path (n + paths.length) :=
  ⟨paths.length, List.getElem?_concat_length, rfl⟩

end PlacedAt

namespace Construction.Makes

variable {v w : Value} {vs : List Value} {place place' : List Nat → Nat → Prop} {path : List Nat}
  {i : Nat} {entry : Construction}

theorem mono (h : Makes v place path entry) (hplace : ∀ path k, place path k → place' path k) :
    Makes v place' path entry := by
  cases h with
  | dimension h => exact .dimension h
  | keyword h => exact .keyword h
  | color h => exact .color h
  | composite h hlength hplaces =>
    exact .composite h hlength fun i k hk => hplace _ k (hplaces i k hk)

/-- What constructs a node of an element constructs a node of the list. -/
theorem within (h : Makes w place path entry) (hi : vs[i]? = some w)
    (hplace : ∀ path k, place path k → place' (i :: path) k) :
    Makes (.composite vs) place' (i :: path) entry := by
  have hat (path : List Nat) : (Value.composite vs).at? (i :: path) = w.at? path := by
    rw [Value.at?_composite_cons, hi]
    rfl
  cases h with
  | dimension h => exact .dimension ((hat path).trans h)
  | keyword h => exact .keyword ((hat path).trans h)
  | color h => exact .color ((hat path).trans h)
  | composite h hlength hplaces =>
    exact .composite ((hat path).trans h) hlength fun j k hk => hplace _ k (hplaces j k hk)

end Construction.Makes

/-! ## Recording -/

section Run

variable {vs : List Value} {v : Value} {root : Nat} {places : List Nat}
  {record middle after : List Construction}

theorem run_buildAll_cons (hv : (Builder.record.build v).run record = (root, middle))
    (hvs : (Builder.record.buildAll vs).run middle = (places, after)) :
    (Builder.record.buildAll (v :: vs)).run record = (root :: places, after) := by
  rw [Builder.buildAll, StateT.run_bind, hv]
  exact congrArg (fun run => (root :: run.1, run.2)) hvs

theorem run_build_composite (hvs : (Builder.record.buildAll vs).run record = (places, after)) :
    (Builder.record.build (.composite vs)).run record =
      (after.length, after ++ [.composite places]) := by
  rw [Builder.build, StateT.run_bind, hvs]
  rfl

end Run

/-- Recording adds entries for the nodes in post-order, and returns the place of the value. -/
def Value.RecordsNodes (v : Value) : Prop :=
  ∀ record : List Construction, ∃ root entries,
    (Builder.record.build v).run record = (root, record ++ entries) ∧
      PlacedAt record.length v.nodePaths [] root ∧
      List.Forall₂ (Makes v (PlacedAt record.length v.nodePaths)) v.nodePaths entries

variable {v : Value} {vs ws : List Value}

theorem recordsNodes_of_isLeaf {entry : Construction} (hv : v.IsLeaf)
    (hentry : Builder.record.build v = entry.enter)
    (hmakes : ∀ place, Makes v place [] entry) : v.RecordsNodes := by
  intro record
  rw [Value.nodePaths_of_isLeaf hv, hentry]
  exact ⟨record.length, [entry], rfl, .last record.length [] [], .cons (hmakes _) .nil⟩

/-- The elements of a list, from some element on, add the entries for their nodes. -/
theorem exists_buildAll_record (hvs : ∀ v ∈ vs, v.RecordsNodes) (first : Nat)
    (hws : ∀ i, ws[first + i]? = vs[i]?) (record : List Construction) :
    ∃ places entries, (Builder.record.buildAll vs).run record = (places, record ++ entries) ∧
      places.length = vs.length ∧
      (∀ i k, places[i]? = some k →
        PlacedAt record.length (Value.elementPaths first vs) [first + i] k) ∧
      List.Forall₂
        (Makes (.composite ws) (PlacedAt record.length (Value.elementPaths first vs)))
        (Value.elementPaths first vs) entries := by
  induction vs generalizing first record with
  | nil => exact ⟨[], [], by rw [List.append_nil]; rfl, rfl, by simp, .nil⟩
  | cons v vs ih =>
    obtain ⟨root, entries, hrun, hroot, hentries⟩ := hvs v List.mem_cons_self record
    have hrest : ∀ i, ws[first + 1 + i]? = vs[i]? := by
      intro i
      rw [Nat.add_right_comm, Nat.add_assoc]
      exact hws (i + 1)
    obtain ⟨places, more, hrun', hlength, hplaces, hmore⟩ :=
      ih (fun w hw => hvs w (List.mem_cons_of_mem v hw)) (first + 1) hrest (record ++ entries)
    have hcount : (v.nodePaths.map (first :: ·)).length = entries.length := by
      rw [List.length_map, hentries.length_eq]
    rw [List.length_append, ← hcount] at hplaces hmore
    refine ⟨root :: places, entries ++ more, ?_, congrArg (· + 1) hlength, fun i k hk => ?_, ?_⟩
    · rw [run_buildAll_cons hrun hrun', List.append_assoc]
    · cases i with
      | zero =>
        obtain rfl : root = k := Option.some.inj hk
        exact (hroot.map_cons first).append _
      | succ i =>
        rw [Nat.add_comm i, ← Nat.add_assoc]
        exact (hplaces i k hk).after
    · have hi : ws[first]? = some v := hws 0
      rw [Value.elementPaths]
      refine List.rel_append ?_ (hmore.imp fun path entry h => h.mono fun path k hk => hk.after)
      rw [List.forall₂_map_left_iff]
      exact hentries.imp fun path entry h =>
        h.within hi fun path k hk => (hk.map_cons first).append _

/-- What recording a value adds to any record. -/
theorem recordsNodes (v : Value) : v.RecordsNodes := by
  induction v with
  | dimension d =>
    exact recordsNodes_of_isLeaf (Value.isLeaf_dimension d) rfl fun _ => .dimension (by simp)
  | keyword k =>
    exact recordsNodes_of_isLeaf (Value.isLeaf_keyword k) rfl fun _ => .keyword (by simp)
  | color c =>
    exact recordsNodes_of_isLeaf (Value.isLeaf_color c) rfl fun _ => .color (by simp)
  | composite vs ih =>
    intro record
    have hvs : ∀ i : Nat, vs[0 + i]? = vs[i]? := fun i => by rw [Nat.zero_add]
    obtain ⟨places, entries, hrun, hlength, hplaces, hentries⟩ :=
      exists_buildAll_record ih 0 hvs record
    have hcount : (Value.elementPaths 0 vs).length = entries.length := hentries.length_eq
    refine ⟨record.length + entries.length, entries ++ [.composite places], ?_, ?_, ?_⟩
    · rw [run_build_composite hrun, List.length_append, List.append_assoc]
    · rw [← hcount]
      exact .last record.length (Value.elementPaths 0 vs) []
    · rw [Value.nodePaths]
      refine List.rel_append (hentries.imp fun path entry h => h.mono fun path k hk =>
        hk.append [[]]) (.cons (.composite (by simp) hlength fun i k hk => ?_) .nil)
      have hk := (hplaces i k hk).append [[]]
      rwa [Nat.zero_add] at hk

/-! ## Replaying -/

theorem mapM_getElem?_eq_some {built : List Value} {places : List Nat}
    (hlength : places.length = vs.length)
    (h : ∀ i k : Nat, places[i]? = some k → built[k]? = vs[i]?) :
    (places.mapM fun k => built[k]?) = some vs := by
  induction places generalizing vs with
  | nil => simp [List.eq_nil_of_length_eq_zero hlength.symm]
  | cons k places ih =>
    obtain ⟨w, ws, rfl⟩ := List.exists_cons_of_length_eq_add_one hlength.symm
    have hw : built[k]? = some w := h 0 k rfl
    have hws := ih (Nat.succ.inj hlength) fun i => h (i + 1)
    simp [hw, hws]

section Replay

variable {before paths : List (List Nat)} {path : List Nat} {built : List Value}
  {entry : Construction} {entries : List Construction}

/-- An entry constructs its node from what has been constructed before it. -/
theorem Construction.Makes.exists_value?
    (hpaths : (before ++ path :: paths).Pairwise PostorderLT)
    (hbuilt : List.Forall₂ (fun p w => v.at? p = some w) before built)
    (h : Makes v (fun p k => (before ++ path :: paths)[k]? = some p) path entry) :
    ∃ w, entry.value? built = some w ∧ v.at? path = some w := by
  cases h with
  | dimension h => exact ⟨_, rfl, h⟩
  | keyword h => exact ⟨_, rfl, h⟩
  | color h => exact ⟨_, rfl, h⟩
  | @composite vs places h hlength hplaces =>
    refine ⟨.composite vs, ?_, h⟩
    have helement (i k : Nat) (hk : places[i]? = some k) : built[k]? = vs[i]? := by
      -- An element is constructed before its list, so it has been built.
      have hkpath := hplaces i k hk
      have hlast : (before ++ path :: paths)[before.length]? = some path := by simp
      have hlt : k < before.length := PostorderLT.lt_of_pairwise hpaths hkpath hlast
        (.append path (List.cons_ne_nil i []))
      rw [List.getElem?_append_left hlt] at hkpath
      have hat : v.at? (path ++ [i]) = vs[i]? := by
        rw [Value.at?_append, h]
        simp
      rcases Value.getElem?_of_forall₂ hbuilt k with ⟨hnone, -⟩ | ⟨p, w, hp, hw, hpw⟩
      · simp [hnone] at hkpath
      · obtain rfl : p = path ++ [i] := by simpa [hp] using hkpath
        rw [hw, ← hat, hpw]
    rw [value?, mapM_getElem?_eq_some hlength helement]
    rfl

/-- Replaying entries constructs the nodes again, one after the other. -/
theorem exists_replay?_eq (hpaths : (before ++ paths).Pairwise PostorderLT)
    (hbuilt : List.Forall₂ (fun p w => v.at? p = some w) before built)
    (hentries : List.Forall₂ (Makes v fun p k => (before ++ paths)[k]? = some p) paths entries) :
    ∃ all, replay? built entries = some all ∧
      List.Forall₂ (fun p w => v.at? p = some w) (before ++ paths) all := by
  induction paths generalizing before built entries with
  | nil =>
    cases hentries
    exact ⟨built, rfl, by rwa [List.append_nil]⟩
  | cons path paths ih =>
    cases hentries with
    | cons hentry hentries =>
      obtain ⟨w, hvalue, hw⟩ := hentry.exists_value? hpaths hbuilt
      rw [List.append_cons] at hpaths hentries ⊢
      obtain ⟨all, hreplay, hall⟩ := ih hpaths (List.rel_append hbuilt (.cons hw .nil)) hentries
      refine ⟨all, ?_, hall⟩
      rw [replay?, hvalue]
      exact hreplay

end Replay

/-! ## The record of a value -/

/-- The entries construct the nodes in post-order. -/
def Value.MadeBy (v : Value) (entries : List Construction) : Prop :=
  List.Forall₂ (Makes v fun path k => v.nodePaths[k]? = some path) v.nodePaths entries

namespace Value.MadeBy

variable {entries : List Construction} {places path : List Nat} {i j k : Nat}

/-- The entry of a list holds the places of its elements. -/
theorem exists_path (h : v.MadeBy entries) (hi : entries[i]? = some (.composite places)) :
    ∃ path, v.nodePaths[i]? = some path ∧
      ∀ j k, places[j]? = some k → v.nodePaths[k]? = some (path ++ [j]) := by
  rcases getElem?_of_forall₂ h i with ⟨-, hnone⟩ | ⟨path, entry, hpath, hentry, hmakes⟩
  · simp [hnone] at hi
  · obtain rfl : entry = .composite places := by simpa [hentry] using hi
    cases hmakes with
    | composite _ _ hplaces => exact ⟨path, hpath, hplaces⟩

/-- Every list has an entry, with a place for each element. -/
theorem exists_entry (h : v.MadeBy entries) (hpath : v.at? path = some (.composite vs)) :
    ∃ (i : Nat) (places : List Nat), v.nodePaths[i]? = some path ∧
      entries[i]? = some (.composite places) ∧ places.length = vs.length := by
  have hmem : path ∈ v.nodePaths := mem_nodePaths_iff.2 (by simp [hpath])
  obtain ⟨i, hi⟩ := List.mem_iff_getElem?.1 hmem
  rcases getElem?_of_forall₂ h i with ⟨hnone, -⟩ | ⟨p, entry, hp, hentry, hmakes⟩
  · simp [hnone] at hi
  · obtain rfl : p = path := by simpa [hp] using hi
    cases hmakes with
    | dimension hat | keyword hat | color hat => cases hpath.symm.trans hat
    | @composite ws places hat hlength =>
      obtain rfl : vs = ws := by simpa [hpath] using hat
      exact ⟨i, places, hi, hentry, hlength⟩

theorem ascending (h : v.MadeBy entries) (hi : entries[i]? = some (.composite places)) :
    places.Pairwise (· < ·) ∧ ∀ k ∈ places, k < i := by
  obtain ⟨path, hpath, hplaces⟩ := h.exists_path hi
  constructor
  · rw [List.pairwise_iff_getElem]
    intro a b ha hb hab
    have hpa := hplaces a _ (List.getElem?_eq_getElem ha)
    have hpb := hplaces b _ (List.getElem?_eq_getElem hb)
    exact PostorderLT.lt_of_pairwise v.pairwise_nodePaths hpa hpb (.append_singleton path hab)
  · intro k hk
    obtain ⟨j, hj⟩ := List.mem_iff_getElem?.1 hk
    exact PostorderLT.lt_of_pairwise v.pairwise_nodePaths (hplaces j k hj) hpath
      (.append path (List.cons_ne_nil j []))

/-- The value itself has the last place. -/
theorem last (h : v.MadeBy entries) (hk : v.nodePaths[k]? = some []) : k + 1 = entries.length := by
  have hlast := v.getLast?_nodePaths
  rw [List.getLast?_eq_getElem?] at hlast
  have hlt := (List.getElem?_eq_some_iff.1 hlast).1
  have hk := PostorderLT.eq_of_pairwise v.pairwise_nodePaths hk hlast
  have hlength := h.length_eq
  omega

/-- A node other than the value itself is an element of just one list, at just one index. -/
theorem existsUnique_use (h : v.MadeBy entries) (hk : k + 1 < entries.length) :
    ∃! use : Nat × Nat, ∃ places : List Nat,
      entries[use.1]? = some (.composite places) ∧ places[use.2]? = some k := by
  have hlt : k < v.nodePaths.length := h.length_eq ▸ (Nat.lt_succ_self k).trans hk
  obtain ⟨path, hpath⟩ : ∃ path, v.nodePaths[k]? = some path := ⟨_, List.getElem?_eq_getElem hlt⟩
  have hne : path ≠ [] := by
    rintro rfl
    exact hk.ne (h.last hpath)
  have hsome := mem_nodePaths_iff.1 (List.mem_of_getElem? hpath)
  obtain ⟨parent, j, vs, rfl, hparent, hj⟩ := exists_list_of_at?_isSome hne hsome
  obtain ⟨i, places, hi, hentry, hlength⟩ := h.exists_entry hparent
  refine ⟨(i, j), ⟨places, hentry, ?_⟩, ?_⟩
  · obtain ⟨p, hp, hplaces⟩ := h.exists_path hentry
    obtain rfl : p = parent := by simpa [hp] using hi
    have hplace := List.getElem?_eq_getElem (hlength ▸ hj)
    rw [hplace, PostorderLT.eq_of_pairwise v.pairwise_nodePaths (hplaces j _ hplace) hpath]
  · rintro ⟨i', j'⟩ ⟨places', hi', hj'⟩
    obtain ⟨p, hp, hplaces⟩ := h.exists_path hi'
    have hsame := hplaces j' k hj'
    rw [hpath, Option.some.injEq] at hsame
    obtain ⟨rfl, rfl⟩ : parent = p ∧ j = j' := by simpa using List.append_inj' hsame rfl
    obtain rfl : i' = i := PostorderLT.eq_of_pairwise v.pairwise_nodePaths hp hi
    rfl

/-- Replaying the entries constructs the value last. -/
theorem exists_replay?_eq (h : v.MadeBy entries) (hk : v.nodePaths[k]? = some []) :
    ∃ built, replay? [] entries = some built ∧ built[k]? = some v := by
  have hpaths : ([] ++ v.nodePaths).Pairwise PostorderLT := v.pairwise_nodePaths
  obtain ⟨built, hreplay, hbuilt⟩ := StyleValues.exists_replay?_eq hpaths .nil h
  refine ⟨built, hreplay, ?_⟩
  rcases getElem?_of_forall₂ hbuilt k with ⟨hnone, -⟩ | ⟨p, w, hp, hw, hat⟩
  · rw [List.nil_append, hk] at hnone
    cases hnone
  · obtain rfl : p = [] := by simpa [hk] using hp.symm
    rw [hw, ← hat, at?_nil]

end Value.MadeBy

/-- The entries are a record of a value, which has its place at `root`. -/
structure IsRecord (v : Value) (root : Nat) (entries : List Construction) : Prop where
  /-- There is one entry for each node, in post-order. -/
  calls : v.MadeBy entries
  /-- Whatever is inside of a list comes before it. -/
  descendants : ∀ (path more : List Nat) (i j : Nat), more ≠ [] →
    v.nodePaths[i]? = some (path ++ more) → v.nodePaths[j]? = some path → i < j
  ascending : ∀ (i : Nat) (places : List Nat), entries[i]? = some (.composite places) →
    places.Pairwise (· < ·) ∧ ∀ k ∈ places, k < i
  /-- Every place but the last is that of an element of just one list, and just once. -/
  once : ∀ k : Nat, k + 1 < entries.length → ∃! use : Nat × Nat, ∃ places : List Nat,
    entries[use.1]? = some (.composite places) ∧ places[use.2]? = some k
  length : entries.length = v.nodePaths.length
  last : root + 1 = entries.length
  /-- Replaying the record constructs the value. -/
  replay : ∃ built, replay? [] entries = some built ∧ built[root]? = some v

/-- The record of a value has one entry for each of its nodes, from left to right and lists after
their elements. It refers to each entry but the last just once, and it constructs the value. -/
theorem record_postorder (v : Value) :
    (∀ path, path ∈ v.nodePaths ↔ (v.at? path).isSome) ∧ v.nodePaths.Pairwise PostorderLT ∧
      IsRecord v v.record.1 v.record.2 := by
  obtain ⟨root, entries, hrun, hroot, hentries⟩ := recordsNodes v []
  rw [List.nil_append] at hrun
  have hplace (path : List Nat) (k : Nat) (h : PlacedAt 0 v.nodePaths path k) :
      v.nodePaths[k]? = some path := by
    obtain ⟨i, hi, rfl⟩ := h
    rwa [Nat.zero_add]
  have hmade : v.MadeBy entries := hentries.imp fun path entry h => h.mono hplace
  have hvalue := hplace [] root hroot
  refine ⟨fun path => Value.mem_nodePaths_iff, v.pairwise_nodePaths, ?_⟩
  rw [Value.record, hrun]
  exact {
    calls := hmade
    descendants := fun path more i j hmore hi hj =>
      PostorderLT.lt_of_pairwise v.pairwise_nodePaths hi hj (.append path hmore)
    ascending := fun i places hi => hmade.ascending hi
    once := fun k hk => hmade.existsUnique_use hk
    length := hmade.length_eq.symm
    last := hmade.last hvalue
    replay := hmade.exists_replay?_eq hvalue }

example : Value.record (.composite [.composite [], .composite [.keyword "auto"]]) =
    (3, [.composite [], .keyword "auto", .composite [1], .composite [0, 2]]) := rfl

end StyleValues
