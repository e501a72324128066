import StyleValues.Proofs.Value.Paths

/-!
# The nodes of a value in post-order

A node of a value, which is a leaf or a list, is named by its path. In post-order from left to
right a list comes after all that is inside of it.

## Main definitions

* `PostorderLT`: the order of paths.
* `Value.nodePaths`: the paths of all nodes.

## Main results

* `Value.mem_nodePaths_iff`: these are the paths at which something stands.
* `Value.pairwise_nodePaths`: they are in post-order.
-/

namespace StyleValues

/-- One path comes before another in post-order: it leads inside of the other, or it branches off
to the left. -/
inductive PostorderLT : List Nat → List Nat → Prop
  | inside (i : Nat) (path : List Nat) : PostorderLT (i :: path) []
  | left {i j : Nat} (h : i < j) (p q : List Nat) : PostorderLT (i :: p) (j :: q)
  | within (i : Nat) {p q : List Nat} (h : PostorderLT p q) : PostorderLT (i :: p) (i :: q)

namespace PostorderLT

variable {p q path more : List Nat} {i j : Nat} {paths : List (List Nat)}

theorem asymm (h : PostorderLT p q) : ¬ PostorderLT q p := by
  induction h with
  | inside i path => exact nofun
  | left hij p q =>
    intro h
    cases h with
    | left hji => exact absurd hij hji.not_gt
    | within => exact absurd hij (lt_irrefl _)
  | within i h ih =>
    intro h
    cases h with
    | left hii => exact absurd hii (lt_irrefl _)
    | within _ h => exact ih h

/-- What is inside comes first. -/
theorem append (path : List Nat) (h : more ≠ []) : PostorderLT (path ++ more) path := by
  induction path with
  | nil =>
    obtain ⟨i, more, rfl⟩ := List.exists_cons_of_ne_nil h
    exact .inside i more
  | cons i path ih => exact .within i ih

/-- Elements come in order. -/
theorem append_singleton (path : List Nat) (h : i < j) :
    PostorderLT (path ++ [i]) (path ++ [j]) := by
  induction path with
  | nil => exact .left h [] []
  | cons k path ih => exact .within k ih

theorem of_pairwise (hpaths : paths.Pairwise PostorderLT) (hp : paths[i]? = some p)
    (hq : paths[j]? = some q) (h : i < j) : PostorderLT p q := by
  obtain ⟨hi, rfl⟩ := List.getElem?_eq_some_iff.1 hp
  obtain ⟨hj, rfl⟩ := List.getElem?_eq_some_iff.1 hq
  exact List.pairwise_iff_getElem.1 hpaths i j hi hj h

theorem lt_of_pairwise (hpaths : paths.Pairwise PostorderLT) (hp : paths[i]? = some p)
    (hq : paths[j]? = some q) (h : PostorderLT p q) : i < j := by
  rcases lt_trichotomy i j with hij | rfl | hji
  · exact hij
  · obtain rfl : p = q := by simpa [hp] using hq
    exact absurd h h.asymm
  · exact absurd h (of_pairwise hpaths hq hp hji).asymm

theorem eq_of_pairwise (hpaths : paths.Pairwise PostorderLT) (hi : paths[i]? = some p)
    (hj : paths[j]? = some p) : i = j := by
  rcases lt_trichotomy i j with hij | rfl | hji
  · have h := of_pairwise hpaths hi hj hij
    exact absurd h h.asymm
  · rfl
  · have h := of_pairwise hpaths hj hi hji
    exact absurd h h.asymm

end PostorderLT

namespace Value

mutual

/-- The paths of all nodes, in post-order. -/
def nodePaths : Value → List (List Nat)
  | .composite vs => elementPaths 0 vs ++ [[]]
  | _ => [[]]

/-- The paths inside the elements of a list, which are numbered from `first` on. -/
def elementPaths (first : Nat) : List Value → List (List Nat)
  | [] => []
  | v :: vs => v.nodePaths.map (first :: ·) ++ elementPaths (first + 1) vs

end

variable {v : Value} {vs : List Value} {path : List Nat}

theorem nodePaths_of_isLeaf (h : v.IsLeaf) : v.nodePaths = [[]] := by
  cases v with
  | composite vs => exact absurd h (not_isLeaf_composite vs)
  | _ => rfl

theorem mem_elementPaths_iff {first : Nat} :
    path ∈ elementPaths first vs ↔
      ∃ i v more, vs[i]? = some v ∧ more ∈ v.nodePaths ∧ path = (first + i) :: more := by
  induction vs generalizing first with
  | nil => simp [elementPaths]
  | cons v vs ih =>
    rw [elementPaths, List.mem_append, List.mem_map, ih]
    constructor
    · rintro (⟨more, hmore, rfl⟩ | ⟨i, w, more, hi, hmore, rfl⟩)
      · exact ⟨0, v, more, rfl, hmore, rfl⟩
      · exact ⟨i + 1, w, more, hi, hmore, by rw [Nat.add_right_comm, Nat.add_assoc]⟩
    · rintro ⟨i, w, more, hi, hmore, rfl⟩
      cases i with
      | zero =>
        obtain rfl : v = w := Option.some.inj hi
        exact .inl ⟨more, hmore, rfl⟩
      | succ i =>
        exact .inr ⟨i, w, more, hi, hmore, by rw [Nat.add_right_comm, Nat.add_assoc]⟩

/-- Something stands at the paths of the nodes, and at no other path. -/
theorem mem_nodePaths_iff : path ∈ v.nodePaths ↔ (v.at? path).isSome := by
  have leaf {v : Value} (hv : v.IsLeaf) (path : List Nat) :
      path ∈ v.nodePaths ↔ (v.at? path).isSome := by
    rw [nodePaths_of_isLeaf hv]
    cases path with
    | nil => simp
    | cons i path => simp [at?_cons_of_isLeaf hv]
  induction v generalizing path with
  | dimension d => exact leaf (isLeaf_dimension d) path
  | keyword k => exact leaf (isLeaf_keyword k) path
  | color c => exact leaf (isLeaf_color c) path
  | composite vs ih =>
    rw [nodePaths, List.mem_append, mem_elementPaths_iff]
    cases path with
    | nil => simp
    | cons i path =>
      rw [at?_composite_cons, Option.isSome_bind]
      constructor
      · rintro (⟨j, w, more, hj, hmore, heq⟩ | h)
        · obtain ⟨rfl, rfl⟩ : i = j ∧ path = more := by simpa using heq
          simpa [hj] using (ih w (List.mem_of_getElem? hj)).1 hmore
        · simp at h
      · intro h
        cases hi : vs[i]? with
        | none => simp [hi] at h
        | some w =>
          have hw : (w.at? path).isSome := by simpa [hi] using h
          exact .inl ⟨i, w, path, hi, (ih w (List.mem_of_getElem? hi)).2 hw, by simp⟩

theorem pairwise_elementPaths (h : ∀ v ∈ vs, v.nodePaths.Pairwise PostorderLT) (first : Nat) :
    (elementPaths first vs).Pairwise PostorderLT := by
  induction vs generalizing first with
  | nil => exact .nil
  | cons v vs ih =>
    rw [elementPaths, List.pairwise_append, List.pairwise_map]
    refine ⟨(h v List.mem_cons_self).imp (.within first),
      ih (fun w hw => h w (List.mem_cons_of_mem v hw)) (first + 1), fun p hp q hq => ?_⟩
    obtain ⟨p, -, rfl⟩ := List.mem_map.1 hp
    obtain ⟨i, w, q, -, -, rfl⟩ := mem_elementPaths_iff.1 hq
    exact .left (by omega) p q

/-- The paths of the nodes are in post-order, without repetition. -/
theorem pairwise_nodePaths (v : Value) : v.nodePaths.Pairwise PostorderLT := by
  induction v with
  | dimension d => exact List.pairwise_singleton _ _
  | keyword k => exact List.pairwise_singleton _ _
  | color c => exact List.pairwise_singleton _ _
  | composite vs ih =>
    rw [nodePaths, List.pairwise_append]
    refine ⟨pairwise_elementPaths ih 0, List.pairwise_singleton _ _, fun p hp q hq => ?_⟩
    obtain ⟨i, w, p, -, -, rfl⟩ := mem_elementPaths_iff.1 hp
    obtain rfl := List.mem_singleton.1 hq
    exact .inside _ p

/-- The value itself comes last. -/
theorem getLast?_nodePaths (v : Value) : v.nodePaths.getLast? = some [] := by
  cases v with
  | composite vs => rw [nodePaths, List.getLast?_concat]
  | _ => rfl

end Value

end StyleValues
