import Mathlib
import StyleValues.Function.Table

/-!
# Tables as maps

A table is determined by what is found in it. Its names are all distinct, and sorting them gives
them in the order of the table, whatever order they are enumerated in.

## Main results

* `FunctionTable.ext_find?`: tables in which the same functions are found are equal.
* `FunctionTable.filterMap_find?_mergeSort`: the functions of a table by its sorted names.
-/

namespace StyleValues.FunctionTable

variable {t u : FunctionTable} {f g : ValueFunction} {name : String}

theorem pairwise_names (t : FunctionTable) : t.names.Pairwise (· < ·) :=
  List.pairwise_map.2 t.sorted

theorem nodup_names (t : FunctionTable) : t.names.Nodup := by
  refine t.pairwise_names.imp fun {a b} hlt heq => ?_
  exact String.lt_irrefl b (heq ▸ hlt)

/-- A function of the table is found by its name. -/
theorem find?_eq_some_iff : t.find? name = some f ↔ f ∈ t.functions ∧ f.name = name := by
  constructor
  · intro h
    exact ⟨List.mem_of_find?_eq_some h, by simpa using List.find?_some h⟩
  · rintro ⟨hf, rfl⟩
    have hsome : (t.find? f.name).isSome := List.find?_isSome.2 ⟨f, hf, by simp⟩
    obtain ⟨g, hg⟩ := Option.isSome_iff_exists.1 hsome
    have hname : g.name = f.name := by simpa using List.find?_some hg
    have hmem : g ∈ t.functions := List.mem_of_find?_eq_some hg
    rw [hg, List.inj_on_of_nodup_map t.nodup_names hmem hf hname]

theorem mem_names_iff : name ∈ t.names ↔ (t.find? name).isSome := by
  simp [names, Option.isSome_iff_exists, find?_eq_some_iff]

theorem length_names (t : FunctionTable) : t.names.length = t.size :=
  List.length_map _

theorem ext_find? (h : ∀ name, t.find? name = u.find? name) : t = u := by
  have hnodup (v : FunctionTable) : v.functions.Nodup := .of_map _ v.nodup_names
  have hmem (f : ValueFunction) : f ∈ t.functions ↔ f ∈ u.functions := by
    have hself (v : FunctionTable) : f ∈ v.functions ↔ v.find? f.name = some f := by
      simp [find?_eq_some_iff]
    rw [hself, hself, h]
  have hperm := (List.perm_ext_iff_of_nodup (hnodup t) (hnodup u)).2 hmem
  have hfunctions : t.functions = u.functions := by
    refine hperm.eq_of_pairwise (fun f g _ _ hlt hgt => ?_) t.sorted u.sorted
    exact absurd (String.lt_trans hlt hgt) (String.lt_irrefl _)
  cases t
  cases u
  congr

/-! ## The order of names -/

theorem mergeSort_eq_names {keys : List String} (h : keys.Perm t.names) :
    keys.mergeSort (· ≤ ·) = t.names := by
  have hsorted : (keys.mergeSort (· ≤ ·)).Pairwise fun a b => decide (a ≤ b) = true := by
    refine List.pairwise_mergeSort (fun a b c hab hbc => ?_) (fun a b => ?_) keys
    · simpa using String.le_trans (of_decide_eq_true hab) (of_decide_eq_true hbc)
    · simpa using String.le_total a b
  have hnames : t.names.Pairwise fun a b => decide (a ≤ b) = true :=
    t.pairwise_names.imp fun hlt => decide_eq_true (Std.le_of_lt hlt)
  refine List.Perm.eq_of_pairwise (fun a b _ _ hab hba => ?_) hsorted hnames
    ((List.mergeSort_perm keys _).trans h)
  exact String.le_antisymm (of_decide_eq_true hab) (of_decide_eq_true hba)

theorem filterMap_find?_names (t : FunctionTable) : t.names.filterMap t.find? = t.functions := by
  have hself : ∀ f ∈ t.functions, (t.find? ∘ ValueFunction.name) f = some f := by
    intro f hf
    exact find?_eq_some_iff.2 ⟨hf, rfl⟩
  rw [names, List.filterMap_map, List.filterMap_congr hself, List.filterMap_some]

/-- The functions of a table in order, by any enumeration of its names. -/
theorem filterMap_find?_mergeSort {keys : List String} (h : keys.Perm t.names) :
    (keys.mergeSort (· ≤ ·)).filterMap t.find? = t.functions := by
  rw [mergeSort_eq_names h, filterMap_find?_names]

end StyleValues.FunctionTable
