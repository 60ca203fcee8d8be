import Mathlib.Data.List.AList
import Mathlib.Algebra.BigOperators.Ring.Finset

/-!
# Finite tables

A hash map is modelled by Mathlib's association list with distinct keys. This
module adds the lookup rules the developments below rewrite with, one derived
operation that edits every value, and the reading of a table as a list of values.
-/
namespace Tables

variable {κ : Type} [DecidableEq κ] {ν μ : Type}

/-- A finite map from `κ` to `ν`; the order of its entries carries no meaning. -/
abbrev Table (κ ν : Type) := AList (fun _ : κ => ν)

variable (t : Table κ ν)

theorem lookup_insert_eq (a b : κ) (v : ν) :
    (t.insert a v).lookup b = if b = a then some v else t.lookup b := by
  by_cases h : b = a
  · subst h; simp
  · rw [AList.lookup_insert_ne h, if_neg h]

theorem lookup_erase_eq (a b : κ) : (t.erase a).lookup b = if b = a then none else t.lookup b := by
  by_cases h : b = a
  · subst h; simp
  · rw [AList.lookup_erase_ne h, if_neg h]

theorem mem_iff_lookup (a : κ) : a ∈ t ↔ ∃ v, t.lookup a = some v := by
  rw [← AList.lookup_isSome, Option.isSome_iff_exists]

theorem lookup_none_iff (a : κ) : t.lookup a = none ↔ a ∉ t :=
  AList.lookup_eq_none

/-- The stored values, in table order. -/
def values (t : Table κ ν) : List ν := t.entries.map (fun e => e.2)

theorem mem_values (v : ν) : v ∈ values t ↔ ∃ a, t.lookup a = some v := by
  simp only [values, List.mem_map]
  constructor
  · rintro ⟨⟨a, w⟩, he, rfl⟩
    exact ⟨a, AList.mem_lookup_iff.mpr he⟩
  · rintro ⟨a, ha⟩
    exact ⟨⟨a, v⟩, AList.mem_lookup_iff.mp ha, rfl⟩

/-- A sum over the values is a sum over the keys. -/
theorem sum_values (f : ν → Nat) :
    ((values t).map f).sum = ∑ a ∈ t.keys.toFinset, (t.lookup a).elim 0 f := by
  have hread : t.entries.map (fun e => f e.2) =
      t.entries.map fun e => (t.lookup e.1).elim 0 f :=
    List.map_congr_left fun e he => by rw [AList.mem_lookup_iff.mpr he]; rfl
  rw [List.sum_toFinset _ t.keys_nodup, values, List.map_map, AList.keys, List.keys, List.map_map]
  exact congrArg List.sum hread

/-- Edit the value under a key, if there is one. -/
def edit (t : Table κ ν) (a : κ) (f : ν → ν) : Table κ ν :=
  match t.lookup a with
  | none => t
  | some v => t.insert a (f v)

theorem lookup_edit (a b : κ) (f : ν → ν) :
    (edit t a f).lookup b = if b = a then (t.lookup b).map f else t.lookup b := by
  by_cases hb : b = a
  · subst hb
    rw [if_pos rfl]
    unfold edit
    split
    next h => rw [h, Option.map_none]
    next v h => rw [lookup_insert_eq, if_pos rfl, h, Option.map_some]
  · rw [if_neg hb]
    unfold edit
    split
    · rfl
    · rw [lookup_insert_eq, if_neg hb]

/-- Edit every value, dropping the keys whose value becomes `none`. -/
def filterMapValues (f : ν → Option μ) (t : Table κ ν) : Table κ μ where
  entries := t.entries.filterMap (fun e => (f e.2).map (fun w => ⟨e.1, w⟩))
  nodupKeys := by
    rw [List.nodupKeys_iff_pairwise]
    refine List.Pairwise.filterMap _ ?_ t.nodupKeys.pairwise_ne
    intro e e' hne b hb b' hb'
    simp only [Option.map_eq_some_iff] at hb hb'
    obtain ⟨w, -, rfl⟩ := hb
    obtain ⟨w', -, rfl⟩ := hb'
    exact hne

theorem lookup_filterMapValues (f : ν → Option μ) (t : Table κ ν) (a : κ) :
    (filterMapValues f t).lookup a = (t.lookup a).bind f := by
  apply Option.ext
  intro w
  rw [← Option.mem_def, AList.mem_lookup_iff, Option.bind_eq_some_iff]
  simp only [filterMapValues, List.mem_filterMap, Option.map_eq_some_iff]
  constructor
  · rintro ⟨⟨b, v⟩, hmem, w', hw', heq⟩
    cases heq
    exact ⟨v, AList.mem_lookup_iff.mpr hmem, hw'⟩
  · rintro ⟨v, hv, hw⟩
    exact ⟨⟨a, v⟩, AList.mem_lookup_iff.mp hv, w, hw, rfl⟩

end Tables
