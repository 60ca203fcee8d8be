import Mathlib.Data.List.Basic

/-!
# Lists with keys

The entries of a list carry keys, each at most once. A partial map that keeps the
keys keeps their order, and what it does to an entry is found under its key.
-/
namespace KeyedLists

variable {α β κ : Type}

theorem map_filterMap_sublist (f : α → Option β) (keyOf : α → κ) (keyOf' : β → κ)
    (hkey : ∀ a b, f a = some b → keyOf' b = keyOf a) (l : List α) :
    ((l.filterMap f).map keyOf').Sublist (l.map keyOf) := by
  induction l with
  | nil => exact .slnil
  | cons a _ ih =>
    cases hfa : f a with
    | none =>
      rw [List.filterMap_cons_none hfa]
      exact ih.cons _
    | some b =>
      rw [List.filterMap_cons_some hfa, List.map_cons, List.map_cons, hkey a b hfa]
      exact ih.cons_cons _

variable [DecidableEq κ]

/-- A partial map that keeps the keys keeps a key at its place. -/
theorem find?_filterMap_key (f : α → Option β) (keyOf : α → κ) (keyOf' : β → κ)
    (hkey : ∀ a b, f a = some b → keyOf' b = keyOf a) {l : List α} (hnodup : (l.map keyOf).Nodup)
    (key : κ) : (l.filterMap f).find? (fun b => keyOf' b = key) =
      (l.find? fun a => keyOf a = key).bind f := by
  induction l with
  | nil => rfl
  | cons a rest ih =>
    rw [List.map_cons, List.nodup_cons] at hnodup
    obtain ⟨hfresh, hrest⟩ := hnodup
    by_cases ha : keyOf a = key
    · have hnone : (rest.find? fun b => keyOf b = key) = none := by
        rw [List.find?_eq_none]
        intro b hb hbkey
        exact hfresh (ha ▸ of_decide_eq_true hbkey ▸ List.mem_map_of_mem hb)
      rw [List.find?_cons_of_pos (by simpa using ha), Option.bind_some]
      cases hfa : f a with
      | none => rw [List.filterMap_cons_none hfa, ih hrest, hnone, Option.bind_none]
      | some b =>
        rw [List.filterMap_cons_some hfa, List.find?_cons_of_pos]
        exact decide_eq_true ((hkey a b hfa).trans ha)
    · rw [List.find?_cons_of_neg (by simpa using ha)]
      cases hfa : f a with
      | none => rw [List.filterMap_cons_none hfa, ih hrest]
      | some b =>
        rw [List.filterMap_cons_some hfa, List.find?_cons_of_neg, ih hrest]
        simpa using fun hb => ha ((hkey a b hfa).symm.trans hb)

theorem find?_key {l : List κ} {key : κ} (hmem : key ∈ l) :
    (l.find? fun other => other = key) = some key := by
  cases hfound : l.find? fun other => other = key with
  | none => exact absurd (decide_eq_true rfl) (List.find?_eq_none.mp hfound key hmem)
  | some other =>
    have hother : other = key := by simpa using List.find?_some hfound
    rw [hother]

end KeyedLists
