import Mathlib.Data.List.Induction
import Mathlib.Data.List.Nodup
import Mathlib.Data.List.Perm.Subperm

/-!
# The first of each key

Elements come one after the other, and one is kept when none of its key has been
kept before. What is kept has distinct keys, misses no key, and comes before the
other elements of its key.
-/
namespace KeyedFirsts

variable {α κ : Type} {key : α → κ} {x y : α} {xs kept : List α}

/-- Elements that are told apart by their keys are no more than the keys. -/
theorem length_le_of_keys {keys : List κ} (key : α → κ) (hnodup : xs.Nodup)
    (hinj : ∀ a ∈ xs, ∀ b ∈ xs, key a = key b → a = b) (hkeys : ∀ a ∈ xs, key a ∈ keys) :
    xs.length ≤ keys.length := by
  have hsub : xs.map key ⊆ keys := fun k hk => by
    obtain ⟨a, ha, rfl⟩ := List.mem_map.mp hk
    exact hkeys a ha
  have hle := (List.subperm_of_subset (hnodup.map_on hinj) hsub).length_le
  rwa [List.length_map] at hle

variable [BEq κ]

def keep (key : α → κ) (kept : List α) (x : α) : List α :=
  if kept.any fun y => key y == key x then kept else kept ++ [x]

def firsts (key : α → κ) (xs : List α) : List α := xs.foldl (keep key) []

@[simp] theorem firsts_nil : firsts key [] = [] := rfl

@[simp] theorem firsts_concat (xs : List α) (x : α) :
    firsts key (xs ++ [x]) = keep key (firsts key xs) x :=
  List.foldl_concat (keep key) [] x xs

variable [LawfulBEq κ]

theorem any_key : (kept.any fun y => key y == key x) = true ↔ key x ∈ kept.map key := by
  rw [List.any_eq_true, List.mem_map]
  simp only [beq_iff_eq]

theorem mem_keep : y ∈ keep key kept x ↔ y ∈ kept ∨ (y = x ∧ key x ∉ kept.map key) := by
  unfold keep
  split
  next h => exact (or_iff_left fun hnew => hnew.2 (any_key.mp h)).symm
  next h =>
    rw [List.mem_append, List.mem_singleton, and_iff_left fun hkey => h (any_key.mpr hkey)]

theorem nodup_keep (h : (kept.map key).Nodup) : ((keep key kept x).map key).Nodup := by
  unfold keep
  split
  next => exact h
  next hnew =>
    rw [List.map_append, List.map_singleton, ← List.concat_eq_append]
    exact h.concat fun hkey => hnew (any_key.mpr hkey)

theorem key_mem_keep : key x ∈ (keep key kept x).map key := by
  by_cases h : key x ∈ kept.map key
  · obtain ⟨y, hy, heq⟩ := List.mem_map.mp h
    exact List.mem_map.mpr ⟨y, mem_keep.mpr (.inl hy), heq⟩
  · exact List.mem_map_of_mem (mem_keep.mpr (.inr ⟨rfl, h⟩))

theorem nodup_firsts (key : α → κ) (xs : List α) : ((firsts key xs).map key).Nodup := by
  induction xs using List.reverseRecOn with
  | nil => exact List.nodup_nil
  | append_singleton _ _ ih =>
    rw [firsts_concat]
    exact nodup_keep ih

theorem firsts_subset : y ∈ firsts key xs → y ∈ xs := by
  induction xs using List.reverseRecOn with
  | nil => exact id
  | append_singleton _ _ ih =>
    rw [firsts_concat, mem_keep, List.mem_append, List.mem_singleton]
    exact Or.imp ih And.left

/-- No key is missed. -/
theorem key_mem_firsts (h : x ∈ xs) : key x ∈ (firsts key xs).map key := by
  induction xs using List.reverseRecOn with
  | nil => cases h
  | append_singleton _ _ ih =>
    rw [firsts_concat]
    rcases List.mem_append.mp h with hearlier | hlast
    · obtain ⟨y, hy, heq⟩ := List.mem_map.mp (ih hearlier)
      exact List.mem_map.mpr ⟨y, mem_keep.mpr (.inl hy), heq⟩
    · obtain rfl := List.mem_singleton.mp hlast
      exact key_mem_keep

/-- What is kept is related to the other elements of its key as an earlier one to a later one. -/
theorem firsts_before {r : α → α → Prop} (hr : xs.Pairwise r) (hy : y ∈ firsts key xs) (hx : x ∈ xs)
    (hkey : key x = key y) : x = y ∨ r y x := by
  induction xs using List.reverseRecOn with
  | nil => cases hx
  | append_singleton _ _ ih =>
    rw [List.pairwise_append] at hr
    obtain ⟨hxs, -, hlast⟩ := hr
    rw [firsts_concat, mem_keep] at hy
    rcases hy with hy | ⟨rfl, hnew⟩
    · rcases List.mem_append.mp hx with hx | hx
      · exact ih hxs hy hx
      · exact .inr (hlast y (firsts_subset hy) x hx)
    · rcases List.mem_append.mp hx with hx | hx
      · exact absurd (hkey ▸ key_mem_firsts hx) hnew
      · exact .inl (List.mem_singleton.mp hx)

end KeyedFirsts
