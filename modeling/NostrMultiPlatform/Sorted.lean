import Mathlib.Data.List.Sort
import Mathlib.Order.Lattice

/-!
# Ordered sets and maps

A set is the list of its elements in increasing order, a map the list of its
rows by increasing key. Two sets with the same members are equal, and so are two
maps with the same lookups, so iteration order is a function of the contents.
-/
namespace Sorted

section Sets
variable {α : Type} [LinearOrder α]

structure SortedSet (α : Type) [LinearOrder α] where
  elems : List α
  sorted : elems.Pairwise (· < ·)

namespace SortedSet

instance : DecidableEq (SortedSet α) := fun s t =>
  decidable_of_iff (s.elems = t.elems) (by cases s; cases t; simp)

instance : Membership α (SortedSet α) := ⟨fun s a => a ∈ s.elems⟩

instance (a : α) (s : SortedSet α) : Decidable (a ∈ s) := inferInstanceAs (Decidable (a ∈ s.elems))

instance : EmptyCollection (SortedSet α) := ⟨⟨[], .nil⟩⟩

variable {a : α} {xs : List α}

@[simp] theorem mem_elems {s : SortedSet α} : a ∈ s.elems ↔ a ∈ s := Iff.rfl

@[simp] theorem not_mem_empty (a : α) : a ∉ (∅ : SortedSet α) := List.not_mem_nil

theorem ext {s t : SortedSet α} (h : ∀ a, a ∈ s ↔ a ∈ t) : s = t := by
  obtain ⟨xs, hxs⟩ := s
  obtain ⟨ys, hys⟩ := t
  have hperm : xs.Perm ys :=
    (List.perm_ext_iff_of_nodup (hxs.imp fun h => h.ne) (hys.imp fun h => h.ne)).mpr h
  obtain rfl : xs = ys := hperm.eq_of_pairwise (fun _ _ _ _ hab hba => absurd hba hab.not_gt) hxs hys
  rfl

theorem eq_empty_iff {s : SortedSet α} : s = ∅ ↔ ∀ a, a ∉ s :=
  ⟨fun h a => h ▸ not_mem_empty a, fun h => ext fun a => iff_of_false (h a) (not_mem_empty a)⟩

theorem elems_eq_nil {s : SortedSet α} : s.elems = [] ↔ s = ∅ := by
  rw [eq_empty_iff, List.eq_nil_iff_forall_not_mem]
  rfl

theorem ne_empty_iff {s : SortedSet α} : s ≠ ∅ ↔ ∃ a, a ∈ s := by
  rw [Ne, eq_empty_iff]
  simp

/-- Insertion of an element where it belongs. -/
def insertElem (a : α) : List α → List α
  | [] => [a]
  | b :: rest => if a < b then a :: b :: rest else if a = b then b :: rest else b :: insertElem a rest

theorem mem_insertElem {a b : α} : b ∈ insertElem a xs ↔ b = a ∨ b ∈ xs := by
  induction xs with
  | nil => simp [insertElem]
  | cons _ _ ih =>
    simp only [insertElem]
    split
    · simp
    · split
      next heq => simp [heq]
      · simp only [List.mem_cons, ih]
        exact or_left_comm

theorem insertElem_sorted (a : α) (h : xs.Pairwise (· < ·)) :
    (insertElem a xs).Pairwise (· < ·) := by
  induction xs with
  | nil => exact List.pairwise_singleton _ a
  | cons _ _ ih =>
    obtain ⟨hc, hrest⟩ := List.pairwise_cons.mp h
    simp only [insertElem]
    split
    next hlt =>
      refine List.pairwise_cons.mpr ⟨fun b hb => ?_, h⟩
      rcases List.mem_cons.mp hb with rfl | hb
      · exact hlt
      · exact hlt.trans (hc b hb)
    next hnot =>
      split
      · exact h
      next hne =>
        refine List.pairwise_cons.mpr ⟨fun b hb => ?_, ih hrest⟩
        rcases mem_insertElem.mp hb with rfl | hb
        · exact lt_of_le_of_ne (not_lt.mp hnot) (Ne.symm hne)
        · exact hc b hb

instance : Insert α (SortedSet α) := ⟨fun a s => ⟨insertElem a s.elems, insertElem_sorted a s.sorted⟩⟩

instance : Singleton α (SortedSet α) := ⟨fun a => insert a ∅⟩

@[simp] theorem mem_insert {a b : α} {s : SortedSet α} : b ∈ insert a s ↔ b = a ∨ b ∈ s :=
  mem_insertElem

theorem insert_ne_empty (a : α) (s : SortedSet α) : insert a s ≠ ∅ := fun heq =>
  eq_empty_iff.mp heq a (mem_insert.mpr (.inl rfl))

@[simp] theorem mem_singleton {a b : α} : b ∈ ({a} : SortedSet α) ↔ b = a := by
  rw [show ({a} : SortedSet α) = insert a ∅ from rfl, mem_insert]
  simp

def ofList (xs : List α) : SortedSet α := xs.foldl (fun s a => insert a s) ∅

theorem mem_foldl_insert {s : SortedSet α} :
    a ∈ xs.foldl (fun s a => insert a s) s ↔ a ∈ s ∨ a ∈ xs := by
  induction xs generalizing s with
  | nil => simp
  | cons _ _ ih =>
    rw [List.foldl_cons, ih, mem_insert, List.mem_cons]
    exact ⟨fun h => by tauto, fun h => by tauto⟩

@[simp] theorem mem_ofList : a ∈ ofList xs ↔ a ∈ xs := by
  simp [ofList, mem_foldl_insert]

instance : Union (SortedSet α) := ⟨fun s t => t.elems.foldl (fun s a => insert a s) s⟩

@[simp] theorem mem_union {s t : SortedSet α} : a ∈ s ∪ t ↔ a ∈ s ∨ a ∈ t :=
  mem_foldl_insert

theorem empty_union (s : SortedSet α) : ∅ ∪ s = s := ext fun a => by simp

theorem union_empty (s : SortedSet α) : s ∪ ∅ = s := ext fun a => by simp

def card (s : SortedSet α) : Nat := s.elems.length

theorem card_le_of_subset {s t : SortedSet α} (h : ∀ a ∈ s, a ∈ t) : s.card ≤ t.card :=
  (List.subperm_of_subset (s.sorted.imp fun h => h.ne) h).length_le

def erase (s : SortedSet α) (a : α) : SortedSet α :=
  ⟨s.elems.filter (· ≠ a), s.sorted.filter _⟩

@[simp] theorem mem_erase {s : SortedSet α} {a b : α} : b ∈ s.erase a ↔ b ∈ s ∧ b ≠ a := by
  change b ∈ s.elems.filter (· ≠ a) ↔ _
  simp

def retain (p : α → Bool) (s : SortedSet α) : SortedSet α := ⟨s.elems.filter p, s.sorted.filter _⟩

@[simp] theorem mem_retain {p : α → Bool} {s : SortedSet α} :
    a ∈ s.retain p ↔ a ∈ s ∧ p a = true := List.mem_filter

/-- The set without the listed elements. -/
def removeAll (s : SortedSet α) (xs : List α) : SortedSet α := xs.foldl erase s

@[simp] theorem mem_removeAll {s : SortedSet α} : a ∈ s.removeAll xs ↔ a ∈ s ∧ a ∉ xs := by
  induction xs generalizing s with
  | nil => simp [removeAll]
  | cons _ _ ih =>
    rw [removeAll, List.foldl_cons, ← removeAll, ih, mem_erase, List.mem_cons, not_or, and_assoc]

end SortedSet

end Sets

section Maps
variable {κ ν μ : Type} [LinearOrder κ]

structure SortedMap (κ ν : Type) [LinearOrder κ] where
  rows : List (κ × ν)
  sorted : rows.Pairwise fun a b => a.1 < b.1

/-- The row of a key. -/
def find (k : κ) : List (κ × ν) → Option ν
  | [] => none
  | row :: rest => if row.1 = k then some row.2 else find k rest

/-- The rows with the one of the key replaced, or a new one where it belongs. -/
def alterRow (k : κ) (f : Option ν → ν) : List (κ × ν) → List (κ × ν)
  | [] => [(k, f none)]
  | row :: rest =>
    if k < row.1 then (k, f none) :: row :: rest
    else if k = row.1 then (k, f (some row.2)) :: rest
    else row :: alterRow k f rest

variable {rows : List (κ × ν)}

theorem find_eq_none {k : κ} (h : ∀ row ∈ rows, row.1 ≠ k) : find k rows = none := by
  induction rows with
  | nil => rfl
  | cons row _ ih =>
    rw [find, if_neg (h row List.mem_cons_self)]
    exact ih fun row hrow => h row (List.mem_cons_of_mem _ hrow)

theorem find_eq_some {k : κ} {v : ν} (hsorted : rows.Pairwise fun a b => a.1 < b.1) :
    find k rows = some v ↔ (k, v) ∈ rows := by
  induction rows with
  | nil => simp [find]
  | cons row _ ih =>
    obtain ⟨hrow, hrest⟩ := List.pairwise_cons.mp hsorted
    rw [find, List.mem_cons]
    by_cases hk : row.1 = k
    · rw [if_pos hk]
      constructor
      · intro h
        exact .inl (Prod.ext hk.symm (Option.some.inj h).symm)
      · rintro (heq | hmem)
        · rw [← heq]
        · exact absurd hk (hrow _ hmem).ne
    · rw [if_neg hk, ih hrest]
      exact ⟨.inr, fun h => h.resolve_left fun heq => hk (heq ▸ rfl)⟩

theorem mem_alterRow {k : κ} {f : Option ν → ν} {row : κ × ν} (h : row ∈ alterRow k f rows) :
    row.1 = k ∨ row ∈ rows := by
  induction rows with
  | nil => exact .inl (List.mem_singleton.mp h ▸ rfl)
  | cons _ _ ih =>
    simp only [alterRow] at h
    split at h
    · rcases List.mem_cons.mp h with rfl | h
      · exact .inl rfl
      · exact .inr h
    · split at h
      · rcases List.mem_cons.mp h with rfl | h
        · exact .inl rfl
        · exact .inr (List.mem_cons_of_mem _ h)
      · rcases List.mem_cons.mp h with rfl | h
        · exact .inr List.mem_cons_self
        · exact (ih h).imp_right (List.mem_cons_of_mem _)

theorem alterRow_sorted (k : κ) (f : Option ν → ν) (h : rows.Pairwise fun a b => a.1 < b.1) :
    (alterRow k f rows).Pairwise fun a b => a.1 < b.1 := by
  induction rows with
  | nil => exact List.pairwise_singleton _ _
  | cons _ _ ih =>
    obtain ⟨hfirst, hrest⟩ := List.pairwise_cons.mp h
    simp only [alterRow]
    split
    next hlt =>
      refine List.pairwise_cons.mpr ⟨fun row hrow => ?_, h⟩
      rcases List.mem_cons.mp hrow with rfl | hrow
      · exact hlt
      · exact hlt.trans (hfirst row hrow)
    next hnot =>
      split
      next heq => exact List.pairwise_cons.mpr ⟨fun row hrow => heq ▸ hfirst row hrow, hrest⟩
      next hne =>
        refine List.pairwise_cons.mpr ⟨fun row hrow => ?_, ih hrest⟩
        rcases mem_alterRow hrow with hk | hrow
        · exact hk ▸ lt_of_le_of_ne (not_lt.mp hnot) (Ne.symm hne)
        · exact hfirst row hrow

theorem find_alterRow (k j : κ) (f : Option ν → ν) (hsorted : rows.Pairwise fun a b => a.1 < b.1) :
    find j (alterRow k f rows) = if j = k then some (f (find k rows)) else find j rows := by
  induction rows with
  | nil =>
    by_cases h : j = k
    · simp [alterRow, find, h]
    · simp [alterRow, find, h, Ne.symm h]
  | cons first rest ih =>
    obtain ⟨hfirst, hrest⟩ := List.pairwise_cons.mp hsorted
    simp only [alterRow]
    split
    next hlt =>
      have hnone : find k (first :: rest) = none := find_eq_none fun row hrow => by
        rcases List.mem_cons.mp hrow with rfl | hrow
        · exact hlt.ne'
        · exact (hlt.trans (hfirst row hrow)).ne'
      rw [hnone]
      by_cases h : j = k
      · simp [find, h]
      · simp [find, h, Ne.symm h]
    next hnot =>
      split
      next heq =>
        by_cases h : j = k
        · simp [find, h, ← heq]
        · have hne : ¬ first.1 = j := fun hj => h (hj.symm.trans heq.symm)
          simp [find, h, Ne.symm h, hne]
      next hne =>
        have hk : ¬ first.1 = k := Ne.symm hne
        simp only [find, ih hrest, if_neg hk]
        by_cases hj : first.1 = j
        · have : ¬ j = k := fun h => hk (hj.trans h)
          simp [hj, this]
        · simp [hj]

namespace SortedMap

instance [DecidableEq ν] : DecidableEq (SortedMap κ ν) := fun s t =>
  decidable_of_iff (s.rows = t.rows) (by cases s; cases t; simp)

instance : EmptyCollection (SortedMap κ ν) := ⟨⟨[], .nil⟩⟩

def lookup (m : SortedMap κ ν) (k : κ) : Option ν := find k m.rows

def keys (m : SortedMap κ ν) : List κ := m.rows.map Prod.fst

/-- The entry API: the row of the key is computed from the one that was there. -/
def alter (m : SortedMap κ ν) (k : κ) (f : Option ν → ν) : SortedMap κ ν :=
  ⟨alterRow k f m.rows, alterRow_sorted k f m.sorted⟩

def insert (m : SortedMap κ ν) (k : κ) (v : ν) : SortedMap κ ν := m.alter k fun _ => v

@[simp] theorem lookup_empty (k : κ) : (∅ : SortedMap κ ν).lookup k = none := rfl

theorem lookup_eq_some {m : SortedMap κ ν} {k : κ} {v : ν} :
    m.lookup k = some v ↔ (k, v) ∈ m.rows := find_eq_some m.sorted

theorem mem_keys {m : SortedMap κ ν} {k : κ} : k ∈ m.keys ↔ ∃ v, m.lookup k = some v := by
  simp only [keys, List.mem_map, lookup_eq_some]
  exact ⟨fun ⟨row, hrow, hk⟩ => ⟨row.2, hk ▸ hrow⟩, fun ⟨v, hv⟩ => ⟨(k, v), hv, rfl⟩⟩

theorem keys_nodup (m : SortedMap κ ν) : m.keys.Nodup :=
  (List.pairwise_map.mpr m.sorted).imp fun hlt => hlt.ne

@[simp] theorem lookup_alter (m : SortedMap κ ν) (k j : κ) (f : Option ν → ν) :
    (m.alter k f).lookup j = if j = k then some (f (m.lookup k)) else m.lookup j :=
  find_alterRow k j f m.sorted

@[simp] theorem lookup_insert (m : SortedMap κ ν) (k j : κ) (v : ν) :
    (m.insert k v).lookup j = if j = k then some v else m.lookup j := lookup_alter m k j _

theorem mem_keys_insert {m : SortedMap κ ν} {k j : κ} {v : ν} :
    j ∈ (m.insert k v).keys ↔ j = k ∨ j ∈ m.keys := by
  rw [mem_keys, mem_keys, lookup_insert]
  by_cases h : j = k
  · simp [h]
  · simp [h]

theorem length_insert {m : SortedMap κ ν} {k : κ} (h : m.lookup k = none) (v : ν) :
    (m.insert k v).rows.length = m.rows.length + 1 := by
  have hnew : k ∉ m.keys := fun hmem => by
    obtain ⟨w, hw⟩ := mem_keys.mp hmem
    rw [h] at hw
    cases hw
  have hperm : (m.insert k v).keys.Perm (k :: m.keys) := by
    refine (List.perm_ext_iff_of_nodup (keys_nodup _) (List.nodup_cons.mpr ⟨hnew, keys_nodup m⟩)).mpr ?_
    exact fun j => by rw [mem_keys_insert, List.mem_cons]
  have hlength := hperm.length_eq
  rwa [List.length_cons, keys, keys, List.length_map, List.length_map] at hlength

theorem ext {m n : SortedMap κ ν} (h : ∀ k, m.lookup k = n.lookup k) : m = n := by
  obtain ⟨xs, hxs⟩ := m
  obtain ⟨ys, hys⟩ := n
  have hnodup : ∀ {rows : List (κ × ν)}, (rows.Pairwise fun a b => a.1 < b.1) → rows.Nodup :=
    fun hrows => hrows.imp fun hlt heq => hlt.ne (congrArg Prod.fst heq)
  have hperm : xs.Perm ys :=
    (List.perm_ext_iff_of_nodup (hnodup hxs) (hnodup hys)).mpr fun row => by
      have hrow := h row.1
      simp only [lookup] at hrow
      rw [← find_eq_some hxs (k := row.1) (v := row.2), hrow, find_eq_some hys]
  obtain rfl : xs = ys :=
    hperm.eq_of_pairwise (fun _ _ _ _ hab hba => absurd hba hab.not_gt) hxs hys
  rfl

/-- Every value computed from its key and the value that was there. -/
def mapRows (f : κ → ν → μ) (m : SortedMap κ ν) : SortedMap κ μ :=
  ⟨m.rows.map fun row => (row.1, f row.1 row.2), List.pairwise_map.mpr m.sorted⟩

@[simp] theorem lookup_mapRows (f : κ → ν → μ) (m : SortedMap κ ν) (k : κ) :
    (m.mapRows f).lookup k = (m.lookup k).map (f k) := by
  simp only [lookup, mapRows]
  induction m.rows with
  | nil => rfl
  | cons row _ ih =>
    by_cases h : row.1 = k
    · subst h
      simp [find]
    · simp [find, h, ih]

/-- The rows that are computed from their key and value; the others are dropped. -/
def filterMapRows (f : κ → ν → Option μ) (m : SortedMap κ ν) : SortedMap κ μ :=
  ⟨m.rows.filterMap fun row => (f row.1 row.2).map fun v => (row.1, v), by
    refine List.pairwise_filterMap.mpr (m.sorted.imp fun hlt _ hrow _ hrow' => ?_)
    obtain ⟨_, _, rfl⟩ := Option.map_eq_some_iff.mp hrow
    obtain ⟨_, _, rfl⟩ := Option.map_eq_some_iff.mp hrow'
    exact hlt⟩

@[simp] theorem lookup_filterMapRows (f : κ → ν → Option μ) (m : SortedMap κ ν) (k : κ) :
    (m.filterMapRows f).lookup k = (m.lookup k).bind (f k) := by
  obtain ⟨rows, hsorted⟩ := m
  simp only [lookup, filterMapRows]
  induction rows with
  | nil => rfl
  | cons row rest ih =>
    obtain ⟨hrow, hrest⟩ := List.pairwise_cons.mp hsorted
    by_cases h : row.1 = k
    · subst h
      cases hf : f row.1 row.2 with
      | some => simp [find, hf]
      | none =>
        have hnone : find row.1 rest = none := find_eq_none fun other hother => (hrow other hother).ne'
        simp [find, hf, ih hrest, hnone]
    · cases hf : f row.1 row.2 with
      | some | none => simp [find, h, hf, ih hrest]

def erase (m : SortedMap κ ν) (k : κ) : SortedMap κ ν :=
  m.filterMapRows fun j v => if j = k then none else some v

@[simp] theorem lookup_erase (m : SortedMap κ ν) (k j : κ) :
    (m.erase k).lookup j = if j = k then none else m.lookup j := by
  rw [erase, lookup_filterMapRows]
  by_cases h : j = k
  · simp [h]
  · simp [h]

/-- Every row computed from its key and value, if none fails. -/
def traverseRows (f : κ → ν → Option μ) : List (κ × ν) → Option (List (κ × μ))
  | [] => some []
  | (k, v) :: rest =>
    match f k v, traverseRows f rest with
    | some w, some rows => some ((k, w) :: rows)
    | _, _ => none

omit [LinearOrder κ] in
theorem traverseRows_keys {f : κ → ν → Option μ} {rows : List (κ × ν)} {rows' : List (κ × μ)}
    (h : traverseRows f rows = some rows') : rows'.map Prod.fst = rows.map Prod.fst := by
  induction rows generalizing rows' with
  | nil => cases h; rfl
  | cons row _ ih =>
    obtain ⟨k, v⟩ := row
    simp only [traverseRows] at h
    split at h
    next w rows hw hrows =>
      obtain rfl := Option.some.inj h
      simp [ih hrows]
    · cases h

variable {f : κ → ν → Option μ}

theorem traverseRows_sorted {rows : List (κ × ν)} {rows' : List (κ × μ)}
    (h : traverseRows f rows = some rows') (hsorted : rows.Pairwise fun a b => a.1 < b.1) :
    rows'.Pairwise fun a b => a.1 < b.1 := by
  rw [← List.pairwise_map (f := Prod.fst) (R := (· < ·)), traverseRows_keys h]
  exact List.pairwise_map.mpr hsorted

theorem find_traverseRows {rows : List (κ × ν)} {rows' : List (κ × μ)}
    (h : traverseRows f rows = some rows') (k : κ) : find k rows' = (find k rows).bind (f k) := by
  induction rows generalizing rows' with
  | nil => cases h; rfl
  | cons row _ ih =>
    obtain ⟨j, v⟩ := row
    simp only [traverseRows] at h
    split at h
    next w rows hw hrows =>
      obtain rfl := Option.some.inj h
      by_cases hk : j = k
      · subst hk
        simp [find, hw]
      · simp [find, hk, ih hrows]
    · cases h

omit [LinearOrder κ] in
theorem traverseRows_eq_some {f : κ → ν → Option μ} {rows : List (κ × ν)} :
    (∃ rows', traverseRows f rows = some rows') ↔ ∀ row ∈ rows, ∃ w, f row.1 row.2 = some w := by
  induction rows with
  | nil => simp [traverseRows]
  | cons row rest ih =>
    obtain ⟨k, v⟩ := row
    rw [List.forall_mem_cons, ← ih]
    simp only [traverseRows]
    cases hw : f k v <;> cases hrows : traverseRows f rest <;> simp

def traverse (f : κ → ν → Option μ) (m : SortedMap κ ν) : Option (SortedMap κ μ) :=
  match h : traverseRows f m.rows with
  | none => none
  | some rows => some ⟨rows, traverseRows_sorted h m.sorted⟩

theorem traverse_eq_some {m : SortedMap κ ν} {m' : SortedMap κ μ} (h : m.traverse f = some m') :
    m'.keys = m.keys ∧ ∀ k, m'.lookup k = (m.lookup k).bind (f k) := by
  unfold traverse at h
  split at h
  · cases h
  next rows hrows =>
    obtain rfl := Option.some.inj h
    exact ⟨traverseRows_keys hrows, fun k => find_traverseRows hrows k⟩

theorem traverse_isSome {m : SortedMap κ ν} (h : ∀ k v, m.lookup k = some v → ∃ w, f k v = some w) :
    ∃ m', m.traverse f = some m' := by
  obtain ⟨rows, hrows⟩ := traverseRows_eq_some.mpr fun row hrow =>
    h row.1 row.2 (lookup_eq_some.mpr hrow)
  unfold traverse
  split
  next hnone =>
    rw [hrows] at hnone
    cases hnone
  · exact ⟨_, rfl⟩

end SortedMap

end Maps

end Sorted
