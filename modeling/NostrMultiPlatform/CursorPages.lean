import Mathlib.Data.List.Sort
import Mathlib.Order.Basic

/-!
# Pages after a cursor

A list in descending order of a key is read page by page; a page begins at the first
value below the last key of the page before it. The list may change between the
pages, as long as what comes to it stands above the cursor.
-/
namespace CursorPages

variable {α κ : Type} [LinearOrder κ]

def Descending (key : α → κ) (xs : List α) : Prop := xs.Pairwise fun a b => key b < key a

/-- Without a cursor every value is still to be read. -/
def isBelow (key : α → κ) (cursor : Option κ) (a : α) : Bool := cursor.all (key a < ·)

variable {key : α → κ}

@[simp] theorem isBelow_none : isBelow key none = fun _ => true := rfl
@[simp] theorem isBelow_some (c : κ) : isBelow key (some c) = fun a => decide (key a < c) := rfl

theorem Descending.nodup {xs : List α} (h : Descending key xs) : xs.Nodup :=
  h.imp fun hlt heq => absurd (heq ▸ hlt) (lt_irrefl _)

theorem Descending.drop_findIdx {xs : List α} (h : Descending key xs) (c : κ) :
    xs.drop (xs.findIdx fun a => key a < c) = xs.filter fun a => key a < c := by
  induction xs with
  | nil => rfl
  | cons x rest ih =>
    obtain ⟨habove, hrest⟩ := List.pairwise_cons.mp h
    by_cases hx : key x < c
    · have hall : ∀ a ∈ rest, decide (key a < c) = true := fun a ha =>
        decide_eq_true ((habove a ha).trans hx)
      simp [List.findIdx_cons, hx, List.filter_eq_self.mpr hall]
    · simp [List.findIdx_cons, hx, ih hrest]

/-- Two lists in descending order with the same values are the same list. -/
theorem Descending.eq_of_mem {xs ys : List α} (hxs : Descending key xs)
    (hys : Descending key ys) (hmem : ∀ a, a ∈ xs ↔ a ∈ ys) : xs = ys := by
  have hperm : xs.Perm ys := (List.perm_ext_iff_of_nodup hxs.nodup hys.nodup).mpr hmem
  exact hperm.eq_of_pairwise (fun a b _ _ hab hba => absurd hab hba.asymm) hxs hys

section Reading

variable (key) (view : Nat → List α) (limit : Nat → Nat)

/-- The cursor the `k`-th page is asked with; there is one as long as there is more. -/
def cursorAt : Nat → Option κ
  | 0 => none
  | k + 1 =>
    let rest := (view k).filter (isBelow key (cursorAt k))
    if limit k < rest.length then (rest.take (limit k)).getLast?.map key else none

def restAt (k : Nat) : List α := (view k).filter (isBelow key (cursorAt key view limit k))

def pageAt (k : Nat) : List α := (restAt key view limit k).take (limit k)

def HasMore (k : Nat) : Prop := limit k < (restAt key view limit k).length

/-- All pages before the `n`-th. -/
def pages (n : Nat) : List α := (List.range n).flatMap (pageAt key view limit)

end Reading

section Views

variable {view : Nat → List α} {limit : Nat → Nat}

/-- As long as there is more, what a view has and the view before it had not stands above
the cursor between them. -/
def GrowsAbove (key : α → κ) (view : Nat → List α) (limit : Nat → Nat) : Prop :=
  ∀ k c, (∀ j ≤ k, HasMore key view limit j) → cursorAt key view limit (k + 1) = some c →
    ∀ a ∈ view (k + 1), a ∉ view k → c < key a

theorem pages_succ (n : Nat) :
    pages key view limit (n + 1) = pages key view limit n ++ pageAt key view limit n := by
  simp [pages, List.range_succ]

variable {a : α} {k n : Nat}

theorem mem_restAt : a ∈ restAt key view limit k ↔
    a ∈ view k ∧ isBelow key (cursorAt key view limit k) a = true := List.mem_filter

theorem restAt_descending (hview : ∀ k, Descending key (view k)) (k : Nat) :
    Descending key (restAt key view limit k) := (hview k).filter _

/-- With more to come the cursor is the key of the last value of the page. -/
theorem cursorAt_succ (hlimit : ∀ k, 0 < limit k) (h : HasMore key view limit k) :
    ∃ front last, pageAt key view limit k = front ++ [last] ∧
      cursorAt key view limit (k + 1) = some (key last) := by
  have hne : pageAt key view limit k ≠ [] := by
    have hlen := hlimit k
    rw [HasMore] at h
    simp only [pageAt, ne_eq, List.take_eq_nil_iff]
    rintro (hzero | hnil)
    · omega
    · simp [hnil] at h
  refine ⟨_, _, (List.dropLast_append_getLast hne).symm, ?_⟩
  change (if limit k < (restAt key view limit k).length then
    (pageAt key view limit k).getLast?.map key else none) = _
  rw [if_pos (show limit k < _ from h), List.getLast?_eq_some_getLast hne, Option.map_some]

/-- What is read from a list in descending order stands above what is left. -/
theorem rest_split (hview : ∀ k, Descending key (view k)) (hlimit : ∀ k, 0 < limit k)
    (h : HasMore key view limit k) {c : κ} (hc : cursorAt key view limit (k + 1) = some c)
    (ha : a ∈ restAt key view limit k) :
    (a ∈ pageAt key view limit k ∧ c ≤ key a) ∨ (a ∉ pageAt key view limit k ∧ key a < c) := by
  obtain ⟨front, last, hpage, hcursor⟩ := cursorAt_succ hlimit h
  obtain rfl : key last = c := Option.eq_some_unique hcursor hc
  have hsplit : restAt key view limit k =
      front ++ [last] ++ (restAt key view limit k).drop (limit k) := by
    rw [← hpage, pageAt, List.take_append_drop]
  have hdesc : Descending key (restAt key view limit k) := restAt_descending hview k
  rw [hsplit] at hdesc ha
  obtain ⟨hread, -, hleft⟩ := List.pairwise_append.mp hdesc
  rcases List.mem_append.mp ha with hmem | hmem
  · refine .inl ⟨hpage ▸ hmem, ?_⟩
    rcases List.mem_append.mp hmem with hfront | hlast
    · exact ((List.pairwise_append.mp hread).2.2 a hfront last (List.mem_singleton_self _)).le
    · rw [List.mem_singleton.mp hlast]
  · have hbelow : key a < key last :=
      hleft last (List.mem_append_right _ (List.mem_singleton_self _)) a hmem
    refine .inr ⟨fun hin => ?_, hbelow⟩
    rw [hpage] at hin
    exact lt_irrefl _ (hleft a hin a hmem)

variable (hview : ∀ k, Descending key (view k)) (hlimit : ∀ k, 0 < limit k)
  (hgrows : GrowsAbove key view limit)

include hview hlimit in
/-- A value of both views that was still to be read is read by the page or is left over. -/
theorem read_or_left (h : HasMore key view limit k) (ha : a ∈ restAt key view limit k)
    (hnext : a ∈ view (k + 1)) :
    a ∈ pageAt key view limit k ∨ a ∈ restAt key view limit (k + 1) := by
  obtain ⟨_, last, -, hcursor⟩ := cursorAt_succ hlimit h
  rcases rest_split hview hlimit h hcursor ha with hread | hleft
  · exact .inl hread.1
  · refine .inr (mem_restAt.mpr ⟨hnext, ?_⟩)
    simp [hcursor, hleft.2]

include hview hlimit hgrows in
theorem restAt_succ_subset (h : ∀ j ≤ k, HasMore key view limit j)
    (ha : a ∈ restAt key view limit (k + 1)) :
    a ∈ restAt key view limit k ∧ a ∉ pageAt key view limit k := by
  obtain ⟨front, last, hpage, hcursor⟩ := cursorAt_succ hlimit (h k (Nat.le_refl k))
  obtain ⟨hin, hbelow⟩ := mem_restAt.mp ha
  simp only [hcursor, isBelow_some, decide_eq_true_eq] at hbelow
  have hold : a ∈ view k := by
    by_contra hnew
    exact lt_asymm hbelow (hgrows k _ h hcursor a hin hnew)
  have hlast : last ∈ restAt key view limit k :=
    List.mem_of_mem_take (hpage ▸ List.mem_append_right _ (List.mem_singleton_self _) :
      last ∈ pageAt key view limit k)
  have hrest : a ∈ restAt key view limit k := by
    refine mem_restAt.mpr ⟨hold, ?_⟩
    have hbelowLast := (mem_restAt.mp hlast).2
    cases hc : cursorAt key view limit k with
    | none => rfl
    | some =>
      simp only [hc, isBelow_some, decide_eq_true_eq] at hbelowLast ⊢
      exact hbelow.trans hbelowLast
  refine ⟨hrest, fun hread => ?_⟩
  rcases rest_split hview hlimit (h k (Nat.le_refl k)) hcursor hrest with hpaged | hleft
  · exact absurd hbelow hpaged.2.not_gt
  · exact hleft.1 hread

include hview hlimit hgrows in
/-- Every page leaves fewer values to read. -/
theorem restAt_shrinks (h : ∀ j ≤ k, HasMore key view limit j) :
    (restAt key view limit (k + 1)).length < (restAt key view limit k).length := by
  obtain ⟨front, last, hpage, -⟩ := cursorAt_succ hlimit (h k (Nat.le_refl k))
  have hlast : last ∈ pageAt key view limit k :=
    hpage ▸ List.mem_append_right _ (List.mem_singleton_self _)
  have hnot : last ∉ restAt key view limit (k + 1) := fun hin =>
    (restAt_succ_subset hview hlimit hgrows h hin).2 hlast
  have hsub : last :: restAt key view limit (k + 1) ⊆ restAt key view limit k := by
    intro a ha
    rcases List.mem_cons.mp ha with rfl | hin
    · exact List.mem_of_mem_take hlast
    · exact (restAt_succ_subset hview hlimit hgrows h hin).1
  have hnodup : (last :: restAt key view limit (k + 1)).Nodup :=
    List.nodup_cons.mpr ⟨hnot, (restAt_descending hview _).nodup⟩
  exact (List.subperm_of_subset hnodup hsub).length_le

include hview hlimit hgrows in
/-- The reading comes to an end. -/
theorem reading_ends :
    ∃ n, (∀ k < n, HasMore key view limit k) ∧ ¬ HasMore key view limit n := by
  classical
  have hend : ∃ n, ¬ HasMore key view limit n := by
    by_contra hnever
    push Not at hnever
    have hbound : ∀ k, (restAt key view limit k).length + k ≤ (restAt key view limit 0).length := by
      intro k
      induction k with
      | zero => rfl
      | succ k =>
        have hless := restAt_shrinks hview hlimit hgrows fun j (_ : j ≤ k) => hnever j
        omega
    have hover := hbound ((restAt key view limit 0).length + 1)
    omega
  exact ⟨Nat.find hend, fun k hk => not_not.mp (Nat.find_min hend hk), Nat.find_spec hend⟩

include hview hlimit in
/-- What was there all along is read before the cursor has passed it. -/
theorem read_or_rest (hmore : ∀ k < n, HasMore key view limit k) (ha : ∀ k ≤ n, a ∈ view k) :
    a ∈ pages key view limit n ∨ a ∈ restAt key view limit n := by
  induction n with
  | zero => exact .inr (mem_restAt.mpr ⟨ha 0 (Nat.le_refl 0), rfl⟩)
  | succ n ih =>
    rw [pages_succ, List.mem_append]
    rcases ih (fun k hk => hmore k (by omega)) fun k hk => ha k (by omega) with hread | hrest
    · exact .inl (.inl hread)
    · rcases read_or_left hview hlimit (hmore n (by omega)) hrest (ha (n + 1) (Nat.le_refl _))
        with hnow | hleft
      · exact .inl (.inr hnow)
      · exact .inr hleft

include hview hlimit in
/-- Nothing that was there all along is skipped. -/
theorem none_skipped (hmore : ∀ k < n, HasMore key view limit k) (hend : ¬ HasMore key view limit n)
    (ha : ∀ k ≤ n, a ∈ view k) : a ∈ pages key view limit (n + 1) := by
  rw [pages_succ, List.mem_append]
  rcases read_or_rest hview hlimit hmore ha with hread | hrest
  · exact .inl hread
  · refine .inr ?_
    rw [pageAt, List.take_of_length_le (not_lt.mp hend)]
    exact hrest

include hview hlimit in
/-- The pages stand above the cursor they have reached. -/
theorem pages_above (hmore : ∀ k < n, HasMore key view limit k) {c : κ}
    (hc : cursorAt key view limit n = some c) (ha : a ∈ pages key view limit n) : c ≤ key a := by
  induction n generalizing c with
  | zero => exact absurd ha List.not_mem_nil
  | succ n ih =>
    have hnow := hmore n (by omega)
    rw [pages_succ, List.mem_append] at ha
    rcases ha with hold | hnew
    · obtain ⟨front, last, hpage, hcursor⟩ := cursorAt_succ hlimit hnow
      obtain rfl : key last = c := Option.eq_some_unique hcursor hc
      have hlast : last ∈ pageAt key view limit n :=
        hpage ▸ List.mem_append_right _ (List.mem_singleton_self _)
      have hbelow := (mem_restAt.mp (List.mem_of_mem_take hlast)).2
      cases hprev : cursorAt key view limit n with
      | none =>
        cases n with
        | zero => exact absurd hold List.not_mem_nil
        | succ n =>
          obtain ⟨_, _, -, hsome⟩ := cursorAt_succ hlimit (hmore n (by omega))
          rw [hprev] at hsome
          cases hsome
      | some =>
        simp only [hprev, isBelow_some, decide_eq_true_eq] at hbelow
        exact hbelow.le.trans (ih (fun k hk => hmore k (by omega)) hprev hold)
    · rcases rest_split hview hlimit hnow hc (List.mem_of_mem_take hnew) with hread | hleft
      · exact hread.2
      · exact absurd hnew hleft.1

include hview hlimit in
/-- The pages run down through the keys. -/
theorem pages_descending (hmore : ∀ k < n, HasMore key view limit k) :
    Descending key (pages key view limit (n + 1)) := by
  have hpage : ∀ k, Descending key (pageAt key view limit k) := fun k =>
    (restAt_descending hview k).sublist (List.take_sublist _ _)
  induction n with
  | zero =>
    rw [pages_succ]
    exact hpage 0
  | succ n ih =>
    have hnow := hmore n (by omega)
    rw [pages_succ]
    refine List.pairwise_append.mpr ⟨ih fun k hk => hmore k (by omega), hpage _, ?_⟩
    intro a ha b hb
    obtain ⟨_, last, -, hcursor⟩ := cursorAt_succ hlimit hnow
    have hbelow := (mem_restAt.mp (List.mem_of_mem_take hb)).2
    simp only [hcursor, isBelow_some, decide_eq_true_eq] at hbelow
    exact lt_of_lt_of_le hbelow (pages_above hview hlimit hmore hcursor ha)

end Views

end CursorPages
