import Mathlib.Data.List.Basic
import Mathlib.Order.Monotone.Basic

/-!
# Lists read in stretches

A stretch goes on until it has room for no more marked places, or has used its
budget of places. A list is read stretch by stretch; the boundaries are where
one ends and the next begins.
-/
namespace Stretches

variable {ε : Type} {mark : ε → Bool} {room budget : Nat}

/-- The room left after a place. -/
def roomAfter (mark : ε → Bool) (room : Nat) (e : ε) : Nat := if mark e then room - 1 else room

/-- The length of the first stretch of a list. -/
def stretch (mark : ε → Bool) : Nat → Nat → List ε → Nat
  | _, _, [] => 0
  | room, budget, e :: rest =>
    if roomAfter mark room e = 0 ∨ budget ≤ 1 then 1
    else stretch mark (roomAfter mark room e) (budget - 1) rest + 1

theorem stretch_le_length (mark : ε → Bool) (room budget : Nat) (xs : List ε) :
    stretch mark room budget xs ≤ xs.length := by
  induction xs generalizing room budget with
  | nil => exact Nat.le_refl 0
  | cons _ _ ih =>
    rw [stretch, List.length_cons]
    split
    · omega
    · exact Nat.succ_le_succ (ih _ _)

theorem stretch_pos (mark : ε → Bool) (room budget : Nat) {xs : List ε} (h : xs ≠ []) :
    0 < stretch mark room budget xs := by
  cases xs with
  | nil => exact absurd rfl h
  | cons =>
    rw [stretch]
    split <;> omega

/-- Only the part within the budget counts. -/
theorem stretch_take (xs : List ε) (hbudget : 0 < budget) :
    stretch mark room budget (xs.take budget) = stretch mark room budget xs := by
  induction xs generalizing room budget with
  | nil => rw [List.take_nil]
  | cons _ _ ih =>
    obtain ⟨left, rfl⟩ : ∃ left, budget = left + 1 := ⟨budget - 1, by omega⟩
    rw [List.take_succ_cons, stretch, stretch]
    split
    · rfl
    next hgoes =>
      rw [Nat.add_sub_cancel, ih (by omega)]

/-- A stretch that ends before the list does has filled its room or used its budget. -/
theorem stretch_ends {xs : List ε} (hroom : 0 < room) (hbudget : 0 < budget)
    (h : stretch mark room budget xs < xs.length) :
    ((xs.take (stretch mark room budget xs)).filter mark).length = room ∨
      stretch mark room budget xs = budget := by
  induction xs generalizing room budget with
  | nil => exact absurd h (Nat.lt_irrefl 0)
  | cons e _ ih =>
    have hle : roomAfter mark room e ≤ room := by
      unfold roomAfter
      split <;> omega
    have hone : ([e].filter mark).length = room - roomAfter mark room e := by
      cases hmark : mark e
      · simp [roomAfter, hmark]
      · simp only [roomAfter, hmark, List.filter_cons_of_pos, List.filter_nil,
          List.length_singleton, if_true]
        omega
    rw [stretch] at h ⊢
    split at h
    next hstop =>
      rw [if_pos hstop]
      obtain hfull | hused := hstop
      · left
        rw [List.take_succ_cons, List.take_zero, hone, hfull, Nat.sub_zero]
      · right
        omega
    next hgoes =>
      rw [if_neg hgoes, List.take_succ_cons]
      obtain ⟨hleft, hmore⟩ := not_or.mp hgoes
      obtain hfull | hused := ih (by omega) (by omega) (Nat.lt_of_succ_lt_succ h)
      · left
        rw [← List.singleton_append, List.filter_append, List.length_append, hone, hfull]
        omega
      · right
        omega

/-- Where the `k`-th stretch begins. -/
def boundary (mark : ε → Bool) (room budget : Nat) (xs : List ε) : Nat → Nat
  | 0 => 0
  | k + 1 => boundary mark room budget xs k +
      stretch mark room budget (xs.drop (boundary mark room budget xs k))

variable {xs : List ε}

theorem boundary_mono : Monotone (boundary mark room budget xs) :=
  monotone_nat_of_le_succ fun _ => Nat.le_add_right _ _

theorem boundary_le_length (k : Nat) : boundary mark room budget xs k ≤ xs.length := by
  induction k with
  | zero => exact Nat.zero_le _
  | succ k =>
    have hle := stretch_le_length mark room budget (xs.drop (boundary mark room budget xs k))
    rw [List.length_drop] at hle
    rw [boundary]
    omega

/-- Nothing lies between two boundaries that follow each other. -/
theorem boundary_next {k j : Nat}
    (h : boundary mark room budget xs k < boundary mark room budget xs j) :
    boundary mark room budget xs (k + 1) ≤ boundary mark room budget xs j := by
  refine boundary_mono (Nat.succ_le_of_lt ?_)
  by_contra hle
  exact absurd (boundary_mono (Nat.le_of_not_lt hle)) (Nat.not_le_of_lt h)

end Stretches
