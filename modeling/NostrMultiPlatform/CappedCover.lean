import Mathlib.Data.Finset.Card
import Mathlib.Data.List.Basic

/-!
# Capped cover

Carriers are picked one after another, each at most once. A client is served by
the first picks among its own carriers, up to a cap. Once no pick can serve it
any more it has as many of its carriers as the cap and their number allow, so any
large enough part of its carriers contains one that serves it.
-/
namespace CappedCover

variable {ρ : Type} [DecidableEq ρ] {cap : Nat} {carriers part : Finset ρ} {picks : List ρ} {r w : ρ}

/-- The picks that carry the client. -/
def hits (carriers : Finset ρ) (picks : List ρ) : List ρ := picks.filter (· ∈ carriers)

/-- The picks that serve the client. -/
def served (cap : Nat) (carriers : Finset ρ) (picks : List ρ) : List ρ := (hits carriers picks).take cap

/-- Picking the carrier would serve the client. -/
def Waits (cap : Nat) (carriers : Finset ρ) (picks : List ρ) (r : ρ) : Prop :=
  r ∈ carriers ∧ r ∉ picks ∧ (hits carriers picks).length < cap

@[simp] theorem served_nil : served cap carriers [] = [] := List.take_nil

theorem hits_snoc : hits carriers (picks ++ [w]) =
    hits carriers picks ++ if w ∈ carriers then [w] else [] := by
  by_cases h : w ∈ carriers
  · simp [hits, h]
  · simp [hits, h]

theorem served_eq_hits (h : (hits carriers picks).length < cap) :
    served cap carriers picks = hits carriers picks := List.take_of_length_le h.le

theorem served_snoc_of_waits (h : Waits cap carriers picks w) :
    served cap carriers (picks ++ [w]) = served cap carriers picks ++ [w] := by
  obtain ⟨hcarries, -, hroom⟩ := h
  rw [served_eq_hits hroom, served, hits_snoc, if_pos hcarries]
  refine List.take_of_length_le ?_
  rw [List.length_append, List.length_singleton]
  omega

theorem served_snoc_of_not_waits (hnew : w ∉ picks) (h : ¬ Waits cap carriers picks w) :
    served cap carriers (picks ++ [w]) = served cap carriers picks := by
  rw [served, hits_snoc]
  by_cases hcarries : w ∈ carriers
  · have hfull : cap ≤ (hits carriers picks).length :=
      not_lt.mp fun hroom => h ⟨hcarries, hnew, hroom⟩
    exact List.take_append_of_le_length hfull
  · rw [if_neg hcarries, List.append_nil]
    rfl

theorem served_mono (h : r ∈ served cap carriers picks) : r ∈ served cap carriers (picks ++ [w]) := by
  have hprefix : served cap carriers picks <+: served cap carriers (picks ++ [w]) := by
    rw [served, served, hits_snoc]
    exact (List.prefix_append _ _).take cap
  exact hprefix.subset h

/-- After a pick the client waits for its other carriers, if the pick did not fill it. -/
theorem waits_snoc (hnew : w ∉ picks) : Waits cap carriers (picks ++ [w]) r ↔
    Waits cap carriers picks r ∧ r ≠ w ∧
      (Waits cap carriers picks w → (served cap carriers picks).length + 1 < cap) := by
  simp only [Waits, hits_snoc, List.mem_append, List.mem_singleton, not_or]
  by_cases hcarries : w ∈ carriers
  · constructor
    · rintro ⟨hr, ⟨hnot, hne⟩, hroom⟩
      simp only [if_pos hcarries, List.length_append, List.length_singleton] at hroom
      refine ⟨⟨hr, hnot, by omega⟩, hne, fun _ => ?_⟩
      rwa [served_eq_hits (by omega)]
    · rintro ⟨⟨hr, hnot, hroom⟩, hne, hnext⟩
      have hlt := hnext ⟨hcarries, hnew, hroom⟩
      rw [served_eq_hits hroom] at hlt
      exact ⟨hr, ⟨hnot, hne⟩, by simpa [if_pos hcarries] using hlt⟩
  · rw [if_neg hcarries, List.append_nil]
    simp only [hcarries, false_and, IsEmpty.forall_iff, and_true]
    constructor
    · rintro ⟨hr, ⟨hnot, hne⟩, hroom⟩
      exact ⟨⟨hr, hnot, hroom⟩, hne⟩
    · rintro ⟨⟨hr, hnot, hroom⟩, hne⟩
      exact ⟨hr, ⟨hnot, hne⟩, hroom⟩

theorem mem_served_carriers (h : r ∈ served cap carriers picks) : r ∈ carriers ∧ r ∈ picks := by
  obtain ⟨hpick, hcarries⟩ := List.mem_filter.mp (List.mem_of_mem_take h)
  exact ⟨of_decide_eq_true hcarries, hpick⟩

theorem hits_card (hpicks : picks.Nodup) :
    (hits carriers picks).toFinset.card = (hits carriers picks).length :=
  List.toFinset_card_of_nodup (hpicks.filter _)

theorem mem_hits : r ∈ (hits carriers picks).toFinset ↔ r ∈ carriers ∧ r ∈ picks := by
  rw [List.mem_toFinset, hits, List.mem_filter, decide_eq_true_iff, and_comm]

theorem served_nodup (hpicks : picks.Nodup) : (served cap carriers picks).Nodup :=
  (hpicks.filter _).sublist (List.take_sublist _ _)

/-- A client that waits for nothing has as many carriers as the cap and their number allow. -/
theorem served_length (hpicks : picks.Nodup) (hdone : ∀ r, ¬ Waits cap carriers picks r) :
    (served cap carriers picks).length = min cap carriers.card := by
  have hhits : (hits carriers picks).length ≤ carriers.card := by
    rw [← hits_card hpicks]
    exact Finset.card_le_card fun r hr => (mem_hits.mp hr).1
  rw [served, List.length_take]
  by_cases hfull : cap ≤ (hits carriers picks).length
  · omega
  · have hall : carriers.card ≤ (hits carriers picks).length := by
      rw [← hits_card hpicks]
      refine Finset.card_le_card fun r hr => mem_hits.mpr ⟨hr, ?_⟩
      by_contra hnot
      exact hdone r ⟨hr, hnot, not_le.mp hfull⟩
    omega

/-- A part of the carriers that is too large for the others to serve the client alone. -/
theorem exists_served (hpart : part ⊆ carriers) (hpicks : picks.Nodup)
    (hlarge : carriers.card < part.card + (served cap carriers picks).length) :
    ∃ r ∈ part, r ∈ served cap carriers picks := by
  by_contra hnone
  have hdisjoint : Disjoint part (served cap carriers picks).toFinset :=
    Finset.disjoint_left.mpr fun r hr hserved => hnone ⟨r, hr, List.mem_toFinset.mp hserved⟩
  have hsub : part ∪ (served cap carriers picks).toFinset ⊆ carriers :=
    Finset.union_subset hpart fun r hr => (mem_served_carriers (List.mem_toFinset.mp hr)).1
  have hcard := Finset.card_le_card hsub
  rw [Finset.card_union_of_disjoint hdisjoint,
    List.toFinset_card_of_nodup (served_nodup hpicks)] at hcard
  omega

end CappedCover
