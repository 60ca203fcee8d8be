import Mathlib.Data.List.Nodup
import Mathlib.Data.List.Flatten

/-!
# Exclusive holdings

Names are free or held by an owner. Holdings are exclusive if no name is in two
places: twice among the free ones, twice with one owner, with two owners, or
free and held. They stay exclusive when names are dropped, and grow by names
that are in no place yet.
-/
namespace Holdings

variable {ω ν : Type}

/-- The free names, and a row of names for each owner. -/
structure Places (ω ν : Type) where
  free : List ν
  held : List (ω × List ν)

def heldNames (held : List (ω × List ν)) : List ν := held.flatMap Prod.snd

@[simp] theorem heldNames_nil : heldNames ([] : List (ω × List ν)) = [] := rfl

@[simp] theorem heldNames_append (rows more : List (ω × List ν)) :
    heldNames (rows ++ more) = heldNames rows ++ heldNames more := List.flatMap_append

@[simp] theorem heldNames_singleton (row : ω × List ν) : heldNames [row] = row.2 := by
  simp [heldNames]

theorem heldNames_sublist {rows more : List (ω × List ν)} (h : rows.Sublist more) :
    (heldNames rows).Sublist (heldNames more) := by
  rw [heldNames, heldNames, List.flatMap_def, List.flatMap_def]
  exact (h.map Prod.snd).flatten

structure Exclusive (h : Places ω ν) : Prop where
  free : h.free.Nodup
  rows : ∀ row ∈ h.held, row.2.Nodup
  owners : h.held.Pairwise fun row other => ∀ c ∈ row.2, c ∉ other.2
  apart : ∀ row ∈ h.held, ∀ c ∈ row.2, c ∉ h.free

theorem exclusive_iff_nodup {h : Places ω ν} :
    Exclusive h ↔ (h.free ++ heldNames h.held).Nodup := by
  have hapart : List.Disjoint h.free (heldNames h.held) ↔
      ∀ row ∈ h.held, ∀ c ∈ row.2, c ∉ h.free := by
    simp only [List.Disjoint, heldNames, List.mem_flatMap]
    constructor
    · exact fun hall row hrow c hc hfree => hall hfree ⟨row, hrow, hc⟩
    · rintro hall c hfree ⟨row, hrow, hc⟩
      exact hall row hrow c hc hfree
  rw [List.nodup_append', hapart, heldNames, List.nodup_flatMap]
  constructor
  · intro hx
    exact ⟨hx.free, ⟨hx.rows, hx.owners.imp fun hne c hc => hne c hc⟩, hx.apart⟩
  · intro ⟨hfree, ⟨hrows, howners⟩, hboth⟩
    exact ⟨hfree, hrows, howners.imp fun hne _ hc hother => hne hc hother, hboth⟩

/-- Dropped names leave the rest exclusive. -/
theorem Exclusive.sublist {h less : Places ω ν} (hx : Exclusive h)
    (hfree : less.free.Sublist h.free) (hheld : less.held.Sublist h.held) : Exclusive less := by
  rw [exclusive_iff_nodup] at *
  exact (hfree.append (heldNames_sublist hheld)).nodup hx

/-- Names may be freed if they are in no place yet. -/
theorem exclusive_free_iff {free adds : List ν} {held : List (ω × List ν)}
    (hx : Exclusive ⟨free, held⟩) :
    Exclusive ⟨free ++ adds, held⟩ ↔
      adds.Nodup ∧ ∀ c ∈ adds, c ∉ free ∧ c ∉ heldNames held := by
  have hold := exclusive_iff_nodup.mp hx
  have hperm : (free ++ adds ++ heldNames held).Perm (adds ++ (free ++ heldNames held)) := by
    rw [List.append_assoc]
    exact List.perm_append_comm_assoc free adds _
  rw [exclusive_iff_nodup, hperm.nodup_iff, List.nodup_append', and_iff_right hold,
    List.disjoint_left]
  simp only [List.mem_append, not_or]

/-- A row may be added if its names are in no place yet. -/
theorem exclusive_hold_iff {free : List ν} {held made : List (ω × List ν)}
    (hx : Exclusive ⟨free, held⟩) :
    Exclusive ⟨free, held ++ made⟩ ↔
      (heldNames made).Nodup ∧ ∀ c ∈ heldNames made, c ∉ free ∧ c ∉ heldNames held := by
  have hold := exclusive_iff_nodup.mp hx
  have hassoc : free ++ heldNames (held ++ made) =
      free ++ heldNames held ++ heldNames made := by
    rw [heldNames_append, List.append_assoc]
  rw [exclusive_iff_nodup, hassoc, (List.perm_append_comm).nodup_iff, List.nodup_append',
    and_iff_right hold, List.disjoint_left]
  simp only [List.mem_append, not_or]

end Holdings
