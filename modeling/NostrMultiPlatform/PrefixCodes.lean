import Mathlib.Data.List.Basic

/-!
# Prefix-free codes

A code is prefix-free if a value can be read off the front of any text that
begins with its word. Such codes can be put one after the other, under a tag,
and into lists that are preceded by their length.
-/
namespace PrefixCodes

variable {α β γ δ : Type} {enc : α → List δ} {enc' : β → List δ}

structure PrefixFree (enc : α → List δ) : Prop where
  split : ∀ {a b : α} {s t : List δ}, enc a ++ s = enc b ++ t → a = b ∧ s = t

/-- One letter for each value. -/
theorem PrefixFree.letter {f : α → δ} (h : Function.Injective f) : PrefixFree fun a => [f a] := by
  refine ⟨fun {a b s t} heq => ?_⟩
  obtain ⟨hletter, hrest⟩ := List.cons.inj heq
  exact ⟨h hletter, hrest⟩

section

variable (h : PrefixFree enc)
include h

theorem PrefixFree.comp {f : γ → α} (hf : Function.Injective f) :
    PrefixFree fun c => enc (f c) := by
  refine ⟨fun heq => ?_⟩
  obtain ⟨hsame, hrest⟩ := h.split heq
  exact ⟨hf hsame, hrest⟩

theorem PrefixFree.pair (h' : PrefixFree enc') :
    PrefixFree fun p : α × β => enc p.1 ++ enc' p.2 := by
  refine ⟨fun heq => ?_⟩
  simp only [List.append_assoc] at heq
  obtain ⟨hfirst, hrest⟩ := h.split heq
  obtain ⟨hsecond, hend⟩ := h'.split hrest
  exact ⟨Prod.ext hfirst hsecond, hend⟩

/-- A tag says whether there is a value. -/
theorem PrefixFree.option {absent present : δ} (hne : absent ≠ present) :
    PrefixFree fun o : Option α => o.elim [absent] fun a => present :: enc a := by
  refine ⟨fun {o p s t} heq => ?_⟩
  cases o with
  | none =>
    cases p with
    | none => exact ⟨rfl, (List.cons.inj heq).2⟩
    | some => exact absurd (List.cons.inj heq).1 hne
  | some =>
    cases p with
    | none => exact absurd (List.cons.inj heq).1 hne.symm
    | some =>
      obtain ⟨rfl, hrest⟩ := h.split (List.cons.inj heq).2
      exact ⟨rfl, hrest⟩

theorem PrefixFree.flatMap {xs ys : List α} {s t : List δ} (hlength : xs.length = ys.length)
    (heq : xs.flatMap enc ++ s = ys.flatMap enc ++ t) : xs = ys ∧ s = t := by
  induction xs generalizing ys with
  | nil =>
    obtain rfl := List.eq_nil_of_length_eq_zero hlength.symm
    exact ⟨rfl, heq⟩
  | cons _ _ ih =>
    cases ys with
    | nil => cases hlength
    | cons =>
      simp only [List.flatMap_cons, List.append_assoc] at heq
      obtain ⟨rfl, hrest⟩ := h.split heq
      obtain ⟨rfl, hend⟩ := ih (Nat.succ.inj hlength) hrest
      exact ⟨rfl, hend⟩

/-- The length comes first. -/
theorem PrefixFree.list {size : Nat → δ} (hsize : Function.Injective size) :
    PrefixFree fun xs : List α => size xs.length :: xs.flatMap enc := by
  refine ⟨fun heq => ?_⟩
  obtain ⟨hlength, hrest⟩ := List.cons.inj heq
  exact h.flatMap (hsize hlength) hrest

/-- Without a length in front a list can only be read as a whole. -/
theorem PrefixFree.flatMap_injective (hne : ∀ a, enc a ≠ []) :
    Function.Injective fun xs : List α => xs.flatMap enc := by
  intro xs
  induction xs with
  | nil =>
    intro ys heq
    cases ys with
    | nil => rfl
    | cons y => exact absurd (List.append_eq_nil_iff.mp heq.symm).1 (hne y)
  | cons x _ ih =>
    intro ys heq
    cases ys with
    | nil => exact absurd (List.append_eq_nil_iff.mp heq).1 (hne x)
    | cons =>
      obtain ⟨rfl, hrest⟩ := h.split heq
      rw [ih hrest]

end

end PrefixCodes
