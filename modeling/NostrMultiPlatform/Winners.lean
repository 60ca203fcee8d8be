import Mathlib.Data.Set.Insert
import Mathlib.Order.Basic

/-!
# Keeping the winner of every contest

Items are offered one at a time; an item and a rival cannot both stay, and the one
that beats the other does. Whatever the order of the offers, what is held in the
end is what no offered rival beats.
-/
namespace Winners

variable {E : Type}

/-- Rivalry is an equivalence, and between two distinct rivals exactly one beats the other. -/
structure Contest (rival beats : E → E → Prop) : Prop where
  refl : ∀ e, rival e e
  symm : ∀ {e f}, rival e f → rival f e
  trans : ∀ {e f g}, rival e f → rival f g → rival e g
  beats_trans : ∀ {e f g}, beats e f → beats f g → beats e g
  asymm : ∀ {e f}, beats e f → ¬ beats f e
  total : ∀ {e f}, rival e f → e ≠ f → beats e f ∨ beats f e

/-- Offered, and beaten by no offered rival. -/
def Kept (rival beats : E → E → Prop) (offered : Set E) (e : E) : Prop :=
  e ∈ offered ∧ ∀ f ∈ offered, rival f e → ¬ beats f e

/-- The held items are the kept ones, and every offered item has a held rival. -/
structure Settled (rival beats : E → E → Prop) (held offered : Set E) : Prop where
  kept : ∀ e, e ∈ held ↔ Kept rival beats offered e
  covers : ∀ f ∈ offered, ∃ g ∈ held, rival g f

variable {rival beats : E → E → Prop} {held offered : Set E} {e m : E}

theorem settled_empty : Settled rival beats (∅ : Set E) ∅ where
  kept := fun e => by simp [Kept]
  covers := fun f hf => absurd hf (Set.notMem_empty f)

theorem Settled.offered_of_held (h : Settled rival beats held offered) (he : e ∈ held) :
    e ∈ offered := ((h.kept e).mp he).1

/-- Two held rivals are the same item. -/
theorem Settled.unique (c : Contest rival beats) (h : Settled rival beats held offered)
    {f : E} (he : e ∈ held) (hf : f ∈ held) (hr : rival e f) : e = f := by
  by_contra hne
  rcases c.total hr hne with hb | hb
  · exact ((h.kept f).mp hf).2 e (h.offered_of_held he) hr hb
  · exact ((h.kept e).mp he).2 f (h.offered_of_held hf) (c.symm hr) hb

/-- What is held is determined by what was offered. -/
theorem Settled.ext {held' : Set E} (h : Settled rival beats held offered)
    (h' : Settled rival beats held' offered) : held = held' := by
  ext e
  rw [h.kept, h'.kept]

theorem Settled.again (h : Settled rival beats held offered) (he : e ∈ offered) :
    Settled rival beats held (insert e offered) := by
  rwa [Set.insert_eq_of_mem he]

section

variable (c : Contest rival beats) (h : Settled rival beats held offered)
include c h

/-- An item without a held rival joins. -/
theorem Settled.fresh (hfree : ∀ g ∈ held, ¬ rival g e) :
    Settled rival beats (insert e held) (insert e offered) := by
  have hnone : ∀ f ∈ offered, ¬ rival f e := by
    intro f hf hr
    obtain ⟨g, hg, hgf⟩ := h.covers f hf
    exact hfree g hg (c.trans hgf hr)
  constructor
  · intro f
    constructor
    · rintro (rfl | hf)
      · refine ⟨Set.mem_insert f offered, ?_⟩
        rintro g (rfl | hg) hr
        · exact fun hb => c.asymm hb hb
        · exact absurd hr (hnone g hg)
      · obtain ⟨hoff, hbest⟩ := (h.kept f).mp hf
        refine ⟨Set.mem_insert_of_mem e hoff, ?_⟩
        rintro g (rfl | hg) hr
        · exact absurd (c.symm hr) (hnone f hoff)
        · exact hbest g hg hr
    · rintro ⟨rfl | hoff, hbest⟩
      · exact Set.mem_insert f held
      · exact Set.mem_insert_of_mem e
          ((h.kept f).mpr ⟨hoff, fun g hg => hbest g (Set.mem_insert_of_mem e hg)⟩)
  · rintro f (rfl | hf)
    · exact ⟨f, Set.mem_insert f held, c.refl f⟩
    · obtain ⟨g, hg, hr⟩ := h.covers f hf
      exact ⟨g, Set.mem_insert_of_mem e hg, hr⟩

/-- An item beaten by a held rival changes nothing. -/
theorem Settled.lose (hm : m ∈ held) (hr : rival m e) (hb : beats m e) :
    Settled rival beats held (insert e offered) := by
  have hmoff := h.offered_of_held hm
  constructor
  · intro f
    constructor
    · intro hf
      obtain ⟨hoff, hbest⟩ := (h.kept f).mp hf
      refine ⟨Set.mem_insert_of_mem e hoff, ?_⟩
      rintro g (rfl | hg) hrf
      · exact fun hbf => hbest m hmoff (c.trans hr hrf) (c.beats_trans hb hbf)
      · exact hbest g hg hrf
    · rintro ⟨rfl | hoff, hbest⟩
      · exact absurd hb (hbest m (Set.mem_insert_of_mem _ hmoff) hr)
      · exact (h.kept f).mpr ⟨hoff, fun g hg => hbest g (Set.mem_insert_of_mem e hg)⟩
  · rintro f (rfl | hf)
    · exact ⟨m, hm, hr⟩
    · exact h.covers f hf

/-- An item that beats its held rival takes its place. -/
theorem Settled.win (hm : m ∈ held) (hr : rival m e) (hb : beats e m) :
    Settled rival beats (insert e (held \ {m})) (insert e offered) := by
  have hmoff := h.offered_of_held hm
  have hmbest := ((h.kept m).mp hm).2
  constructor
  · intro f
    constructor
    · rintro (rfl | ⟨hf, hfm⟩)
      · refine ⟨Set.mem_insert f offered, ?_⟩
        rintro g (rfl | hg) hrg
        · exact fun hbg => c.asymm hbg hbg
        · exact fun hbg => hmbest g hg (c.trans hrg (c.symm hr)) (c.beats_trans hbg hb)
      · obtain ⟨hoff, hbest⟩ := (h.kept f).mp hf
        refine ⟨Set.mem_insert_of_mem e hoff, ?_⟩
        rintro g (rfl | hg) hrg
        · exact absurd (h.unique c hf hm (c.symm (c.trans hr hrg))) hfm
        · exact hbest g hg hrg
    · rintro ⟨rfl | hoff, hbest⟩
      · exact Set.mem_insert f _
      · have hf := (h.kept f).mpr ⟨hoff, fun g hg => hbest g (Set.mem_insert_of_mem e hg)⟩
        refine Set.mem_insert_of_mem e ⟨hf, ?_⟩
        rintro rfl
        exact hbest e (Set.mem_insert e offered) (c.symm hr) hb
  · rintro f (rfl | hf)
    · exact ⟨f, Set.mem_insert f _, c.refl f⟩
    · obtain ⟨g, hg, hrg⟩ := h.covers f hf
      by_cases hgm : g = m
      · subst hgm
        exact ⟨e, Set.mem_insert e _, c.trans (c.symm hr) hrg⟩
      · exact ⟨g, Set.mem_insert_of_mem e ⟨hg, hgm⟩, hrg⟩

end

end Winners
