import NostrMultiPlatform.Runs

/-!
# Chains of steps that emit

A step relation says from which state to which, and what is emitted on the way.
What a monitor of the emissions keeps over one step, it keeps over every chain.
-/
namespace Chains

open Runs

variable {σ ε τ : Type} {step : σ → List ε → σ → Prop} {s s' s'' : σ} {es es' : List ε}

/-- A chain of steps with everything that is emitted along it. -/
inductive Chain (step : σ → List ε → σ → Prop) : σ → List ε → σ → Prop
  | refl (s : σ) : Chain step s [] s
  | cons {s s' s'' : σ} {es es' : List ε} (h : step s es s') (rest : Chain step s' es' s'') :
    Chain step s (es ++ es') s''

theorem Chain.single (h : step s es s') : Chain step s es s' := by
  have hchain : Chain step s (es ++ []) s' := .cons h (.refl s')
  rwa [List.append_nil] at hchain

theorem Chain.trans (h : Chain step s es s') (h' : Chain step s' es' s'') :
    Chain step s (es ++ es') s'' := by
  induction h with
  | refl => exact h'
  | cons hstep _ ih =>
    rw [List.append_assoc]
    exact .cons hstep (ih h')

/-- What each step keeps, a chain keeps. -/
theorem Chain.keeps {inv : σ → Prop} (h : Chain step s es s')
    (keep : ∀ s es s', step s es s' → inv s → inv s') (hinv : inv s) : inv s' := by
  induction h with
  | refl => exact hinv
  | cons hstep _ ih => exact ih (keep _ _ _ hstep hinv)

/-- The monitor's verdict and its invariant, from one step to a chain. -/
theorem Chain.monitored {follow : τ → ε → τ} {ok : τ → ε → Prop} (inv : σ → τ → Prop)
    (keep : ∀ s es s' t, step s es s' → inv s t →
      Meets follow ok t es ∧ inv s' (run follow t es))
    (h : Chain step s es s') {t : τ} (hinv : inv s t) :
    Meets follow ok t es ∧ inv s' (run follow t es) := by
  induction h generalizing t with
  | refl => exact ⟨trivial, hinv⟩
  | cons hstep _ ih =>
    obtain ⟨hok, hnext⟩ := keep _ _ _ t hstep hinv
    obtain ⟨hrest, hlast⟩ := ih hnext
    rw [meets_append, run_append]
    exact ⟨⟨hok, hrest⟩, hlast⟩

/-- What each step meets under the condition and the invariant, the whole run meets. -/
theorem meets_along {next : τ → ε → τ} {ok good : τ → ε → Prop} (inv : τ → Prop)
    (keep : ∀ t e, inv t → ok t e → good t e ∧ inv (next t e)) {t : τ} (hinv : inv t)
    (h : Meets next ok t es) : Meets next good t es := by
  induction es generalizing t with
  | nil => trivial
  | cons e _ ih =>
    obtain ⟨hgood, hnext⟩ := keep t e hinv h.1
    exact ⟨hgood, ih hnext h.2⟩

end Chains
