import Mathlib.Data.List.Basic

/-!
# Runs of a deterministic machine

A run folds a step function over a list of inputs. A condition on steps is asked
of each input in the state it meets; an invariant that every step under the
condition keeps holds in every state such a run reaches.
-/
namespace Runs

variable {σ ι : Type}

/-- The state after the inputs, taken from the left. -/
def run (step : σ → ι → σ) (s : σ) (xs : List ι) : σ := xs.foldl step s

variable (inv : σ → Prop) (step : σ → ι → σ) (ok : σ → ι → Prop) (s : σ)

@[simp] theorem run_nil : run step s [] = s := rfl

@[simp] theorem run_cons (x : ι) (xs : List ι) :
    run step s (x :: xs) = run step (step s x) xs := rfl

@[simp] theorem run_append (xs ys : List ι) :
    run step s (xs ++ ys) = run step (run step s xs) ys := List.foldl_append

/-- Every input meets the condition in the state it is applied to. -/
def Meets (step : σ → ι → σ) (ok : σ → ι → Prop) : σ → List ι → Prop
  | _, [] => True
  | s, x :: xs => ok s x ∧ Meets step ok (step s x) xs

@[simp] theorem meets_nil : Meets step ok s [] := trivial

@[simp] theorem meets_cons (x : ι) (xs : List ι) :
    Meets step ok s (x :: xs) ↔ ok s x ∧ Meets step ok (step s x) xs := Iff.rfl

instance instDecidableMeets (step : σ → ι → σ) (ok : σ → ι → Prop) [∀ s x, Decidable (ok s x)] (s : σ)
    (xs : List ι) : Decidable (Meets step ok s xs) :=
  match xs with
  | [] => .isTrue trivial
  | x :: xs =>
    have := instDecidableMeets step ok (step s x) xs
    inferInstanceAs (Decidable (ok s x ∧ Meets step ok (step s x) xs))

theorem meets_append (xs ys : List ι) :
    Meets step ok s (xs ++ ys) ↔ Meets step ok s xs ∧ Meets step ok (run step s xs) ys := by
  induction xs generalizing s with
  | nil => simp
  | cons _ _ ih => simp only [List.cons_append, meets_cons, run_cons, ih, and_assoc]

theorem meets_of_forall (ok : ι → Prop) (s : σ) (xs : List ι) (h : ∀ x ∈ xs, ok x) :
    Meets step (fun _ x => ok x) s xs := by
  induction xs generalizing s with
  | nil => trivial
  | cons x _ ih =>
    exact ⟨h x List.mem_cons_self, ih _ fun y hy => h y (List.mem_cons_of_mem x hy)⟩

theorem Meets.and {step : σ → ι → σ} {p q : σ → ι → Prop} {s : σ} {xs : List ι}
    (hp : Meets step p s xs) (hq : Meets step q s xs) :
    Meets step (fun s x => p s x ∧ q s x) s xs := by
  induction xs generalizing s with
  | nil => trivial
  | cons _ _ ih => exact ⟨⟨hp.1, hq.1⟩, ih hp.2 hq.2⟩

/-- What each step keeps under the condition, the whole run keeps. -/
theorem run_invariant {step : σ → ι → σ} {ok : σ → ι → Prop}
    (keep : ∀ s x, inv s → ok s x → inv (step s x)) {s : σ} {xs : List ι} (h : inv s)
    (hok : Meets step ok s xs) : inv (run step s xs) := by
  induction xs generalizing s with
  | nil => exact h
  | cons x _ ih => exact ih (keep s x h hok.1) hok.2

/-- An invariant kept under the condition gives the property, and the property after a step needs
the condition: then the runs of the domain that meet it are those with the property throughout. -/
theorem always_iff_meets {step : σ → ι → σ} {dom ok : σ → ι → Prop} (inv good : σ → Prop)
    (keep : ∀ s x, inv s → dom s x → ok s x → inv (step s x)) (holds : ∀ s, inv s → good s)
    (need : ∀ s x, inv s → dom s x → good (step s x) → ok s x) {s : σ} (h : inv s) {xs : List ι}
    (hdom : Meets step dom s xs) :
    (∀ ys, ys <+: xs → good (run step s ys)) ↔ Meets step ok s xs := by
  induction xs generalizing s with
  | nil =>
    refine ⟨fun _ => trivial, fun _ ys hys => ?_⟩
    rw [List.prefix_nil.mp hys]
    exact holds s h
  | cons x xs ih =>
    constructor
    · intro hall
      have hok : ok s x := need s x h hdom.1 (hall [x] ⟨xs, rfl⟩)
      refine ⟨hok, (ih (keep s x h hdom.1 hok) hdom.2).mp fun ys hys => ?_⟩
      exact hall (x :: ys) (List.prefix_cons_inj x |>.mpr hys)
    · rintro ⟨hok, hmeets⟩ ys hys
      cases ys with
      | nil => exact holds s h
      | cons y ys =>
        obtain ⟨rfl, hrest⟩ := List.cons_prefix_cons.mp hys
        exact (ih (keep s y h hdom.1 hok) hdom.2).mpr hmeets ys hrest

/-- Two conditions that agree wherever an invariant of all steps holds are met by the same runs. -/
theorem meets_congr {step : σ → ι → σ} {p q : σ → ι → Prop} (keep : ∀ s x, inv s → inv (step s x))
    (same : ∀ s x, inv s → (p s x ↔ q s x)) {s : σ} (h : inv s) (xs : List ι) :
    Meets step p s xs ↔ Meets step q s xs := by
  induction xs generalizing s with
  | nil => exact Iff.rfl
  | cons x _ ih => exact and_congr (same s x h) (ih (keep s x h))

/-- Where the condition says exactly when a step keeps the invariant, the runs that meet it are
those whose every state is in the invariant. -/
theorem invariant_iff_meets {step : σ → ι → σ} {ok : σ → ι → Prop}
    (keep : ∀ s x, inv s → (inv (step s x) ↔ ok s x)) {s : σ} (h : inv s) (xs : List ι) :
    (∀ ys, ys <+: xs → inv (run step s ys)) ↔ Meets step ok s xs :=
  always_iff_meets inv inv (fun s x hs _ hok => (keep s x hs).mpr hok) (fun _ hs => hs)
    (fun s x hs _ hnext => (keep s x hs).mp hnext) h
    (meets_of_forall step (fun _ => True) s xs fun _ _ => trivial)

end Runs
