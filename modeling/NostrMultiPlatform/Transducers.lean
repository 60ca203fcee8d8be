import NostrMultiPlatform.Runs

/-!
# Machines that emit

Each input moves the state and emits a list. Inputs that do neither may be taken
out of a run, and what a run has emitted so far is a state of its own.
-/
namespace Transducers

open Runs

variable {σ ι ε : Type}

/-- A state and everything emitted before it. -/
abbrev Emitting (σ ε : Type) : Type := σ × List ε

/-- One input of the machine that keeps its emissions. -/
def watch (step : σ → ι → σ × List ε) (s : Emitting σ ε) (i : ι) : Emitting σ ε :=
  ((step s.1 i).1, s.2 ++ (step s.1 i).2)

/-- The state after the inputs. -/
def after (step : σ → ι → σ × List ε) : σ → List ι → σ := run fun s i => (step s i).1

/-- What the inputs emit. -/
def emitted (step : σ → ι → σ × List ε) : σ → List ι → List ε
  | _, [] => []
  | s, i :: is => (step s i).2 ++ emitted step (step s i).1 is

variable (step : σ → ι → σ × List ε)

variable (s : σ)

@[simp] theorem after_nil : after step s [] = s := rfl

@[simp] theorem after_cons (i : ι) (is : List ι) :
    after step s (i :: is) = after step (step s i).1 is := rfl

@[simp] theorem after_append (is js : List ι) :
    after step s (is ++ js) = after step (after step s is) js := run_append _ s is js

@[simp] theorem emitted_nil : emitted step s [] = [] := rfl

@[simp] theorem emitted_cons (i : ι) (is : List ι) :
    emitted step s (i :: is) = (step s i).2 ++ emitted step (step s i).1 is := rfl

theorem emitted_append (is js : List ι) :
    emitted step s (is ++ js) = emitted step s is ++ emitted step (after step s is) js := by
  induction is generalizing s with
  | nil => rfl
  | cons _ _ ih => rw [List.cons_append, emitted_cons, ih, emitted_cons, List.append_assoc,
      after_cons]

theorem run_watch (log : List ε) (is : List ι) :
    run (watch step) (s, log) is = (after step s is, log ++ emitted step s is) := by
  induction is generalizing s log with
  | nil => simp
  | cons _ _ ih => rw [run_cons, watch, ih, emitted_cons, after_cons, List.append_assoc]

/-- A condition on the states of a run does not see what has been emitted. -/
theorem meets_watch (ok : σ → ι → Prop) (s : σ) (log : List ε) (is : List ι) :
    Meets (watch step) (fun s i => ok s.1 i) (s, log) is ↔
      Meets (fun s i => (step s i).1) ok s is := by
  induction is generalizing s log with
  | nil => exact Iff.rfl
  | cons i _ ih => exact and_congr_right fun _ => ih (step s i).1 _

/-- What a run emits was emitted by one of its inputs. -/
theorem exists_of_mem_emitted {s : σ} {is : List ι} {e : ε} (h : e ∈ emitted step s is) :
    ∃ a i b, is = a ++ i :: b ∧ e ∈ (step (after step s a) i).2 := by
  induction is generalizing s with
  | nil => exact absurd h List.not_mem_nil
  | cons i is ih =>
    obtain hnow | hlater := List.mem_append.mp h
    · exact ⟨[], i, is, rfl, hnow⟩
    · obtain ⟨a, j, b, hsplit, hmem⟩ := ih hlater
      exact ⟨i :: a, j, b, by rw [hsplit, List.cons_append], hmem⟩

/-- The machine with a value beside its state that is computed from what happens. -/
def shadowed {τ : Type} (note : σ → τ → List ε → τ) (s : σ × τ) (i : ι) : (σ × τ) × List ε :=
  (((step s.1 i).1, note s.1 s.2 (step s.1 i).2), (step s.1 i).2)

/-- A shadow changes nothing of what it stands beside. -/
theorem run_shadowed {τ : Type} (note : σ → τ → List ε → τ) (s : σ) (t : τ) (is : List ι) :
    (after (shadowed step note) (s, t) is).1 = after step s is ∧
      emitted (shadowed step note) (s, t) is = emitted step s is := by
  induction is generalizing s t with
  | nil => exact ⟨rfl, rfl⟩
  | cons i _ ih =>
    obtain ⟨hafter, hemitted⟩ := ih (step s i).1 (note s t (step s i).2)
    exact ⟨hafter, congrArg ((step s i).2 ++ ·) hemitted⟩

/-- The second list is the first with inputs of the given kind put in, each judged in the state it
meets. -/
inductive Padded (idle : σ → ι → Prop) : σ → List ι → List ι → Prop
  | nil (s : σ) : Padded idle s [] []
  | keep {s : σ} (i : ι) {is js : List ι} (h : Padded idle (step s i).1 is js) :
    Padded idle s (i :: is) (i :: js)
  | put {s : σ} {j : ι} {is js : List ι} (hidle : idle s j) (h : Padded idle s is js) :
    Padded idle s is (j :: js)

variable {step}

/-- Inputs that move nothing and emit nothing can be put in anywhere. -/
theorem run_padded {idle : σ → ι → Prop} (hidle : ∀ s i, idle s i → step s i = (s, [])) {s : σ}
    {is js : List ι} (h : Padded step idle s is js) :
    after step s js = after step s is ∧ emitted step s js = emitted step s is := by
  induction h with
  | nil => exact ⟨rfl, rfl⟩
  | keep i _ ih => exact ⟨ih.1, by rw [emitted_cons, emitted_cons, ih.2]⟩
  | put hj _ ih =>
    rw [after_cons, emitted_cons, hidle _ _ hj]
    exact ih

/-- Nothing that acts stands after something that ends. -/
def EndsOnce (ends acts : ε → Prop) (log : List ε) : Prop :=
  log.Pairwise fun e later => ends e → ¬ acts later

theorem endsOnce_append {ends acts : ε → Prop} {log more : List ε} :
    EndsOnce ends acts (log ++ more) ↔ EndsOnce ends acts log ∧ EndsOnce ends acts more ∧
      ((∃ e ∈ log, ends e) → ∀ e ∈ more, ¬ acts e) := by
  rw [EndsOnce, List.pairwise_append]
  constructor
  · rintro ⟨hlog, hmore, hacross⟩
    exact ⟨hlog, hmore, fun ⟨e, he, hends⟩ later hlater => hacross e he later hlater hends⟩
  · rintro ⟨hlog, hmore, hacross⟩
    exact ⟨hlog, hmore, fun e he later hlater hends => hacross ⟨e, he, hends⟩ later hlater⟩

/-- Where what ends also acts, at most one thing ends. -/
theorem EndsOnce.count_le_one {ends acts : ε → Prop} [DecidablePred ends]
    (hacts : ∀ e, ends e → acts e) {log : List ε} (h : EndsOnce ends acts log) :
    log.countP (fun e => ends e) ≤ 1 := by
  induction log with
  | nil => exact Nat.zero_le 1
  | cons e log ih =>
    obtain ⟨hhead, htail⟩ := List.pairwise_cons.mp h
    by_cases he : ends e
    · have hnone : log.countP (fun e => ends e) = 0 := by
        rw [List.countP_eq_zero]
        intro later hlater
        have := hhead later hlater he
        simpa using fun hends => this (hacts later hends)
      rw [List.countP_cons, hnone]
      simp [he]
    · rw [List.countP_cons_of_neg (by simpa using he)]
      exact ih htail

end Transducers
