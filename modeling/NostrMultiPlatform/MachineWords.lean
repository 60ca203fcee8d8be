import Mathlib.Algebra.Ring.Nat

/-!
# Arithmetic that stays within a machine word

An operation is recorded with its operands and judged by its exact result, so a
program's operations can be listed beside what it computes. Loops that step one
counter list their operations in rounds.
-/
namespace MachineWords

variable {σ ι : Type}

inductive Op where
  | add (a b : Nat)
  | sub (a b : Nat)
  | mul (a b : Nat)
  deriving DecidableEq, Repr

/-- The exact result is an unsigned number of `w` bits. -/
def Op.Fits (w : Nat) : Op → Prop
  | .add a b => a + b < 2 ^ w
  | .sub a b => b ≤ a ∧ a - b < 2 ^ w
  | .mul a b => a * b < 2 ^ w

instance (w : Nat) : DecidablePred (Op.Fits w) := fun op => by
  cases op <;> unfold Op.Fits <;> infer_instance

def AllFit (w : Nat) (ops : List Op) : Prop := ∀ op ∈ ops, op.Fits w

instance (w : Nat) (ops : List Op) : Decidable (AllFit w ops) := by
  unfold AllFit
  infer_instance

section Lists

variable {w : Nat} {op : Op} {ops ops' : List Op}

@[simp] theorem allFit_nil : AllFit w [] := fun _ h => absurd h List.not_mem_nil

@[simp] theorem allFit_cons : AllFit w (op :: ops) ↔ op.Fits w ∧ AllFit w ops :=
  List.forall_mem_cons

@[simp] theorem allFit_append : AllFit w (ops ++ ops') ↔ AllFit w ops ∧ AllFit w ops' :=
  List.forall_mem_append

end Lists

/-- The operations of a fold, when those of one step are known. -/
def foldOps (step : σ → ι → σ) (ops : σ → ι → List Op) : σ → List ι → List Op
  | _, [] => []
  | s, x :: xs => ops s x ++ foldOps step ops (step s x) xs

/-- The operations of `k` rounds: in each the counter moves up by one, after `each`. -/
def rounds (each : List Op) : Nat → Nat → List Op
  | _, 0 => []
  | c, k + 1 => each ++ .add c 1 :: rounds each (c + 1) k

theorem rounds_add (each : List Op) (c k l : Nat) :
    rounds each c (k + l) = rounds each c k ++ rounds each (c + k) l := by
  induction k generalizing c with
  | zero => rw [Nat.zero_add, Nat.add_zero, rounds, List.nil_append]
  | succ k ih =>
    rw [Nat.succ_add, rounds, ih, rounds, List.append_assoc, List.cons_append, Nat.add_right_comm,
      Nat.add_assoc c k 1]

/-- Rounds stay within the word when one does and the last count does. -/
theorem allFit_rounds {w : Nat} (each : List Op) (c k : Nat) :
    AllFit w (rounds each c k) ↔ (0 < k → AllFit w each ∧ c + k < 2 ^ w) := by
  induction k generalizing c with
  | zero => exact iff_of_true allFit_nil fun h => absurd h (Nat.lt_irrefl 0)
  | succ k ih =>
    rw [rounds, allFit_append, allFit_cons, ih, Op.Fits]
    constructor
    · intro ⟨heach, hfirst, hrest⟩ _
      refine ⟨heach, ?_⟩
      rcases Nat.eq_zero_or_pos k with rfl | hpos
      · exact hfirst
      · have hlast := (hrest hpos).2
        omega
    · intro h
      obtain ⟨heach, hlast⟩ := h (Nat.succ_pos k)
      exact ⟨heach, by omega, fun _ => ⟨heach, by omega⟩⟩

/-- A passage of `k` rounds: each moves the counter up by one and uses up one unit of `stock`. -/
structure Passage (each : List Op) (counter stock : σ → Nat) (s s' : σ) (ops : List Op)
    (k : Nat) : Prop where
  ops_eq : ops = rounds each (counter s) k
  counted : counter s' = counter s + k
  used : stock s' + k = stock s

section Passages

variable {each : List Op} {counter stock : σ → Nat}

theorem Passage.idle (s : σ) : Passage each counter stock s s [] 0 := ⟨rfl, rfl, rfl⟩

theorem Passage.single {s s' : σ} (hcounted : counter s' = counter s + 1)
    (hused : stock s' + 1 = stock s) :
    Passage each counter stock s s' (each ++ [.add (counter s) 1]) 1 :=
  ⟨rfl, hcounted, hused⟩

theorem Passage.trans {s₁ s₂ s₃ : σ} {ops ops' : List Op} {k l : Nat}
    (h : Passage each counter stock s₁ s₂ ops k) (h' : Passage each counter stock s₂ s₃ ops' l) :
    Passage each counter stock s₁ s₃ (ops ++ ops') (k + l) where
  ops_eq := by rw [h.ops_eq, h'.ops_eq, h.counted, rounds_add]
  counted := by rw [h'.counted, h.counted, Nat.add_assoc]
  used := by rw [← h.used, ← h'.used, Nat.add_assoc, Nat.add_comm l k]

/-- A fold whose steps are passages is one. -/
theorem Passage.fold {step : σ → ι → σ} {ops : σ → ι → List Op}
    (h : ∀ s x, ∃ k, Passage each counter stock s (step s x) (ops s x) k) (s : σ) (xs : List ι) :
    ∃ k, Passage each counter stock s (xs.foldl step s) (foldOps step ops s xs) k := by
  induction xs generalizing s with
  | nil => exact ⟨0, .idle s⟩
  | cons x _ ih =>
    obtain ⟨k, hfirst⟩ := h s x
    obtain ⟨l, hrest⟩ := ih (step s x)
    exact ⟨k + l, hfirst.trans hrest⟩

/-- A passage that ends where the counter and the stock stood as they do here. -/
theorem Passage.congr {s s' t' : σ} {ops : List Op} {k : Nat}
    (h : Passage each counter stock s s' ops k) (hcounter : counter t' = counter s')
    (hstock : stock t' = stock s') : Passage each counter stock s t' ops k :=
  ⟨h.ops_eq, hcounter.trans h.counted, (congrArg (· + k) hstock).trans h.used⟩

end Passages

end MachineWords
