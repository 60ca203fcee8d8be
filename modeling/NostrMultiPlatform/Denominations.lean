import Mathlib.Data.Nat.BitIndices
import Mathlib.Algebra.Ring.Parity

/-!
# Powers of two

A number splits into the distinct powers of two that it is the sum of. How many
there are at most, over all numbers of an interval, is found by halving the
interval.
-/
namespace Denominations

/-- The powers below `2 ^ width` that the number is made of, smallest first. -/
def powers (width n : Nat) : List Nat :=
  (List.range width).filterMap fun bit => if n.testBit bit then some (2 ^ bit) else none

/-- How many powers of two the number is made of. -/
def ones (n : Nat) : Nat := n.bitIndices.length

@[simp] theorem ones_zero : ones 0 = 0 := by simp [ones]

@[simp] theorem ones_two_mul (n : Nat) : ones (2 * n) = ones n := by simp [ones]

@[simp] theorem ones_two_mul_add_one (n : Nat) : ones (2 * n + 1) = ones n + 1 := by simp [ones]

@[simp] theorem ones_two_pow (k : Nat) : ones (2 ^ k) = 1 := by simp [ones]

theorem powers_succ (width n : Nat) :
    powers (width + 1) n =
      (if n % 2 = 1 then [1] else []) ++ (powers width (n / 2)).map (2 * ·) := by
  have htail : ((List.range width).map Nat.succ).filterMap
      (fun bit => if n.testBit bit then some (2 ^ bit) else none) =
        (powers width (n / 2)).map (2 * ·) := by
    rw [powers, List.filterMap_map, List.map_filterMap]
    apply List.filterMap_congr
    intro bit _
    simp only [Function.comp_apply, Nat.succ_eq_add_one, Nat.testBit_add_one, Nat.pow_succ']
    split <;> rfl
  rw [powers, List.range_succ_eq_map, List.filterMap_cons, htail]
  by_cases h : n % 2 = 1
  · simp [Nat.testBit_zero, h]
  · simp [Nat.testBit_zero, h]

/-- A number that fits is made of the powers at its one bits. -/
theorem powers_eq {width n : Nat} (h : n < 2 ^ width) :
    powers width n = n.bitIndices.map (2 ^ ·) := by
  induction width generalizing n with
  | zero =>
    obtain rfl : n = 0 := by simpa using h
    rfl
  | succ width ih =>
    have hhalf : n / 2 < 2 ^ width := by
      rw [Nat.pow_succ] at h
      omega
    rw [powers_succ, ih hhalf, List.map_map]
    rcases Nat.even_or_odd' n with ⟨m, rfl | rfl⟩
    · rw [Nat.mul_mod_right, if_neg (by decide), Nat.mul_div_cancel_left m (by decide),
        Nat.bitIndices_two_mul, List.map_map, List.nil_append]
      apply List.map_congr_left
      intro i _
      simp [Nat.pow_succ, Nat.mul_comm]
    · have hrest : (2 * m + 1) / 2 = m := by omega
      rw [if_pos (by omega), hrest, Nat.bitIndices_two_mul_add_one, List.map_cons, List.map_map,
        List.singleton_append]
      congr 1
      apply List.map_congr_left
      intro i _
      simp [Nat.pow_succ, Nat.mul_comm]

theorem sum_powers {width n : Nat} (h : n < 2 ^ width) : (powers width n).sum = n := by
  rw [powers_eq h, Nat.sum_map_two_pow_bitIndices]

theorem length_powers {width n : Nat} (h : n < 2 ^ width) : (powers width n).length = ones n := by
  rw [powers_eq h, List.length_map, ones]

theorem mem_powers {width n d : Nat} :
    d ∈ powers width n ↔ ∃ bit, bit < width ∧ n.testBit bit = true ∧ d = 2 ^ bit := by
  simp only [powers, List.mem_filterMap, List.mem_range]
  apply exists_congr
  intro bit
  by_cases h : n.testBit bit = true
  · simp [h, eq_comm]
  · simp [h]

/-- The powers come in strictly increasing order. -/
theorem powers_pairwise (width n : Nat) : (powers width n).Pairwise (· < ·) := by
  rw [powers, List.pairwise_filterMap]
  apply List.pairwise_lt_range.imp
  intro i j hij a ha b hb
  split at ha
  · split at hb
    · obtain rfl := Option.some.inj ha
      obtain rfl := Option.some.inj hb
      exact Nat.pow_lt_pow_right (by decide) hij
    · cases hb
  · cases ha

theorem ones_le_of_lt {k n : Nat} (h : n < 2 ^ k) : ones n ≤ k := by
  have hle : (powers k n).length ≤ (List.range k).length := List.length_filterMap_le _ _
  rwa [length_powers h, List.length_range] at hle

theorem ones_le_of_le {k n : Nat} (hk : 0 < k) (h : n ≤ 2 ^ k) : ones n ≤ k := by
  rcases h.lt_or_eq with hlt | rfl
  · exact ones_le_of_lt hlt
  · rw [ones_two_pow]
    exact hk

/-- The next number is made of at most one power more. -/
theorem ones_succ_le (n : Nat) : ones (n + 1) ≤ ones n + 1 := by
  induction n using Nat.strong_induction_on with
  | _ n ih =>
    rcases Nat.even_or_odd' n with ⟨m, rfl | rfl⟩
    · simp
    · have hnext : 2 * m + 1 + 1 = 2 * (m + 1) := by omega
      rw [hnext, ones_two_mul, ones_two_mul_add_one]
      have hstep := ih m (by omega)
      omega

/-- The most powers that a number of the interval is made of. -/
def mostOnes (lo hi : Nat) : Nat :=
  if lo < hi then mostOnes (lo / 2) ((hi - 1) / 2) + 1 else ones lo
  termination_by hi
  decreasing_by omega

theorem ones_le_mostOnes {lo hi n : Nat} (hlo : lo ≤ n) (hhi : n ≤ hi) : ones n ≤ mostOnes lo hi := by
  fun_induction mostOnes lo hi generalizing n with
  | case1 lo hi _ ih =>
    rcases Nat.even_or_odd' n with ⟨m, rfl | rfl⟩
    · rw [ones_two_mul]
      rcases hhi.lt_or_eq with hbelow | rfl
      · have hhalf : ones m ≤ mostOnes (lo / 2) ((hi - 1) / 2) := ih (by omega) (by omega)
        omega
      · -- the even end of the interval has at most one power more than the odd number before it
        obtain ⟨d, rfl⟩ : ∃ d, m = d + 1 := ⟨m - 1, by omega⟩
        have hhalf : ones d ≤ mostOnes (lo / 2) ((2 * (d + 1) - 1) / 2) := ih (by omega) (by omega)
        have hstep := ones_succ_le d
        omega
    · rw [ones_two_mul_add_one]
      have hhalf : ones m ≤ mostOnes (lo / 2) ((hi - 1) / 2) := ih (by omega) (by omega)
      omega
  | case2 lo =>
    obtain rfl : n = lo := by omega
    exact le_refl _

theorem exists_ones_eq_mostOnes {lo hi : Nat} (h : lo ≤ hi) :
    ∃ n, lo ≤ n ∧ n ≤ hi ∧ ones n = mostOnes lo hi := by
  fun_induction mostOnes lo hi with
  | case1 lo hi hlt ih =>
    obtain ⟨m, hlo, hhi, hones⟩ := ih (by omega)
    refine ⟨2 * m + 1, by omega, by omega, ?_⟩
    rw [ones_two_mul_add_one, hones]
  | case2 lo hi hle => exact ⟨lo, le_refl _, h, rfl⟩

/-- A bound for the whole interval is a bound for its worst number. -/
theorem mostOnes_le_iff {lo hi k : Nat} (h : lo ≤ hi) :
    mostOnes lo hi ≤ k ↔ ∀ n, lo ≤ n → n ≤ hi → ones n ≤ k := by
  constructor
  · exact fun hmost n hlo hhi => (ones_le_mostOnes hlo hhi).trans hmost
  · intro hall
    obtain ⟨n, hlo, hhi, hones⟩ := exists_ones_eq_mostOnes h
    exact hones ▸ hall n hlo hhi

end Denominations
