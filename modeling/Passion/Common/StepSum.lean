import Mathlib.Algebra.BigOperators.Intervals
import Mathlib.Algebra.Order.BigOperators.Group.Finset
import Mathlib.Tactic.Ring

/-!
# Sums of a step function

A schedule of steps, each with the last position it covers and its rate, and the sum of
the rates over an initial stretch of positions in closed form: one product per step
instead of one summand per position.
-/

namespace StepSum

open Finset

/-- The rate in force at a position: that of the first step reaching it, zero after the
last step. -/
def rate : List (ℕ × ℤ) → ℕ → ℤ
  | [], _ => 0
  | (hi, r) :: rest, n => if n ≤ hi then r else rate rest n

/-- The bounds of the steps increase, starting above `lo`. -/
def Increasing : ℕ → List (ℕ × ℤ) → Prop
  | _, [] => True
  | lo, (hi, _) :: rest => lo ≤ hi ∧ Increasing hi rest

instance decidableIncreasing : (lo : ℕ) → (steps : List (ℕ × ℤ)) → Decidable (Increasing lo steps)
  | _, [] => isTrue trivial
  | lo, (hi, _) :: rest =>
    have := decidableIncreasing hi rest
    inferInstanceAs (Decidable (lo ≤ hi ∧ Increasing hi rest))

/-- The rates summed over the positions above `lo` up to `n`, one term per step. -/
def total : ℕ → List (ℕ × ℤ) → ℕ → ℤ
  | _, [], _ => 0
  | lo, (hi, r) :: rest, n => r * ((min n hi : ℕ) - (min n lo : ℕ)) + total hi rest n

variable {steps : List (ℕ × ℤ)}

/-- Positions at or below the start of the remaining steps contribute nothing. -/
theorem total_of_le {lo n : ℕ} (hinc : Increasing lo steps) (hn : n ≤ lo) :
    total lo steps n = 0 := by
  induction steps generalizing lo with
  | nil => rfl
  | cons s rest ih =>
    obtain ⟨hle, hrest⟩ := hinc
    have hhi : n ≤ s.1 := le_trans hn hle
    rw [total, ih hrest hhi, Nat.min_eq_left hhi, Nat.min_eq_left hn]
    ring

/-- **The closed form is the sum.** -/
theorem sum_rate_eq_total {lo : ℕ} (hinc : Increasing lo steps) (n : ℕ) :
    ∑ k ∈ Finset.Ioc lo n, rate steps k = total lo steps n := by
  induction steps generalizing lo with
  | nil => simp [rate, total]
  | cons s rest ih =>
    obtain ⟨hle, hrest⟩ := hinc
    have hlow : ∀ k ∈ Finset.Ioc lo (min n s.1), rate (s :: rest) k = s.2 := by
      intro k hk
      have hks : k ≤ s.1 := le_trans (mem_Ioc.mp hk).2 (Nat.min_le_right _ _)
      simp [rate, hks]
    rcases Nat.le_total n s.1 with hn | hn
    · rw [Nat.min_eq_left hn] at hlow
      rw [sum_congr rfl hlow, total, total_of_le hrest hn, Nat.min_eq_left hn, sum_const,
        Nat.card_Ioc, nsmul_eq_mul]
      rcases Nat.le_total n lo with h | h
      · rw [Nat.min_eq_left h, Nat.sub_eq_zero_of_le h]; simp
      · rw [Nat.min_eq_right h, Nat.cast_sub h]; ring
    · rw [Nat.min_eq_right hn] at hlow
      -- Past the first step the sum splits at its last position.
      have hhigh : ∀ k ∈ Finset.Ioc s.1 n, rate (s :: rest) k = rate rest k := by
        intro k hk
        have hks : ¬ k ≤ s.1 := by have := (mem_Ioc.mp hk).1; omega
        simp [rate, hks]
      rw [← sum_Ioc_consecutive _ hle hn, sum_congr rfl hlow, sum_congr rfl hhigh, ih hrest, total,
        Nat.min_eq_right hn, Nat.min_eq_right (le_trans hle hn), sum_const, Nat.card_Ioc,
        nsmul_eq_mul, Nat.cast_sub hle]
      ring

/-- Every rate of the schedule is nonnegative. -/
theorem rate_nonneg (h : ∀ s ∈ steps, 0 ≤ s.2) (n : ℕ) : 0 ≤ rate steps n := by
  induction steps with
  | nil => exact le_refl 0
  | cons s rest ih =>
    simp only [rate]
    split
    · exact h s (List.mem_cons_self ..)
    · exact ih fun t ht => h t (List.mem_cons_of_mem _ ht)

/-- With nonnegative rates the running sum never falls. -/
theorem sum_rate_mono {lo : ℕ} (h : ∀ s ∈ steps, 0 ≤ s.2) {m n : ℕ} (hmn : m ≤ n) :
    ∑ k ∈ Finset.Ioc lo m, rate steps k ≤ ∑ k ∈ Finset.Ioc lo n, rate steps k :=
  sum_le_sum_of_subset_of_nonneg (Finset.Ioc_subset_Ioc_right hmn) fun k _ _ => rate_nonneg h k

end StepSum
