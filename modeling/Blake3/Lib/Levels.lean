import Mathlib.Algebra.Order.BigOperators.Group.List
import Mathlib.Algebra.Order.Ring.Nat
import Mathlib.Data.List.Count
import Mathlib.Tactic.Ring

/-!
A list of levels split at a threshold: how many of them lie below it and above it, and
what they add up to.
-/

namespace Levels

variable (levels : List ℕ) (i : ℕ)

def below : ℕ := levels.countP (· < i)

def sumBelow : ℕ := (levels.filter (· < i)).sum

def above : ℕ := levels.countP (i < ·)

def sumAbove : ℕ := (levels.filter (i < ·)).sum

variable {levels i}

theorem below_zero : below levels 0 = 0 := by simp [below]

theorem sumBelow_zero : sumBelow levels 0 = 0 := by simp [sumBelow]

theorem below_succ : below levels (i + 1) = below levels i + levels.count i := by
  induction levels with
  | nil => rfl
  | cons a levels ih =>
      simp only [below, List.countP_cons, List.count_cons, decide_eq_true_eq, beq_iff_eq] at ih ⊢
      rw [ih]
      split_ifs <;> omega

theorem sumBelow_succ : sumBelow levels (i + 1) = sumBelow levels i + i * levels.count i := by
  induction levels with
  | nil => rfl
  | cons a levels ih =>
      simp only [sumBelow, List.filter_cons, List.count_cons, decide_eq_true_eq, beq_iff_eq] at ih ⊢
      split_ifs <;> simp only [List.sum_cons, ih, Nat.mul_add, Nat.mul_one, Nat.mul_zero] <;> omega

theorem sumBelow_of_below (h : below levels i = 0) : sumBelow levels i = 0 := by
  rw [below, List.countP_eq_length_filter, List.length_eq_zero_iff] at h
  rw [sumBelow, h, List.sum_nil]

theorem below_add_above : below levels (i + 1) + above levels i = levels.length := by
  induction levels with
  | nil => rfl
  | cons a levels ih =>
      simp only [below, above, List.countP_cons, List.length_cons, decide_eq_true_eq] at ih ⊢
      split_ifs <;> omega

theorem sumBelow_add_sumAbove : sumBelow levels (i + 1) + sumAbove levels i = levels.sum := by
  induction levels with
  | nil => rfl
  | cons a levels ih =>
      simp only [sumBelow, sumAbove, List.filter_cons, List.sum_cons, decide_eq_true_eq] at ih ⊢
      split_ifs
      · omega
      · simp only [List.sum_cons]
        omega
      · simp only [List.sum_cons]
        omega
      · omega

theorem sumBelow_le : sumBelow levels (i + 1) ≤ i * below levels (i + 1) := by
  have hle := List.sum_le_card_nsmul (levels.filter (· < i + 1)) i
    fun a ha => Nat.le_of_lt_succ (of_decide_eq_true (List.mem_filter.mp ha).2)
  rwa [nsmul_eq_mul, Nat.cast_id, Nat.mul_comm, ← List.countP_eq_length_filter] at hle

theorem sumAbove_le {top : ℕ} (h : ∀ a ∈ levels, a ≤ top) :
    sumAbove levels i ≤ top * above levels i := by
  have hle := List.sum_le_card_nsmul (levels.filter (i < ·)) top
    fun a ha => h a (List.mem_filter.mp ha).1
  rwa [nsmul_eq_mul, Nat.cast_id, Nat.mul_comm, ← List.countP_eq_length_filter] at hle

theorem le_sumAbove : (i + 1) * above levels i ≤ sumAbove levels i := by
  have hle := List.card_nsmul_le_sum (levels.filter (i < ·)) (i + 1)
    fun a ha => of_decide_eq_true (List.mem_filter.mp ha).2
  rwa [nsmul_eq_mul, Nat.cast_id, Nat.mul_comm, ← List.countP_eq_length_filter] at hle

theorem above_pos_iff : 0 < above levels i ↔ ∃ a ∈ levels, i < a := by
  simp [above]

/-- Nothing lies above the greatest level. -/
theorem below_top {top : ℕ} (h : ∀ a ∈ levels, a ≤ top) :
    below levels (top + 1) = levels.length := by
  have habove : above levels top = 0 := List.countP_eq_zero.mpr fun a ha => by simpa using h a ha
  have hsum := @below_add_above levels top
  rwa [habove, Nat.add_zero] at hsum

/-- Levels of which none lies below `i` and none above it are all the same. -/
theorem eq_of_mem (hbelow : below levels i = 0) (habove : above levels i = 0) {a : ℕ}
    (ha : a ∈ levels) : a = i := by
  rw [below, List.countP_eq_zero] at hbelow
  rw [above, List.countP_eq_zero] at habove
  have hge := hbelow a ha
  have hle := habove a ha
  rw [decide_eq_true_eq] at hge hle
  omega

theorem below_pos_iff : 0 < below levels (i + 1) ↔ ∃ a ∈ levels, a ≤ i := by
  simp only [below, List.countP_pos_iff, decide_eq_true_eq, Nat.lt_succ_iff]

end Levels
