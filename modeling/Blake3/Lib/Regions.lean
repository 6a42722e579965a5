import Mathlib.Algebra.Order.Ring.Nat
import Mathlib.Data.Nat.Bitwise

/-!
Regions one behind the other, and sizes rounded up to a power of two in words that wrap
around.
-/

namespace Regions

/-- An address and how much lies behind it. -/
structure Region where
  start : ℕ
  size : ℕ
  deriving DecidableEq, Repr

def Region.stop (b : Region) : ℕ := b.start + b.size

/-- The regions fill the addresses from `start` on up to another one. -/
inductive Adjacent (start : ℕ) : List Region → ℕ → Prop
  | nil : Adjacent start [] start
  | concat {bs : List Region} {p : ℕ} (n : ℕ) :
      Adjacent start bs p → Adjacent start (bs ++ [⟨p, n⟩]) (p + n)

variable {start stop : ℕ} {bs : List Region}

theorem Adjacent.bounds (h : Adjacent start bs stop) :
    start ≤ stop ∧ ∀ b ∈ bs, start ≤ b.start ∧ b.stop ≤ stop := by
  induction h with
  | nil => exact ⟨le_rfl, by simp⟩
  | @concat bs p n _ ih =>
      refine ⟨by omega, fun b hb => ?_⟩
      rcases List.mem_append.mp hb with hold | hnew
      · have hin := ih.2 b hold
        omega
      · obtain rfl := List.mem_singleton.mp hnew
        exact ⟨ih.1, le_rfl⟩

theorem Adjacent.pairwise (h : Adjacent start bs stop) :
    bs.Pairwise fun b c => b.stop ≤ c.start := by
  induction h with
  | nil => exact List.Pairwise.nil
  | @concat bs p n h ih =>
      refine List.pairwise_append.mpr ⟨ih, List.pairwise_singleton _ _, fun b hb c hc => ?_⟩
      obtain rfl := List.mem_singleton.mp hc
      exact (h.bounds.2 b hb).2

/-! ### Rounding up -/

/-- `(size + (2 ^ k - 1)) & ~(2 ^ k - 1)` in words of `w` bits. -/
def roundUp (w k size : ℕ) : ℕ := (size + (2 ^ k - 1)) % 2 ^ w &&& (2 ^ w - 1 - (2 ^ k - 1))

variable {w k size : ℕ}

/-- The mask takes the low bits away. -/
theorem and_mask {x : ℕ} (hx : x < 2 ^ w) (hk : k ≤ w) :
    x &&& (2 ^ w - 1 - (2 ^ k - 1)) = x / 2 ^ k * 2 ^ k := by
  have hpow := Nat.two_pow_pos k
  have hle : 2 ^ k ≤ 2 ^ w := Nat.pow_le_pow_right (by decide) hk
  rw [show 2 ^ w - 1 - (2 ^ k - 1) = 2 ^ w - (2 ^ k - 1 + 1) by omega]
  refine Nat.eq_of_testBit_eq fun i => ?_
  rw [Nat.testBit_and, Nat.testBit_two_pow_sub_succ (by omega), Nat.testBit_two_pow_sub_one,
    Nat.testBit_mul_two_pow, Nat.testBit_div_two_pow]
  by_cases hi : k ≤ i
  · rw [Nat.sub_add_cancel hi]
    by_cases hw : i < w
    · simp [hi, hw]
    · have hbit : x.testBit i = false :=
        Nat.testBit_lt_two_pow (hx.trans_le (Nat.pow_le_pow_right (by decide) (by omega)))
      simp [hbit]
  · simp [hi, Nat.lt_of_not_le hi]

/-- The result is a multiple, and it is large enough unless it has wrapped around, which
makes it zero. -/
theorem roundUp_spec (hk : k ≤ w) (hsize : size < 2 ^ w) :
    2 ^ k ∣ roundUp w k size ∧ roundUp w k size < 2 ^ w ∧
      (roundUp w k size = 0 ∨ size ≤ roundUp w k size) := by
  have hpow := Nat.two_pow_pos k
  have hle : 2 ^ k ≤ 2 ^ w := Nat.pow_le_pow_right (by decide) hk
  have hlt : (size + (2 ^ k - 1)) % 2 ^ w < 2 ^ w := Nat.mod_lt _ (Nat.two_pow_pos w)
  rw [roundUp, and_mask hlt hk]
  refine ⟨Nat.dvd_mul_left _ _, (Nat.div_mul_le_self _ _).trans_lt hlt, ?_⟩
  by_cases hwrap : size + (2 ^ k - 1) < 2 ^ w
  · right
    rw [Nat.mod_eq_of_lt hwrap]
    have hdiv := Nat.div_add_mod (size + (2 ^ k - 1)) (2 ^ k)
    have hmod := Nat.mod_lt (size + (2 ^ k - 1)) hpow
    rw [Nat.mul_comm] at hdiv
    omega
  · left
    rw [Nat.mod_eq_sub_mod (by omega), Nat.mod_eq_of_lt (by omega), Nat.div_eq_of_lt (by omega),
      Nat.zero_mul]

end Regions
