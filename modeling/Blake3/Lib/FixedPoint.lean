import Mathlib.Algebra.Order.BigOperators.Group.List
import Mathlib.Algebra.Order.Ring.Nat
import Mathlib.Tactic.NormNum.Pow

/-!
Fixed-point ratios of 32-bit counters, and counters that stay at their greatest value.
-/

namespace FixedPoint

/-! ### Counters -/

/-- `n` as far as a counter can tell. -/
def clamp (n : ℕ) : UInt32 := UInt32.ofNat (min n 0xffffffff)

theorem toNat_clamp (n : ℕ) : (clamp n).toNat = min n 0xffffffff :=
  UInt32.toNat_ofNat_of_lt' (show min n 0xffffffff < 2 ^ 32 by omega)

theorem clamp_mono {m n : ℕ} (h : m ≤ n) : clamp m ≤ clamp n := by
  rw [UInt32.le_iff_toNat_le, toNat_clamp, toNat_clamp]
  omega

theorem toNat_clamp_of_lt {n : ℕ} (h : n < 2 ^ 32) : (clamp n).toNat = n := by
  rw [toNat_clamp]
  omega

theorem clamp_toNat (a : UInt32) : clamp a.toNat = a := by
  have ha := a.toNat_lt
  rw [← UInt32.toNat_inj, toNat_clamp_of_lt ha]

/-- `a + b`, and whether the sum is too large. -/
def satAdd (a b : UInt32) : UInt32 × Bool :=
  if 0xffffffff - a < b then (0xffffffff, true) else (a + b, false)

/-- A counter at `n` that is stepped. -/
theorem satAdd_clamp_one (n : ℕ) :
    satAdd (clamp n) 1 = (clamp (n + 1), decide (2 ^ 32 ≤ n + 1)) := by
  have hn := toNat_clamp n
  have hsub : (0xffffffff - clamp n).toNat = 0xffffffff - min n 0xffffffff := by
    have hle : clamp n ≤ 0xffffffff := by
      rw [UInt32.le_iff_toNat_le, hn]
      exact Nat.min_le_right _ _
    rw [UInt32.toNat_sub_of_le _ _ hle, hn]
    rfl
  by_cases hfull : 2 ^ 32 ≤ n + 1
  · have hlt : 0xffffffff - clamp n < 1 := by
      rw [UInt32.lt_iff_toNat_lt, hsub]
      change 0xffffffff - min n 0xffffffff < 1
      omega
    have hmax : clamp (n + 1) = 0xffffffff := by
      rw [clamp, Nat.min_eq_right (by omega)]
      rfl
    rw [satAdd, if_pos hlt, hmax, decide_eq_true hfull]
  · have hge : ¬0xffffffff - clamp n < 1 := by
      rw [UInt32.lt_iff_toNat_lt, hsub]
      change ¬0xffffffff - min n 0xffffffff < 1
      omega
    have hnext : clamp n + 1 = clamp (n + 1) := by
      rw [clamp, clamp, Nat.min_eq_left (by omega), Nat.min_eq_left (by omega), UInt32.ofNat_add]
      rfl
    rw [satAdd, if_neg hge, hnext, decide_eq_false hfull]

/-- One of several counters is changed. -/
theorem sum_set_add {counters : List UInt32} {i : ℕ} (hi : i < counters.length) (x : UInt32) :
    ((counters.set i x).map UInt32.toNat).sum + counters[i].toNat =
      (counters.map UInt32.toNat).sum + x.toNat := by
  induction counters generalizing i with
  | nil => simp at hi
  | cons a counters ih =>
      cases i with
      | zero =>
          simp only [List.set_cons_zero, List.map_cons, List.sum_cons, List.getElem_cons_zero]
          omega
      | succ i =>
          have hrest := ih (show i < counters.length by simpa using hi)
          simp only [List.set_cons_succ, List.map_cons, List.sum_cons, List.getElem_cons_succ]
          omega

theorem le_sum {counters : List UInt32} {x : UInt32} (hx : x ∈ counters) :
    x.toNat ≤ (counters.map UInt32.toNat).sum :=
  List.single_le_sum (fun a _ => Nat.zero_le a) x.toNat (List.mem_map_of_mem hx)

/-! ### Ratios -/

/-- `n / d` in units of `2 ^ -k`; zero if there is nothing to divide by. -/
def ratio (k : ℕ) (n d : UInt32) : UInt32 :=
  if d = 0 then 0 else ((n.toUInt64 <<< UInt64.ofNat k) / d.toUInt64).toUInt32

variable {k : ℕ} {n d : UInt32}

theorem div_le_of_le {a b m : ℕ} (h : a ≤ b) : a * m / b ≤ m := by
  rcases Nat.eq_zero_or_pos b with rfl | hb
  · rw [Nat.div_zero]
    exact Nat.zero_le m
  · rw [Nat.div_le_iff_le_mul_add_pred hb]
    calc a * m ≤ b * m := Nat.mul_le_mul_right m h
      _ ≤ b * m + (b - 1) := Nat.le_add_right _ _

/-- Of a part and its whole the ratio is computed without loss, but for the rounding. -/
theorem toNat_ratio (hk : k < 32) (h : n ≤ d) :
    (ratio k n d).toNat = n.toNat * 2 ^ k / d.toNat := by
  have hn := n.toNat_lt
  have hle : n.toNat ≤ d.toNat := UInt32.le_iff_toNat_le.mp h
  have hpow : 2 ^ k < 2 ^ 32 := Nat.pow_lt_pow_right (by omega) hk
  have hfits : n.toNat * 2 ^ k < 2 ^ 64 :=
    calc n.toNat * 2 ^ k < 2 ^ 32 * 2 ^ 32 := Nat.mul_lt_mul'' hn hpow
      _ = 2 ^ 64 := by norm_num
  have hdiv := div_le_of_le (m := 2 ^ k) hle
  rw [ratio]
  split
  · next hzero => rw [hzero, UInt32.toNat_zero, Nat.div_zero]
  · rw [UInt64.toNat_toUInt32, UInt64.toNat_div, UInt64.toNat_shiftLeft, UInt32.toNat_toUInt64,
      UInt32.toNat_toUInt64, UInt64.toNat_ofNat', Nat.mod_eq_of_lt (show k < 2 ^ 64 by omega),
      Nat.mod_eq_of_lt (show k < 64 by omega), Nat.shiftLeft_eq, Nat.mod_eq_of_lt hfits,
      Nat.mod_eq_of_lt (by omega)]

theorem ratio_le (hk : k < 32) (h : n ≤ d) : (ratio k n d).toNat ≤ 2 ^ k := by
  rw [toNat_ratio hk h]
  exact div_le_of_le (UInt32.le_iff_toNat_le.mp h)

end FixedPoint
