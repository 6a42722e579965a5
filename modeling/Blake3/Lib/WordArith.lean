import Mathlib.Algebra.Order.BigOperators.Group.List
import Mathlib.Algebra.Order.Ring.Nat
import Mathlib.Tactic.Ring

/-!
Arithmetic on 64-bit words: additions and subtractions that wrap around or that
report it, division by doubling the remainder, sums that stay below the modulus,
scans for an extreme element.
-/

namespace WordArith

/-- Addition and subtraction in a monad, which are those of the numbers where these fit. -/
structure Arith (m : Type → Type) [Monad m] where
  add : UInt64 → UInt64 → m UInt64
  sub : UInt64 → UInt64 → m UInt64
  add_eq : ∀ {a b : UInt64}, a.toNat + b.toNat < 2 ^ 64 → add a b = pure (a + b)
  sub_eq : ∀ {a b : UInt64}, b ≤ a → sub a b = pure (a - b)

/-- Every operation wraps around. -/
def wrapping : Arith Id where
  add a b := a + b
  sub a b := a - b
  add_eq _ := rfl
  sub_eq _ := rfl

/-- An operation whose result does not fit has none. -/
def checked : Arith Option where
  add a b := if a.toNat + b.toNat < 2 ^ 64 then some (a + b) else none
  sub a b := if b ≤ a then some (a - b) else none
  add_eq h := if_pos h
  sub_eq h := if_pos h

/-! ### Division by doubling -/

/-- `q` and `r` are the quotient and the remainder of `x` by `d`. -/
structure Splits (x d q r : ℕ) : Prop where
  eq : x = q * d + r
  lt : r < d

variable {x d q r : ℕ}

theorem Splits.of_lt (h : x < d) : Splits x d 0 x := ⟨by simp, h⟩

theorem Splits.quotient_eq (h : Splits x d q r) : q = x / d := by
  have hd : 0 < d := Nat.zero_lt_of_lt h.lt
  rw [h.eq, Nat.add_comm, Nat.add_mul_div_right _ _ hd, Nat.div_eq_of_lt h.lt, Nat.zero_add]

/-- The doubled remainder reaches the divisor: what is left of it, and a one in the quotient. -/
theorem Splits.double_one (h : Splits x d q r) (hle : d - r ≤ r) :
    Splits (x * 2) d (2 * q + 1) (r - (d - r)) := by
  have hlt := h.lt
  refine ⟨?_, by omega⟩
  have hsplit : r * 2 = d + (r - (d - r)) := by omega
  calc x * 2 = (q * d) * 2 + r * 2 := by rw [h.eq, Nat.add_mul]
    _ = (2 * q + 1) * d + (r - (d - r)) := by rw [hsplit]; ring

theorem Splits.double_zero (h : Splits x d q r) (hlt : r < d - r) :
    Splits (x * 2) d (2 * q) (r + r) := by
  refine ⟨?_, by omega⟩
  rw [h.eq]
  ring

/-! ### Sums -/

theorem toNat_foldl_add {α : Type*} (f : α → UInt64) (l : List α) (init : UInt64)
    (h : init.toNat + (l.map fun a => (f a).toNat).sum < 2 ^ 64) :
    (l.foldl (fun s a => s + f a) init).toNat =
      init.toNat + (l.map fun a => (f a).toNat).sum := by
  induction l generalizing init with
  | nil => simp
  | cons a l ih =>
      rw [List.map_cons, List.sum_cons] at h
      have hadd : (init + f a).toNat = init.toNat + (f a).toNat := by
        rw [UInt64.toNat_add]
        exact Nat.mod_eq_of_lt (by omega)
      rw [List.foldl_cons, ih _ (by rw [hadd]; omega), hadd, List.map_cons, List.sum_cons,
        Nat.add_assoc]

/-- A sum of bounded terms. -/
theorem sum_map_le {α : Type*} {f : α → ℕ} {bound : ℕ} {l : List α} (h : ∀ a ∈ l, f a ≤ bound) :
    (l.map f).sum ≤ l.length * bound := by
  simpa using List.sum_le_card_nsmul (l.map f) bound (by simpa using h)

/-! ### Scans -/

section Scan

variable {α : Type*} {le better : α → α → Prop} [DecidableRel better]

/-- Keeping the better of two all along a list ends with its best element. -/
theorem foldl_better_spec (hrefl : ∀ a, le a a) (htrans : ∀ {a b c}, le a b → le b c → le a c)
    (hbetter : ∀ {a b}, better a b → le a b) (hworse : ∀ {a b}, ¬better a b → le b a)
    (l : List α) (a : α) :
    l.foldl (fun r c => if better c r then c else r) a ∈ a :: l ∧
      ∀ c ∈ a :: l, le (l.foldl (fun r c => if better c r then c else r) a) c := by
  induction l generalizing a with
  | nil => exact ⟨List.mem_singleton_self a, fun c hc => List.mem_singleton.mp hc ▸ hrefl a⟩
  | cons b l ih =>
      rw [List.foldl_cons]
      by_cases hb : better b a
      · rw [if_pos hb]
        obtain ⟨hmem, hle⟩ := ih b
        refine ⟨List.mem_cons_of_mem _ hmem, fun c hc => ?_⟩
        rcases List.mem_cons.mp hc with rfl | hc
        · exact htrans (hle b List.mem_cons_self) (hbetter hb)
        · exact hle c hc
      · rw [if_neg hb]
        obtain ⟨hmem, hle⟩ := ih a
        refine ⟨?_, fun c hc => ?_⟩
        · rcases List.mem_cons.mp hmem with heq | hmem
          · exact List.mem_cons.mpr (Or.inl heq)
          · exact List.mem_cons_of_mem _ (List.mem_cons_of_mem _ hmem)
        · rcases List.mem_cons.mp hc with rfl | hc
          · exact hle c List.mem_cons_self
          rcases List.mem_cons.mp hc with rfl | hc
          · exact htrans (hle a List.mem_cons_self) (hworse hb)
          · exact hle c (List.mem_cons_of_mem _ hc)

end Scan

end WordArith
