import Mathlib.Algebra.Order.Ring.Nat
import Mathlib.Data.Fin.VecNotation
import Mathlib.Data.Fintype.Basic
import Mathlib.Tactic.FinCases

/-!
Registers of a vector unit and the instructions that move their elements
without looking at them. The registers hold 32-bit elements, in groups of four
for each 128 bits, and element 0 is the lowest one. Every such instruction
takes each element of its result from a fixed place of its operands, so that a
network of them is known from what it does to the places themselves.
-/

namespace Registers

scoped instance neZeroFour : NeZero 4 := ⟨by decide⟩

scoped instance neZeroEight : NeZero 8 := ⟨by decide⟩

scoped instance neZeroSixteen : NeZero 16 := ⟨by decide⟩

/-- A register of `n` elements. -/
abbrev Reg (n : ℕ) (α : Type*) := Fin n → α

variable {n : ℕ} {α β : Type*}

def set1 (x : α) : Reg n α := fun _ => x

/-! ### Instructions with two operands -/

/-- Take each element from the first operand, or with `true` from the second one. -/
def select (src : Fin n → Bool × Fin n) (a b : Reg n α) : Reg n α :=
  fun i => (bif (src i).1 then b else a) (src i).2

/-- What the elements are does not matter. -/
theorem select_comp (f : α → β) (src : Fin n → Bool × Fin n) (a b : Reg n α) :
    select src (fun i => f (a i)) (fun i => f (b i)) = fun i => f (select src a b i) := by
  funext i
  simp only [select]
  cases (src i).1 <;> rfl

section Unpack

variable [NeZero n]

/-- Interleave the low halves of each 128 bits, element by element. -/
def unpackloEpi32 : Reg n α → Reg n α → Reg n α :=
  select fun i => (i.val % 2 = 1, Fin.ofNat n (i.val / 4 * 4 + i.val % 4 / 2))

def unpackhiEpi32 : Reg n α → Reg n α → Reg n α :=
  select fun i => (i.val % 2 = 1, Fin.ofNat n (i.val / 4 * 4 + 2 + i.val % 4 / 2))

/-- The low half of each 128 bits of the first operand, then that of the second one. -/
def unpackloEpi64 : Reg n α → Reg n α → Reg n α :=
  select fun i => (2 ≤ i.val % 4, Fin.ofNat n (i.val / 4 * 4 + i.val % 2))

def unpackhiEpi64 : Reg n α → Reg n α → Reg n α :=
  select fun i => (2 ≤ i.val % 4, Fin.ofNat n (i.val / 4 * 4 + 2 + i.val % 2))

end Unpack

section Four

variable (a b : Reg 4 α)

theorem unpackloEpi32_four : unpackloEpi32 a b = ![a 0, b 0, a 1, b 1] := by
  funext i
  fin_cases i <;> rfl

theorem unpackhiEpi32_four : unpackhiEpi32 a b = ![a 2, b 2, a 3, b 3] := by
  funext i
  fin_cases i <;> rfl

theorem unpackloEpi64_four : unpackloEpi64 a b = ![a 0, a 1, b 0, b 1] := by
  funext i
  fin_cases i <;> rfl

end Four

/-! ### Instructions with an immediate operand -/

/-- Two bits of an immediate operand. -/
def imm2 (imm i : ℕ) : ℕ := imm / 4 ^ i % 4

/-- The immediate operand that takes the elements `w, x, y, z`, the lowest one first. -/
def mmShuffle (z y x w : Fin 4) : ℕ := 64 * z.val + 16 * y.val + 4 * x.val + w.val

def shuffleEpi32 (a : Reg 4 α) (imm : ℕ) : Reg 4 α :=
  select (fun i => (false, Fin.ofNat 4 (imm2 imm i.val))) a a

/-- The low half from the first operand, the high half from the second one. -/
def shufflePs (a b : Reg 4 α) (imm : ℕ) : Reg 4 α :=
  select (fun i => (2 ≤ i.val, Fin.ofNat 4 (imm2 imm i.val))) a b

theorem imm2_mmShuffle (z y x w i : Fin 4) :
    Fin.ofNat 4 (imm2 (mmShuffle z y x w) i.val) = ![w, x, y, z] i := by
  apply Fin.ext
  rw [Fin.val_ofNat, imm2, mmShuffle]
  fin_cases i <;> simp <;> omega

theorem shuffleEpi32_mmShuffle (a : Reg 4 α) (z y x w : Fin 4) :
    shuffleEpi32 a (mmShuffle z y x w) = ![a w, a x, a y, a z] := by
  funext i
  simp only [shuffleEpi32, select, imm2_mmShuffle, cond_false]
  fin_cases i <;> rfl

theorem shufflePs_mmShuffle (a b : Reg 4 α) (z y x w : Fin 4) :
    shufflePs a b (mmShuffle z y x w) = ![a w, a x, b y, b z] := by
  funext i
  simp only [shufflePs, select, imm2_mmShuffle]
  fin_cases i <;> rfl

/-- Either half is one of the four halves of the operands. -/
def permute2x128 (a b : Reg 8 α) (imm : ℕ) : Reg 8 α :=
  select (fun i =>
    let half := imm / 16 ^ (i.val / 4) % 4
    (2 ≤ half, Fin.ofNat 8 (half % 2 * 4 + i.val % 4))) a b

/-- Two groups of four elements from either operand. -/
def shuffleI32x4 (a b : Reg 16 α) (imm : ℕ) : Reg 16 α :=
  select (fun i => (8 ≤ i.val, Fin.ofNat 16 (imm2 imm (i.val / 4) * 4 + i.val % 4))) a b

/-! ### Instructions of the other kind of machine -/

/-- The even elements of both operands. -/
def trnEven : Reg 4 α → Reg 4 α → Reg 4 α :=
  select fun i => (i.val % 2 = 1, Fin.ofNat 4 (i.val / 2 * 2))

/-- The odd elements of both operands. -/
def trnOdd : Reg 4 α → Reg 4 α → Reg 4 α :=
  select fun i => (i.val % 2 = 1, Fin.ofNat 4 (i.val / 2 * 2 + 1))

def combineLow : Reg 4 α → Reg 4 α → Reg 4 α :=
  select fun i => (2 ≤ i.val, Fin.ofNat 4 (i.val % 2))

def combineHigh : Reg 4 α → Reg 4 α → Reg 4 α :=
  select fun i => (2 ≤ i.val, Fin.ofNat 4 (2 + i.val % 2))

/-- Element `i` of the result lies at `places i` of the operands, one after the other. -/
def i32x4Shuffle (places : Fin 4 → Fin 8) : Reg 4 α → Reg 4 α → Reg 4 α :=
  select fun i => (4 ≤ (places i).val, Fin.ofNat 4 (places i).val)

/-- The same with elements of 64 bits. -/
def i64x2Shuffle (places : Fin 2 → Fin 4) : Reg 4 α → Reg 4 α → Reg 4 α :=
  select fun i =>
    let place := (places (Fin.ofNat 2 (i.val / 2))).val
    (2 ≤ place, Fin.ofNat 4 (place % 2 * 2 + i.val % 2))

/-! ### Networks -/

/-- A network of registers that commutes with every map of the elements. -/
def Uniform (network : (α : Type) → (Fin n → Reg n α) → Fin n → Reg n α) : Prop :=
  ∀ (α β : Type) (f : α → β) (x : Fin n → Reg n α),
    network β (fun i j => f (x i j)) = fun i j => f (network α x i j)

/-- Such a network transposes every matrix if it transposes the matrix of places. -/
theorem Uniform.transposes {network : (α : Type) → (Fin n → Reg n α) → Fin n → Reg n α}
    (hu : Uniform network)
    (hplaces : ∀ i j : Fin n, network (Fin n × Fin n) (fun i j => (i, j)) i j = (j, i))
    {α : Type} (x : Fin n → Reg n α) (i j : Fin n) : network α x i j = x j i := by
  have hmap := hu (Fin n × Fin n) α (fun p => x p.1 p.2) fun i j => (i, j)
  calc network α x i j = x (network (Fin n × Fin n) (fun i j => (i, j)) i j).1
        (network (Fin n × Fin n) (fun i j => (i, j)) i j).2 := congrFun (congrFun hmap i) j
    _ = x j i := by rw [hplaces]

end Registers
