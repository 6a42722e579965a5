import Mathlib.Algebra.Order.Ring.Nat
import Mathlib.Logic.Function.Basic
import Mathlib.Data.Fin.VecNotation
import Mathlib.Data.Fintype.Basic
import Mathlib.Tactic.FinCases

/-!
Quarter rounds of ciphers and hashes that are built from additions, exclusive
ors and rotations by 16, 12, 8 and 7. A quarter round mixes four words of a
state. Four of them on disjoint words may run interleaved, statement by
statement, and several states may run side by side in the lanes of registers:
neither changes what a quarter round computes.
-/

namespace QuarterRound

scoped instance neZeroFour : NeZero 4 := ⟨by decide⟩

/-- The operations of a quarter round, on words or on registers of words. -/
structure Arx (α : Type*) where
  add : α → α → α
  xor : α → α → α
  rot16 : α → α
  rot12 : α → α
  rot8 : α → α
  rot7 : α → α

variable {α β : Type*}

/-- `f` carries the operations of `o` to those of `p`. -/
structure Arx.Hom (o : Arx α) (p : Arx β) (f : α → β) : Prop where
  add : ∀ x y, f (o.add x y) = p.add (f x) (f y)
  xor : ∀ x y, f (o.xor x y) = p.xor (f x) (f y)
  rot16 : ∀ x, f (o.rot16 x) = p.rot16 (f x)
  rot12 : ∀ x, f (o.rot12 x) = p.rot12 (f x)
  rot8 : ∀ x, f (o.rot8 x) = p.rot8 (f x)
  rot7 : ∀ x, f (o.rot7 x) = p.rot7 (f x)

/-! ### One quarter round -/

section Mix

variable (o : Arx α) (rotD rotB : α → α)

/-- One half of a quarter round on `a, b, c, d`, which absorbs one message word. -/
def half (m : α) (w : Fin 4 → α) : Fin 4 → α :=
  let a := o.add (o.add (w 0) m) (w 1)
  let d := rotD (o.xor (w 3) a)
  let c := o.add (w 2) d
  let b := rotB (o.xor (w 1) c)
  ![a, b, c, d]

def half₁ : α → (Fin 4 → α) → Fin 4 → α := half o o.rot16 o.rot12

def half₂ : α → (Fin 4 → α) → Fin 4 → α := half o o.rot8 o.rot7

def mix (mx my : α) (w : Fin 4 → α) : Fin 4 → α := half₂ o my (half₁ o mx w)

variable {o} {p : Arx β} {f : α → β}

theorem half_map (h : o.Hom p f) {rotD' rotB' : β → β} (hd : ∀ x, f (rotD x) = rotD' (f x))
    (hb : ∀ x, f (rotB x) = rotB' (f x)) (m : α) (w : Fin 4 → α) :
    (fun k => f (half o rotD rotB m w k)) = half p rotD' rotB' (f m) fun k => f (w k) := by
  funext k
  fin_cases k <;> simp [half, h.add, h.xor, hd, hb]

theorem half₁_map (h : o.Hom p f) (m : α) (w : Fin 4 → α) :
    (fun k => f (half₁ o m w k)) = half₁ p (f m) fun k => f (w k) :=
  half_map _ _ h h.rot16 h.rot12 m w

theorem half₂_map (h : o.Hom p f) (m : α) (w : Fin 4 → α) :
    (fun k => f (half₂ o m w k)) = half₂ p (f m) fun k => f (w k) :=
  half_map _ _ h h.rot8 h.rot7 m w

end Mix

/-! ### Quadruples of a state -/

section Quads

variable {n : ℕ} (q : Fin 4 → Fin 4 → Fin n)

/-- The words of the quadruple `i` of a state. -/
def view (v : Vector α n) (i : Fin 4) : Fin 4 → α := fun k => v[q i k]

/-- Assign a word of the quadruple `i`, as computed from that quadruple. -/
def put (k : Fin 4) (step : Fin 4 → (Fin 4 → α) → α) (v : Vector α n) (i : Fin 4) : Vector α n :=
  v.set (q i k) (step i (view q v i))

/-- The same assignment in each of the four quadruples, one after the other. -/
def onEach (k : Fin 4) (step : Fin 4 → (Fin 4 → α) → α) (v : Vector α n) : Vector α n :=
  let v := put q k step v 0
  let v := put q k step v 1
  let v := put q k step v 2
  put q k step v 3

variable {q}

theorem view_put (hq : Function.Injective2 q) (k : Fin 4) (step : Fin 4 → (Fin 4 → α) → α)
    (v : Vector α n) (i j : Fin 4) :
    view q (put q k step v i) j =
      if j = i then Function.update (view q v i) k (step i (view q v i)) else view q v j := by
  funext l
  simp only [view, put, Fin.getElem_fin, Vector.getElem_set, Fin.val_inj]
  by_cases hji : j = i
  · subst hji
    by_cases hlk : l = k
    · subst hlk
      simp
    · have hne : q j k ≠ q j l := fun h => hlk (hq h).2.symm
      simp [hne, hlk, view]
  · have hne : q i k ≠ q j l := fun h => hji (hq h).1.symm
    simp [hne, hji, view]

theorem view_put_self (hq : Function.Injective2 q) (k : Fin 4)
    (step : Fin 4 → (Fin 4 → α) → α) (v : Vector α n) (i : Fin 4) :
    view q (put q k step v i) i = Function.update (view q v i) k (step i (view q v i)) := by
  rw [view_put hq, if_pos rfl]

theorem view_put_of_ne (hq : Function.Injective2 q) (k : Fin 4)
    (step : Fin 4 → (Fin 4 → α) → α) (v : Vector α n) {i j : Fin 4} (h : j ≠ i) :
    view q (put q k step v i) j = view q v j := by
  rw [view_put hq, if_neg h]

theorem view_onEach (hq : Function.Injective2 q) (k : Fin 4)
    (step : Fin 4 → (Fin 4 → α) → α) (v : Vector α n) (i : Fin 4) :
    view q (onEach q k step v) i = Function.update (view q v i) k (step i (view q v i)) := by
  fin_cases i <;> simp [onEach, view_put hq]

/-- A state is known by its quadruples. -/
theorem ext_view (hq : ∀ x, ∃ i k, q i k = x) {v w : Vector α n}
    (h : ∀ i, view q v i = view q w i) : v = w := by
  apply Vector.ext
  intro x hx
  obtain ⟨i, k, hik⟩ := hq ⟨x, hx⟩
  have hget := congrFun (h i) k
  simpa [view, hik] using hget

theorem view_map (f : α → β) (v : Vector α n) (i : Fin 4) :
    view q (v.map f) i = fun k => f (view q v i k) := by
  funext k
  simp [view]

end Quads

/-! ### Four quarter rounds at once -/

section Interleaved

variable {n : ℕ} (o : Arx α) (rotD rotB : α → α) (q : Fin 4 → Fin 4 → Fin n)

/-- One half of four quarter rounds, interleaved. -/
def interleavedHalf (m : Fin 4 → α) (v : Vector α n) : Vector α n :=
  let v := onEach q 0 (fun i w => o.add (w 0) (m i)) v
  let v := onEach q 0 (fun _ w => o.add (w 0) (w 1)) v
  let v := onEach q 3 (fun _ w => o.xor (w 3) (w 0)) v
  let v := onEach q 3 (fun _ w => rotD (w 3)) v
  let v := onEach q 2 (fun _ w => o.add (w 2) (w 3)) v
  let v := onEach q 1 (fun _ w => o.xor (w 1) (w 2)) v
  onEach q 1 (fun _ w => rotB (w 1)) v

/-- Four quarter rounds, interleaved. -/
def interleaved (mx my : Fin 4 → α) (v : Vector α n) : Vector α n :=
  interleavedHalf o o.rot8 o.rot7 q my (interleavedHalf o o.rot16 o.rot12 q mx v)

variable {q}

theorem view_interleavedHalf (hq : Function.Injective2 q) (m : Fin 4 → α) (v : Vector α n)
    (i : Fin 4) :
    view q (interleavedHalf o rotD rotB q m v) i = half o rotD rotB (m i) (view q v i) := by
  funext k
  fin_cases k <;> simp [interleavedHalf, view_onEach hq, half, Function.update]

/-- Interleaved quarter rounds mix each quadruple by itself. -/
theorem view_interleaved (hq : Function.Injective2 q) (mx my : Fin 4 → α) (v : Vector α n)
    (i : Fin 4) : view q (interleaved o q mx my v) i = mix o (mx i) (my i) (view q v i) := by
  rw [interleaved, view_interleavedHalf _ _ _ hq, view_interleavedHalf _ _ _ hq]
  rfl

/-- In the lanes of registers each state is mixed by itself. -/
theorem interleaved_map (hq : Function.Injective2 q) (hs : ∀ x, ∃ i k, q i k = x)
    {o : Arx α} {p : Arx β} {f : α → β} (h : o.Hom p f) (mx my : Fin 4 → α) (v : Vector α n) :
    (interleaved o q mx my v).map f =
      interleaved p q (fun i => f (mx i)) (fun i => f (my i)) (v.map f) := by
  apply ext_view hs
  intro i
  rw [view_map, view_interleaved _ hq, view_interleaved _ hq, view_map, mix, mix, half₂_map h,
    half₁_map h]

end Interleaved

/-! ### Columns and diagonals -/

/-- The columns of a state of four rows of four words. -/
def columns (i k : Fin 4) : Fin 16 := ⟨4 * k.val + i.val, by omega⟩

/-- Its diagonals, which begin in the first row and wrap around. -/
def diagonals (i k : Fin 4) : Fin 16 := ⟨4 * k.val + (i.val + k.val) % 4, by omega⟩

theorem columns_injective : Function.Injective2 columns := by
  unfold Function.Injective2
  decide

theorem diagonals_injective : Function.Injective2 diagonals := by
  unfold Function.Injective2
  decide

theorem columns_surjective : ∀ x, ∃ i k, columns i k = x := by decide

theorem diagonals_surjective : ∀ x, ∃ i k, diagonals i k = x := by decide

end QuarterRound
