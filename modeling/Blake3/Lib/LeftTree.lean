import Mathlib.Data.Nat.Log
import Mathlib.Tactic.Ring

/-!
Left-complete binary trees over a list of leaves. A tree over `n ≥ 2` leaves
puts the largest power of two below `n` on its left side; `fold` evaluates
such a tree with a binary operation, `top` stops just before the last
application. Reducing a list pairwise, one level at a time, evaluates the same
tree, which is what a level-by-level implementation relies on.
-/

namespace LeftTree

/-! ### The split point -/

/-- The largest power of two below `n`, for `n ≥ 2`. -/
def leftLen (n : ℕ) : ℕ := 2 ^ (n - 1).log2

theorem leftLen_pos (n : ℕ) : 0 < leftLen n := Nat.two_pow_pos _

theorem leftLen_lt {n : ℕ} (hn : 2 ≤ n) : leftLen n < n := by
  have h := Nat.log2_self_le (n := n - 1) (by omega)
  unfold leftLen
  omega

theorem le_two_mul_leftLen (n : ℕ) : n ≤ 2 * leftLen n := by
  have h := Nat.lt_log2_self (n := n - 1)
  rw [Nat.pow_succ] at h
  unfold leftLen
  omega

/-- A power of two with at least one and at most as many leaves to its right
is the split point. -/
theorem leftLen_eq {k m : ℕ} (hm : 0 < m) (hle : m ≤ 2 ^ k) : leftLen (2 ^ k + m) = 2 ^ k := by
  have hpos := Nat.two_pow_pos k
  unfold leftLen
  congr 1
  rw [Nat.log2_eq_iff (by omega), Nat.pow_succ]
  omega

theorem exists_leftLen (n : ℕ) : ∃ k, leftLen n = 2 ^ k := ⟨_, rfl⟩

/-- Beyond two leaves the split point is even, and halving every level of the
tree halves it. -/
theorem leftLen_half {n : ℕ} (hn : 3 ≤ n) :
    leftLen n = 2 * leftLen ((n + 1) / 2) := by
  have hlog : (n - 1).log2 = (((n + 1) / 2) - 1).log2 + 1 := by
    rw [show (n + 1) / 2 - 1 = (n - 1) / 2 by omega, Nat.log2_def (n := n - 1), if_pos (by omega)]
  unfold leftLen
  rw [hlog, Nat.pow_succ, Nat.mul_comm]

variable {α β : Type*} [Inhabited α] [Inhabited β] (op : α → α → α)

/-! ### Evaluating the tree -/

/-- The value of the left-complete tree over the leaves. -/
def fold : List α → α
  | [] => default
  | [a] => a
  | a :: b :: l =>
      op (fold ((a :: b :: l).take (leftLen (l.length + 2))))
        (fold ((a :: b :: l).drop (leftLen (l.length + 2))))
termination_by l => l.length
decreasing_by
  · have := leftLen_lt (n := l.length + 2) (by omega)
    simp only [List.length_take, List.length_cons]
    omega
  · have := leftLen_pos (l.length + 2)
    simp only [List.length_drop, List.length_cons]
    omega

/-- The two operands of the last application. -/
def top (l : List α) : α × α :=
  (fold op (l.take (leftLen l.length)), fold op (l.drop (leftLen l.length)))

@[simp] theorem fold_singleton (a : α) : fold op [a] = a := by rw [fold]

theorem fold_eq_top {l : List α} (hl : 2 ≤ l.length) :
    fold op l = op (top op l).1 (top op l).2 := by
  match l, hl with
  | a :: b :: l, _ => rw [fold, top]; rfl

/-- A full left side and a right side that fits under it split exactly there. -/
theorem top_append {k : ℕ} {l r : List α} (hl : l.length = 2 ^ k) (hr : 0 < r.length)
    (hle : r.length ≤ 2 ^ k) : top op (l ++ r) = (fold op l, fold op r) := by
  have hsplit : leftLen (l ++ r).length = l.length := by
    rw [List.length_append, hl, leftLen_eq hr hle]
  rw [top, hsplit, List.take_left, List.drop_left]

theorem fold_append {k : ℕ} {l r : List α} (hl : l.length = 2 ^ k) (hr : 0 < r.length)
    (hle : r.length ≤ 2 ^ k) : fold op (l ++ r) = op (fold op l) (fold op r) := by
  have hlen : 2 ≤ (l ++ r).length := by
    have := Nat.two_pow_pos k
    rw [List.length_append]
    omega
  rw [fold_eq_top op hlen, top_append op hl hr hle]

/-- The split at a given length, for a list that has not been taken apart yet. -/
theorem top_eq_of_length {n : ℕ} {l : List α} (hn : l.length = n) :
    top op l = (fold op (l.take (leftLen n)), fold op (l.drop (leftLen n))) := by
  subst hn
  rfl

omit [Inhabited α] in
/-- Both sides of a split are nonempty and shorter than the list. -/
theorem length_sides {l : List α} (hl : 2 ≤ l.length) :
    0 < (l.take (leftLen l.length)).length ∧ (l.take (leftLen l.length)).length < l.length ∧
      0 < (l.drop (leftLen l.length)).length ∧ (l.drop (leftLen l.length)).length < l.length := by
  have hlt := leftLen_lt hl
  have hpos := leftLen_pos l.length
  simp only [List.length_take, List.length_drop]
  omega

/-- Evaluation commutes with a homomorphism of the operations. -/
theorem fold_map {op' : β → β → β} {g : α → β} (hg : ∀ a b, g (op a b) = op' (g a) (g b))
    {l : List α} (hl : 0 < l.length) : g (fold op l) = fold op' (l.map g) := by
  induction hlen : l.length using Nat.strong_induction_on generalizing l with
  | _ n ih =>
    by_cases hone : l.length = 1
    · obtain ⟨a, rfl⟩ := List.length_eq_one_iff.mp hone
      simp
    · have hlong : 2 ≤ l.length := by omega
      obtain ⟨hleft, hleft', hright, hright'⟩ := length_sides hlong
      rw [fold_eq_top op hlong, fold_eq_top op' (by simpa using hlong), hg, top,
        ih _ (hlen ▸ hleft') hleft rfl, ih _ (hlen ▸ hright') hright rfl]
      simp [top]

theorem top_map {op' : β → β → β} {g : α → β} (hg : ∀ a b, g (op a b) = op' (g a) (g b))
    {l : List α} (hl : 2 ≤ l.length) :
    top op' (l.map g) = (g (top op l).1, g (top op l).2) := by
  obtain ⟨hleft, -, hright, -⟩ := length_sides hl
  simp only [top, List.length_map, ← List.map_take, ← List.map_drop]
  rw [fold_map op hg hleft, fold_map op hg hright]

/-! ### One level at a time -/

/-- One level of the tree: neighbours are combined, an odd one is carried. -/
def pairs : List α → List α
  | a :: b :: l => op a b :: pairs l
  | l => l

omit [Inhabited α] in
@[simp] theorem length_pairs (l : List α) : (pairs op l).length = (l.length + 1) / 2 := by
  induction l using pairs.induct with
  | case1 a b l ih => simp only [pairs, List.length_cons, ih]; omega
  | case2 l h =>
      match l, h with
      | [], _ => simp [pairs]
      | [a], _ => simp [pairs]
      | a :: b :: l, h => exact absurd rfl (h a b l)

omit [Inhabited α] in
/-- The combined neighbours, and the odd one. -/
theorem take_pairs_append_drop (l : List α) :
    (pairs op l).take (l.length / 2) ++ l.drop (2 * (l.length / 2)) = pairs op l := by
  induction l using pairs.induct with
  | case1 a b l ih =>
      have hhalf : (a :: b :: l).length / 2 = l.length / 2 + 1 := by
        simp only [List.length_cons]
        omega
      rw [hhalf, pairs, List.take_succ_cons, Nat.mul_succ, List.drop_succ_cons,
        List.drop_succ_cons, List.cons_append, ih]
  | case2 l h =>
      match l, h with
      | [], _ => simp [pairs]
      | [a], _ => simp [pairs]
      | a :: b :: l, h => exact absurd rfl (h a b l)

omit [Inhabited α] in
/-- A left part of even length is reduced on its own. -/
theorem pairs_append {m : ℕ} {l r : List α} (hl : l.length = 2 * m) :
    pairs op (l ++ r) = pairs op l ++ pairs op r := by
  induction m generalizing l with
  | zero =>
      have : l = [] := List.length_eq_zero_iff.mp (by omega)
      subst this
      rfl
  | succ m ih =>
      match l, hl with
      | a :: b :: l, hl =>
          simp only [List.cons_append, pairs]
          rw [ih (by simp only [List.length_cons] at hl; omega)]

omit [Inhabited α] in
/-- The two sides of the tree are reduced separately. -/
theorem pairs_eq_append {l : List α} (hl : 3 ≤ l.length) :
    pairs op l = pairs op (l.take (leftLen l.length)) ++ pairs op (l.drop (leftLen l.length)) := by
  have hlt := leftLen_lt (n := l.length) (by omega)
  have hhalf := leftLen_half hl
  rw [← pairs_append op (m := leftLen ((l.length + 1) / 2)) (by rw [List.length_take]; omega),
    List.take_append_drop]

/-- Reducing one level does not change the value of the tree. -/
theorem fold_pairs (l : List α) : fold op (pairs op l) = fold op l := by
  induction hlen : l.length using Nat.strong_induction_on generalizing l with
  | _ n ih =>
    match l with
    | [] => rw [pairs]; simp
    | [a] => rw [pairs]; simp
    | [a, b] =>
        have hsplit : fold op [a, b] = op (fold op [a]) (fold op [b]) :=
          fold_append op (k := 0) (l := [a]) (r := [b]) rfl (by simp) (by simp)
        simp [pairs, hsplit]
    | a :: b :: c :: l =>
        generalize hxs : a :: b :: c :: l = xs at *
        have hlong : 3 ≤ xs.length := by rw [← hxs]; simp
        have hlt := leftLen_lt (n := xs.length) (by omega)
        have hpos := leftLen_pos xs.length
        have hhalf := leftLen_half hlong
        have hle := le_two_mul_leftLen xs.length
        obtain ⟨k, hk⟩ := exists_leftLen ((xs.length + 1) / 2)
        rw [pairs_eq_append op hlong, fold_eq_top op (l := xs) (by omega),
          fold_append op (k := k), ih _ _ _ rfl, ih _ _ _ rfl, top]
        · rw [List.length_drop]; omega
        · rw [List.length_take]; omega
        · rw [length_pairs, List.length_take]; omega
        · rw [length_pairs, List.length_drop]; omega
        · rw [length_pairs, List.length_drop]; omega

/-- With three or more leaves, reducing one level keeps the last application. -/
theorem top_pairs {l : List α} (hl : 3 ≤ l.length) : top op (pairs op l) = top op l := by
  have hlt := leftLen_lt (n := l.length) (by omega)
  have hhalf := leftLen_half hl
  have hle := le_two_mul_leftLen l.length
  obtain ⟨k, hk⟩ := exists_leftLen ((l.length + 1) / 2)
  rw [pairs_eq_append op hl, top_append op (k := k), fold_pairs, fold_pairs, top]
  · rw [length_pairs, List.length_take]; omega
  · rw [length_pairs, List.length_drop]; omega
  · rw [length_pairs, List.length_drop]; omega

/-- Reduce level by level until one value is left. -/
def collapse (l : List α) : α :=
  match l with
  | a :: b :: l => collapse (pairs op (a :: b :: l))
  | [a] => a
  | [] => default
termination_by l.length
decreasing_by simp only [length_pairs, List.length_cons]; omega

/-- Level-by-level reduction evaluates the tree. -/
theorem collapse_eq_fold (l : List α) : collapse op l = fold op l := by
  induction l using collapse.induct op with
  | case1 a b l ih => rw [collapse, ih, fold_pairs]
  | case2 a => rw [collapse, fold_singleton]
  | case3 => rw [collapse, fold]

end LeftTree
