import Blake3.Lib.LeftTree
import Mathlib.Data.List.Basic

/-!
Batched evaluation of a left-complete tree. With `d` values handled at a time,
up to `d` leaves are returned as they are; a longer list is split, both sides
are reduced, and one level of parents is formed over the results. Nothing is
reduced below two values, so that the last application is left to the caller.
For `d` a power of two the left side always fills its whole batch, which is
why the results may be stored side by side.
-/

namespace LeftTree

variable {α : Type*} (op : α → α → α)

/-- Reduce a list of leaves in batches of `d`. -/
def batched (d : ℕ) (l : List α) : List α :=
  if l.length ≤ d ∨ l.length < 2 then l
  else
    let left := batched d (l.take (leftLen l.length))
    let right := batched d (l.drop (leftLen l.length))
    if left.length = 1 then left ++ right else pairs op (left ++ right)
termination_by l.length
decreasing_by
  · exact (length_sides (by omega)).2.1
  · exact (length_sides (by omega)).2.2.2

theorem batched_of_le {d : ℕ} {l : List α} (hl : l.length ≤ d) : batched op d l = l := by
  rw [batched, if_pos (.inl hl)]

theorem batched_split {d : ℕ} {l : List α} (h : ¬(l.length ≤ d ∨ l.length < 2)) :
    batched op d l =
      if (batched op d (l.take (leftLen l.length))).length = 1 then
        batched op d (l.take (leftLen l.length)) ++ batched op d (l.drop (leftLen l.length))
      else
        pairs op (batched op d (l.take (leftLen l.length)) ++
          batched op d (l.drop (leftLen l.length))) := by
  rw [batched, if_neg h]

/-! ### How many values are returned -/

theorem length_batched_pos (d : ℕ) {l : List α} (hl : 0 < l.length) :
    0 < (batched op d l).length := by
  induction l using batched.induct op d with
  | case1 l h => rwa [batched, if_pos h]
  | case2 l h left hone ihl ihr =>
      rw [batched_split op h, if_pos hone, List.length_append]
      exact Nat.add_pos_left (ihl (length_sides (by omega)).1) _
  | case3 l h left hone ihl ihr =>
      have := ihl (length_sides (by omega)).1
      rw [batched_split op h, if_neg hone, length_pairs, List.length_append]
      omega

/-- Two leaves or more never become a single value. -/
theorem two_le_length_batched (d : ℕ) {l : List α} (hl : 2 ≤ l.length) :
    2 ≤ (batched op d l).length := by
  by_cases h : l.length ≤ d ∨ l.length < 2
  · rwa [batched, if_pos h]
  · obtain ⟨hleft, -, hright, -⟩ := length_sides hl
    have hposl := length_batched_pos op d hleft
    have hposr := length_batched_pos op d hright
    rw [batched_split op h]
    split
    · rw [List.length_append]; omega
    · rw [length_pairs, List.length_append]; omega

/-- A split that leaves a single value on the left is the split of two leaves. -/
theorem leftLen_of_length_eq_one {d : ℕ} {l : List α} (hl : 2 ≤ l.length)
    (hone : (batched op d (l.take (leftLen l.length))).length = 1) : leftLen l.length = 1 := by
  have hpos := leftLen_pos l.length
  have hlt := leftLen_lt hl
  by_contra hne
  have := two_le_length_batched op d (l := l.take (leftLen l.length))
    (by rw [List.length_take]; omega)
  omega

theorem length_batched_le (d : ℕ) (l : List α) :
    (batched op d l).length ≤ l.length ∧ (batched op d l).length ≤ max d 2 := by
  induction l using batched.induct op d with
  | case1 l h => rw [batched, if_pos h]; omega
  | case2 l h left hone ihl ihr =>
      have hsplit := leftLen_of_length_eq_one op (by omega) hone
      have hle := le_two_mul_leftLen l.length
      have hlenr : (l.drop (leftLen l.length)).length = l.length - leftLen l.length :=
        List.length_drop
      rw [batched_split op h, if_pos hone, List.length_append]
      change (batched op d (l.take (leftLen l.length))).length = 1 at hone
      omega
  | case3 l h left hone ihl ihr =>
      have hlen : (l.take (leftLen l.length)).length + (l.drop (leftLen l.length)).length =
          l.length := by
        rw [← List.length_append, List.take_append_drop]
      rw [batched_split op h, if_neg hone, length_pairs, List.length_append]
      omega

variable {d : ℕ}

/-- The left side of a split holds at least a whole batch. -/
theorem le_leftLen {i n : ℕ} (hd : d = 2 ^ i) (hn : d < n) : d ≤ leftLen n := by
  have hle := le_two_mul_leftLen n
  obtain ⟨k, hk⟩ := exists_leftLen n
  rw [hk] at hle ⊢
  rw [hd] at hn ⊢
  refine Nat.pow_le_pow_right (by omega) ?_
  by_contra hlt
  have : 2 ^ (k + 1) ≤ 2 ^ i := Nat.pow_le_pow_right (by omega) (by omega)
  rw [Nat.pow_succ] at this
  omega

/-- A complete tree fills its batch exactly. -/
theorem length_batched_of_pow {i j : ℕ} (hd : d = 2 ^ i) {l : List α} (hl : l.length = 2 ^ j) :
    (batched op d l).length = min (2 ^ j) (max d 2) := by
  induction j generalizing l with
  | zero => rw [batched, if_pos (.inr (by omega)), hl]; omega
  | succ j ih =>
      have hdpos : 1 ≤ d := by rw [hd]; exact Nat.two_pow_pos i
      by_cases hle : l.length ≤ d
      · rw [batched_of_le op hle]; omega
      · have hjpos := Nat.two_pow_pos j
        rw [Nat.pow_succ] at hl
        have hsplit : leftLen l.length = 2 ^ j := by
          rw [hl, Nat.mul_two]
          exact leftLen_eq hjpos le_rfl
        have hdj := le_leftLen hd (n := l.length) (by omega)
        rw [hsplit] at hdj
        have hleft := ih (l := l.take (leftLen l.length)) (by rw [List.length_take]; omega)
        have hright := ih (l := l.drop (leftLen l.length)) (by rw [List.length_drop]; omega)
        rw [batched_split op (by omega)]
        split
        · rw [List.length_append, Nat.pow_succ]; omega
        · rw [length_pairs, List.length_append, hleft, hright, Nat.pow_succ]
          -- one value or a whole batch: `2 ^ j = 1` is the case above
          rcases Nat.lt_or_ge (2 ^ j) 2 with hlt | hge <;> omega

/-- In a split the left side returns a whole batch and the right side no more. -/
theorem length_batched_left {i : ℕ} (hd : d = 2 ^ i) {l : List α} (hl : d < l.length) :
    (batched op d (l.take (leftLen l.length))).length =
      if d = 1 ∧ 1 < leftLen l.length then 2 else d := by
  have hdpos : 1 ≤ d := by rw [hd]; exact Nat.two_pow_pos i
  obtain ⟨j, hj⟩ := exists_leftLen l.length
  have hdj := le_leftLen hd hl
  have hlt := leftLen_lt (n := l.length) (by omega)
  rw [length_batched_of_pow op hd (j := j) (by rw [List.length_take]; omega), ← hj]
  have hpar : d = 1 ∨ 2 ≤ d := by omega
  split <;> omega

theorem length_batched_right_le {i : ℕ} (hd : d = 2 ^ i) {l : List α} (hl : d < l.length) :
    (batched op d (l.drop (leftLen l.length))).length ≤
      (batched op d (l.take (leftLen l.length))).length := by
  have hdpos : 1 ≤ d := by rw [hd]; exact Nat.two_pow_pos i
  have hle := le_two_mul_leftLen l.length
  have hlt := leftLen_lt (n := l.length) (by omega)
  obtain ⟨j, hj⟩ := exists_leftLen l.length
  have hr := length_batched_le op d (l.drop (leftLen l.length))
  rw [List.length_drop] at hr
  rw [length_batched_of_pow op hd (l := l.take (leftLen l.length)) (j := j)
    (by rw [List.length_take]; omega)]
  omega

theorem exists_length_batched_left {i : ℕ} (hd : d = 2 ^ i) {l : List α} (hl : d < l.length) :
    ∃ k, (batched op d (l.take (leftLen l.length))).length = 2 ^ k := by
  rw [length_batched_left op hd hl]
  split
  · exact ⟨1, rfl⟩
  · exact ⟨i, hd⟩

/-! ### What the values are -/

variable [Inhabited α]

/-- The returned values span the same tree as the leaves. -/
theorem fold_batched {i : ℕ} (hd : d = 2 ^ i) (l : List α) :
    fold op (batched op d l) = fold op l := by
  induction hlen : l.length using Nat.strong_induction_on generalizing l with
  | _ n ih =>
    have hdpos : 1 ≤ d := by rw [hd]; exact Nat.two_pow_pos i
    by_cases hle : l.length ≤ d
    · rw [batched_of_le op hle]
    · have hlong : 2 ≤ l.length := by omega
      obtain ⟨-, hltl, hright, hltr⟩ := length_sides hlong
      obtain ⟨k, hk⟩ := exists_length_batched_left op hd (l := l) (by omega)
      have happ : fold op (batched op d (l.take (leftLen l.length)) ++
          batched op d (l.drop (leftLen l.length))) = fold op l := by
        rw [fold_append op hk (length_batched_pos op d hright)
            (hk ▸ length_batched_right_le op hd (by omega)),
          ih _ (hlen ▸ hltl) _ rfl, ih _ (hlen ▸ hltr) _ rfl, fold_eq_top op hlong, top]
      rw [batched_split op (by omega)]
      split
      · exact happ
      · rw [fold_pairs, happ]

/-- The last application over the returned values is the one over the leaves. -/
theorem top_batched {i : ℕ} (hd : d = 2 ^ i) {l : List α} (hl : 2 ≤ l.length) :
    top op (batched op d l) = top op l := by
  have hdpos : 1 ≤ d := by rw [hd]; exact Nat.two_pow_pos i
  by_cases hle : l.length ≤ d
  · rw [batched_of_le op hle]
  · obtain ⟨hleft, -, hright, -⟩ := length_sides hl
    obtain ⟨k, hk⟩ := exists_length_batched_left op hd (l := l) (by omega)
    have hpos := length_batched_pos op d hright
    have happ : top op (batched op d (l.take (leftLen l.length)) ++
        batched op d (l.drop (leftLen l.length))) = top op l := by
      rw [top_append op hk hpos (hk ▸ length_batched_right_le op hd (by omega)),
        fold_batched op hd, fold_batched op hd, top]
    rw [batched_split op (by omega)]
    split
    · exact happ
    · have := length_batched_pos op d hleft
      rw [top_pairs op (by rw [List.length_append]; omega), happ]

/-! ### Condensing to the last two values -/

/-- Form parents repeatedly until at most two values are left. -/
def condense (l : List α) : List α :=
  if 2 < l.length then condense (pairs op l) else l
termination_by l.length
decreasing_by rw [length_pairs]; omega

theorem condense_eq_top {l : List α} (hl : 2 ≤ l.length) :
    condense op l = [(top op l).1, (top op l).2] := by
  induction l using condense.induct op with
  | case1 l hlong ih =>
      rw [condense, if_pos hlong, ih (by rw [length_pairs]; omega), top_pairs op hlong]
  | case2 l hshort =>
      obtain ⟨a, b, rfl⟩ := List.length_eq_two.mp (by omega : l.length = 2)
      have htop : top op ([a] ++ [b]) = (fold op [a], fold op [b]) :=
        top_append op (k := 0) rfl (by simp) (by simp)
      rw [condense, if_neg hshort, show [a, b] = [a] ++ [b] from rfl, htop]
      simp

end LeftTree
