import Mathlib.Data.List.Induction
import Mathlib.Data.List.Sort

/-!
The best and the second best of a list, found in one pass.
-/

namespace Ranking

variable {α : Type*} [LinearOrder α] {z : α} {l l' : List α}

/-- The best and the second best, one element more being seen. -/
def step (s : α × α) (x : α) : α × α :=
  if s.1 < x then (x, s.1) else if s.2 < x then (s.1, x) else s

/-- From the greatest element to the least. -/
def descending (l : List α) : List α := l.insertionSort (· ≥ ·)

/-- The first two elements, `z` standing for one that is missing. -/
def firstTwo (z : α) (l : List α) : α × α := (l.getD 0 z, l.getD 1 z)

theorem perm_descending (l : List α) : (descending l).Perm l := List.perm_insertionSort _ l

theorem pairwise_descending (l : List α) : (descending l).Pairwise (· ≥ ·) :=
  List.pairwise_insertionSort _ l

theorem descending_congr (h : l.Perm l') : descending l = descending l' :=
  List.Perm.eq_of_pairwise' (pairwise_descending l) (pairwise_descending l')
    (((perm_descending l).trans h).trans (perm_descending l').symm)

theorem head_orderedInsert {x : α} (hx : z ≤ x) :
    (l.orderedInsert (· ≥ ·) x).getD 0 z = max x (l.getD 0 z) := by
  cases l with
  | nil => simp [hx]
  | cons b l =>
      rw [List.orderedInsert_cons]
      split_ifs with hbx
      · simp [max_eq_left hbx]
      · simp [max_eq_right (le_of_not_ge hbx)]

theorem firstTwo_orderedInsert {x : α} (hl : l.Pairwise (· ≥ ·)) (hx : z ≤ x)
    (hz : ∀ y ∈ l, z ≤ y) :
    firstTwo z (l.orderedInsert (· ≥ ·) x) = step (firstTwo z l) x := by
  cases l with
  | nil =>
      rcases hx.eq_or_lt with rfl | hlt
      · simp [firstTwo, step]
      · simp [firstTwo, step, hlt]
  | cons a l =>
      have hsecond : l.getD 0 z ≤ a := by
        cases l with
        | nil => exact hz a List.mem_cons_self
        | cons b l => exact List.rel_of_pairwise_cons hl List.mem_cons_self
      have hinsert := head_orderedInsert (l := l) hx
      simp only [firstTwo, List.getD_cons_zero, List.getD_cons_succ] at hinsert ⊢
      rw [List.orderedInsert_cons, step]
      dsimp only
      rcases lt_trichotomy a x with hlt | rfl | hgt
      · rw [if_pos hlt.le, if_pos hlt]
        rfl
      · -- the second of the two is `a`, or it becomes `a`
        rw [if_pos le_rfl, if_neg (lt_irrefl a)]
        split_ifs with hlt
        · rfl
        · rw [le_antisymm hsecond (not_lt.mp hlt)]
          rfl
      · rw [if_neg hgt.not_ge, if_neg hgt.not_gt, List.getD_cons_zero, List.getD_cons_succ, hinsert]
        split_ifs with hlt
        · rw [max_eq_left hlt.le]
        · rw [max_eq_right (not_lt.mp hlt)]

/-- What one pass keeps are the first two in descending order. -/
theorem foldl_step (h : ∀ x ∈ l, z ≤ x) : l.foldl step (z, z) = firstTwo z (descending l) := by
  induction l using List.reverseRecOn with
  | nil => rfl
  | append_singleton l x ih =>
      obtain ⟨hl, hx⟩ := List.forall_mem_append.mp h
      have hperm : (l ++ [x]).Perm (x :: l) := List.perm_append_singleton x l
      have hz : ∀ y ∈ descending l, z ≤ y := fun y hy => hl y ((perm_descending l).mem_iff.mp hy)
      rw [List.foldl_append, ih hl, List.foldl_cons, List.foldl_nil, descending_congr hperm]
      exact (firstTwo_orderedInsert (pairwise_descending l) (hx x (by simp)) hz).symm

theorem firstTwo_le (h : ∀ x ∈ l, z ≤ x) :
    (firstTwo z (descending l)).2 ≤ (firstTwo z (descending l)).1 := by
  have hsorted := pairwise_descending l
  have hz : ∀ x ∈ descending l, z ≤ x := fun x hx => h x ((perm_descending l).mem_iff.mp hx)
  generalize descending l = sorted at hsorted hz
  match sorted with
  | [] => exact le_rfl
  | [a] => exact hz a List.mem_cons_self
  | a :: b :: rest => exact List.rel_of_pairwise_cons hsorted List.mem_cons_self

/-- Two elements tie for the best. -/
theorem firstTwo_of_tie (h : 2 ≤ l.count (firstTwo z (descending l)).1) :
    (firstTwo z (descending l)).2 = (firstTwo z (descending l)).1 := by
  rw [← (perm_descending l).count_eq] at h
  have hsorted := pairwise_descending l
  generalize descending l = sorted at h hsorted
  match sorted with
  | [] => rfl
  | [a] =>
      have hle := List.count_le_length (a := a) (l := [a])
      exact absurd (h.trans hle) (by simp)
  | a :: b :: rest =>
      have hmem : a ∈ b :: rest := by
        refine List.count_pos_iff.mp ?_
        have hcount : (a :: b :: rest).count a = (b :: rest).count a + 1 := List.count_cons_self
        simp only [firstTwo, List.getD_cons_zero] at h
        omega
      have hba : b ≤ a := List.rel_of_pairwise_cons hsorted List.mem_cons_self
      have hab : a ≤ b := by
        rcases List.mem_cons.mp hmem with rfl | hrest
        · exact le_rfl
        · exact List.rel_of_pairwise_cons hsorted.of_cons hrest
      exact le_antisymm hba hab

end Ranking
