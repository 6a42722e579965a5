import Blake3.Lib.LeftTree
import Mathlib.Data.Nat.BitIndices
import Mathlib.Tactic.Linarith

/-!
Stacks of complete subtrees, as a binary counter keeps them. A stack covers a
list of leaves when its entries, bottom to top, are the values of consecutive
blocks whose lengths are powers of two. With strictly growing exponents from
the top down the stack is the binary representation of the number of leaves;
the lazy variant allows the top entry not to have been merged yet. Stacks are
lists with the top entry first.
-/

namespace CarryStack

open LeftTree

/-! ### Exponents and one bits -/

/-- The number of one bits of `n`. -/
def popcount (n : ℕ) : ℕ := n.bitIndices.length

/-- The number of leaves under subtrees with the given exponents. -/
def weight (es : List ℕ) : ℕ := (es.map (2 ^ ·)).sum

@[simp] theorem weight_nil : weight [] = 0 := rfl

@[simp] theorem weight_cons (e : ℕ) (es : List ℕ) : weight (e :: es) = 2 ^ e + weight es := rfl

theorem length_le_weight (es : List ℕ) : es.length ≤ weight es := by
  induction es with
  | nil => simp
  | cons e es ih =>
      have := Nat.two_pow_pos e
      rw [List.length_cons, weight_cons]
      omega

@[simp] theorem popcount_zero : popcount 0 = 0 := by simp [popcount]

/-- Every entry merged: the exponents grow strictly from the top down. -/
abbrev Merged (es : List ℕ) : Prop := es.Pairwise (· < ·)

/-- Every entry merged but perhaps the top one, which is not larger than the
entry under it. -/
def Lazy : List ℕ → Prop
  | [] => True
  | e :: es => Merged es ∧ ∀ e' ∈ es, e ≤ e'

theorem Merged.lazy {es : List ℕ} (h : Merged es) : Lazy es := by
  cases es with
  | nil => trivial
  | cons e es =>
      obtain ⟨hhead, htail⟩ := List.pairwise_cons.mp h
      exact ⟨htail, fun e' he' => (hhead e' he').le⟩

/-- Merged exponents are the positions of the one bits of their weight. -/
theorem Merged.eq_bitIndices {es : List ℕ} (h : Merged es) : es = (weight es).bitIndices :=
  (Nat.bitIndices_sum_map_two_pow h.sortedLT).symm

theorem Merged.popcount_weight {es : List ℕ} (h : Merged es) :
    popcount (weight es) = es.length := by
  rw [popcount, ← h.eq_bitIndices]

theorem Merged.testBit_weight {es : List ℕ} (h : Merged es) (e : ℕ) :
    (weight es).testBit e = true ↔ e ∈ es := by
  rw [← Nat.mem_bitIndices, ← h.eq_bitIndices]

/-- A block whose size divides the weight is not larger than any entry. -/
theorem Merged.le_of_dvd {es : List ℕ} (h : Merged es) {j : ℕ} (hj : 2 ^ j ∣ weight es) :
    ∀ e ∈ es, j ≤ e := by
  intro e he
  obtain ⟨q, hq⟩ := hj
  have hbit := (h.testBit_weight e).mpr he
  rw [hq, Nat.testBit_two_pow_mul] at hbit
  simp only [ge_iff_le, Bool.and_eq_true, decide_eq_true_eq] at hbit
  exact hbit.1

theorem Merged.lazy_push {es : List ℕ} (h : Merged es) {j : ℕ} (hj : 2 ^ j ∣ weight es) :
    Lazy (j :: es) := ⟨h, h.le_of_dvd hj⟩

/-- The top entry starts at a multiple of its own size. -/
theorem Lazy.dvd_weight {e : ℕ} {es : List ℕ} (h : Lazy (e :: es)) : 2 ^ e ∣ weight es := by
  refine List.dvd_sum fun x hx => ?_
  obtain ⟨e', he', rfl⟩ := List.mem_map.mp hx
  exact Nat.pow_dvd_pow 2 (h.2 e' he')

/-- Two equal entries on top make one of the next size. -/
theorem Lazy.merge {e : ℕ} {es : List ℕ} (h : Lazy (e :: e :: es)) : Lazy ((e + 1) :: es) := by
  obtain ⟨hhead, htail⟩ := List.pairwise_cons.mp h.1
  exact ⟨htail, fun e' he' => hhead e' he'⟩

theorem weight_merge (e : ℕ) (es : List ℕ) : weight ((e + 1) :: es) = weight (e :: e :: es) := by
  simp only [weight_cons, Nat.pow_succ]
  ring

/-- A lazy stack is merged, or its top two entries are of one size. -/
theorem Lazy.merged_or {e e' : ℕ} {es : List ℕ} (h : Lazy (e :: e' :: es)) :
    Merged (e :: e' :: es) ∨ e = e' := by
  rcases Nat.lt_or_eq_of_le (h.2 e' (by simp)) with hlt | heq
  · left
    refine List.pairwise_cons.mpr ⟨fun x hx => ?_, h.1⟩
    rcases List.mem_cons.mp hx with rfl | hx
    · exact hlt
    · exact hlt.trans ((List.pairwise_cons.mp h.1).1 x hx)
  · exact .inr heq

/-- A lazy stack never holds fewer entries than its weight has one bits. -/
theorem Lazy.popcount_le {es : List ℕ} (h : Lazy es) : popcount (weight es) ≤ es.length := by
  induction hlen : es.length using Nat.strong_induction_on generalizing es with
  | _ n ih =>
    match es, h with
    | [], _ => simp
    | [e], _ => exact hlen ▸ (Merged.popcount_weight (List.pairwise_singleton _ _)).le
    | e :: e' :: es, h =>
        rcases h.merged_or with hm | rfl
        · exact hlen ▸ hm.popcount_weight.le
        · simp only [List.length_cons] at hlen
          have := ih _ (by simp only [List.length_cons]; omega) h.merge rfl
          rw [weight_merge] at this
          simp only [List.length_cons] at this
          omega

/-- With two equal entries on top there is one entry too many. -/
theorem Lazy.popcount_lt {e : ℕ} {es : List ℕ} (h : Lazy (e :: e :: es)) :
    popcount (weight (e :: e :: es)) < es.length + 2 := by
  have := h.merge.popcount_le
  rw [weight_merge, List.length_cons] at this
  omega

/-- A number below `2 ^ k` has at most `k` one bits. -/
theorem popcount_le_of_lt {n k : ℕ} (hn : n < 2 ^ k) : popcount n ≤ k := by
  have hsub : n.bitIndices ⊆ List.range k := by
    intro i hi
    have := Nat.two_pow_le_of_mem_bitIndices hi
    have hlt : 2 ^ i < 2 ^ k := this.trans_lt hn
    exact List.mem_range.mpr ((Nat.pow_lt_pow_iff_right (by omega)).mp hlt)
  simpa [popcount] using (List.subperm_of_subset Nat.bitIndices_nodup hsub).length_le

/-- A lazy stack is at most one entry longer than a merged one. -/
theorem Lazy.length_le {es : List ℕ} (h : Lazy es) {k : ℕ} (hk : weight es < 2 ^ k) :
    es.length ≤ k + 1 := by
  cases es with
  | nil => simp
  | cons e es =>
      rw [weight_cons] at hk
      have hle := popcount_le_of_lt (n := weight es) (k := k) (by linarith [Nat.two_pow_pos e])
      rw [h.1.popcount_weight] at hle
      rw [List.length_cons]
      omega

theorem popcount_two_pow_sub_one (k : ℕ) : popcount (2 ^ k - 1) = k := by
  have hm : Merged (List.range k) := List.pairwise_lt_range
  have hw : weight (List.range k) = 2 ^ k - 1 := by
    induction k with
    | zero => rfl
    | succ k ih =>
        have hsum : weight (List.range (k + 1)) = weight (List.range k) + 2 ^ k := by
          simp [weight, List.range_succ]
        have := Nat.two_pow_pos k
        rw [hsum, ih List.pairwise_lt_range, Nat.pow_succ]
        omega
  simpa [hw] using hm.popcount_weight

/-! ### Counting up by one block

An eager counter merges a new block of size `2 ^ i` while the number of blocks
of that size, the new one included, is even. -/

/-- An even count: the top entry has the size of the new block. -/
theorem Merged.carry_even {es : List ℕ} (h : Merged es) {i m : ℕ} (hi : ∀ e ∈ es, i ≤ e)
    (hm : weight es + 2 ^ i = 2 * m * 2 ^ i) (hpos : 0 < m) :
    ∃ es', es = i :: es' ∧ ∀ e ∈ es', i + 1 ≤ e := by
  have hmem : i ∈ es := by
    rw [← h.testBit_weight, show weight es = 2 ^ i * (2 * m - 1) by
      rw [Nat.mul_sub, Nat.mul_one, ← hm.trans (Nat.mul_comm _ _)]; omega]
    rw [Nat.testBit_two_pow_mul]
    simp only [ge_iff_le, le_refl, decide_true, Nat.sub_self, Nat.testBit_zero, Bool.true_and,
      decide_eq_true_eq]
    omega
  match es, hmem with
  | e :: es, hmem =>
      obtain ⟨hhead, -⟩ := List.pairwise_cons.mp h
      have heq : e = i := by
        rcases List.mem_cons.mp hmem with rfl | hmem
        · rfl
        · have := hhead i hmem
          have := hi e (by simp)
          omega
      subst heq
      exact ⟨es, rfl, fun x hx => hhead x hx⟩

/-- An odd count: the new block goes on top. -/
theorem Merged.carry_odd {es : List ℕ} (h : Merged es) {i m : ℕ} (hi : ∀ e ∈ es, i ≤ e)
    (hm : weight es + 2 ^ i = (2 * m + 1) * 2 ^ i) : Merged (i :: es) := by
  refine List.pairwise_cons.mpr ⟨fun e he => ?_, h⟩
  rcases Nat.lt_or_eq_of_le (hi e he) with hlt | rfl
  · exact hlt
  · have hbit := (h.testBit_weight i).mpr he
    rw [show weight es = 2 ^ i * (2 * m) by
      have : (2 * m + 1) * 2 ^ i = 2 ^ i * (2 * m) + 2 ^ i := by ring
      omega] at hbit
    rw [Nat.testBit_two_pow_mul] at hbit
    simp at hbit

/-! ### Stacks over leaves -/

variable {α : Type*} [Inhabited α] (op : α → α → α)

/-- `Covers op st es xs`: the entries of `st`, bottom to top, are the values of
the consecutive blocks of `xs` with `2 ^ e` leaves each. -/
inductive Covers : List α → List ℕ → List α → Prop
  | nil : Covers [] [] []
  | push {st : List α} {es : List ℕ} {xs ys : List α} {e : ℕ} (below : Covers st es xs)
      (length_eq : ys.length = 2 ^ e) : Covers (fold op ys :: st) (e :: es) (xs ++ ys)

variable {op}

theorem Covers.length_eq {st : List α} {es : List ℕ} {xs : List α} (h : Covers op st es xs) :
    st.length = es.length := by
  induction h with
  | nil => rfl
  | push _ _ ih => simp [ih]

theorem Covers.length_leaves {st : List α} {es : List ℕ} {xs : List α}
    (h : Covers op st es xs) : xs.length = weight es := by
  induction h with
  | nil => rfl
  | push _ hlen ih => rw [List.length_append, ih, hlen, weight_cons, Nat.add_comm]

/-- The top two entries, when of one size, merge into their parent. -/
theorem Covers.merge {a b : α} {st : List α} {e : ℕ} {es : List ℕ} {xs : List α}
    (h : Covers op (b :: a :: st) (e :: e :: es) xs) :
    Covers op (op a b :: st) ((e + 1) :: es) xs := by
  cases h with
  | push hb hlen =>
      cases hb with
      | @push _ _ xs ys _ ha hlen' =>
          rw [List.append_assoc,
            ← fold_append op hlen' (by rw [hlen]; exact Nat.two_pow_pos e) (by rw [hlen])]
          exact .push ha (by rw [List.length_append, hlen, hlen', Nat.pow_succ]; ring)

/-- A merged stack has one entry for each one bit of the number of leaves. -/
theorem Covers.length_of_merged {st : List α} {es : List ℕ} {xs : List α}
    (h : Covers op st es xs) (hm : Merged es) : st.length = popcount xs.length := by
  rw [h.length_eq, h.length_leaves, hm.popcount_weight]

/-! ### The merge loop -/

variable (op)

/-- Merge the top two entries while more than `target` are left; `short` is
the failure of a pop that finds too few. -/
def mergeLoop {ε : Type*} (short : ε) (target : ℕ) : List α → Except ε (List α)
  | b :: a :: st =>
      if target < st.length + 2 then mergeLoop short target (op a b :: st)
      else .ok (b :: a :: st)
  | st => if target < st.length then .error short else .ok st
termination_by st => st.length

variable {op}

/-- Down to the number of one bits, the loop merges a lazy stack completely. -/
theorem Covers.mergeLoop {ε : Type*} (short : ε) {st : List α} {es : List ℕ} {xs : List α}
    (h : Covers op st es xs) (hlazy : Lazy es) :
    ∃ st' es', mergeLoop op short (popcount xs.length) st = .ok st' ∧
      Covers op st' es' xs ∧ Merged es' := by
  induction hlen : st.length using Nat.strong_induction_on generalizing st es with
  | _ n ih =>
    have hle := hlazy.popcount_le
    rw [← h.length_leaves, ← h.length_eq] at hle
    match st, es, h.length_eq with
    | [], [], _ =>
        refine ⟨[], [], ?_, h, .nil⟩
        rw [CarryStack.mergeLoop, if_neg (by simp)]
        simp
    | [v], [e], _ =>
        have hm : Merged [e] := List.pairwise_singleton _ _
        refine ⟨[v], [e], ?_, h, hm⟩
        rw [CarryStack.mergeLoop, if_neg (by rw [← h.length_of_merged hm]; exact lt_irrefl _)]
        simp
    | b :: a :: st, e :: e' :: es, _ =>
        rcases hlazy.merged_or with hm | rfl
        · refine ⟨_, _, ?_, h, hm⟩
          rw [CarryStack.mergeLoop, if_neg]
          have := h.length_of_merged hm
          simp only [List.length_cons] at this
          omega
        · have hlt := hlazy.popcount_lt
          rw [← h.length_leaves] at hlt
          have heq := h.length_eq
          simp only [List.length_cons] at heq hlen
          rw [CarryStack.mergeLoop, if_pos (by omega)]
          exact ih _ (by simp only [List.length_cons]; omega) h.merge hlazy.merge rfl

omit [Inhabited α] in
/-- A stack that is already merged is left alone. -/
theorem mergeLoop_of_length {ε : Type*} (short : ε) {target : ℕ} {st : List α}
    (h : st.length ≤ target) : mergeLoop op short target st = .ok st := by
  match st with
  | [] => rw [mergeLoop, if_neg (by simp)]; simp
  | [v] => rw [mergeLoop, if_neg (by simp only [List.length_cons] at h ⊢; omega)]; simp
  | b :: a :: st => rw [mergeLoop, if_neg (by simp only [List.length_cons] at h; omega)]

/-! ### Adding blocks

A lazy counter merges what is on the stack just before it pushes. A block may
also be pushed as two halves, which are left unmerged. -/

theorem Covers.push_block {ε : Type*} (short : ε) {st : List α} {es : List ℕ} {xs ys : List α}
    {j : ℕ} (h : Covers op st es xs) (hlazy : Lazy es) (hys : ys.length = 2 ^ j)
    (hdvd : 2 ^ j ∣ xs.length) :
    ∃ st' es', CarryStack.mergeLoop op short (popcount xs.length) st = .ok st' ∧
      st'.length = popcount xs.length ∧ Merged es' ∧ weight es' = xs.length ∧
      Covers op (fold op ys :: st') (j :: es') (xs ++ ys) ∧ Lazy (j :: es') := by
  obtain ⟨st', es', hrun, hcov, hm⟩ := h.mergeLoop short hlazy
  have hweight := hcov.length_leaves
  exact ⟨st', es', hrun, hcov.length_of_merged hm, hm, hweight.symm, .push hcov hys,
    hm.lazy_push (hweight ▸ hdvd)⟩

theorem Covers.push_halves {ε : Type*} (short : ε) {st : List α} {es : List ℕ}
    {xs : List α} {j : ℕ} (h : Covers op st es xs) (hlazy : Lazy es) {ys zs : List α}
    (hys : ys.length = 2 ^ j) (hzs : zs.length = 2 ^ j) (hdvd : 2 ^ (j + 1) ∣ xs.length) :
    ∃ st' es', CarryStack.mergeLoop op short (popcount xs.length) st = .ok st' ∧
      st'.length = popcount xs.length ∧
      (fold op ys :: st').length = popcount (xs.length + 2 ^ j) ∧
      Covers op (fold op zs :: fold op ys :: st') (j :: j :: es') (xs ++ ys ++ zs) ∧
      Lazy (j :: j :: es') := by
  obtain ⟨st', es', hrun, hlen, hm, hweight, hcov, -⟩ :=
    h.push_block short hlazy hys ((Nat.pow_dvd_pow 2 (Nat.le_succ j)).trans hdvd)
  -- the halves are smaller than everything below them
  have hmerged : Merged (j :: es') :=
    List.pairwise_cons.mpr ⟨fun e he => hm.le_of_dvd (hweight.symm ▸ hdvd) e he, hm⟩
  refine ⟨st', es', hrun, hlen, ?_, .push hcov hzs, hmerged, ?_⟩
  · rw [hcov.length_of_merged hmerged, List.length_append, hys]
  · intro e he
    rcases List.mem_cons.mp he with rfl | he
    · exact le_rfl
    · exact ((List.pairwise_cons.mp hmerged).1 e he).le

/-! ### Rolling up the right edge -/

section Rollup

variable {ν : Type*} (join : α → α → ν) (cv : ν → α)

/-- `o` is the root of the tree over `ys`, before its value is taken. -/
structure RootOf (o : ν) (ys : List α) : Prop where
  value : cv o = fold (fun a b => cv (join a b)) ys
  node : 2 ≤ ys.length → o = join (top (fun a b => cv (join a b)) ys).1
    (top (fun a b => cv (join a b)) ys).2

variable {join cv}

/-- A left sibling that is a full block makes the next root. -/
theorem RootOf.join_left {o : ν} {ys zs : List α} {k : ℕ} (h : RootOf join cv o ys)
    (hzs : zs.length = 2 ^ k) (hpos : 0 < ys.length) (hle : ys.length ≤ 2 ^ k) :
    RootOf join cv (join (fold (fun a b => cv (join a b)) zs) (cv o)) (zs ++ ys) := by
  refine ⟨?_, fun _ => ?_⟩
  · rw [fold_append _ hzs hpos hle, h.value]
  · rw [top_append _ hzs hpos hle, h.value]

/-- Taking every entry of a merged stack, top first, as the left sibling of
the running root gives the root of the tree over all leaves. -/
theorem Covers.rootOf {st : List α} {es : List ℕ} {xs ys : List α} {o : ν}
    (h : Covers (fun a b => cv (join a b)) st es xs) (hm : Merged es)
    (ho : RootOf join cv o ys) (hpos : 0 < ys.length) (hle : ∀ e ∈ es, ys.length ≤ 2 ^ e) :
    RootOf join cv (st.foldl (fun acc v => join v (cv acc)) o) (xs ++ ys) := by
  induction h generalizing o ys with
  | nil => simpa using ho
  | @push st es xs zs e _ hlen ih =>
      obtain ⟨hhead, htail⟩ := List.pairwise_cons.mp hm
      have hys : ys.length ≤ 2 ^ e := hle e (by simp)
      rw [List.foldl_cons, List.append_assoc]
      refine ih htail (ho.join_left hlen hpos hys) ?_ fun e' he' => ?_
      · rw [List.length_append]; omega
      · have hpow : 2 ^ (e + 1) ≤ 2 ^ e' := Nat.pow_le_pow_right (by omega) (hhead e' he')
        rw [List.length_append, hlen]
        rw [Nat.pow_succ] at hpow
        omega

/-- The same for a lazy stack of two entries or more: the top two make the
first root. -/
theorem Covers.rootOf_lazy {a b : α} {st : List α} {es : List ℕ} {xs : List α}
    (h : Covers (fun a b => cv (join a b)) (b :: a :: st) es xs) (hlazy : Lazy es) :
    RootOf join cv (st.foldl (fun acc v => join v (cv acc)) (join a b)) xs := by
  cases h with
  | @push _ _ xs ys e hb hlen =>
      have hys : ys.length ≤ 2 ^ e := hlen.le
      cases hb with
      | @push _ es' xs zs e' ha hlen' =>
          obtain ⟨hhead, htail⟩ := List.pairwise_cons.mp hlazy.1
          have hee' : 2 ^ e ≤ 2 ^ e' := Nat.pow_le_pow_right (by omega) (hlazy.2 e' (by simp))
          have hpos : 0 < ys.length := by rw [hlen]; exact Nat.two_pow_pos e
          have hroot : RootOf join cv (join (fold (fun a b => cv (join a b)) zs)
              (fold (fun a b => cv (join a b)) ys)) (zs ++ ys) := by
            refine ⟨?_, fun _ => ?_⟩
            · rw [fold_append _ hlen' hpos (by omega)]
            · rw [top_append _ hlen' hpos (by omega)]
          rw [List.append_assoc]
          refine ha.rootOf htail hroot ?_ fun x hx => ?_
          · rw [List.length_append]; omega
          · have hpow : 2 ^ (e' + 1) ≤ 2 ^ x := Nat.pow_le_pow_right (by omega) (hhead x hx)
            rw [List.length_append]
            rw [Nat.pow_succ] at hpow
            omega

end Rollup

end CarryStack
