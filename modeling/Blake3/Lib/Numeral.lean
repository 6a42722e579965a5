import Mathlib.Data.Nat.Digits.Lemmas

/-!
Numbers written in a base. A list of digits has the lowest first; a text has the highest
first, and every letter stands for its place in the alphabet.
-/

namespace Numeral

/-- What a list of digits is to be as a number: no leading zero, but one digit for zero. -/
structure Canonical (base n : ℕ) (ds : List ℕ) : Prop where
  lt : ∀ d ∈ ds, d < base
  value : Nat.ofDigits base ds = n
  zero : n = 0 → ds = [0]
  lead : n ≠ 0 → ds.getLast? ≠ some 0

def digitsOf (base n : ℕ) : List ℕ := if n = 0 then [0] else Nat.digits base n

theorem digitsOf_zero (base : ℕ) : digitsOf base 0 = [0] := if_pos rfl

theorem digitsOf_of_ne_zero (base : ℕ) {n : ℕ} (h : n ≠ 0) : digitsOf base n = Nat.digits base n :=
  if_neg h

theorem canonical_digitsOf {base : ℕ} (hbase : 1 < base) (n : ℕ) :
    Canonical base n (digitsOf base n) := by
  by_cases h : n = 0
  · subst h
    rw [digitsOf_zero]
    exact ⟨fun d hd => by rw [List.mem_singleton.mp hd]; omega, Nat.ofDigits_singleton,
      fun _ => rfl, fun hne => absurd rfl hne⟩
  · rw [digitsOf_of_ne_zero base h]
    refine ⟨fun d => Nat.digits_lt_base hbase, Nat.ofDigits_digits base n,
      fun hz => absurd hz h, fun _ hlast => ?_⟩
    rw [List.getLast?_eq_some_getLast (Nat.digits_ne_nil_iff_ne_zero.mpr h)] at hlast
    exact Nat.getLast_digit_ne_zero base h (Option.some.inj hlast)

theorem Canonical.ne_nil {base n : ℕ} {ds : List ℕ} (h : Canonical base n ds) : ds ≠ [] := by
  rintro rfl
  exact List.cons_ne_nil 0 [] (h.zero h.value.symm).symm

theorem length_digitsOf_le {base k n : ℕ} (hbase : 1 < base) (hk : 0 < k) (h : n < base ^ k) :
    (digitsOf base n).length ≤ k := by
  rw [digitsOf]
  split_ifs
  · exact hk
  · exact (Nat.digits_length_le_iff hbase n).mpr h

/-- The library's own texts have these digits. -/
theorem toDigits_eq {base : ℕ} (hbase : 1 < base) (n : ℕ) :
    Nat.toDigits base n = (digitsOf base n).reverse.map Nat.digitChar := by
  induction n using Nat.strong_induction_on with
  | _ n ih =>
  by_cases hlt : n < base
  · have hone : digitsOf base n = [n] := by
      by_cases h : n = 0
      · rw [h, digitsOf_zero]
      · rw [digitsOf_of_ne_zero base h, Nat.digits_of_lt base n h hlt]
    rw [Nat.toDigits_of_lt_base hlt, hone]
    rfl
  · have hn : 0 < n := by omega
    have hquot : 0 < n / base := Nat.div_pos (by omega) (by omega)
    rw [Nat.toDigits_of_base_le hbase (by omega), ih _ (Nat.div_lt_self hn hbase),
      digitsOf_of_ne_zero base hn.ne', digitsOf_of_ne_zero base hquot.ne',
      Nat.digits_def' hbase hn, List.reverse_cons, List.map_append]
    rfl

/-! ### Reading -/

/-- The rule of Horner, from the highest digit. -/
def horner (base : ℕ) (ds : List ℕ) : ℕ := ds.foldl (fun n d => n * base + d) 0

theorem horner_reverse (base : ℕ) (ds : List ℕ) :
    horner base ds.reverse = Nat.ofDigits base ds := by
  rw [horner, List.foldl_reverse]
  induction ds with
  | nil => rfl
  | cons d ds ih =>
      rw [List.foldr_cons, ih, Nat.ofDigits_cons]
      ring

/-- What digits mean in a base, if they are digits of it. -/
def weigh (base : ℕ) (ds : List ℕ) : Option ℕ :=
  if ds ≠ [] ∧ ds.all (· < base) = true then some (horner base ds) else none

theorem Canonical.weigh {base n : ℕ} {ds : List ℕ} (h : Canonical base n ds) :
    weigh base ds.reverse = some n := by
  have hall : ds.reverse.all (· < base) = true := by
    rw [List.all_reverse, List.all_eq_true]
    exact fun d hd => decide_eq_true (h.lt d hd)
  rw [Numeral.weigh, if_pos ⟨fun hnil => h.ne_nil (List.reverse_eq_nil_iff.mp hnil), hall⟩,
    horner_reverse, h.value]

theorem mapM_map {α β : Type*} {f : α → β} {g : β → Option α} {xs : List α}
    (h : ∀ x ∈ xs, g (f x) = some x) : (xs.map f).mapM g = some xs := by
  induction xs with
  | nil => rfl
  | cons x xs ih =>
      rw [List.map_cons, List.mapM_cons, h x List.mem_cons_self,
        ih fun y hy => h y (List.mem_cons_of_mem x hy)]
      rfl

section

variable {α : Type*} [DecidableEq α] (alphabet : List α)

/-- One letter for a digit. -/
def read (base : ℕ) (text : List α) : Option ℕ :=
  (text.mapM fun c => alphabet.idxOf? c).bind (weigh base)

/-- Decimals with a separator between them, one for a digit. -/
def readList (sep : α) (base : ℕ) (text : List α) : Option ℕ :=
  ((text.splitOn sep).mapM (read alphabet 10)).bind (weigh base)

variable {alphabet}

theorem idxOf_getElem (hnodup : alphabet.Nodup) {c : α} {d : ℕ} (h : alphabet[d]? = some c) :
    alphabet.idxOf? c = some d := by
  obtain ⟨hd, rfl⟩ := List.getElem?_eq_some_iff.mp h
  refine List.idxOf?_eq_some_iff.mpr ⟨hd, rfl, fun j hj heq => ?_⟩
  exact hj.ne ((hnodup.getElem_inj_iff).mp heq)

theorem read_map {base : ℕ} {letter : ℕ → α} {ds : List ℕ}
    (h : ∀ d ∈ ds, alphabet.idxOf? (letter d) = some d) :
    read alphabet base (ds.map letter) = weigh base ds := by
  rw [read, mapM_map h, Option.bind_some]

theorem readList_intercalate {sep : α} {base : ℕ} {write : ℕ → List α} {ds : List ℕ}
    (hread : ∀ d ∈ ds, read alphabet 10 (write d) = some d) (hsep : ∀ d ∈ ds, sep ∉ write d)
    (hne : ds ≠ []) :
    readList alphabet sep base ([sep].intercalate (ds.map write)) = weigh base ds := by
  have hfree : ∀ text ∈ ds.map write, sep ∉ text := by
    intro text htext
    obtain ⟨d, hd, rfl⟩ := List.mem_map.mp htext
    exact hsep d hd
  rw [readList, List.splitOn_intercalate sep hfree (by simpa using hne), mapM_map hread,
    Option.bind_some]

end

end Numeral
