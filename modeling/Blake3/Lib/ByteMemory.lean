import Blake3.Lib.LittleEndian
import Mathlib.Data.List.GetD
import Mathlib.Data.List.TakeDrop

/-!
Memory as a byte for each address, in runs of bytes and in words of either byte order.
A run may be written piece by piece, upwards or downwards.
-/

namespace ByteMemory

/-- The byte at each address. -/
abbrev Mem := ℕ → UInt8

variable {m : Mem} {p q n k : ℕ} {xs ys bytes : List UInt8}

def load (m : Mem) (p n : ℕ) : List UInt8 := (List.range n).map fun i => m (p + i)

def store (m : Mem) (p : ℕ) (bytes : List UInt8) : Mem := fun a =>
  if p ≤ a ∧ a < p + bytes.length then bytes.getD (a - p) 0 else m a

@[simp] theorem length_load (m : Mem) (p n : ℕ) : (load m p n).length = n := by
  simp [load]

theorem getD_load {i : ℕ} (hi : i < n) : (load m p n).getD i 0 = m (p + i) := by
  simp [load, List.getD, hi]

theorem store_apply_lt {i : ℕ} (hi : i < bytes.length) :
    store m p bytes (p + i) = bytes.getD i 0 := by
  rw [store, if_pos (by omega), Nat.add_sub_cancel_left]

theorem store_apply_of_not {a : ℕ} (ha : a < p ∨ p + bytes.length ≤ a) : store m p bytes a = m a :=
  if_neg (by omega)

@[simp] theorem store_nil : store m p [] = m := by
  funext a
  exact store_apply_of_not (by rw [List.length_nil]; omega)

theorem store_singleton (b : UInt8) : store m p [b] = Function.update m p b := by
  funext a
  by_cases ha : a = p
  · subst ha
    simp [store]
  · rw [Function.update_of_ne ha]
    exact store_apply_of_not (by rw [List.length_singleton]; omega)

theorem store_append : store (store m p xs) (p + xs.length) ys = store m p (xs ++ ys) := by
  funext a
  simp only [store, List.length_append]
  by_cases hlow : p + xs.length ≤ a
  · by_cases hhigh : a < p + xs.length + ys.length
    · rw [if_pos ⟨hlow, hhigh⟩, if_pos (by omega), List.getD_append_right _ _ _ _ (by omega)]
      congr 1
      omega
    · rw [if_neg (by omega), if_neg (by omega), if_neg (by omega)]
  · rw [if_neg (by omega)]
    by_cases hp : p ≤ a
    · rw [if_pos (by omega), if_pos (by omega), List.getD_append _ _ _ _ (by omega)]
    · rw [if_neg (by omega), if_neg (by omega)]

/-- A byte in front of what has been written. -/
theorem store_cons (b : UInt8) : store (store m (p + 1) ys) p [b] = store m p (b :: ys) := by
  funext a
  by_cases ha : a = p
  · subst ha
    simp [store]
  · rw [store_apply_of_not (by rw [List.length_singleton]; omega)]
    simp only [store, List.length_cons]
    by_cases hin : p + 1 ≤ a ∧ a < p + 1 + ys.length
    · obtain ⟨i, rfl⟩ : ∃ i, a = p + 1 + i := ⟨a - (p + 1), by omega⟩
      rw [if_pos hin, if_pos (by omega), Nat.add_sub_cancel_left,
        show p + 1 + i - p = i + 1 by omega, List.getD_cons_succ]
    · rw [if_neg hin, if_neg (by omega)]

/-- What is stored elsewhere does not change what is loaded. -/
theorem load_store (h : p + n ≤ q ∨ q + bytes.length ≤ p) :
    load (store m q bytes) p n = load m p n := by
  refine List.map_congr_left fun i hi => store_apply_of_not ?_
  rw [List.mem_range] at hi
  omega

theorem load_drop_take (h : k + n ≤ q) : ((load m p q).drop k).take n = load m (p + k) n := by
  refine List.ext_getElem (by simp; omega) fun i hi hi' => ?_
  simp [load, Nat.add_assoc]

/-! ### Words -/

/-- The order of the bytes of a word. -/
inductive Order where
  | little
  | big
  deriving DecidableEq, Repr

/-- The `n` bytes of a word, from its address on. -/
def Order.encode (order : Order) (n v : ℕ) : List UInt8 :=
  match order with
  | .little => LittleEndian.toBytes n v
  | .big => (LittleEndian.toBytes n v).reverse

def Order.decode (order : Order) (bytes : List UInt8) : ℕ :=
  match order with
  | .little => LittleEndian.ofBytes bytes
  | .big => LittleEndian.ofBytes bytes.reverse

theorem Order.encode_decode (order : Order) (h : bytes.length = n) :
    order.encode n (order.decode bytes) = bytes := by
  cases order with
  | little => exact LittleEndian.toBytes_ofBytes_of_length h
  | big =>
      rw [Order.encode, Order.decode,
        LittleEndian.toBytes_ofBytes_of_length (by rwa [List.length_reverse]), List.reverse_reverse]

/-- A word whose bytes are all the same is the same in both orders. -/
theorem Order.encode_replicate (order : Order) (n : ℕ) (b : UInt8) :
    order.encode n (LittleEndian.ofBytes (List.replicate n b)) = List.replicate n b := by
  have hbytes := LittleEndian.toBytes_ofBytes_of_length (@List.length_replicate _ n b)
  cases order with
  | little => exact hbytes
  | big => rw [Order.encode, hbytes, List.reverse_replicate]

/-- The word that is twice as wide. -/
theorem ofBytes_replicate_add (n : ℕ) (b : UInt8) :
    LittleEndian.ofBytes (List.replicate n b) |||
        LittleEndian.ofBytes (List.replicate n b) <<< (8 * n) =
      LittleEndian.ofBytes (List.replicate (n + n) b) := by
  have hpow : 256 ^ n = 2 ^ (8 * n) := (pow_mul 2 8 n).symm
  have hlt := LittleEndian.ofBytes_lt (List.replicate n b)
  rw [List.length_replicate, hpow] at hlt
  rw [Nat.or_comm, ← Nat.shiftLeft_add_eq_or_of_lt hlt, List.replicate_add,
    LittleEndian.ofBytes_append, List.length_replicate, Nat.shiftLeft_eq, Nat.add_comm,
    Nat.mul_comm _ (2 ^ (8 * n)), hpow]

/-! ### Piece by piece -/

/-- One more piece of a run. -/
theorem store_take (h : k ≤ bytes.length) :
    store (store m p (bytes.take k)) (p + k) ((bytes.drop k).take n) =
      store m p (bytes.take (k + n)) := by
  have hlength : (bytes.take k).length = k := List.length_take_of_le h
  rw [List.take_add, ← store_append, hlength]

/-- Pieces of `k` bytes, upwards. -/
theorem foldlM_store {write : Mem → ℕ → Option Mem} {pieces : ℕ} (hlen : k * pieces ≤ bytes.length)
    (hwrite : ∀ i < pieces, write (store m p (bytes.take (k * i))) i =
      some (store (store m p (bytes.take (k * i))) (p + k * i) ((bytes.drop (k * i)).take k))) :
    (List.range pieces).foldlM write m = some (store m p (bytes.take (k * pieces))) := by
  induction pieces with
  | zero => simp
  | succ i ih =>
      have hle : k * i ≤ k * (i + 1) := Nat.mul_le_mul_left k i.le_succ
      rw [List.range_succ, List.foldlM_append, ih (by omega) fun j hj => hwrite j (by omega)]
      change (List.foldlM write _ [i] : Option Mem) = _
      rw [List.foldlM_cons, hwrite i i.lt_succ_self, store_take (by omega)]
      rfl

/-- Single bytes, upwards from the `k`-th one on. -/
theorem foldl_store {write : Mem → ℕ → Mem} (hlen : k + n ≤ bytes.length)
    (hwrite : ∀ i < k + n, write (store m p (bytes.take i)) i =
      Function.update (store m p (bytes.take i)) (p + i) (bytes.getD i 0)) :
    (List.range' k n).foldl write (store m p (bytes.take k)) =
      store m p (bytes.take (k + n)) := by
  induction n with
  | zero => rfl
  | succ n ih =>
      have hlt : k + n < bytes.length := by omega
      have hpiece : (bytes.drop (k + n)).take 1 = [bytes.getD (k + n) 0] := by
        rw [List.drop_eq_getElem_cons hlt, List.take_succ_cons, List.take_zero,
          List.getD_eq_getElem _ _ hlt]
      rw [List.range'_concat, List.foldl_append, ih (by omega) fun i hi => hwrite i (by omega),
        List.foldl_cons, List.foldl_nil, Nat.one_mul, hwrite (k + n) (by omega), ← store_singleton,
        ← hpiece, store_take (by omega), Nat.add_assoc]

/-- Single bytes, downwards. -/
theorem foldl_store_reverse {write : Mem → ℕ → Mem} (hlen : n ≤ bytes.length)
    (hwrite : ∀ i < n, write (store m (p + (i + 1)) (bytes.drop (i + 1))) i =
      Function.update (store m (p + (i + 1)) (bytes.drop (i + 1))) (p + i) (bytes.getD i 0)) :
    (List.range n).reverse.foldl write (store m (p + n) (bytes.drop n)) = store m p bytes := by
  induction n with
  | zero => rfl
  | succ n ih =>
      have hlt : n < bytes.length := by omega
      rw [List.range_succ, List.reverse_append, List.reverse_singleton, List.singleton_append,
        List.foldl_cons, hwrite n n.lt_succ_self, ← store_singleton, ← Nat.add_assoc, store_cons,
        List.getD_eq_getElem _ _ hlt, ← List.drop_eq_getElem_cons hlt]
      exact ih (by omega) fun i hi => hwrite i (by omega)

end ByteMemory
