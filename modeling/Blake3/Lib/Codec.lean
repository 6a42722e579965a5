import Mathlib.Data.List.Basic

/-!
Readers of bytes behind a cursor. A reader takes a value off the front of what
is left and fails when the bytes run out. It inverts a writer when it accepts
what the writer writes and nothing else.
-/

namespace Codec

variable {ε α β : Type}

/-- A reader gives the value and the bytes behind it. -/
abbrev Reader (ε α : Type) := StateT (List UInt8) (Except ε) α

/-- One byte, `e` being the error when there is none. -/
def byte (e : ε) : Reader ε UInt8
  | [] => .error e
  | b :: bytes => .ok (b, bytes)

/-- `n` values, one behind the other. -/
def vector (get : Reader ε α) : (n : ℕ) → Reader ε (Vector α n)
  | 0 => pure #v[]
  | n + 1 => do
      let values ← vector get n
      let value ← get
      pure (values.push value)

theorem bind_eq_ok_iff {x : Reader ε α} {f : α → Reader ε β} {bytes rest : List UInt8} {b : β} :
    (x >>= f) bytes = .ok (b, rest) ↔
      ∃ a mid, x bytes = .ok (a, mid) ∧ f a mid = .ok (b, rest) := by
  change (x bytes >>= fun s => f s.1 s.2) = .ok (b, rest) ↔ _
  cases x bytes with
  | error e => simp [bind, Except.bind]
  | ok s =>
      obtain ⟨a, mid⟩ := s
      simp [bind, Except.bind]

theorem pure_eq_ok_iff {a b : α} {bytes rest : List UInt8} :
    (pure a : Reader ε α) bytes = .ok (b, rest) ↔ a = b ∧ bytes = rest := by
  change (Except.ok (a, bytes) : Except ε _) = .ok (b, rest) ↔ _
  rw [Except.ok.injEq, Prod.mk.injEq]

/-! ### Readers and writers -/

/-- `get` accepts what `put` writes, and nothing else. -/
def Inverts (get : Reader ε α) (put : α → List UInt8) : Prop :=
  ∀ bytes a rest, get bytes = .ok (a, rest) ↔ bytes = put a ++ rest

theorem Inverts.get_put {get : Reader ε α} {put : α → List UInt8} (h : Inverts get put) (a : α)
    (rest : List UInt8) : get (put a ++ rest) = .ok (a, rest) := (h _ a rest).mpr rfl

theorem inverts_byte (e : ε) : Inverts (byte e) fun b => [b] := by
  intro bytes b rest
  cases bytes with
  | nil => simp [byte]
  | cons c bytes => simp [byte]

theorem Inverts.vector {get : Reader ε α} {put : α → List UInt8} (h : Inverts get put) (n : ℕ) :
    Inverts (Codec.vector get n) fun values => values.toList.flatMap put := by
  induction n with
  | zero =>
      intro bytes values rest
      obtain rfl : values = #v[] := Vector.eq_empty
      rw [Codec.vector, pure_eq_ok_iff]
      simp
  | succ n ih =>
      intro bytes values rest
      simp only [Codec.vector, bind_eq_ok_iff, pure_eq_ok_iff, ih _ _ _, h _ _ _]
      constructor
      · rintro ⟨front, _, rfl, last, _, rfl, rfl, rfl⟩
        rw [Vector.toList_push, List.flatMap_append, List.flatMap_singleton, List.append_assoc]
      · rintro rfl
        obtain ⟨front, last, rfl⟩ : ∃ front last, values = Vector.push front last :=
          ⟨values.pop, values.back, (Vector.push_pop_back values).symm⟩
        refine ⟨front, put last ++ rest, ?_, last, rest, rfl, rfl, rfl⟩
        rw [Vector.toList_push, List.flatMap_append, List.flatMap_singleton, List.append_assoc]

theorem Inverts.vector_of_length {get : Reader ε α} {put : α → List UInt8} (h : Inverts get put)
    {n : ℕ} {values : List α} (hlength : values.length = n) (rest : List UInt8) :
    ∃ v : Vector α n, v.toList = values ∧
      Codec.vector get n (values.flatMap put ++ rest) = .ok (v, rest) := by
  subst hlength
  exact ⟨⟨values.toArray, List.size_toArray⟩, rfl, (h.vector _).get_put ⟨values.toArray, _⟩ rest⟩

/-! ### Writers of a fixed size -/

section FixedSize

variable {put : α → List UInt8} {k : ℕ} (h : ∀ a, (put a).length = k)

include h

theorem length_flatMap (as : List α) : (as.flatMap put).length = as.length * k := by
  induction as with
  | nil => rw [List.flatMap_nil, List.length_nil, List.length_nil, Nat.zero_mul]
  | cons a as ih =>
      rw [List.flatMap_cons, List.length_append, h, ih, List.length_cons, Nat.succ_mul,
        Nat.add_comm]

theorem drop_flatMap (as : List α) (i : ℕ) :
    (as.flatMap put).drop (k * i) = (as.drop i).flatMap put := by
  induction i generalizing as with
  | zero => rfl
  | succ i ih =>
      cases as with
      | nil => simp
      | cons a as =>
          rw [List.flatMap_cons, List.drop_succ_cons, ← ih, Nat.mul_succ, Nat.add_comm,
            ← List.drop_drop, List.drop_left' (h a)]

/-- Values of a fixed size are told apart one by one. -/
theorem flatMap_inj (hinj : ∀ a b, put a = put b → a = b) {as bs : List α}
    (hlength : as.length = bs.length) (heq : as.flatMap put = bs.flatMap put) : as = bs := by
  induction as generalizing bs with
  | nil => exact (List.length_eq_zero_iff.mp hlength.symm).symm
  | cons a as ih =>
      obtain ⟨b, bs, rfl⟩ := List.exists_cons_of_length_eq_add_one hlength.symm
      rw [List.flatMap_cons, List.flatMap_cons] at heq
      obtain ⟨ha, has⟩ := List.append_inj heq ((h a).trans (h b).symm)
      rw [hinj a b ha, ih (Nat.succ.inj hlength) has]

end FixedSize

/-! ### Readers of a fixed size -/

/-- `get` reads `n` bytes whatever they are, if there are as many. -/
def Takes (get : Reader ε α) (n : ℕ) : Prop :=
  ∀ bytes, n ≤ bytes.length → ∃ a, get bytes = .ok (a, bytes.drop n)

theorem takes_byte (e : ε) : Takes (byte e) 1 := by
  intro bytes h
  cases bytes with
  | nil => simp at h
  | cons b bytes => exact ⟨b, rfl⟩

theorem takes_pure (a : α) : Takes (pure a : Reader ε α) 0 := fun _ _ => ⟨a, rfl⟩

theorem Takes.bind {x : Reader ε α} {f : α → Reader ε β} {m n : ℕ} (hx : Takes x m)
    (hf : ∀ a, Takes (f a) n) : Takes (x >>= f) (m + n) := by
  intro bytes hbytes
  obtain ⟨a, ha⟩ := hx bytes (by omega)
  obtain ⟨b, hb⟩ := hf a (bytes.drop m) (by rw [List.length_drop]; omega)
  refine ⟨b, bind_eq_ok_iff.mpr ⟨a, _, ha, ?_⟩⟩
  rw [hb, List.drop_drop]

theorem Takes.vector {get : Reader ε α} {k : ℕ} (h : Takes get k) (n : ℕ) :
    Takes (Codec.vector get n) (n * k) := by
  induction n with
  | zero =>
      rw [Nat.zero_mul]
      exact takes_pure _
  | succ n ih =>
      rw [Nat.succ_mul]
      exact ih.bind fun values => h.bind fun value => takes_pure (values.push value)

end Codec
