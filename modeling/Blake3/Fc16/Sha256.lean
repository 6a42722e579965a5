import Blake3.Fault
import Blake3.Words
import Mathlib.Data.List.FinRange

/-!
The SHA-256 of `rmr_fc16_sha256.c`. Bytes are stored one at a time into a buffer
of 64; a store behind its end is a fault.
-/

namespace Blake3.Fc16

scoped instance neZeroEight : NeZero 8 := ⟨by decide⟩

scoped instance neZeroSixteen : NeZero 16 := ⟨by decide⟩

def k256 : Vector Word 64 := #v[
  0x428a2f98, 0x71374491, 0xb5c0fbcf, 0xe9b5dba5, 0x3956c25b, 0x59f111f1, 0x923f82a4, 0xab1c5ed5,
  0xd807aa98, 0x12835b01, 0x243185be, 0x550c7dc3, 0x72be5d74, 0x80deb1fe, 0x9bdc06a7, 0xc19bf174,
  0xe49b69c1, 0xefbe4786, 0x0fc19dc6, 0x240ca1cc, 0x2de92c6f, 0x4a7484aa, 0x5cb0a9dc, 0x76f988da,
  0x983e5152, 0xa831c66d, 0xb00327c8, 0xbf597fc7, 0xc6e00bf3, 0xd5a79147, 0x06ca6351, 0x14292967,
  0x27b70a85, 0x2e1b2138, 0x4d2c6dfc, 0x53380d13, 0x650a7354, 0x766a0abb, 0x81c2c92e, 0x92722c85,
  0xa2bfe8a1, 0xa81a664b, 0xc24b8b70, 0xc76c51a3, 0xd192e819, 0xd6990624, 0xf40e3585, 0x106aa070,
  0x19a4c116, 0x1e376c08, 0x2748774c, 0x34b0bcb5, 0x391c0cb3, 0x4ed8aa4a, 0x5b9cca4f, 0x682e6ff3,
  0x748f82ee, 0x78a5636f, 0x84c87814, 0x8cc70208, 0x90befffa, 0xa4506ceb, 0xbef9a3f7, 0xc67178f2]

def ror32 (x n : Word) : Word := (x >>> n) ||| (x <<< (32 - n))
def ch (x y z : Word) : Word := (x &&& y) ^^^ (~~~x &&& z)
def maj (x y z : Word) : Word := (x &&& y) ^^^ (x &&& z) ^^^ (y &&& z)
def e0 (x : Word) : Word := ror32 x 2 ^^^ ror32 x 13 ^^^ ror32 x 22
def e1 (x : Word) : Word := ror32 x 6 ^^^ ror32 x 11 ^^^ ror32 x 25
def s0 (x : Word) : Word := ror32 x 7 ^^^ ror32 x 18 ^^^ (x >>> 3)
def s1 (x : Word) : Word := ror32 x 17 ^^^ ror32 x 19 ^^^ (x >>> 10)

/-- The words `w[i]`, the first sixteen of them big-endian words of the block. -/
def schedule (b : Block) : List Word :=
  let first := (List.finRange 16).map fun i =>
    ((b[4 * i.val]).toUInt32 <<< 24) ||| ((b[4 * i.val + 1]).toUInt32 <<< 16) |||
      ((b[4 * i.val + 2]).toUInt32 <<< 8) ||| (b[4 * i.val + 3]).toUInt32
  (List.range' 16 48).foldl (fun w i =>
    w ++ [s1 (w.getD (i - 2) 0) + w.getD (i - 7) 0 + s0 (w.getD (i - 15) 0) + w.getD (i - 16) 0])
    first

/-- One round on the eight working variables. -/
def round (v : Vector Word 8) (k w : Word) : Vector Word 8 :=
  let t1 := v.get 7 + e1 (v.get 4) + ch (v.get 4) (v.get 5) (v.get 6) + k + w
  let t2 := e0 (v.get 0) + maj (v.get 0) (v.get 1) (v.get 2)
  #v[t1 + t2, v.get 0, v.get 1, v.get 2, v.get 3 + t1, v.get 4, v.get 5, v.get 6]

/-- The chaining value behind a block. -/
def block (h : Vector Word 8) (b : Block) : Vector Word 8 :=
  h.zipWith (· + ·) ((k256.toList.zip (schedule b)).foldl (fun v (k, w) => round v k w) h)

structure Sha256Ctx where
  h : Vector Word 8
  bitLen : UInt64
  buffer : Block
  bufferLen : ℕ

namespace Sha256Ctx

def initialWords : Array Word := #[
  0x6a09e667, 0xbb67ae85, 0x3c6ef372, 0xa54ff53a, 0x510e527f, 0x9b05688c, 0x1f83d9ab, 0x5be0cd19]

/-- `rmr_fc16_sha256_init`, the rest of the context being zero. -/
def init : Sha256Ctx where
  h := ⟨initialWords, rfl⟩
  bitLen := 0
  buffer := Vector.replicate 64 0
  bufferLen := 0

/-- `c->buffer[c->buffer_len++] = b`. -/
def put (c : Sha256Ctx) (b : Byte) : Result Sha256Ctx :=
  if h : c.bufferLen < 64 then
    .ok { c with buffer := c.buffer.set c.bufferLen b h, bufferLen := c.bufferLen + 1 }
  else .error .outOfBounds

/-- A full buffer is compressed and emptied. -/
def flush (c : Sha256Ctx) : Sha256Ctx :=
  if c.bufferLen = 64 then { c with h := block c.h c.buffer, bufferLen := 0 } else c

/-- The loop of `rmr_fc16_sha256_update`. -/
def feed : Sha256Ctx → List Byte → Result Sha256Ctx
  | c, [] => .ok c
  | c, b :: p => do
      let c ← c.put b
      feed c.flush p

/-- `c->bit_len += n * 8`. -/
def count (c : Sha256Ctx) (n : ℕ) : Sha256Ctx := { c with bitLen := c.bitLen + UInt64.ofNat n * 8 }

def update (c : Sha256Ctx) (p : List Byte) : Result Sha256Ctx := (c.count p.length).feed p

/-- The stores that are left until a buffer filled to `len` is padded to 56 bytes. -/
def unpadded (len : ℕ) : ℕ := if len ≤ 56 then 56 - len else 120 - len

theorem bufferLen_put {c c' : Sha256Ctx} {b : Byte} (h : c.put b = .ok c') :
    c.bufferLen < 64 ∧ c'.bufferLen = c.bufferLen + 1 := by
  rw [put] at h
  split_ifs at h with hlt
  · obtain rfl := Except.ok.inj h
    exact ⟨hlt, rfl⟩

theorem bufferLen_flush (c : Sha256Ctx) :
    c.flush.bufferLen = if c.bufferLen = 64 then 0 else c.bufferLen := by
  rw [flush]
  split_ifs <;> rfl

theorem unpadded_lt {c c' : Sha256Ctx} {b : Byte} (hne : c.bufferLen ≠ 56)
    (h : c.flush.put b = .ok c') : unpadded c'.bufferLen < unpadded c.bufferLen := by
  obtain ⟨hlt, hlen⟩ := bufferLen_put h
  rw [bufferLen_flush] at hlt hlen
  rw [hlen, unpadded, unpadded]
  split_ifs at * <;> omega

/-- `while (c->buffer_len != 56u)`. -/
def pad (c : Sha256Ctx) : Result Sha256Ctx :=
  if c.bufferLen = 56 then .ok c
  else
    match _ : c.flush.put 0 with
    | .error e => .error e
    | .ok c' => pad c'
termination_by unpadded c.bufferLen
decreasing_by exact unpadded_lt ‹_› ‹_›

/-- Stores without a look at the end of the buffer. -/
def putAll (c : Sha256Ctx) (bytes : List Byte) : Result Sha256Ctx := bytes.foldlM put c

/-- The bytes of a double word, the highest first. -/
def bigEndian64 (v : UInt64) : List Byte :=
  ([56, 48, 40, 32, 24, 16, 8, 0] : List UInt64).map fun i => (v >>> i).toUInt8

def digest (h : Vector Word 8) : Vector Byte 32 :=
  Vector.ofFn fun i => (h[i.val / 4] >>> UInt32.ofNat (24 - 8 * (i.val % 4))).toUInt8

/-- `rmr_fc16_sha256_final`, which leaves the buffer full. -/
def final (c : Sha256Ctx) : Result (Sha256Ctx × Vector Byte 32) := do
  let c ← c.put 0x80
  let c ← c.pad
  let c ← c.putAll (bigEndian64 c.bitLen)
  let h := block c.h c.buffer
  pure ({ c with h := h }, digest h)

/-! ### The buffer -/

theorem put_of_lt {c : Sha256Ctx} (b : Byte) (h : c.bufferLen < 64) :
    ∃ c', c.put b = .ok c' ∧ c'.bufferLen = c.bufferLen + 1 := by
  rw [put, dif_pos h]
  exact ⟨_, rfl, rfl⟩

theorem put_of_full {c : Sha256Ctx} (b : Byte) (h : c.bufferLen = 64) :
    c.put b = .error .outOfBounds := dif_neg (by omega)

/-- A step of the loop leaves room for another byte. -/
theorem bufferLen_flush_lt {c : Sha256Ctx} (h : c.bufferLen ≤ 64) : c.flush.bufferLen < 64 := by
  rw [bufferLen_flush]
  split_ifs <;> omega

theorem feed_of_lt {c : Sha256Ctx} (p : List Byte) (h : c.bufferLen < 64) :
    ∃ c', c.feed p = .ok c' ∧ c'.bufferLen < 64 := by
  induction p generalizing c with
  | nil => exact ⟨c, rfl, h⟩
  | cons b p ih =>
      obtain ⟨c', hput, hlen⟩ := put_of_lt b h
      obtain ⟨c'', hfeed, hlt⟩ := ih (bufferLen_flush_lt (c := c') (by omega))
      refine ⟨c'', ?_, hlt⟩
      rw [feed, hput, Result.ok_bind, hfeed]

theorem feed_append (c : Sha256Ctx) (p q : List Byte) :
    c.feed (p ++ q) = c.feed p >>= fun c => c.feed q := by
  induction p generalizing c with
  | nil => rfl
  | cons b p ih =>
      rw [List.cons_append, feed, feed, bind_assoc]
      exact congrArg _ (funext fun c => ih c.flush)

theorem put_count (c : Sha256Ctx) (n : ℕ) (b : Byte) :
    (c.count n).put b = (fun c : Sha256Ctx => c.count n) <$> c.put b := by
  by_cases h : c.bufferLen < 64
  · rw [put, put, dif_pos h, dif_pos (show (c.count n).bufferLen < 64 from h)]
    rfl
  · rw [put, put, dif_neg h, dif_neg (show ¬(c.count n).bufferLen < 64 from h)]
    rfl

theorem flush_count (c : Sha256Ctx) (n : ℕ) : (c.count n).flush = c.flush.count n := by
  by_cases h : c.bufferLen = 64
  · rw [flush, flush, if_pos h, if_pos (show (c.count n).bufferLen = 64 from h)]
    rfl
  · rw [flush, flush, if_neg h, if_neg (show ¬(c.count n).bufferLen = 64 from h)]

/-- The length of the message is counted beside the buffer. -/
theorem feed_count (c : Sha256Ctx) (n : ℕ) (p : List Byte) :
    (c.count n).feed p = (fun c : Sha256Ctx => c.count n) <$> c.feed p := by
  induction p generalizing c with
  | nil => rfl
  | cons b p ih =>
      rw [feed, feed, put_count]
      cases c.put b with
      | error e => rfl
      | ok c' =>
          rw [Result.ok_bind, ← ih, ← flush_count]
          rfl

theorem count_count (c : Sha256Ctx) (m n : ℕ) : (c.count m).count n = c.count (m + n) := by
  rw [count, count, count, UInt64.ofNat_add, UInt64.add_mul, ← UInt64.add_assoc]

theorem update_of_lt {c : Sha256Ctx} (p : List Byte) (h : c.bufferLen < 64) :
    ∃ c', c.update p = .ok c' ∧ c'.bufferLen < 64 := feed_of_lt p h

/-- Two updates are one with both inputs. -/
theorem update_append {c c' : Sha256Ctx} {p : List Byte} (q : List Byte)
    (h : c.update p = .ok c') : c.update (p ++ q) = c'.update q := by
  rw [update] at h
  rw [update, List.length_append, ← count_count, feed_append, feed_count, h]
  rfl

theorem update_of_full {c : Sha256Ctx} {p : List Byte} (hp : p ≠ []) (h : c.bufferLen = 64) :
    c.update p = .error .outOfBounds := by
  obtain ⟨b, p, rfl⟩ := List.exists_cons_of_ne_nil hp
  rw [update, feed, put_of_full b (by exact h)]
  rfl

theorem pad_of_le {c : Sha256Ctx} (h : c.bufferLen ≤ 64) :
    ∃ c', c.pad = .ok c' ∧ c'.bufferLen = 56 := by
  induction c using pad.induct with
  | case1 c h56 => exact ⟨c, by rw [pad, if_pos h56], h56⟩
  | case2 c h56 e hput =>
      obtain ⟨c', hok, _⟩ := put_of_lt 0 (bufferLen_flush_lt h)
      rw [hput] at hok
      cases hok
  | case3 c h56 c' hput ih =>
      obtain ⟨hlt, hlen⟩ := bufferLen_put hput
      obtain ⟨c'', hpad, hend⟩ := ih (by omega)
      refine ⟨c'', ?_, hend⟩
      rw [pad, if_neg h56]
      split
      · rename_i heq
        rw [hput] at heq
        cases heq
      · rename_i heq
        rw [hput] at heq
        rw [← Except.ok.inj heq, hpad]

theorem putAll_of_le {c : Sha256Ctx} (bytes : List Byte) (h : c.bufferLen + bytes.length ≤ 64) :
    ∃ c', c.putAll bytes = .ok c' ∧ c'.bufferLen = c.bufferLen + bytes.length := by
  induction bytes generalizing c with
  | nil => exact ⟨c, rfl, rfl⟩
  | cons b bytes ih =>
      rw [List.length_cons] at h
      obtain ⟨c', hput, hlen⟩ := put_of_lt b (c := c) (by omega)
      obtain ⟨c'', hall, hend⟩ := ih (c := c') (by omega)
      refine ⟨c'', ?_, by rw [hend, hlen, List.length_cons]; omega⟩
      rw [putAll, List.foldlM_cons, hput, Result.ok_bind]
      exact hall

/-- The padding ends, and leaves a full buffer behind. -/
theorem final_of_lt {c : Sha256Ctx} (h : c.bufferLen < 64) :
    ∃ c' digest, c.final = .ok (c', digest) ∧ c'.bufferLen = 64 := by
  obtain ⟨c₁, hput, hlen⟩ := put_of_lt 0x80 h
  obtain ⟨c₂, hpad, h56⟩ := pad_of_le (c := c₁) (by omega)
  obtain ⟨c₃, hall, hend⟩ := putAll_of_le (c := c₂) (bigEndian64 c₂.bitLen)
    (by rw [h56]; rfl)
  refine ⟨{ c₃ with h := block c₃.h c₃.buffer }, digest (block c₃.h c₃.buffer), ?_, ?_⟩
  · rw [final, hput, Result.ok_bind, hpad, Result.ok_bind, hall, Result.ok_bind]
    rfl
  · rw [h56] at hend
    exact hend

end Sha256Ctx

end Blake3.Fc16
