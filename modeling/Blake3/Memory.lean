import Blake3.Fault
import Blake3.Words
import Blake3.Lib.Buffer
import Blake3.Lib.LittleEndian

/-!
Byte buffers that a C function is given, accessed one byte at a time. An access
outside of the buffer is a fault.
-/

namespace Blake3.Memory

def load (mem : List Byte) (i : ℕ) : Result Byte :=
  if h : i < mem.length then .ok mem[i] else .error .outOfBounds

def store (mem : List Byte) (i : ℕ) (b : Byte) : Result (List Byte) :=
  if i < mem.length then .ok (mem.set i b) else .error .outOfBounds

/-- Successive stores from position `p` on. -/
def storeAll (mem : List Byte) (p : ℕ) : List Byte → Result (List Byte)
  | [] => .ok mem
  | b :: bytes => do
      let mem ← store mem p b
      storeAll mem (p + 1) bytes

/-- Copying `n` bytes to another buffer. -/
def copy (dst : List Byte) (d : ℕ) (src : List Byte) (s : ℕ) : ℕ → Result (List Byte)
  | 0 => .ok dst
  | n + 1 => do
      let b ← load src s
      let dst ← store dst d b
      copy dst (d + 1) src (s + 1) n

/-- The `n` bytes from position `p` on, as an argument of a function that reads them all. -/
def region (mem : List Byte) (p n : ℕ) : Result (List Byte) :=
  if p + n ≤ mem.length then .ok ((mem.drop p).take n) else .error .outOfBounds

/-- Four bytes as a little-endian word. -/
def load32 (mem : List Byte) (p : ℕ) : Result Word := do
  let b₀ ← load mem p
  let b₁ ← load mem (p + 1)
  let b₂ ← load mem (p + 2)
  let b₃ ← load mem (p + 3)
  pure (Blake3.load32 b₀ b₁ b₂ b₃)

variable {mem src : List Byte} {i p q n : ℕ}

theorem load_of_lt (h : i < mem.length) : load mem i = .ok mem[i] := dif_pos h

theorem store_eq (b : Byte) (h : i < mem.length) :
    store mem i b = .ok (Buffer.overwrite mem i [b]) := by
  rw [store, if_pos h, Buffer.set_eq_overwrite h]

theorem region_eq (h : p + n ≤ mem.length) : region mem p n = .ok ((mem.drop p).take n) :=
  if_pos h

theorem storeAll_eq (bytes : List Byte) (h : p + bytes.length ≤ mem.length) :
    storeAll mem p bytes = .ok (Buffer.overwrite mem p bytes) := by
  induction bytes generalizing mem p with
  | nil => rw [storeAll, Buffer.overwrite_nil]
  | cons b bytes ih =>
      rw [List.length_cons] at h
      have hfirst : p + [b].length ≤ mem.length := by
        rw [List.length_singleton]
        omega
      rw [storeAll, store_eq b (by omega), Result.ok_bind,
        ih (by rw [Buffer.length_overwrite hfirst]; omega)]
      exact congrArg Except.ok (Buffer.overwrite_overwrite hfirst)

/-- Storing on behind what has been written to the front of a buffer. -/
theorem storeAll_overwrite {xs ys : List Byte} (hp : p = xs.length)
    (h : xs.length + ys.length ≤ mem.length) :
    storeAll (Buffer.overwrite mem 0 xs) p ys = .ok (Buffer.overwrite mem 0 (xs ++ ys)) := by
  have hlength := Buffer.length_overwrite (show 0 + xs.length ≤ mem.length by omega)
  rw [storeAll_eq ys (by rw [hlength]; omega), hp, ← Nat.zero_add xs.length,
    Buffer.overwrite_overwrite (by omega)]

theorem copy_eq (hs : q + n ≤ src.length) (hd : p + n ≤ mem.length) :
    copy mem p src q n = .ok (Buffer.overwrite mem p ((src.drop q).take n)) := by
  induction n generalizing mem p q with
  | zero => rw [copy, List.take_zero, Buffer.overwrite_nil]
  | succ n ih =>
      have hlt : q < src.length := by omega
      have hfirst : p + [src[q]].length ≤ mem.length := by
        rw [List.length_singleton]
        omega
      rw [copy, load_of_lt hlt, Result.ok_bind, store_eq _ (by omega), Result.ok_bind,
        ih (by omega) (by rw [Buffer.length_overwrite hfirst]; omega),
        List.drop_eq_getElem_cons hlt, List.take_succ_cons]
      exact congrArg Except.ok (Buffer.overwrite_overwrite hfirst)

theorem load32_eq (h : p + 4 ≤ mem.length) :
    ∃ w, load32 mem p = .ok w ∧ w.toNat = LittleEndian.ofBytes ((mem.drop p).take 4) := by
  have h₀ : p < mem.length := by omega
  have h₁ : p + 1 < mem.length := by omega
  have h₂ : p + 2 < mem.length := by omega
  have h₃ : p + 3 < mem.length := by omega
  refine ⟨Blake3.load32 mem[p] mem[p + 1] mem[p + 2] mem[p + 3], ?_, ?_⟩
  · rw [load32, load_of_lt h₀, load_of_lt h₁, load_of_lt h₂, load_of_lt h₃]
    rfl
  · rw [List.drop_eq_getElem_cons h₀, List.drop_eq_getElem_cons h₁, List.drop_eq_getElem_cons h₂,
      List.drop_eq_getElem_cons h₃, toNat_load32]
    simp only [List.take_succ_cons, List.take_zero, LittleEndian.ofBytes]
    omega

end Blake3.Memory
