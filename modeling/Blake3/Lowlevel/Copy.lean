import Blake3.Lib.ByteMemory
import Blake3.Words

/-!
`rmr_memcpy` and `rmr_memset` of `rmr_lowlevel.h`. Up to sixteen bytes are written by a
switch that falls through, longer buffers in words where the addresses are aligned, and
what is left byte by byte. The prefetches, which change nothing, are left out.
-/

namespace Blake3.Lowlevel

open ByteMemory

/-- The platform: how many bytes a `size_t` has, and in which order. -/
structure Target where
  wordSize : ℕ
  order : Order
  wordSize_eq : wordSize = 4 ∨ wordSize = 8

namespace Target

def bits (t : Target) : ℕ := 8 * t.wordSize

/-- The values of a `size_t`. -/
abbrev Size (t : Target) := Fin (2 ^ t.bits)

/-- A word access has no result unless the address is aligned. -/
def loadWord (t : Target) (m : Mem) (p : ℕ) : Option ℕ :=
  if p % t.wordSize = 0 then some (t.order.decode (load m p t.wordSize)) else none

def storeWord (t : Target) (m : Mem) (p v : ℕ) : Option Mem :=
  if p % t.wordSize = 0 then some (store m p (t.order.encode t.wordSize v)) else none

end Target

/-! ### The switch -/

/-- The labels of the switch, and the index that the statement behind each is about. -/
def cases16 : List (ℕ × ℕ) := [
  (16, 15), (15, 14), (14, 13), (13, 12), (12, 11), (11, 10), (10, 9), (9, 8),
  (8, 7), (7, 6), (6, 5), (5, 4), (4, 3), (3, 2), (2, 1), (1, 0)]

/-- The indices from the label on, as no case breaks. -/
def fallThrough (len : ℕ) : List ℕ := (cases16.dropWhile fun c => c.1 ≠ len).map Prod.snd

theorem fallThrough_eq {len : ℕ} (h : len ≤ 16) : fallThrough len = (List.range len).reverse := by
  have hall : ∀ len : Fin 17, fallThrough len.val = (List.range len.val).reverse := by decide
  exact hall ⟨len, by omega⟩

/-! ### The two functions -/

/-- Both functions: how many bytes, whether words can be written, and what writes the
byte and the word with an index. -/
def byPieces (t : Target) (m : Mem) (len : ℕ) (aligned : Bool) (byte : Mem → ℕ → Mem)
    (word : Mem → ℕ → Option Mem) : Option Mem :=
  if len = 0 then some m
  else if len ≤ 16 then some ((fallThrough len).foldl byte m)
  else do
    let (m, i) ← if aligned then do
        let words := len / t.wordSize
        let m ← (List.range words).foldlM word m
        -- the index of a word becomes that of a byte
        pure (m, words * t.wordSize % 2 ^ t.bits)
      else pure (m, 0)
    pure ((List.range' i (len - i)).foldl byte m)

/-- `out[i] = in[i]` -/
def copyByte (out src : ℕ) (m : Mem) (i : ℕ) : Mem := Function.update m (out + i) (m (src + i))

/-- `outw[i] = inw[i]` -/
def copyWord (t : Target) (out src : ℕ) (m : Mem) (i : ℕ) : Option Mem := do
  t.storeWord m (out + t.wordSize * i) (← t.loadWord m (src + t.wordSize * i))

/-- `rmr_memcpy`, where `out` and `src` are addresses. -/
def rmrMemcpy (t : Target) (m : Mem) (out src len : ℕ) : Option Mem :=
  byPieces t m len ((out ||| src) % t.wordSize = 0) (copyByte out src) (copyWord t out src)

/-- `pattern |= pattern << shift` -/
def Target.spread (t : Target) (pattern shift : ℕ) : ℕ :=
  pattern ||| pattern <<< shift % 2 ^ t.bits

/-- The word that has `value` in all of its bytes. -/
def Target.pattern (t : Target) (value : Byte) : ℕ :=
  let pattern := value.toNat
  let pattern := t.spread pattern 8
  let pattern := t.spread pattern 16
  if 0xffffffff < 2 ^ t.bits - 1 then t.spread pattern 32 else pattern

/-- `out[i] = value` -/
def setByte (out : ℕ) (value : Byte) (m : Mem) (i : ℕ) : Mem := Function.update m (out + i) value

/-- `outw[i] = pattern` -/
def setWord (t : Target) (out pattern : ℕ) (m : Mem) (i : ℕ) : Option Mem :=
  t.storeWord m (out + t.wordSize * i) pattern

/-- `rmr_memset` -/
def rmrMemset (t : Target) (m : Mem) (out : ℕ) (value : Byte) (len : ℕ) : Option Mem :=
  byPieces t m len (out % t.wordSize = 0) (setByte out value) (setWord t out (t.pattern value))

/-- The plain byte loop that copies. -/
def copyLoop (m : Mem) (out src len : ℕ) : Mem := (List.range len).foldl (copyByte out src) m

/-- The plain byte loop that sets. -/
def setLoop (m : Mem) (out : ℕ) (value : Byte) (len : ℕ) : Mem :=
  (List.range len).foldl (setByte out value) m

/-! ### One piece -/

namespace Target

variable {t : Target}

/-- An address is aligned if the address of the first word is. -/
theorem aligned {p : ℕ} (h : p % t.wordSize = 0) (i : ℕ) :
    (p + t.wordSize * i) % t.wordSize = 0 := by
  rw [Nat.add_mul_mod_self_left, h]

/-- Both addresses are tested at once. -/
theorem aligned_or {p q : ℕ} :
    (p ||| q) % t.wordSize = 0 ↔ p % t.wordSize = 0 ∧ q % t.wordSize = 0 := by
  obtain ⟨k, hk⟩ : ∃ k, t.wordSize = 2 ^ k := by
    rcases t.wordSize_eq with h | h
    · exact ⟨2, h⟩
    · exact ⟨3, h⟩
  rw [hk, Nat.or_mod_two_pow, Nat.or_eq_zero_iff]

theorem spread_replicate {n : ℕ} (h : n + n ≤ t.wordSize) (value : Byte) :
    t.spread (LittleEndian.ofBytes (List.replicate n value)) (8 * n) =
      LittleEndian.ofBytes (List.replicate (n + n) value) := by
  have hlt := LittleEndian.ofBytes_lt (List.replicate n value)
  have hpow : 256 ^ n = 2 ^ (8 * n) := (pow_mul 2 8 n).symm
  have hfits : LittleEndian.ofBytes (List.replicate n value) <<< (8 * n) < 2 ^ t.bits := by
    rw [List.length_replicate, hpow] at hlt
    calc LittleEndian.ofBytes (List.replicate n value) <<< (8 * n)
        = LittleEndian.ofBytes (List.replicate n value) * 2 ^ (8 * n) := Nat.shiftLeft_eq ..
      _ < 2 ^ (8 * n) * 2 ^ (8 * n) := Nat.mul_lt_mul_of_pos_right hlt (Nat.two_pow_pos _)
      _ = 2 ^ (8 * n + 8 * n) := (pow_add 2 (8 * n) (8 * n)).symm
      _ ≤ 2 ^ t.bits := Nat.pow_le_pow_right (by decide) (by rw [bits]; omega)
  rw [spread, Nat.mod_eq_of_lt hfits, ofBytes_replicate_add]

theorem pattern_eq (value : Byte) :
    t.pattern value = LittleEndian.ofBytes (List.replicate t.wordSize value) := by
  have hone : value.toNat = LittleEndian.ofBytes (List.replicate 1 value) := by
    simp [LittleEndian.ofBytes]
  rw [pattern, hone]
  rcases t.wordSize_eq with h | h
  · rw [bits, h, if_neg (by decide)]
    exact (congrArg (t.spread · 16) (@spread_replicate t 1 (by omega) value)).trans
      (@spread_replicate t 2 (by omega) value)
  · rw [bits, h, if_pos (by decide)]
    refine .trans ?_ (@spread_replicate t 4 (by omega) value)
    refine congrArg (t.spread · 32) ?_
    exact (congrArg (t.spread · 16) (@spread_replicate t 1 (by omega) value)).trans
      (@spread_replicate t 2 (by omega) value)

end Target

/-! ### All pieces -/

/-- The bytes and the words with an index are written as those of a run of bytes, wherever
other parts of the run have been written. -/
structure Writes (t : Target) (m : Mem) (out : ℕ) (bytes : List Byte) (aligned : Bool)
    (byte : Mem → ℕ → Mem) (word : Mem → ℕ → Option Mem) : Prop where
  byte_eq : ∀ {p : ℕ} {part : List Byte} {i : ℕ}, out ≤ p →
    p + part.length ≤ out + bytes.length → i < bytes.length →
    byte (store m p part) i = Function.update (store m p part) (out + i) (bytes.getD i 0)
  word_eq : aligned → ∀ {part : List Byte} {i : ℕ}, part.length ≤ bytes.length →
    t.wordSize * (i + 1) ≤ bytes.length → word (store m out part) i =
      some (store (store m out part) (out + t.wordSize * i)
        ((bytes.drop (t.wordSize * i)).take t.wordSize))

section

variable {t : Target} {m : Mem} {out : ℕ} {bytes : List Byte} {aligned : Bool}
  {byte : Mem → ℕ → Mem} {word : Mem → ℕ → Option Mem}

/-- The byte loop, from any index on. -/
theorem Writes.loop (h : Writes t m out bytes aligned byte word) {i : ℕ} (hi : i ≤ bytes.length) :
    (List.range' i (bytes.length - i)).foldl byte (store m out (bytes.take i)) =
      store m out bytes := by
  have hend : i + (bytes.length - i) = bytes.length := by omega
  rw [foldl_store hend.le fun j hj => h.byte_eq le_rfl (by simp) (by omega), hend,
    List.take_length]

/-- The switch, which writes the last byte first. -/
theorem Writes.switch (h : Writes t m out bytes aligned byte word) :
    (List.range bytes.length).reverse.foldl byte m = store m out bytes := by
  have hloop := @foldl_store_reverse m out bytes.length bytes byte le_rfl fun i hi =>
    h.byte_eq (by omega) (by rw [List.length_drop]; omega) hi
  rwa [List.drop_length, store_nil] at hloop

theorem Writes.words (h : Writes t m out bytes aligned byte word) (haligned : aligned) {n : ℕ}
    (hn : t.wordSize * n ≤ bytes.length) :
    (List.range n).foldlM word m = some (store m out (bytes.take (t.wordSize * n))) := by
  refine foldlM_store hn fun i hi => h.word_eq haligned (by simp) ?_
  exact (Nat.mul_le_mul_left t.wordSize hi).trans hn

theorem byPieces_eq (h : Writes t m out bytes aligned byte word)
    (hlen : bytes.length < 2 ^ t.bits) :
    byPieces t m bytes.length aligned byte word = some (store m out bytes) := by
  rw [byPieces]
  by_cases hzero : bytes.length = 0
  · rw [if_pos hzero, List.length_eq_zero_iff.mp hzero, store_nil]
  rw [if_neg hzero]
  by_cases hsmall : bytes.length ≤ 16
  · rw [if_pos hsmall, fallThrough_eq hsmall, h.switch]
  rw [if_neg hsmall]
  by_cases haligned : aligned
  · have hwords : t.wordSize * (bytes.length / t.wordSize) ≤ bytes.length := Nat.mul_div_le _ _
    rw [if_pos haligned]
    simp only [h.words haligned hwords, Option.bind_eq_bind, Option.bind_some, Option.pure_def]
    rw [Nat.mul_comm _ t.wordSize, Nat.mod_eq_of_lt (by omega), h.loop hwords]
  · rw [if_neg haligned]
    have hloop := h.loop bytes.length.zero_le
    rw [List.take_zero, store_nil] at hloop
    simp only [Option.bind_eq_bind, Option.bind_some, Option.pure_def, hloop]

end

variable {t : Target} {m : Mem} {out src len : ℕ}

theorem writes_copy (h : out + len ≤ src ∨ src + len ≤ out) :
    Writes t m out (load m src len) ((out ||| src) % t.wordSize = 0) (copyByte out src)
      (copyWord t out src) where
  byte_eq {p part i} hlow hhigh hi := by
    rw [length_load] at hhigh hi
    rw [copyByte, store_apply_of_not (by omega), getD_load hi]
  word_eq haligned part i hpart hi := by
    rw [length_load] at hpart hi
    obtain ⟨hout, hsrc⟩ := Target.aligned_or.mp (of_decide_eq_true haligned)
    rw [Nat.mul_succ] at hi
    have hload : load (store m out part) (src + t.wordSize * i) t.wordSize =
        ((load m src len).drop (t.wordSize * i)).take t.wordSize := by
      rw [load_drop_take hi, load_store (by omega)]
    rw [copyWord, Target.loadWord, if_pos (Target.aligned hsrc i), Option.bind_eq_bind,
      Option.bind_some, Target.storeWord, if_pos (Target.aligned hout i),
      Order.encode_decode _ (length_load ..), hload]

theorem writes_set (value : Byte) :
    Writes t m out (List.replicate len value) (out % t.wordSize = 0) (setByte out value)
      (setWord t out (t.pattern value)) where
  byte_eq {p part i} _ _ hi := by
    rw [List.length_replicate] at hi
    rw [setByte, List.getD_replicate _ hi]
  word_eq haligned part i _ hi := by
    rw [List.length_replicate, Nat.mul_succ] at hi
    rw [setWord, Target.storeWord, if_pos (Target.aligned (of_decide_eq_true haligned) i),
      Target.pattern_eq, Order.encode_replicate, List.drop_replicate, List.take_replicate,
      Nat.min_eq_left (by omega)]

theorem rmrMemcpy_eq (h : out + len ≤ src ∨ src + len ≤ out) (hlen : len < 2 ^ t.bits) :
    rmrMemcpy t m out src len = some (store m out (load m src len)) := by
  have heq := byPieces_eq (@writes_copy t m out src len h) (by rwa [length_load])
  rwa [length_load] at heq

theorem rmrMemset_eq (value : Byte) (hlen : len < 2 ^ t.bits) :
    rmrMemset t m out value len = some (store m out (List.replicate len value)) := by
  have heq := byPieces_eq (@writes_set t m out len value) (by rwa [List.length_replicate])
  rwa [List.length_replicate] at heq

theorem copyLoop_eq (t : Target) (h : out + len ≤ src ∨ src + len ≤ out) :
    copyLoop m out src len = store m out (load m src len) := by
  have hloop := (@writes_copy t m out src len h).loop (Nat.zero_le _)
  rwa [List.take_zero, store_nil, length_load, ← List.range_eq_range'] at hloop

theorem setLoop_eq (t : Target) (value : Byte) :
    setLoop m out value len = store m out (List.replicate len value) := by
  have hloop := (@writes_set t m out len value).loop (Nat.zero_le _)
  rwa [List.take_zero, store_nil, List.length_replicate, ← List.range_eq_range'] at hloop

/-- Wherever the buffers lie, both functions do what the plain loop does, and no word access
is at an address that is not aligned: the bytes of the buffer are those of the source, or
`value`, and all others are what they were. -/
theorem memcpy_memset_spec (t : Target) (m : Mem) (out : ℕ) (len : t.Size) :
    (∀ src, out + len ≤ src ∨ src + len ≤ out →
      rmrMemcpy t m out src len = some (copyLoop m out src len) ∧
      (∀ i < len.val, copyLoop m out src len (out + i) = m (src + i)) ∧
      ∀ a, a < out ∨ out + len ≤ a → copyLoop m out src len a = m a) ∧
    ∀ value, rmrMemset t m out value len = some (setLoop m out value len) ∧
      (∀ i < len.val, setLoop m out value len (out + i) = value) ∧
      ∀ a, a < out ∨ out + len ≤ a → setLoop m out value len a = m a := by
  constructor
  · intro src hdisjoint
    rw [rmrMemcpy_eq hdisjoint len.isLt, copyLoop_eq t hdisjoint]
    refine ⟨rfl, fun i hi => ?_, fun a ha => store_apply_of_not (by rwa [length_load])⟩
    rw [store_apply_lt (by rwa [length_load]), getD_load hi]
  · intro value
    rw [rmrMemset_eq value len.isLt, setLoop_eq t value]
    refine ⟨rfl, fun i hi => ?_, fun a ha => store_apply_of_not (by rwa [List.length_replicate])⟩
    rw [store_apply_lt (by rwa [List.length_replicate]), List.getD_replicate _ hi]

/-- A platform with 64 bits, little-endian. -/
def Target.little64 : Target where
  wordSize := 8
  order := .little
  wordSize_eq := .inr rfl

/-- Two words and a tail, to an address that is aligned. -/
theorem memcpy_memset_spec_twenty :
    rmrMemcpy .little64 UInt8.ofNat 32 64 20 = some (copyLoop UInt8.ofNat 32 64 20) ∧
      rmrMemset .little64 UInt8.ofNat 32 0xa5 20 = some (setLoop UInt8.ofNat 32 0xa5 20) := by
  have h := memcpy_memset_spec .little64 UInt8.ofNat 32 ⟨20, by decide⟩
  exact ⟨(h.1 64 (.inl (by decide))).1, (h.2 0xa5).1⟩

end Blake3.Lowlevel
