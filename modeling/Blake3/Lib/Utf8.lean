import Mathlib.Data.Nat.Notation
import Mathlib.Data.List.Basic
import Mathlib.Tactic.SplitIfs

/-!
Text as a list of characters and its UTF-8 bytes. Decoding is lossy: a longest
piece that could still have become a character but did not, or one byte that
starts none, is decoded to the replacement character.
-/

namespace Utf8

/-- The UTF-8 bytes of a text. -/
def encode (text : List Char) : List UInt8 := text.flatMap String.utf8EncodeChar

@[simp] theorem encode_nil : encode [] = [] := rfl

@[simp] theorem encode_cons (c : Char) (text : List Char) :
    encode (c :: text) = String.utf8EncodeChar c ++ encode text := rfl

def replacement : Char := '\uFFFD'

def isCont (b : UInt8) : Bool := 0x80 ≤ b && b ≤ 0xBF

/-- Whether `b₁` can be the second byte of a character of three or four bytes
that starts with `b₀`: no overlong form, no surrogate, nothing above U+10FFFF. -/
def isSecond (b₀ b₁ : UInt8) : Bool :=
  let low := if b₀ = 0xE0 then 0xA0 else if b₀ = 0xF0 then 0x90 else 0x80
  let high := if b₀ = 0xED then 0x9F else if b₀ = 0xF4 then 0x8F else 0xBF
  low ≤ b₁.toNat && b₁.toNat ≤ high

/-- Read `n` more continuation bytes of a character, after the bits in `acc`. -/
def decodeTail : ℕ → ℕ → List UInt8 → Option Char × List UInt8
  | 0, acc, bytes => (some (Char.ofNat acc), bytes)
  | _ + 1, _, [] => (none, [])
  | n + 1, acc, b :: bytes =>
      if isCont b then decodeTail n (acc * 64 + (b.toNat - 0x80)) bytes else (none, b :: bytes)

/-- Read the second byte of a character, and `n` more. -/
def decodeSecond (b₀ : UInt8) (n acc : ℕ) : List UInt8 → Option Char × List UInt8
  | [] => (none, [])
  | b :: bytes =>
      if isSecond b₀ b then decodeTail n (acc * 64 + (b.toNat - 0x80)) bytes else (none, b :: bytes)

/-- The character that starts with `b`, if there is one, and what is behind it
or behind the part of it that is there. -/
def decodeFirst (b : UInt8) (bytes : List UInt8) : Option Char × List UInt8 :=
  if b < 0x80 then (some (Char.ofNat b.toNat), bytes)
  else if b < 0xC2 then (none, bytes)
  else if b < 0xE0 then decodeTail 1 (b.toNat - 0xC0) bytes
  else if b < 0xF0 then decodeSecond b 1 (b.toNat - 0xE0) bytes
  else if b < 0xF5 then decodeSecond b 2 (b.toNat - 0xF0) bytes
  else (none, bytes)

theorem length_decodeTail (n acc : ℕ) (bytes : List UInt8) :
    (decodeTail n acc bytes).2.length ≤ bytes.length := by
  induction n generalizing acc bytes with
  | zero => exact Nat.le_refl _
  | succ n ih =>
      cases bytes with
      | nil => exact Nat.le_refl _
      | cons b bytes =>
          rw [decodeTail]
          split
          · exact Nat.le_succ_of_le (ih _ bytes)
          · exact Nat.le_refl _

theorem length_decodeSecond (b₀ : UInt8) (n acc : ℕ) (bytes : List UInt8) :
    (decodeSecond b₀ n acc bytes).2.length ≤ bytes.length := by
  cases bytes with
  | nil => exact Nat.le_refl _
  | cons b bytes =>
      rw [decodeSecond]
      split
      · exact Nat.le_succ_of_le (length_decodeTail n _ bytes)
      · exact Nat.le_refl _

theorem length_decodeFirst (b : UInt8) (bytes : List UInt8) :
    (decodeFirst b bytes).2.length ≤ bytes.length := by
  unfold decodeFirst
  split_ifs
  · exact Nat.le_refl _
  · exact Nat.le_refl _
  · exact length_decodeTail _ _ _
  · exact length_decodeSecond _ _ _ _
  · exact length_decodeSecond _ _ _ _
  · exact Nat.le_refl _

/-- The text of a byte string, with a replacement character for every piece
that is not UTF-8. -/
def decodeLossy : List UInt8 → List Char
  | [] => []
  | b :: bytes =>
      (decodeFirst b bytes).1.getD replacement :: decodeLossy (decodeFirst b bytes).2
termination_by bytes => bytes.length
decreasing_by exact Nat.lt_succ_of_le (length_decodeFirst b bytes)

@[simp] theorem decodeLossy_nil : decodeLossy [] = [] := by rw [decodeLossy]

theorem decodeLossy_cons (b : UInt8) (bytes : List UInt8) :
    decodeLossy (b :: bytes) =
      (decodeFirst b bytes).1.getD replacement :: decodeLossy (decodeFirst b bytes).2 := by
  rw [decodeLossy]

/-! ### Reading back what was written -/

theorem isCont_ofNat {n : ℕ} : isCont (UInt8.ofNat (n % 64 + 128)) = true := by
  simp [isCont, UInt8.le_iff_toNat_le]
  omega

theorem toNat_cont (n : ℕ) : (UInt8.ofNat (n % 64 + 128)).toNat = n % 64 + 128 := by
  simp
  omega

theorem decodeTail_cont (n acc v : ℕ) (bytes : List UInt8) :
    decodeTail (n + 1) acc (UInt8.ofNat (v % 64 + 128) :: bytes) =
      decodeTail n (acc * 64 + v % 64) bytes := by
  rw [decodeTail, if_pos isCont_ofNat, toNat_cont, Nat.add_sub_cancel]

theorem ofNat_toNat_val (c : Char) : Char.ofNat c.val.toNat = c := Char.ofNat_toNat c

theorem decodeSecond_cont {b₀ : UInt8} {v : ℕ} (h : isSecond b₀ (UInt8.ofNat (v % 64 + 128)))
    (n acc : ℕ) (bytes : List UInt8) :
    decodeSecond b₀ n acc (UInt8.ofNat (v % 64 + 128) :: bytes) =
      decodeTail n (acc * 64 + v % 64) bytes := by
  rw [decodeSecond, if_pos h, toNat_cont, Nat.add_sub_cancel]

theorem toNat_ofNat_of_lt {n : ℕ} (h : n < 256) : (UInt8.ofNat n).toNat = n := by
  simp
  omega

theorem isSecond_iff {b₀ b₁ : UInt8} :
    isSecond b₀ b₁ ↔
      (if b₀.toNat = 0xE0 then 0xA0 else if b₀.toNat = 0xF0 then 0x90 else 0x80) ≤ b₁.toNat ∧
        b₁.toNat ≤ (if b₀.toNat = 0xED then 0x9F else if b₀.toNat = 0xF4 then 0x8F else 0xBF) := by
  simp [isSecond, ← UInt8.toNat_inj]

/-- A character is read back from its bytes, whatever follows. -/
theorem decodeFirst_utf8EncodeChar {c : Char} {b : UInt8} {bytes : List UInt8}
    (h : String.utf8EncodeChar c = b :: bytes) (rest : List UInt8) :
    decodeFirst b (bytes ++ rest) = (some c, rest) := by
  have hvalid := c.valid
  have hback := ofNat_toNat_val c
  generalize hv : c.val.toNat = v at hback
  have hrange : v < 0xD800 ∨ 0xDFFF < v ∧ v < 0x110000 := by
    rw [← hv]
    exact hvalid
  unfold String.utf8EncodeChar at h
  simp only [hv] at h
  unfold decodeFirst
  simp only [UInt8.lt_iff_toNat_lt, UInt8.reduceToNat]
  split_ifs at h with h1 h2 h3
  · obtain ⟨rfl, rfl⟩ := List.cons.inj h
    rw [toNat_ofNat_of_lt (by omega), if_pos (by omega), hback, List.nil_append]
  · obtain ⟨rfl, rfl⟩ := List.cons.inj h
    rw [toNat_ofNat_of_lt (by omega), if_neg (by omega), if_neg (by omega), if_pos (by omega),
      List.cons_append, decodeTail_cont, decodeTail, List.nil_append]
    have hsum : (v / 64 % 32 + 192 - 192) * 64 + v % 64 = v := by omega
    rw [hsum, hback]
  · obtain ⟨rfl, rfl⟩ := List.cons.inj h
    have hsecond :
        isSecond (UInt8.ofNat (v / 4096 % 16 + 224)) (UInt8.ofNat (v / 64 % 64 + 128)) := by
      rw [isSecond_iff, toNat_ofNat_of_lt (by omega), toNat_ofNat_of_lt (by omega)]
      split_ifs <;> omega
    rw [toNat_ofNat_of_lt (by omega), if_neg (by omega), if_neg (by omega), if_neg (by omega),
      if_pos (by omega), List.cons_append, decodeSecond_cont hsecond, List.cons_append,
      decodeTail_cont, decodeTail, List.nil_append]
    have hsum : ((v / 4096 % 16 + 224 - 224) * 64 + v / 64 % 64) * 64 + v % 64 = v := by omega
    rw [hsum, hback]
  · obtain ⟨rfl, rfl⟩ := List.cons.inj h
    have hsecond :
        isSecond (UInt8.ofNat (v / 262144 % 8 + 240)) (UInt8.ofNat (v / 4096 % 64 + 128)) := by
      rw [isSecond_iff, toNat_ofNat_of_lt (by omega), toNat_ofNat_of_lt (by omega)]
      split_ifs <;> omega
    rw [toNat_ofNat_of_lt (by omega), if_neg (by omega), if_neg (by omega), if_neg (by omega),
      if_neg (by omega), if_pos (by omega), List.cons_append, decodeSecond_cont hsecond,
      List.cons_append, decodeTail_cont, List.cons_append, decodeTail_cont, decodeTail,
      List.nil_append]
    have hsum : (((v / 262144 % 8 + 240 - 240) * 64 + v / 4096 % 64) * 64 + v / 64 % 64) * 64 +
        v % 64 = v := by omega
    rw [hsum, hback]

theorem utf8EncodeChar_ne_nil (c : Char) : String.utf8EncodeChar c ≠ [] := by
  unfold String.utf8EncodeChar
  dsimp only
  split_ifs <;> simp

/-- What was encoded is decoded to itself. -/
theorem decodeLossy_encode (text : List Char) : decodeLossy (encode text) = text := by
  induction text with
  | nil => simp
  | cons c text ih =>
      obtain ⟨b, bytes, h⟩ := List.exists_cons_of_ne_nil (utf8EncodeChar_ne_nil c)
      rw [encode_cons, h, List.cons_append, decodeLossy_cons, decodeFirst_utf8EncodeChar h, ih]
      rfl

/-! ### Writing what was read -/

theorem toNat_val_ofNat {n : ℕ} (h : n.isValidChar) : (Char.ofNat n).val.toNat = n := by
  rw [Char.ofNat, dif_pos h]
  rfl

theorem ofNat_of_toNat {b : UInt8} {n : ℕ} (h : b.toNat = n) : UInt8.ofNat n = b := by
  rw [← h, UInt8.ofNat_toNat]

theorem decodeTail_zero {acc : ℕ} {bytes rest : List UInt8} {c : Char}
    (h : decodeTail 0 acc bytes = (some c, rest)) : c = Char.ofNat acc ∧ bytes = rest := by
  obtain ⟨hc, hrest⟩ := Prod.mk.inj h
  exact ⟨(Option.some.inj hc).symm, hrest⟩

theorem decodeTail_succ {n acc : ℕ} {bytes rest : List UInt8} {c : Char}
    (h : decodeTail (n + 1) acc bytes = (some c, rest)) :
    ∃ b t, bytes = b :: t ∧ 0x80 ≤ b.toNat ∧ b.toNat ≤ 0xBF ∧
      decodeTail n (acc * 64 + (b.toNat - 0x80)) t = (some c, rest) := by
  cases bytes with
  | nil => simp [decodeTail] at h
  | cons b t =>
      rw [decodeTail] at h
      split at h
      · next hcont =>
          simp [isCont, UInt8.le_iff_toNat_le] at hcont
          exact ⟨b, t, rfl, hcont.1, hcont.2, h⟩
      · simp at h

theorem decodeSecond_some {b₀ : UInt8} {n acc : ℕ} {bytes rest : List UInt8} {c : Char}
    (h : decodeSecond b₀ n acc bytes = (some c, rest)) :
    ∃ b t, bytes = b :: t ∧ isSecond b₀ b ∧
      decodeTail n (acc * 64 + (b.toNat - 0x80)) t = (some c, rest) := by
  cases bytes with
  | nil => simp [decodeSecond] at h
  | cons b t =>
      rw [decodeSecond] at h
      split at h
      · next hsecond => exact ⟨b, t, rfl, hsecond, h⟩
      · simp at h

/-- Where a character is read, its bytes are there. -/
theorem utf8EncodeChar_of_decodeFirst {c : Char} {b : UInt8} {bytes rest : List UInt8}
    (h : decodeFirst b bytes = (some c, rest)) : b :: bytes = String.utf8EncodeChar c ++ rest := by
  have hb := b.toNat_lt
  unfold decodeFirst at h
  simp only [UInt8.lt_iff_toNat_lt, UInt8.reduceToNat] at h
  -- by the length that the first byte announces
  split_ifs at h with h1 h2 h3 h4 h5
  · obtain ⟨hc, rfl⟩ := Prod.mk.inj h
    obtain rfl := Option.some.inj hc
    rw [String.utf8EncodeChar, toNat_val_ofNat (.inl (by omega)), if_pos (by omega),
      UInt8.ofNat_toNat]
    rfl
  · simp at h
  · obtain ⟨b₁, t, rfl, hlow, hhigh, h⟩ := decodeTail_succ h
    obtain ⟨hc, rfl⟩ := decodeTail_zero h
    rw [hc, String.utf8EncodeChar, toNat_val_ofNat (.inl (by omega)), if_neg (by omega),
      if_pos (by omega)]
    simp only [List.cons_append, List.nil_append, List.cons.injEq, and_true]
    exact ⟨(ofNat_of_toNat (by omega)).symm, (ofNat_of_toNat (by omega)).symm⟩
  · obtain ⟨b₁, t, rfl, hsecond, h⟩ := decodeSecond_some h
    obtain ⟨b₂, t, rfl, hlow, hhigh, h⟩ := decodeTail_succ h
    obtain ⟨hc, rfl⟩ := decodeTail_zero h
    rw [isSecond_iff] at hsecond
    have hsize : 0x800 ≤ ((b.toNat - 224) * 64 + (b₁.toNat - 128)) * 64 + (b₂.toNat - 128) ∧
        ((b.toNat - 224) * 64 + (b₁.toNat - 128)) * 64 + (b₂.toNat - 128) ≤ 0xFFFF ∧
        128 ≤ b₁.toNat ∧ b₁.toNat < 192 ∧
        (((b.toNat - 224) * 64 + (b₁.toNat - 128)) * 64 + (b₂.toNat - 128)).isValidChar := by
      unfold Nat.isValidChar
      split_ifs at hsecond <;> omega
    obtain ⟨hmin, hmax, hlow₁, hhigh₁, hvalid⟩ := hsize
    rw [hc, String.utf8EncodeChar, toNat_val_ofNat hvalid, if_neg (by omega), if_neg (by omega),
      if_pos (by omega)]
    simp only [List.cons_append, List.nil_append, List.cons.injEq, and_true]
    exact ⟨(ofNat_of_toNat (by omega)).symm, (ofNat_of_toNat (by omega)).symm,
      (ofNat_of_toNat (by omega)).symm⟩
  · obtain ⟨b₁, t, rfl, hsecond, h⟩ := decodeSecond_some h
    obtain ⟨b₂, t, rfl, hlow, hhigh, h⟩ := decodeTail_succ h
    obtain ⟨b₃, t, rfl, hlow', hhigh', h⟩ := decodeTail_succ h
    obtain ⟨hc, rfl⟩ := decodeTail_zero h
    rw [isSecond_iff] at hsecond
    have hsize : 0xFFFF < (((b.toNat - 240) * 64 + (b₁.toNat - 128)) * 64 + (b₂.toNat - 128)) * 64 +
          (b₃.toNat - 128) ∧
        (((b.toNat - 240) * 64 + (b₁.toNat - 128)) * 64 + (b₂.toNat - 128)) * 64 +
          (b₃.toNat - 128) < 0x110000 ∧ 128 ≤ b₁.toNat ∧ b₁.toNat < 192 := by
      split_ifs at hsecond <;> omega
    obtain ⟨hmin, hmax, hlow₁, hhigh₁⟩ := hsize
    rw [hc, String.utf8EncodeChar, toNat_val_ofNat (.inr ⟨by omega, hmax⟩), if_neg (by omega),
      if_neg (by omega), if_neg (by omega)]
    simp only [List.cons_append, List.nil_append, List.cons.injEq, and_true]
    exact ⟨(ofNat_of_toNat (by omega)).symm, (ofNat_of_toNat (by omega)).symm,
      (ofNat_of_toNat (by omega)).symm, (ofNat_of_toNat (by omega)).symm⟩
  · simp at h

/-- A text without the replacement character is decoded from its own bytes. -/
theorem encode_decodeLossy (bytes : List UInt8) (h : replacement ∉ decodeLossy bytes) :
    encode (decodeLossy bytes) = bytes := by
  induction bytes using decodeLossy.induct with
  | case1 => simp
  | case2 b bytes ih =>
      rw [decodeLossy_cons, List.mem_cons, not_or] at h
      have hrest := ih h.2
      rcases hfirst : decodeFirst b bytes with ⟨first, rest⟩
      rw [hfirst] at h hrest
      cases first with
      | none => exact absurd rfl h.1
      | some c =>
          rw [decodeLossy_cons, hfirst, utf8EncodeChar_of_decodeFirst hfirst, Option.getD_some,
            encode_cons, hrest]

end Utf8
