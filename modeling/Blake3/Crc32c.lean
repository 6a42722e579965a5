import Blake3.Fc16.Seal
import Blake3.Visual.Prototype

/-!
The CRC-32C of the repository, of which there are several: the table of nibbles of
`rmr_fc16_crc32c.c` and the instructions that replace it, the loops of
`rmr_release_evidence_v020.c`, of `rmr_stability.c` and of
`rmr_visual_prototype.c`. A seal that one of them writes is read by another.
-/

namespace Blake3.Crc32c

open Fc16 (Span)

/-! ### Instructions -/

/-- An instruction for an operand of `k` bytes, which are taken in one by one, the
lowest first. -/
def instruction (k : ℕ) (state : Word) (operand : ℕ) : Word :=
  Crc.update 0x82f63b78 state (LittleEndian.toBytes k operand)

/-- `_mm_crc32_u64`, which returns the remainder in a word of twice its width. -/
def mmCrc32U64 (state v : UInt64) : UInt64 := (instruction 8 state.toUInt32 v.toNat).toUInt64
def mmCrc32U32 (state v : Word) : Word := instruction 4 state v.toNat
def mmCrc32U8 (state : Word) (v : Byte) : Word := instruction 1 state v.toNat

/-- `__crc32cd` -/
def crc32cd (state : Word) (v : UInt64) : Word := instruction 8 state v.toNat
/-- `__crc32cw` -/
def crc32cw (state v : Word) : Word := instruction 4 state v.toNat
/-- `__crc32cb` -/
def crc32cb (state : Word) (v : Byte) : Word := instruction 1 state v.toNat

def loadLe64 (p : List Byte) : UInt64 :=
  (List.range 8).foldl (fun v i => v ||| (p.getD i 0).toUInt64 <<< UInt64.ofNat (i * 8)) 0

def loadLe32 (p : List Byte) : Word :=
  (p.getD 0 0).toUInt32 ||| (p.getD 1 0).toUInt32 <<< 8 ||| (p.getD 2 0).toUInt32 <<< 16 |||
    (p.getD 3 0).toUInt32 <<< 24

/-! ### `rmr_fc16_crc32c_update` -/

/-- What the preprocessor selects. -/
inductive Build where
  | aarch64
  | x86_64
  | i386
  | portable
  deriving DecidableEq, Repr

/-- `for (; i + k <= len; i += k)`, and what is left. -/
def steps (k : ℕ) [NeZero k] (step : Word → List Byte → Word) (state : Word) (data : List Byte) :
    Word × List Byte :=
  if k ≤ data.length then steps k step (step state (data.take k)) (data.drop k)
  else (state, data)
termination_by data.length
decreasing_by
  have hk := Nat.pos_of_neZero k
  rw [List.length_drop]
  omega

def fc16Update (b : Build) (state : Word) (data : Option (List Byte)) : Word :=
  match data with
  | none => state
  | some data =>
      match b with
      | .aarch64 =>
          let (state, data) := steps 8 (fun state p => crc32cd state (loadLe64 p)) state data
          let (state, data) := steps 4 (fun state p => crc32cw state (loadLe32 p)) state data
          data.foldl crc32cb state
      | .x86_64 =>
          let (state, data) :=
            steps 8 (fun state p => (mmCrc32U64 state.toUInt64 (loadLe64 p)).toUInt32) state data
          let (state, data) := steps 4 (fun state p => mmCrc32U32 state (loadLe32 p)) state data
          data.foldl mmCrc32U8 state
      | .i386 =>
          let (state, data) := steps 4 (fun state p => mmCrc32U32 state (loadLe32 p)) state data
          data.foldl mmCrc32U8 state
      | .portable => Fc16.crc32cUpdate state data

/-! ### Bit by bit -/

/-- The loops over bytes and bits, which differ in how they get their mask. -/
def bitwiseUpdate (mask : Word → Word) (crc : Word) (p : List Byte) : Word :=
  p.foldl (fun crc b => (List.range 8).foldl
    (fun crc _ => (crc >>> 1) ^^^ (0x82f63b78 &&& mask crc)) (crc ^^^ b.toUInt32)) crc

/-- `0u - (crc & 1u)` -/
def unsignedMask (crc : Word) : Word := 0 - (crc &&& 1)

/-- `(uint32_t)-(int32_t)(crc & 1u)` -/
def signedMask (crc : Word) : Word := (-(crc &&& 1).toInt32).toUInt32

/-- `rmr_re_crc32c` -/
def reCrc32c (data : Span 32) : Word :=
  if data.data = none ∧ data.len ≠ 0 then 0
  else ~~~bitwiseUpdate unsignedMask 0xffffffff data.bytes

/-- `crc32c_update` of `rmr_stability.c` -/
def stabilityUpdate (crc : Word) (p : List Byte) : Word := bitwiseUpdate signedMask crc p

/-- `RmR_Stability_CRC32C` -/
def stabilityCrc32c {w : ℕ} (data : Span w) : Word :=
  if data.data = none ∧ data.len ≠ 0 then 0
  else stabilityUpdate 0xffffffff data.bytes ^^^ 0xffffffff

/-- `rmr_crc32c_update` of `rmr_visual_prototype.c` -/
def visualUpdate (crc : Word) (p : List Byte) : Word := bitwiseUpdate signedMask crc p

def crcU16 (crc : Word) (value : UInt16) : Word :=
  visualUpdate crc [value.toUInt8, (value >>> 8).toUInt8]

def crcU32 (crc value : Word) : Word :=
  visualUpdate crc [value.toUInt8, (value >>> 8).toUInt8, (value >>> 16).toUInt8,
    (value >>> 24).toUInt8]

/-- The functions that go on from a remainder. -/
inductive Updater where
  | fc16 (b : Build)
  | stability
  | visual
  deriving DecidableEq, Repr

def Updater.run (u : Updater) (state : Word) (p : List Byte) : Word :=
  match u with
  | .fc16 b => fc16Update b state (some p)
  | .stability => stabilityUpdate state p
  | .visual => visualUpdate state p

/-! ### Agreement -/

theorem signedMask_eq (crc : Word) : signedMask crc = unsignedMask crc := by
  rcases Crc.low_bit crc with h | h
  · rw [signedMask, unsignedMask, h]
    rfl
  · rw [signedMask, unsignedMask, h]
    rfl

theorem bitwiseUpdate_eq {mask : Word → Word} (hmask : ∀ crc, mask crc = unsignedMask crc)
    (crc : Word) (p : List Byte) : bitwiseUpdate mask crc p = Crc.update 0x82f63b78 crc p := by
  have hstep : (fun (crc : Word) (_ : ℕ) => (crc >>> 1) ^^^ (0x82f63b78 &&& mask crc)) =
      fun crc _ => Crc.bitStep 0x82f63b78 crc := by
    funext crc _
    rw [hmask]
    rfl
  rw [bitwiseUpdate, hstep]
  rfl

theorem toBytes_loadLe32 {p : List Byte} (h : p.length = 4) :
    LittleEndian.toBytes 4 (loadLe32 p).toNat = p := by
  rw [← LittleEndian.toBytes_word]
  exact Fc16.putU32_getU32 h

/-- The bytes taken in so far are the low bytes of the word. -/
theorem toNat_loadLe64_loop (p : List Byte) {n : ℕ} (hn : n ≤ 8) (hp : n ≤ p.length) :
    ((List.range n).foldl
      (fun v i => v ||| (p.getD i 0).toUInt64 <<< UInt64.ofNat (i * 8)) 0).toNat =
      LittleEndian.ofBytes (p.take n) := by
  induction n with
  | zero => rfl
  | succ n ih =>
      have hlow := LittleEndian.ofBytes_lt (p.take n)
      rw [List.length_take, Nat.min_eq_left (by omega), show 256 = 2 ^ 8 from rfl, ← pow_mul,
        Nat.mul_comm] at hlow
      have hget : p.getD n 0 = p[n] := List.getD_eq_getElem _ _ _
      have hb := p[n].toNat_lt
      have hshift : (p[n].toUInt64 <<< UInt64.ofNat (n * 8)).toNat = p[n].toNat <<< (n * 8) := by
        have hfits : p[n].toNat * 2 ^ (n * 8) < 2 ^ 64 :=
          calc p[n].toNat * 2 ^ (n * 8) < 2 ^ 8 * 2 ^ (n * 8) :=
                Nat.mul_lt_mul_of_pos_right hb (Nat.two_pow_pos _)
            _ = 2 ^ (8 + n * 8) := (pow_add 2 8 (n * 8)).symm
            _ ≤ 2 ^ 64 := Nat.pow_le_pow_right (by omega) (by omega)
        rw [UInt64.toNat_shiftLeft, UInt8.toNat_toUInt64, UInt64.toNat_ofNat',
          Nat.mod_eq_of_lt (show n * 8 < 2 ^ 64 by omega),
          Nat.mod_eq_of_lt (show n * 8 < 64 by omega),
          Nat.shiftLeft_eq, Nat.mod_eq_of_lt hfits]
      rw [List.range_succ, List.foldl_append, List.foldl_cons, List.foldl_nil, UInt64.toNat_or,
        ih (by omega) (by omega), hget, hshift, Nat.or_comm, ← Nat.shiftLeft_add_eq_or_of_lt hlow,
        List.take_succ_eq_append_getElem (by omega), LittleEndian.ofBytes_append, List.length_take,
        Nat.min_eq_left (by omega), Nat.shiftLeft_eq, LittleEndian.ofBytes, LittleEndian.ofBytes,
        show 256 = 2 ^ 8 from rfl, ← pow_mul, Nat.mul_comm 8 n]
      ring

theorem toBytes_loadLe64 {p : List Byte} (h : p.length = 8) :
    LittleEndian.toBytes 8 (loadLe64 p).toNat = p := by
  rw [loadLe64, toNat_loadLe64_loop p (by omega) (by omega), ← h, List.take_length,
    LittleEndian.toBytes_ofBytes]

/-- Steps of `k` bytes that take in their bytes leave a rest that is still to be
taken in. -/
theorem update_steps {k : ℕ} [NeZero k] {step : Word → List Byte → Word}
    (hstep : ∀ state p, p.length = k → step state p = Crc.update 0x82f63b78 state p)
    (state : Word) (data : List Byte) :
    Crc.update 0x82f63b78 (steps k step state data).1 (steps k step state data).2 =
      Crc.update 0x82f63b78 state data := by
  fun_induction steps k step state data with
  | case1 state data hle ih =>
      have htake : (data.take k).length = k := by rw [List.length_take, Nat.min_eq_left hle]
      rw [ih, hstep _ _ htake, ← Crc.update_append, List.take_append_drop]
  | case2 => rfl

theorem foldl_bytes (step : Word → Byte → Word)
    (hstep : ∀ state b, step state b = instruction 1 state b.toNat) (state : Word)
    (data : List Byte) : data.foldl step state = Crc.update 0x82f63b78 state data := by
  have hbyte : step = Crc.byteStep 0x82f63b78 := by
    funext state b
    have hb : UInt8.ofNat b.toNat = b := UInt8.ofNat_toNat
    rw [hstep]
    change Crc.byteStep 0x82f63b78 state (UInt8.ofNat b.toNat) = _
    rw [hb]
  rw [hbyte, Crc.update]

theorem instruction_loadLe32 (state : Word) (p : List Byte) (h : p.length = 4) :
    instruction 4 state (loadLe32 p).toNat = Crc.update 0x82f63b78 state p := by
  rw [instruction, toBytes_loadLe32 h]

theorem instruction_loadLe64 (state : Word) (p : List Byte) (h : p.length = 8) :
    instruction 8 state (loadLe64 p).toNat = Crc.update 0x82f63b78 state p := by
  rw [instruction, toBytes_loadLe64 h]

/-- Wherever it is compiled, the update takes in the bytes one by one. -/
theorem fc16Update_eq (b : Build) (state : Word) (data : List Byte) :
    fc16Update b state (some data) = Crc.update 0x82f63b78 state data := by
  have hword : ∀ state p, p.length = 4 →
      mmCrc32U32 state (loadLe32 p) = Crc.update 0x82f63b78 state p := instruction_loadLe32
  cases b with
  | aarch64 =>
      have hword' : ∀ state p, p.length = 4 →
          crc32cw state (loadLe32 p) = Crc.update 0x82f63b78 state p := instruction_loadLe32
      have hwide : ∀ state p, p.length = 8 →
          crc32cd state (loadLe64 p) = Crc.update 0x82f63b78 state p := instruction_loadLe64
      rw [fc16Update]
      dsimp only
      rw [foldl_bytes crc32cb fun _ _ => rfl, update_steps hword', update_steps hwide]
  | x86_64 =>
      have hwide : ∀ state p, p.length = 8 →
          (mmCrc32U64 state.toUInt64 (loadLe64 p)).toUInt32 = Crc.update 0x82f63b78 state p := by
        intro state p hp
        rw [mmCrc32U64, UInt32.toUInt32_toUInt64, UInt32.toUInt32_toUInt64,
          instruction_loadLe64 state p hp]
      rw [fc16Update]
      dsimp only
      rw [foldl_bytes mmCrc32U8 fun _ _ => rfl, update_steps hword, update_steps hwide]
  | i386 =>
      rw [fc16Update]
      dsimp only
      rw [foldl_bytes mmCrc32U8 fun _ _ => rfl, update_steps hword]
  | portable => exact Fc16.crc32cUpdate_eq state data

theorem stabilityUpdate_eq (crc : Word) (p : List Byte) :
    stabilityUpdate crc p = Crc.update 0x82f63b78 crc p := bitwiseUpdate_eq signedMask_eq crc p

theorem visualUpdate_eq (crc : Word) (p : List Byte) :
    visualUpdate crc p = Visual.crc32cUpdate crc p := bitwiseUpdate_eq signedMask_eq crc p

theorem run_eq (u : Updater) (state : Word) (p : List Byte) :
    u.run state p = Crc.update 0x82f63b78 state p := by
  cases u with
  | fc16 b => exact fc16Update_eq b state p
  | stability => exact stabilityUpdate_eq state p
  | visual => exact visualUpdate_eq state p

theorem foldl_run (pieces : List (Updater × List Byte)) (state : Word) :
    pieces.foldl (fun state piece => piece.1.run state piece.2) state =
      Crc.update 0x82f63b78 state (pieces.flatMap Prod.snd) := by
  induction pieces generalizing state with
  | nil => rfl
  | cons piece pieces ih =>
      rw [List.foldl_cons, run_eq, ih, List.flatMap_cons, Crc.update_append]

theorem crc32c_eq (bytes : List Byte) :
    Fc16.crc32c bytes = Crc.update 0x82f63b78 0xffffffff bytes ^^^ 0xffffffff := by
  rw [Fc16.crc32c, Fc16.crc32cFinish, Fc16.crc32cUpdate_eq]

/-- However a string of bytes is split, and whichever function takes in which piece,
the checksum is that of the string; the functions that take a string at once
return it too, unless they are given a null pointer and a length. -/
theorem crc32c_agree :
    (∀ pieces : List (Updater × List Byte),
      Fc16.crc32cFinish
          (pieces.foldl (fun state piece => piece.1.run state piece.2) 0xffffffff) =
        Fc16.crc32c (pieces.flatMap Prod.snd)) ∧
    (∀ data : Span 32, reCrc32c data =
      if data.data = none ∧ data.len ≠ 0 then 0 else Fc16.crc32c data.bytes) ∧
    (∀ (w : ℕ) (data : Span w), stabilityCrc32c data =
      if data.data = none ∧ data.len ≠ 0 then 0 else Fc16.crc32c data.bytes) ∧
    (∀ (u : Updater) (state : Word) (v : UInt16),
      crcU16 state v = u.run state (LittleEndian.toBytes 2 v.toNat)) ∧
    (∀ (u : Updater) (state v : Word),
      crcU32 state v = u.run state (LittleEndian.toBytes 4 v.toNat)) ∧
    ∀ (b : Build) (state : Word), fc16Update b state none = state := by
  refine ⟨fun pieces => ?_, fun data => ?_, fun w data => ?_, fun u state v => ?_,
    fun u state v => ?_, fun b state => rfl⟩
  · rw [foldl_run, Fc16.crc32cFinish, crc32c_eq]
  · have hnot : ∀ c : Word, ~~~c = c ^^^ 0xffffffff := fun c => (UInt32.xor_neg_one).symm
    rw [reCrc32c, bitwiseUpdate_eq (fun _ => rfl), crc32c_eq, hnot]
  · rw [stabilityCrc32c, stabilityUpdate_eq, crc32c_eq]
  · have hbytes : [v.toUInt8, (v >>> 8).toUInt8] = LittleEndian.toBytes 2 v.toNat := by
      have hv := v.toNat_lt
      simp only [LittleEndian.toBytes, List.cons.injEq, ← UInt8.toNat_inj, UInt16.toNat_toUInt8,
        UInt16.toNat_shiftRight, UInt8.toNat_ofNat', Nat.shiftRight_eq_div_pow]
      simp
    rw [crcU16, visualUpdate_eq, run_eq, hbytes]
    rfl
  · rw [crcU32, visualUpdate_eq, run_eq, LittleEndian.toBytes_word]
    rfl

end Blake3.Crc32c
