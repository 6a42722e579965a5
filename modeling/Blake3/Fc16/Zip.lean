import Blake3.Fc16.Seal
import Blake3.Memory
import Mathlib.Tactic.NormNum

/-!
The container of a snapshot, `rmr_fc16_zip_store` and
`rmr_fc16_zip_verify_roundtrip` of `rmr_fc16_zip.c`: an archive with one entry,
which is stored. The writer goes through the archive field by field, and keeps its
offsets in a `size_t` of 64 bits; the reader looks at the local header only.
-/

namespace Blake3.Fc16

/-! ### CRC-32 -/

def crc32Nibble : Vector Word 16 := #v[
  0x00000000, 0x1db71064, 0x3b6e20c8, 0x26d930ac, 0x76dc4190, 0x6b6b51f4, 0x4db26158, 0x5005713c,
  0xedb88320, 0xf00f9344, 0xd6d6a3e8, 0xcb61b38c, 0x9b64c2b0, 0x86d3d2d4, 0xa00ae278, 0xbdbdf21c]

def crc32Fold (state : Word) : Word :=
  (state >>> 4) ^^^ crc32Nibble.get (Fin.ofNat 16 (state &&& 0x0f).toNat)

/-- `rmr_fc16_crc32_ieee`, its pointer not being null. -/
def crc32Ieee (data : List Byte) : Word :=
  data.foldl (fun state b => crc32Fold (crc32Fold (state ^^^ b.toUInt32))) 0xffffffff ^^^ 0xffffffff

/-! ### The writer -/

/-- `p16` -/
def putU16 (v : UInt16) : List Byte := [v.toUInt8, (v >>> 8).toUInt8]

/-- What is written at an offset, and how far the offset is moved. -/
abbrev Field := List Byte × ℕ

def Field.u16 (v : UInt16) : Field := (putU16 v, 2)
def Field.u32 (v : Word) : Field := (putU32 v, 4)

def emit (out : List Byte × ℕ) (field : Field) : Result (List Byte × ℕ) := do
  let mem ← Memory.storeAll out.1 out.2 field.1
  pure (mem, out.2 + field.2)

def emitAll (out : List Byte × ℕ) (fields : List Field) : Result (List Byte × ℕ) :=
  fields.foldlM emit out

/-- `custody16.bin` -/
def zipName : List Byte :=
  [0x63, 0x75, 0x73, 0x74, 0x6f, 0x64, 0x79, 0x31, 0x36, 0x2e, 0x62, 0x69, 0x6e]

/-- The local header, up to its name. -/
def localHeader (crc : Word) (n : ℕ) : List Field :=
  [.u32 0x04034b50, .u16 20, .u16 0, .u16 0, .u16 0, .u16 0, .u32 crc, .u32 (UInt32.ofNat n),
    .u32 (UInt32.ofNat n), .u16 13, .u16 0, (zipName, 13)]

/-- The header in the central directory. -/
def centralHeader (crc : Word) (n : ℕ) : List Field :=
  [.u32 0x02014b50, .u16 20, .u16 20, .u16 0, .u16 0, .u16 0, .u16 0, .u32 crc,
    .u32 (UInt32.ofNat n), .u32 (UInt32.ofNat n), .u16 13, .u16 0, .u16 0, .u16 0, .u16 0, .u32 0,
    .u32 0, (zipName, 13)]

/-- The end of the central directory, with its size and its offset. -/
def endRecord (cds cd : ℕ) : List Field :=
  [.u32 0x06054b50, .u16 0, .u16 0, .u16 1, .u16 1, .u32 (UInt32.ofNat cds), .u32 (UInt32.ofNat cd),
    .u16 0]

/-- `rmr_fc16_zip_store`, none of its pointers being null, with what `out` holds
afterwards and the length of the archive. -/
def zipStore (payload out : List Byte) : Result (Except Status (List Byte × ℕ)) :=
  let n := payload.length
  if 0xffffffff < n then pure (.error .errArgument)
  else if out.length < 30 + 13 + n + 46 + 13 + 22 then pure (.error .errCapacity)
  else do
    let crc := crc32Ieee payload
    let (out, cd) ← emitAll (out, 0) (localHeader crc n ++ [(payload, n)])
    let (out, o) ← emitAll (out, cd) (centralHeader crc n)
    let cds := o - cd
    let (out, o) ← emitAll (out, o) (endRecord cds cd)
    pure (.ok (out, o))

/-! ### The reader -/

/-- `g16` -/
def load16 (mem : List Byte) (p : ℕ) : Result UInt16 := do
  let b₀ ← Memory.load mem p
  let b₁ ← Memory.load mem (p + 1)
  pure (b₀.toUInt16 ||| b₁.toUInt16 <<< 8)

/-- The differences of `e` and the bytes from position `p` on. -/
def diffLoop (z : List Byte) : ℕ → List Byte → Byte → Result Byte
  | _, [], d => pure d
  | p, b :: e, d => do
      let a ← Memory.load z p
      diffLoop z (p + 1) e (d ||| (a ^^^ b))

def zipVerifyRoundtrip (z e : Option (List Byte)) : Result Status :=
  match z, e with
  | some z, some e =>
      if z.length < 43 then pure .errArgument
      else do
        let signature ← Memory.load32 z 0
        if signature ≠ 0x04034b50 then pure .errArgument
        else do
          let method ← load16 z 8
          if method ≠ 0 then pure .errIntegrity
          else do
            let crc ← Memory.load32 z 14
            let cs ← Memory.load32 z 18
            let us ← Memory.load32 z 22
            let nl ← load16 z 26
            let xl ← load16 z 28
            if cs ≠ us ∨ us.toNat ≠ e.length then pure .errIntegrity
            else
              let off := 30 + nl.toNat + xl.toNat
              if z.length < off + e.length then pure .errIntegrity
              else do
                let d ← diffLoop z off e 0
                if d ≠ 0 then pure .errIntegrity
                else do
                  let stored ← Memory.region z off e.length
                  if crc32Ieee stored ≠ crc then pure .errIntegrity else pure .ok
  | _, _ => pure .errArgument

/-! ### What is read -/

def word16 (z : List Byte) (p : ℕ) : UInt16 :=
  (z.getD p 0).toUInt16 ||| (z.getD (p + 1) 0).toUInt16 <<< 8

def word32 (z : List Byte) (p : ℕ) : Word :=
  Blake3.load32 (z.getD p 0) (z.getD (p + 1) 0) (z.getD (p + 2) 0) (z.getD (p + 3) 0)

theorem load_eq_getD {z : List Byte} {p : ℕ} (h : p < z.length) :
    Memory.load z p = .ok (z.getD p 0) := by
  rw [Memory.load_of_lt h, List.getD_eq_getElem _ _ h]

theorem load16_eq {z : List Byte} {p : ℕ} (h : p + 2 ≤ z.length) :
    load16 z p = .ok (word16 z p) := by
  rw [load16, load_eq_getD (by omega), load_eq_getD (by omega)]
  rfl

theorem load32_eq {z : List Byte} {p : ℕ} (h : p + 4 ≤ z.length) :
    Memory.load32 z p = .ok (word32 z p) := by
  rw [Memory.load32, load_eq_getD (by omega), load_eq_getD (by omega), load_eq_getD (by omega),
    load_eq_getD (by omega)]
  rfl

/-- The bytes that follow the local header, its name and its extra field. -/
def storedAt (z : List Byte) : ℕ := 30 + (word16 z 26).toNat + (word16 z 28).toNat

theorem diffLoop_eq {z : List Byte} {p : ℕ} (e : List Byte) (d : Byte)
    (h : p + e.length ≤ z.length) :
    ∃ d', diffLoop z p e d = .ok d' ∧ (d' = 0 ↔ d = 0 ∧ (z.drop p).take e.length = e) := by
  induction e generalizing p d with
  | nil => exact ⟨d, rfl, by simp⟩
  | cons b e ih =>
      rw [List.length_cons] at h
      have hlt : p < z.length := by omega
      obtain ⟨d', hloop, hzero⟩ := ih (p := p + 1) (d ||| (z[p] ^^^ b)) (by omega)
      refine ⟨d', ?_, ?_⟩
      · rw [diffLoop, Memory.load_of_lt hlt, Result.ok_bind, hloop]
      · rw [hzero, UInt8.or_eq_zero_iff, UInt8.xor_eq_zero_iff, List.drop_eq_getElem_cons hlt,
          List.length_cons, List.take_succ_cons, List.cons.injEq, and_assoc]

/-- What the reader accepts: an entry that is stored, whose sizes are the length
expected, and whose bytes are the bytes expected and have the checksum of the header.
It never reads outside of the archive. -/
theorem zipVerifyRoundtrip_eq (z e : List Byte) :
    ∃ status, zipVerifyRoundtrip (some z) (some e) = .ok status ∧
      (status = .ok ↔ 43 ≤ z.length ∧ word32 z 0 = 0x04034b50 ∧ word16 z 8 = 0 ∧
        word32 z 18 = word32 z 22 ∧ (word32 z 22).toNat = e.length ∧
        storedAt z + e.length ≤ z.length ∧ (z.drop (storedAt z)).take e.length = e ∧
        crc32Ieee e = word32 z 14) := by
  have hreject : ∀ {s : Status} {p : Prop}, s ≠ .ok → ¬p →
      ∃ status, (pure s : Result Status) = .ok status ∧ (status = .ok ↔ p) :=
    fun hs hp => ⟨_, rfl, iff_of_false hs hp⟩
  rw [zipVerifyRoundtrip]
  by_cases hlong : z.length < 43
  · rw [if_pos hlong]
    exact hreject (by decide) fun h => absurd h.1 (by omega)
  rw [if_neg hlong, load32_eq (by omega), Result.ok_bind]
  by_cases hsignature : word32 z 0 = 0x04034b50
  swap
  · rw [if_pos hsignature]
    exact hreject (by decide) fun h => hsignature h.2.1
  rw [if_neg (not_not.mpr hsignature), load16_eq (by omega), Result.ok_bind]
  by_cases hmethod : word16 z 8 = 0
  swap
  · rw [if_pos hmethod]
    exact hreject (by decide) fun h => hmethod h.2.2.1
  rw [if_neg (not_not.mpr hmethod), load32_eq (by omega), Result.ok_bind, load32_eq (by omega),
    Result.ok_bind, load32_eq (by omega), Result.ok_bind, load16_eq (by omega), Result.ok_bind,
    load16_eq (by omega), Result.ok_bind]
  by_cases hsizes : word32 z 18 ≠ word32 z 22 ∨ (word32 z 22).toNat ≠ e.length
  · rw [if_pos hsizes]
    refine hreject (by decide) fun h => ?_
    rcases hsizes with hsizes | hsizes
    · exact hsizes h.2.2.2.1
    · exact hsizes h.2.2.2.2.1
  rw [if_neg hsizes]
  rw [not_or, not_not, not_not] at hsizes
  dsimp only
  rw [← storedAt]
  by_cases hfits : z.length < storedAt z + e.length
  · rw [if_pos hfits]
    exact hreject (by decide) fun h => absurd h.2.2.2.2.2.1 (by omega)
  -- the differences are or-ed, so zero means that there are none
  obtain ⟨d, hloop, hzero⟩ := diffLoop_eq (z := z) (p := storedAt z) e 0 (by omega)
  rw [if_neg hfits, hloop, Result.ok_bind]
  by_cases hd : d = 0
  swap
  · rw [if_pos hd]
    exact hreject (by decide) fun h => hd (hzero.mpr ⟨rfl, h.2.2.2.2.2.2.1⟩)
  have hsame := (hzero.mp hd).2
  rw [if_neg (not_not.mpr hd), Memory.region_eq (by omega), Result.ok_bind, hsame]
  by_cases hcrc : crc32Ieee e = word32 z 14
  · rw [if_neg (not_not.mpr hcrc)]
    exact ⟨_, rfl, iff_of_true rfl
      ⟨by omega, hsignature, hmethod, hsizes.1, hsizes.2, by omega, rfl, hcrc⟩⟩
  · rw [if_pos hcrc]
    exact hreject (by decide) fun h => hcrc h.2.2.2.2.2.2.2

/-! ### What is written -/

/-- Fields that move the offset by what they write. -/
def Exact (fields : List Field) : Prop := ∀ field ∈ fields, field.1.length = field.2

def layout (fields : List Field) : List Byte := fields.flatMap Prod.fst

theorem emitAll_eq {fields : List Field} (hexact : Exact fields) {mem : List Byte} {o : ℕ}
    (h : o + (layout fields).length ≤ mem.length) :
    emitAll (mem, o) fields =
      .ok (Buffer.overwrite mem o (layout fields), o + (layout fields).length) := by
  induction fields generalizing mem o with
  | nil => exact congrArg Except.ok (Prod.ext (Buffer.overwrite_nil mem o).symm rfl)
  | cons field fields ih =>
      have hlength : (layout (field :: fields)).length =
          field.1.length + (layout fields).length := by
        rw [layout, List.flatMap_cons, List.length_append]
        rfl
      rw [hlength] at h
      have hfirst : o + field.1.length ≤ mem.length := by omega
      have hemit : emit (mem, o) field =
          .ok (Buffer.overwrite mem o field.1, o + field.1.length) := by
        rw [emit, Memory.storeAll_eq _ hfirst, ← hexact field List.mem_cons_self]
        rfl
      rw [emitAll, List.foldlM_cons, hemit, Result.ok_bind]
      have hrest := @ih (fun f hf => hexact f (List.mem_cons_of_mem _ hf))
        (Buffer.overwrite mem o field.1) (o + field.1.length)
        (by rw [Buffer.length_overwrite hfirst]; omega)
      rw [emitAll, Buffer.overwrite_overwrite hfirst, Nat.add_assoc, ← hlength] at hrest
      exact hrest

theorem exact_localHeader (crc : Word) (n : ℕ) : Exact (localHeader crc n) := by
  simp [Exact, localHeader, Field.u16, Field.u32, putU16, zipName]

theorem exact_centralHeader (crc : Word) (n : ℕ) : Exact (centralHeader crc n) := by
  simp [Exact, centralHeader, Field.u16, Field.u32, putU16, zipName]

theorem exact_endRecord (cds cd : ℕ) : Exact (endRecord cds cd) := by
  simp [Exact, endRecord, Field.u16, Field.u32, putU16]

/-- Fields that are written behind what has been written so far. -/
theorem emitAll_overwrite {fields : List Field} (hexact : Exact fields) (mem xs : List Byte)
    {ys : List Byte} (hys : ys = xs ++ layout fields) (h : ys.length ≤ mem.length) :
    emitAll (Buffer.overwrite mem 0 xs, xs.length) fields =
      .ok (Buffer.overwrite mem 0 ys, ys.length) := by
  subst hys
  rw [List.length_append] at h
  have hfirst : 0 + xs.length ≤ mem.length := by omega
  have hwrite : Buffer.overwrite (Buffer.overwrite mem 0 xs) (0 + xs.length) (layout fields) =
      Buffer.overwrite mem 0 (xs ++ layout fields) := Buffer.overwrite_overwrite hfirst
  rw [Nat.zero_add] at hwrite
  rw [emitAll_eq hexact (by rw [Buffer.length_overwrite hfirst]; omega), hwrite, List.length_append]

/-- The archive of a payload, up to the central directory. -/
def localRecord (payload : List Byte) : List Byte :=
  layout (localHeader (crc32Ieee payload) payload.length) ++ payload

/-- The central directory. -/
def centralDirectory (payload : List Byte) : List Byte :=
  layout (centralHeader (crc32Ieee payload) payload.length)

def archive (payload : List Byte) : List Byte :=
  localRecord payload ++ centralDirectory payload ++
    layout (endRecord (centralDirectory payload).length (localRecord payload).length)

theorem length_localRecord (payload : List Byte) :
    (localRecord payload).length = payload.length + 43 :=
  List.length_append.trans (Nat.add_comm 43 _)

theorem length_centralDirectory (payload : List Byte) : (centralDirectory payload).length = 59 :=
  rfl

theorem length_endRecord (cds cd : ℕ) : (layout (endRecord cds cd)).length = 22 := rfl

theorem length_archive (payload : List Byte) : (archive payload).length = payload.length + 124 := by
  rw [archive, List.length_append, List.length_append, length_localRecord, length_centralDirectory,
    length_endRecord]

theorem zipStore_eq {payload out : List Byte} (hn : payload.length ≤ 0xffffffff)
    (hcap : payload.length + 124 ≤ out.length) :
    zipStore payload out =
      .ok (.ok (Buffer.overwrite out 0 (archive payload), payload.length + 124)) := by
  have hstored : Exact (localHeader (crc32Ieee payload) payload.length ++
      [(payload, payload.length)]) := by
    intro field hfield
    rcases List.mem_append.mp hfield with hfield | hfield
    · exact exact_localHeader _ _ field hfield
    · rw [List.mem_singleton.mp hfield]
  have hlocal : localRecord payload = [] ++
      layout (localHeader (crc32Ieee payload) payload.length ++ [(payload, payload.length)]) := by
    rw [layout, List.flatMap_append, localRecord, List.nil_append]
    exact congrArg _ (List.append_nil payload).symm
  have hfirst := emitAll_overwrite hstored out [] hlocal (by rw [length_localRecord]; omega)
  have hdirectory := emitAll_overwrite (exact_centralHeader (crc32Ieee payload) payload.length) out
    (localRecord payload) rfl
    (by rw [List.length_append, length_localRecord]; change _ + 59 ≤ _; omega)
  have hend := emitAll_overwrite
    (exact_endRecord (centralDirectory payload).length (localRecord payload).length) out
    (localRecord payload ++ centralDirectory payload) (Eq.refl (archive payload))
    (by rw [length_archive]; omega)
  have hsize : (localRecord payload ++ centralDirectory payload).length -
      (localRecord payload).length = (centralDirectory payload).length := by
    rw [List.length_append, Nat.add_sub_cancel_left]
  rw [Buffer.overwrite_nil] at hfirst
  rw [zipStore]
  dsimp only
  rw [if_neg (by omega), if_neg (by omega)]
  rw [show (0 : ℕ) = ([] : List Byte).length from rfl, hfirst, Result.ok_bind]
  dsimp only
  rw [hdirectory, Result.ok_bind]
  dsimp only
  rw [← centralDirectory, hsize, hend, Result.ok_bind, length_archive]
  rfl

/-! ### The archive -/

theorem word32_drop (z : List Byte) (p : ℕ) : word32 z p = word32 (z.drop p) 0 := by
  rw [word32, word32]
  simp only [List.getD_eq_getElem?_getD, List.getElem?_drop, Nat.add_zero, Nat.zero_add]

theorem take_drop_archive (payload : List Byte) :
    ((archive payload).drop (payload.length + 43)).take 59 = centralDirectory payload := by
  rw [archive, List.append_assoc, List.drop_left' (length_localRecord payload),
    List.take_left' (length_centralDirectory payload)]

theorem drop_archive (payload : List Byte) (k : ℕ) :
    (archive payload).drop (payload.length + 102 + k) =
      (layout (endRecord 59 (payload.length + 43))).drop k := by
  have hlength : (localRecord payload ++ centralDirectory payload).length =
      payload.length + 102 := by
    rw [List.length_append, length_localRecord, length_centralDirectory]
  rw [← List.drop_drop, archive, List.drop_left' hlength, length_localRecord,
    length_centralDirectory]

/-- The reader accepts what the writer wrote. -/
theorem zipVerifyRoundtrip_archive {payload : List Byte} (hn : payload.length ≤ 0xffffffff) :
    zipVerifyRoundtrip (some (archive payload)) (some payload) = .ok .ok := by
  obtain ⟨status, hverify, hok⟩ := zipVerifyRoundtrip_eq (archive payload) payload
  have hsize : (UInt32.ofNat payload.length).toNat = payload.length := by
    rw [UInt32.toNat_ofNat', Nat.mod_eq_of_lt (by omega)]
  have hheader : archive payload = layout (localHeader (crc32Ieee payload) payload.length) ++
      (payload ++ (centralDirectory payload ++
        layout (endRecord (centralDirectory payload).length (localRecord payload).length))) := by
    rw [archive, List.append_assoc]
    conv_lhs => rw [localRecord, List.append_assoc]
    rfl
  rw [hverify, hok.mpr]
  rw [hheader]
  generalize centralDirectory payload ++
    layout (endRecord (centralDirectory payload).length (localRecord payload).length) = rest
  have hfirst : word32 (layout (localHeader (crc32Ieee payload) payload.length) ++
      (payload ++ rest)) 22 = UInt32.ofNat payload.length := getU32_putU32 _
  have hat : storedAt (layout (localHeader (crc32Ieee payload) payload.length) ++
      (payload ++ rest)) = 43 := by
    have hname : word16 (putU16 13) 0 = 13 ∧ word16 (putU16 0) 0 = 0 := by decide
    change 30 + (word16 (putU16 13) 0).toNat + (word16 (putU16 0) 0).toNat = 43
    rw [hname.1, hname.2]
    rfl
  have hlength : (layout (localHeader (crc32Ieee payload) payload.length)).length = 43 := rfl
  have hstored : word16 (putU16 0) 0 = 0 := by decide
  refine ⟨?_, getU32_putU32 _, hstored, rfl, ?_, ?_, ?_, (getU32_putU32 _).symm⟩
  · rw [List.length_append, hlength]
    omega
  · rw [hfirst, hsize]
  · rw [hat, List.length_append, hlength, List.length_append]
    omega
  · rw [hat, List.drop_left' hlength, List.take_left' rfl]

theorem endRecord_signature (payload : List Byte) :
    word32 (archive payload) (payload.length + 102) = 0x06054b50 := by
  rw [word32_drop, drop_archive payload 0]
  exact getU32_putU32 0x06054b50

/-- The end record tells the size of the central directory, and its position when
that fits. -/
theorem endRecord_right (payload : List Byte) :
    (word32 (archive payload) (payload.length + 102 + 12)).toNat = 59 ∧
      ((word32 (archive payload) (payload.length + 102 + 16)).toNat = payload.length + 43 ↔
        payload.length + 43 < 2 ^ 32) := by
  have hoffset : word32 (archive payload) (payload.length + 102 + 16) =
      UInt32.ofNat (payload.length + 43) := by
    rw [word32_drop, drop_archive]
    exact getU32_putU32 _
  have hsize : word32 (archive payload) (payload.length + 102 + 12) = 59 := by
    rw [word32_drop, drop_archive]
    exact getU32_putU32 59
  rw [hsize, hoffset, UInt32.toNat_ofNat']
  refine ⟨rfl, fun h => ?_, Nat.mod_eq_of_lt⟩
  rw [← h]
  exact Nat.mod_lt _ (Nat.two_pow_pos 32)

/-- The archive of a payload is 124 bytes longer than the payload, is accepted by the
reader, and ends with a record that tells the size of the central directory and, as
long as it fits a word, its position. Whatever the reader accepts holds the bytes
that were expected, and it reads nothing outside. -/
theorem zip_spec (payload out z e : List Byte) :
    (payload.length ≤ 0xffffffff → payload.length + 124 ≤ out.length →
      ∃ z, z.length = payload.length + 124 ∧
        zipStore payload out = .ok (.ok (z ++ out.drop z.length, z.length)) ∧
        zipVerifyRoundtrip (some z) (some payload) = .ok .ok ∧
        (z.drop (payload.length + 43)).take 59 = centralDirectory payload ∧
        word32 z (payload.length + 102) = 0x06054b50 ∧
        ((word32 z (payload.length + 102 + 12)).toNat = 59 ∧
            (word32 z (payload.length + 102 + 16)).toNat = payload.length + 43 ↔
          payload.length + 43 < 2 ^ 32)) ∧
    ∃ status, zipVerifyRoundtrip (some z) (some e) = .ok status ∧
      (status = .ok →
        storedAt z + e.length ≤ z.length ∧ (z.drop (storedAt z)).take e.length = e) := by
  refine ⟨fun hn hcap => ⟨archive payload, length_archive payload, ?_,
    zipVerifyRoundtrip_archive hn, take_drop_archive payload, ?_, ?_⟩, ?_⟩
  · rw [zipStore_eq hn hcap, Buffer.overwrite, List.take_zero, List.nil_append, Nat.zero_add,
      length_archive]
  · exact endRecord_signature payload
  · exact (and_iff_right (endRecord_right payload).1).trans (endRecord_right payload).2
  · obtain ⟨status, hverify, hok⟩ := zipVerifyRoundtrip_eq z e
    refine ⟨status, hverify, fun h => ?_⟩
    obtain ⟨-, -, -, -, -, hfits, hsame, -⟩ := hok.mp h
    exact ⟨hfits, hsame⟩

/-- A payload of one byte. -/
theorem zip_spec_one :
    ∃ z, z.length = 1 + 124 ∧
      zipStore [7] (List.replicate 125 0) =
        .ok (.ok (z ++ (List.replicate 125 0).drop z.length, z.length)) ∧
      zipVerifyRoundtrip (some z) (some [7]) = .ok .ok ∧
      (z.drop (1 + 43)).take 59 = centralDirectory [7] ∧ word32 z (1 + 102) = 0x06054b50 ∧
      ((word32 z (1 + 102 + 12)).toNat = 59 ∧ (word32 z (1 + 102 + 16)).toNat = 1 + 43 ↔
        1 + 43 < 2 ^ 32) :=
  (zip_spec [7] (List.replicate 125 0) [] []).1 (by decide)
    (by rw [List.length_replicate]; decide)

theorem zipStore_of_long {payload out : List Byte} (hn : payload.length + 43 = 2 ^ 32)
    (hcap : payload.length + 124 = out.length) :
    ∃ z, zipStore payload out = .ok (.ok (z, 2 ^ 32 + 81)) ∧
      (z.drop (2 ^ 32)).take 59 = centralDirectory payload ∧
      word32 z (2 ^ 32 + 59) = 0x06054b50 ∧ (word32 z (2 ^ 32 + 59 + 16)).toNat ≠ 2 ^ 32 := by
  have hstore := @zipStore_eq payload out (by omega) (by omega)
  have hall : Buffer.overwrite out 0 (archive payload) = archive payload := by
    rw [Buffer.overwrite, List.take_zero, List.nil_append, Nat.zero_add, length_archive, hcap,
      List.drop_length, List.append_nil]
  rw [hall, show payload.length + 124 = 2 ^ 32 + 81 by omega] at hstore
  refine ⟨archive payload, hstore, ?_, ?_, (word32 _ _).toNat_lt.ne⟩
  · rw [← hn]
    exact take_drop_archive payload
  · rw [show 2 ^ 32 + 59 = payload.length + 102 by omega]
    exact endRecord_signature payload

/-- The longest payloads put the central directory where no word reaches. -/
theorem zipStore_long :
    ∃ z, zipStore (List.replicate (2 ^ 32 - 43) 0) (List.replicate (2 ^ 32 + 81) 0) =
        .ok (.ok (z, 2 ^ 32 + 81)) ∧
      (z.drop (2 ^ 32)).take 59 = centralDirectory (List.replicate (2 ^ 32 - 43) 0) ∧
      word32 z (2 ^ 32 + 59) = 0x06054b50 ∧ (word32 z (2 ^ 32 + 59 + 16)).toNat ≠ 2 ^ 32 :=
  zipStore_of_long (by rw [List.length_replicate]; norm_num)
    (by rw [List.length_replicate, List.length_replicate]; norm_num)

end Blake3.Fc16
