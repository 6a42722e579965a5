import Blake3.Ata.Format

/-!
What an ATA file is: a V1 header or a compact one, and records. Fields and
records of a fixed size and their bytes determine each other.
-/

namespace Blake3.Ata

/-! ### Fields -/

section Fields

variable {bytes rest : List Byte}

theorem rmrAtaPutU32Le_eq (v : Word) : rmrAtaPutU32Le v = LittleEndian.toBytes 4 v.toNat := by
  have hlow : ∀ w : Word, (w &&& 0xff).toUInt8 = w.toUInt8 := by
    intro w
    apply UInt8.toNat_inj.mp
    rw [UInt32.toNat_toUInt8, UInt32.toNat_toUInt8, UInt32.toNat_and]
    exact (congrArg (· % 2 ^ 8) (Nat.and_two_pow_sub_one_eq_mod w.toNat 8)).trans (Nat.mod_mod _ _)
  rw [← LittleEndian.toBytes_word, rmrAtaPutU32Le]
  simp only [hlow]

theorem rmrAtaPutU64Le_eq (v : UInt64) : rmrAtaPutU64Le v = LittleEndian.toBytes 8 v.toNat := by
  have hlow : ∀ w : UInt64, (w &&& 0xff).toUInt8 = w.toUInt8 := by
    intro w
    apply UInt8.toNat_inj.mp
    rw [UInt64.toNat_toUInt8, UInt64.toNat_toUInt8, UInt64.toNat_and]
    exact (congrArg (· % 2 ^ 8) (Nat.and_two_pow_sub_one_eq_mod w.toNat 8)).trans (Nat.mod_mod _ _)
  rw [← LittleEndian.toBytes_doubleWord, rmrAtaPutU64Le]
  simp only [hlow]
  simp [List.range_succ]

@[simp] theorem length_rmrAtaPutU32Le (v : Word) : (rmrAtaPutU32Le v).length = 4 := by
  rw [rmrAtaPutU32Le_eq, LittleEndian.length_toBytes]

@[simp] theorem length_rmrAtaPutU64Le (v : UInt64) : (rmrAtaPutU64Le v).length = 8 := by
  rw [rmrAtaPutU64Le_eq, LittleEndian.length_toBytes]

theorem toNat_rmrAtaGetU32Le (h : 4 ≤ bytes.length) :
    (rmrAtaGetU32Le bytes).toNat = LittleEndian.ofBytes (bytes.take 4) := by
  match bytes, h with
  | b₀ :: b₁ :: b₂ :: b₃ :: rest, _ =>
      rw [rmrAtaGetU32Le, toNat_load32]
      simp only [List.getD_cons_zero, List.getD_cons_succ, List.take_succ_cons, List.take_zero,
        LittleEndian.ofBytes]
      omega

/-- The bytes are put together from the lowest one on. -/
theorem toNat_foldl_getU64Le (bytes : List Byte) (h : 8 ≤ bytes.length) {n : ℕ} (hn : n ≤ 8) :
    ((List.range n).foldl
      (fun v i => v ||| (bytes.getD i 0).toUInt64 <<< UInt64.ofNat (i * 8)) 0).toNat =
      LittleEndian.ofBytes (bytes.take n) := by
  induction n with
  | zero => rfl
  | succ n ih =>
      have hlt : n < bytes.length := by omega
      have hlow := LittleEndian.ofBytes_lt (bytes.take n)
      have hlength : (bytes.take n).length = n := by
        rw [List.length_take, Nat.min_eq_left hlt.le]
      have hpow : 256 ^ n = 2 ^ (n * 8) := by
        rw [Nat.mul_comm, pow_mul]
        rfl
      have hbyte : bytes.getD n 0 = bytes[n] := by
        rw [List.getD_eq_getElem?_getD, List.getElem?_eq_getElem hlt, Option.getD_some]
      have hshift : ((bytes[n].toUInt64) <<< UInt64.ofNat (n * 8)).toNat =
          2 ^ (n * 8) * bytes[n].toNat := by
        have hfit : bytes[n].toNat * 2 ^ (n * 8) < 2 ^ 64 := by
          have hb := bytes[n].toNat_lt
          have hle : 2 ^ (n * 8) ≤ 2 ^ 56 := Nat.pow_le_pow_right (by omega) (by omega)
          calc
            bytes[n].toNat * 2 ^ (n * 8) < 2 ^ 8 * 2 ^ (n * 8) :=
              Nat.mul_lt_mul_of_pos_right hb (Nat.two_pow_pos _)
            _ ≤ 2 ^ 8 * 2 ^ 56 := Nat.mul_le_mul_left _ hle
        rw [UInt64.toNat_shiftLeft, UInt8.toNat_toUInt64, toNat_ofNat64 (by omega),
          Nat.mod_eq_of_lt (show n * 8 < 64 by omega), Nat.shiftLeft_eq, Nat.mod_eq_of_lt hfit,
          Nat.mul_comm]
      rw [hlength, hpow] at hlow
      rw [List.range_succ, List.foldl_append, List.foldl_cons, List.foldl_nil, UInt64.toNat_or,
        ih (by omega), hbyte, hshift, Nat.or_comm, ← Nat.two_pow_add_eq_or_of_lt hlow,
        List.take_add_one, List.getElem?_eq_getElem hlt, Option.toList_some,
        LittleEndian.ofBytes_append, hlength, hpow, LittleEndian.ofBytes, LittleEndian.ofBytes,
        Nat.mul_zero, Nat.add_zero, Nat.add_comm]

theorem toNat_rmrAtaGetU64Le (h : 8 ≤ bytes.length) :
    (rmrAtaGetU64Le bytes).toNat = LittleEndian.ofBytes (bytes.take 8) :=
  toNat_foldl_getU64Le bytes h le_rfl

theorem rmrAtaGetU64Le_take {n : ℕ} (hn : 8 ≤ n) (h : 8 ≤ bytes.length) :
    rmrAtaGetU64Le (bytes.take n) = rmrAtaGetU64Le bytes := by
  apply UInt64.toNat_inj.mp
  rw [toNat_rmrAtaGetU64Le (by rw [List.length_take]; omega), toNat_rmrAtaGetU64Le h,
    List.take_take, Nat.min_eq_left hn]

/-- Reading back a word that was stored. -/
@[simp] theorem rmrAtaGetU32Le_put (v : Word) (rest : List Byte) :
    rmrAtaGetU32Le (rmrAtaPutU32Le v ++ rest) = v := by
  apply UInt32.toNat_inj.mp
  rw [toNat_rmrAtaGetU32Le (by simp), List.take_left' (length_rmrAtaPutU32Le v), rmrAtaPutU32Le_eq,
    LittleEndian.ofBytes_toBytes_of_lt v.toNat_lt]

@[simp] theorem rmrAtaGetU64Le_put (v : UInt64) (rest : List Byte) :
    rmrAtaGetU64Le (rmrAtaPutU64Le v ++ rest) = v := by
  apply UInt64.toNat_inj.mp
  rw [toNat_rmrAtaGetU64Le (by simp), List.take_left' (length_rmrAtaPutU64Le v), rmrAtaPutU64Le_eq,
    LittleEndian.ofBytes_toBytes_of_lt v.toNat_lt]

/-- Storing a word that was read. -/
theorem rmrAtaPutU32Le_get (h : 4 ≤ bytes.length) :
    rmrAtaPutU32Le (rmrAtaGetU32Le bytes) = bytes.take 4 := by
  have hlength : (bytes.take 4).length = 4 := by rw [List.length_take, Nat.min_eq_left h]
  rw [rmrAtaPutU32Le_eq, toNat_rmrAtaGetU32Le h, LittleEndian.toBytes_ofBytes_of_length hlength]

theorem rmrAtaPutU64Le_get (h : 8 ≤ bytes.length) :
    rmrAtaPutU64Le (rmrAtaGetU64Le bytes) = bytes.take 8 := by
  have hlength : (bytes.take 8).length = 8 := by rw [List.length_take, Nat.min_eq_left h]
  rw [rmrAtaPutU64Le_eq, toNat_rmrAtaGetU64Le h, LittleEndian.toBytes_ofBytes_of_length hlength]

/-- `unpack_from` and the C code read the same numbers. -/
theorem unpackFrom_eight {offset : ℕ} (h : offset + 8 ≤ bytes.length) :
    unpackFrom 8 bytes offset = (rmrAtaGetU64Le (bytes.drop offset)).toNat := by
  rw [unpackFrom, toNat_rmrAtaGetU64Le (by rw [List.length_drop]; omega)]

theorem unpackFrom_four {offset : ℕ} (h : offset + 4 ≤ bytes.length) :
    unpackFrom 4 bytes offset = (rmrAtaGetU32Le (bytes.drop offset)).toNat := by
  rw [unpackFrom, toNat_rmrAtaGetU32Le (by rw [List.length_drop]; omega)]

end Fields

/-! ### Records -/

section Records

variable {bytes rest : List Byte} {rs rs' : List Record}

@[simp] theorem length_rmrAtaEncodeRecord (r : Record) : (rmrAtaEncodeRecord r).length = 24 := by
  simp [rmrAtaEncodeRecord]

@[simp] theorem rmrAtaDecodeRecord_encode (r : Record) (rest : List Byte) :
    rmrAtaDecodeRecord (rmrAtaEncodeRecord r ++ rest) = r := by
  have hcyc : (rmrAtaEncodeRecord r ++ rest).drop 8 =
      rmrAtaPutU64Le r.cyc ++ (rmrAtaPutU64Le r.par ++ rest) := by
    rw [rmrAtaEncodeRecord, List.append_assoc, List.append_assoc,
      List.drop_left' (length_rmrAtaPutU64Le _)]
  have hpar : (rmrAtaEncodeRecord r ++ rest).drop (8 + 8) = rmrAtaPutU64Le r.par ++ rest := by
    rw [← List.drop_drop, hcyc, List.drop_left' (length_rmrAtaPutU64Le _)]
  rw [rmrAtaDecodeRecord, hcyc, hpar, rmrAtaEncodeRecord, List.append_assoc, List.append_assoc,
    rmrAtaGetU64Le_put, rmrAtaGetU64Le_put, rmrAtaGetU64Le_put]

theorem rmrAtaEncodeRecord_decode (h : 24 ≤ bytes.length) :
    rmrAtaEncodeRecord (rmrAtaDecodeRecord bytes) = bytes.take 24 := by
  rw [rmrAtaEncodeRecord, rmrAtaDecodeRecord, rmrAtaPutU64Le_get (by omega),
    rmrAtaPutU64Le_get (by rw [List.length_drop]; omega),
    rmrAtaPutU64Le_get (by rw [List.length_drop]; omega), ← List.take_add, ← List.take_add]

theorem rmrAtaDecodeRecord_take (h : 24 ≤ bytes.length) :
    rmrAtaDecodeRecord (bytes.take 24) = rmrAtaDecodeRecord bytes := by
  have hdecode := rmrAtaDecodeRecord_encode (rmrAtaDecodeRecord bytes) []
  rwa [List.append_nil, rmrAtaEncodeRecord_decode h] at hdecode

/-- The bytes of some records. -/
def recordBytes (rs : List Record) : List Byte := rs.flatMap rmrAtaEncodeRecord

@[simp] theorem recordBytes_nil : recordBytes [] = [] := rfl

@[simp] theorem recordBytes_cons (r : Record) (rs : List Record) :
    recordBytes (r :: rs) = rmrAtaEncodeRecord r ++ recordBytes rs := rfl

@[simp] theorem length_recordBytes (rs : List Record) :
    (recordBytes rs).length = 24 * rs.length := by
  induction rs with
  | nil => rfl
  | cons r rs ih =>
      rw [recordBytes_cons, List.length_append, ih, length_rmrAtaEncodeRecord, List.length_cons]
      omega

/-- As many records are determined by the front of their bytes. -/
theorem recordBytes_inj {extra extra' : List Byte} (hlength : rs.length = rs'.length)
    (h : recordBytes rs ++ extra = recordBytes rs' ++ extra') : rs = rs' ∧ extra = extra' := by
  induction rs generalizing rs' with
  | nil =>
      obtain rfl := List.length_eq_zero_iff.mp hlength.symm
      exact ⟨rfl, h⟩
  | cons r rs ih =>
      obtain _ | ⟨r', rs'⟩ := rs'
      · cases hlength
      · rw [recordBytes_cons, recordBytes_cons, List.append_assoc, List.append_assoc] at h
        have hfirst := congrArg rmrAtaDecodeRecord h
        rw [rmrAtaDecodeRecord_encode, rmrAtaDecodeRecord_encode] at hfirst
        subst hfirst
        obtain ⟨rfl, hextra⟩ := ih (Nat.succ.inj hlength) (List.append_cancel_left h)
        exact ⟨rfl, hextra⟩

/-- Bytes of the right number are records. -/
theorem exists_recordBytes {n : ℕ} (h : bytes.length = 24 * n) :
    ∃ rs, rs.length = n ∧ bytes = recordBytes rs := by
  induction n generalizing bytes with
  | zero => exact ⟨[], rfl, List.length_eq_zero_iff.mp h⟩
  | succ n ih =>
      have hdrop : (bytes.drop 24).length = 24 * n := by
        rw [List.length_drop]
        omega
      obtain ⟨rs, hlength, hrs⟩ := ih hdrop
      refine ⟨rmrAtaDecodeRecord bytes :: rs, by rw [List.length_cons, hlength], ?_⟩
      rw [recordBytes_cons, rmrAtaEncodeRecord_decode (by omega), ← hrs, List.take_append_drop]

end Records

/-! ### Files -/

/-- Valid records that are numbered in order. -/
def Sequential : ℕ → List Record → Prop
  | _, [] => True
  | next, r :: rs => rmrAtaRecordValid r = true ∧ r.k.toNat = next ∧ Sequential (next + 1) rs

/-- The bytes of a V1 header after the magic. -/
def v1Probe (hwSig : UInt64) (count : Word) : List Byte :=
  rmrAtaPutU32Le 1 ++ (rmrAtaPutU32Le 24 ++ (rmrAtaPutU32Le count ++ (rmrAtaPutU32Le 0 ++
    rmrAtaPutU64Le hwSig)))

/-- A V1 file of some records. -/
def v1Bytes (hwSig : UInt64) (rs : List Record) : List Byte :=
  rmrAtaMagic ++ (v1Probe hwSig (UInt32.ofNat rs.length) ++ recordBytes rs)

/-- A compact file of some records. -/
def legacyBytes (hwSig : UInt64) (rs : List Record) : List Byte :=
  rmrAtaMagic ++ (rmrAtaPutU64Le hwSig ++ recordBytes rs)

/-- The bytes after the magic look like a V1 header. -/
def looksV1 (blob : List Byte) : Bool := isV1Probe ((blob.drop 4).take 24)

/-- What a file stands for, when up to `cap` records are read, and the bytes behind it. -/
inductive Reads (cap : ℕ) (blob : List Byte) :
    Format → UInt64 → List Record → List Byte → Prop
  | v1 {hwSig : UInt64} {rs : List Record} {extra : List Byte}
      (h : blob = v1Bytes hwSig rs ++ extra) (hpos : 0 < rs.length) (hle : rs.length ≤ 42)
      (hcap : rs.length ≤ cap) (hseq : Sequential 1 rs) : Reads cap blob .v1 hwSig rs extra
  | legacy {hwSig : UInt64} {rs : List Record} {extra : List Byte}
      (h : blob = legacyBytes hwSig rs ++ extra) (hpos : 0 < rs.length) (hcap : rs.length ≤ cap)
      (hvalid : ∀ r ∈ rs, rmrAtaRecordValid r = true) (hend : extra = [] ∨ rs.length = cap)
      (hlooks : looksV1 blob = false) : Reads cap blob .legacy hwSig rs extra

section Probe

variable {hwSig : UInt64} {count : Word} {probe : List Byte}

@[simp] theorem length_v1Probe : (v1Probe hwSig count).length = 24 := by simp [v1Probe]

theorem drop_v1Probe_four : (v1Probe hwSig count).drop 4 =
    rmrAtaPutU32Le 24 ++ (rmrAtaPutU32Le count ++ (rmrAtaPutU32Le 0 ++ rmrAtaPutU64Le hwSig)) := by
  rw [v1Probe, List.drop_left' (length_rmrAtaPutU32Le _)]

theorem drop_v1Probe_eight : (v1Probe hwSig count).drop (4 + 4) =
    rmrAtaPutU32Le count ++ (rmrAtaPutU32Le 0 ++ rmrAtaPutU64Le hwSig) := by
  rw [← List.drop_drop, drop_v1Probe_four, List.drop_left' (length_rmrAtaPutU32Le _)]

theorem drop_v1Probe_twelve : (v1Probe hwSig count).drop (8 + 4) =
    rmrAtaPutU32Le 0 ++ rmrAtaPutU64Le hwSig := by
  rw [← List.drop_drop, drop_v1Probe_eight, List.drop_left' (length_rmrAtaPutU32Le _)]

theorem drop_v1Probe_sixteen : (v1Probe hwSig count).drop (12 + 4) =
    rmrAtaPutU64Le hwSig ++ [] := by
  rw [← List.drop_drop, drop_v1Probe_twelve, List.drop_left' (length_rmrAtaPutU32Le _),
    List.append_nil]

theorem rmrAtaGetU32Le_v1Probe : rmrAtaGetU32Le ((v1Probe hwSig count).drop 8) = count := by
  rw [drop_v1Probe_eight, rmrAtaGetU32Le_put]

theorem rmrAtaGetU64Le_v1Probe : rmrAtaGetU64Le ((v1Probe hwSig count).drop 16) = hwSig := by
  rw [drop_v1Probe_sixteen, rmrAtaGetU64Le_put]

theorem isV1Probe_iff : isV1Probe probe = true ↔ rmrAtaGetU32Le probe = 1 ∧
    rmrAtaGetU32Le (probe.drop 4) = 24 ∧ 0 < (rmrAtaGetU32Le (probe.drop 8)).toNat ∧
    (rmrAtaGetU32Le (probe.drop 8)).toNat ≤ 42 ∧ rmrAtaGetU32Le (probe.drop 12) = 0 := by
  rw [isV1Probe, Bool.and_eq_true, Bool.and_eq_true, Bool.and_eq_true, Bool.and_eq_true, beq_iff_eq,
    beq_iff_eq, beq_iff_eq, decide_eq_true_eq, decide_eq_true_eq, UInt32.le_iff_toNat_le,
    UInt32.le_iff_toNat_le]
  simp only [and_assoc]
  rfl

theorem isV1Probe_v1Probe :
    isV1Probe (v1Probe hwSig count) = true ↔ 0 < count.toNat ∧ count.toNat ≤ 42 := by
  have hversion : rmrAtaGetU32Le (v1Probe hwSig count) = 1 := rmrAtaGetU32Le_put _ _
  rw [isV1Probe_iff, hversion, drop_v1Probe_four, rmrAtaGetU32Le_put, rmrAtaGetU32Le_v1Probe,
    drop_v1Probe_twelve, rmrAtaGetU32Le_put]
  simp

/-- What looks like a V1 header is one. -/
theorem eq_v1Probe (hlength : probe.length = 24) (h : isV1Probe probe = true) :
    probe = v1Probe (rmrAtaGetU64Le (probe.drop 16)) (rmrAtaGetU32Le (probe.drop 8)) := by
  obtain ⟨hversion, hsize, -, -, hreserved⟩ := isV1Probe_iff.mp h
  have hdrop : ∀ k, (probe.drop k).length = 24 - k := by
    intro k
    rw [List.length_drop, hlength]
  have hsplit : ∀ k, (probe.drop k).take 4 ++ probe.drop (k + 4) = probe.drop k := by
    intro k
    rw [← List.drop_drop, List.take_append_drop]
  rw [v1Probe, ← hversion, ← hsize, ← hreserved, rmrAtaPutU32Le_get (by omega),
    rmrAtaPutU32Le_get (by rw [hdrop]; omega), rmrAtaPutU32Le_get (by rw [hdrop]; omega),
    rmrAtaPutU32Le_get (by rw [hdrop]; omega), rmrAtaPutU64Le_get (by rw [hdrop]),
    List.take_of_length_le (by rw [hdrop] : (probe.drop 16).length ≤ 8), hsplit, hsplit, hsplit,
    List.take_append_drop]

end Probe

section Files

variable {blob extra : List Byte} {hwSig : UInt64} {rs : List Record} {cap : ℕ} {format : Format}

theorem drop_v1Bytes : ((v1Bytes hwSig rs ++ extra).drop 4) =
    v1Probe hwSig (UInt32.ofNat rs.length) ++ (recordBytes rs ++ extra) := by
  rw [v1Bytes, List.append_assoc, List.append_assoc]
  rfl

theorem take_drop_v1Bytes : ((v1Bytes hwSig rs ++ extra).drop 4).take 24 =
    v1Probe hwSig (UInt32.ofNat rs.length) := by
  rw [drop_v1Bytes, List.take_left' length_v1Probe]

theorem drop_legacyBytes : (legacyBytes hwSig rs ++ extra).drop 4 =
    rmrAtaPutU64Le hwSig ++ (recordBytes rs ++ extra) := by
  rw [legacyBytes, List.append_assoc, List.append_assoc]
  rfl

theorem length_v1Bytes : (v1Bytes hwSig rs).length = 28 + 24 * rs.length := by
  simp [v1Bytes, rmrAtaMagic]
  omega

theorem length_legacyBytes : (legacyBytes hwSig rs).length = 12 + 24 * rs.length := by
  simp [legacyBytes, rmrAtaMagic]
  omega

theorem toNat_count (hle : rs.length ≤ 42) : (UInt32.ofNat rs.length).toNat = rs.length :=
  UInt32.toNat_ofNat_of_lt' (hle.trans_lt (by decide))

theorem Reads.take_four (h : Reads cap blob format hwSig rs extra) :
    blob.take 4 = rmrAtaMagic := by
  cases h with
  | v1 h =>
      rw [h, v1Bytes, List.append_assoc]
      rfl
  | legacy h =>
      rw [h, legacyBytes, List.append_assoc]
      rfl

theorem Reads.length_le (h : Reads cap blob format hwSig rs extra) : 36 ≤ blob.length := by
  cases h with
  | v1 h hpos =>
      rw [h, List.length_append, length_v1Bytes]
      omega
  | legacy h hpos =>
      rw [h, List.length_append, length_legacyBytes]
      omega

/-- What looks like a V1 file has a V1 header. -/
theorem eq_of_looksV1 (hmagic : blob.take 4 = rmrAtaMagic) (hlen : 28 ≤ blob.length)
    (hlooks : looksV1 blob = true) :
    blob = rmrAtaMagic ++ (v1Probe (rmrAtaGetU64Le (((blob.drop 4).take 24).drop 16))
      (rmrAtaGetU32Le (((blob.drop 4).take 24).drop 8)) ++ blob.drop 28) := by
  have hlength : ((blob.drop 4).take 24).length = 24 := by
    rw [List.length_take, List.length_drop]
    omega
  have hdrop : blob.drop 28 = (blob.drop 4).drop 24 := by rw [List.drop_drop]
  rw [← eq_v1Probe hlength hlooks, ← hmagic, hdrop, List.take_append_drop, List.take_append_drop]

theorem eq_of_magic (hmagic : blob.take 4 = rmrAtaMagic) (hlen : 12 ≤ blob.length) :
    blob = rmrAtaMagic ++ (rmrAtaPutU64Le (rmrAtaGetU64Le (blob.drop 4)) ++ blob.drop 12) := by
  have hdrop : blob.drop 12 = (blob.drop 4).drop 8 := by rw [List.drop_drop]
  rw [rmrAtaPutU64Le_get (by rw [List.length_drop]; omega), ← hmagic, hdrop, List.take_append_drop,
    List.take_append_drop]

/-- The format is told by the bytes after the magic. -/
theorem Reads.looksV1_iff (h : Reads cap blob format hwSig rs extra) :
    looksV1 blob = true ↔ format = .v1 := by
  cases h with
  | v1 h hpos hle =>
      rw [h, looksV1, take_drop_v1Bytes, isV1Probe_v1Probe, toNat_count hle]
      simp [hpos, hle]
  | legacy h _ _ _ _ hlooks => simp [hlooks]

theorem Reads.format_eq_legacy (h : Reads cap blob format hwSig rs extra)
    (hlooks : looksV1 blob = false) : format = .legacy := by
  cases h with
  | v1 h hpos hle hcap hseq =>
      rw [(Reads.v1 h hpos hle hcap hseq).looksV1_iff.mpr rfl] at hlooks
      cases hlooks
  | legacy => rfl

/-- A file stands for one list of records. -/
theorem Reads.unique {format' : Format} {hwSig' : UInt64} {rs' : List Record} {extra' : List Byte}
    (h : Reads cap blob format hwSig rs extra) (h' : Reads cap blob format' hwSig' rs' extra') :
    format = format' ∧ hwSig = hwSig' ∧ rs = rs' ∧ extra = extra' := by
  have hlooks := h.looksV1_iff
  have hlooks' := h'.looksV1_iff
  cases h with
  | v1 h hpos hle =>
      cases h' with
      | v1 h' hpos' hle' =>
          rw [h] at h'
          have hprobe := congrArg (fun bytes => (bytes.drop 4).take 24) h'
          rw [take_drop_v1Bytes, take_drop_v1Bytes] at hprobe
          have hsig : hwSig = hwSig' := by
            have hget := congrArg (fun bytes => rmrAtaGetU64Le (bytes.drop 16)) hprobe
            rwa [rmrAtaGetU64Le_v1Probe, rmrAtaGetU64Le_v1Probe] at hget
          have hcount : rs.length = rs'.length := by
            have hget := congrArg (fun bytes => rmrAtaGetU32Le (bytes.drop 8)) hprobe
            rw [rmrAtaGetU32Le_v1Probe, rmrAtaGetU32Le_v1Probe] at hget
            rw [← toNat_count hle, hget, toNat_count hle']
          have hdrop := congrArg (List.drop 24) (congrArg (List.drop 4) h')
          rw [drop_v1Bytes, drop_v1Bytes, List.drop_left' length_v1Probe,
            List.drop_left' length_v1Probe] at hdrop
          exact ⟨rfl, hsig, recordBytes_inj hcount hdrop⟩
      | legacy => simp [hlooks] at hlooks'
  | legacy h hpos hcap hvalid hend =>
      cases h' with
      | v1 => simp [hlooks] at hlooks'
      | legacy h' hpos' hcap' hvalid' hend' =>
          rw [h] at h'
          have hdrop := congrArg (List.drop 4) h'
          rw [drop_legacyBytes, drop_legacyBytes] at hdrop
          have hsig : hwSig = hwSig' := by
            have hget := congrArg rmrAtaGetU64Le hdrop
            rwa [rmrAtaGetU64Le_put, rmrAtaGetU64Le_put] at hget
          rw [hsig] at hdrop
          have hrecords := List.append_cancel_left hdrop
          have hlength := congrArg List.length hrecords
          rw [List.length_append, List.length_append, length_recordBytes, length_recordBytes]
            at hlength
          have hcount : rs.length = rs'.length := by
            rcases hend with hend | hend <;> rcases hend' with hend' | hend' <;>
              simp only [hend, hend', List.length_nil] at hlength ⊢ <;> omega
          exact ⟨rfl, hsig, recordBytes_inj hcount hrecords⟩

end Files

end Blake3.Ata
