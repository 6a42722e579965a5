import Blake3.Ata.RoundTrip
import Blake3.Fault
import Mathlib.Data.List.Forall2

/-!
`ata_decode.py` and the loader in C. The decoder accepts exactly the files that
stand for records with nothing behind them, so that the two disagree only on
files that go on after the last record.
-/

namespace Blake3.Ata

open ShortReads

/-! ### Results of the decoder -/

section Results

variable {ε α β : Type}

theorem mapM_eq_ok {f : α → Except ε β} {xs : List α} {ys : List β} :
    xs.mapM f = .ok ys ↔ List.Forall₂ (fun x y => f x = .ok y) xs ys := by
  induction xs generalizing ys with
  | nil =>
      rw [List.mapM_nil, List.forall₂_nil_left_iff]
      exact ⟨fun h => (Except.ok.inj h).symm, fun h => h ▸ rfl⟩
  | cons x xs ih =>
      rw [List.mapM_cons, Result.bind_eq_ok]
      constructor
      · rintro ⟨y, hy, h⟩
        obtain ⟨ys', hys, h⟩ := Result.bind_eq_ok.mp h
        obtain rfl := Except.ok.inj h
        exact .cons hy (ih.mp hys)
      · intro h
        cases h with
        | cons hy hys => exact ⟨_, hy, Result.bind_eq_ok.mpr ⟨_, ih.mpr hys, rfl⟩⟩

end Results

/-! ### Records -/

section Records

variable {rs : List Record} {data : List Byte} {count : ℕ}

/-- A record as the decoder returns it. -/
def Record.fields (r : Record) : ℕ × ℕ × ℕ := (r.k.toNat, r.cyc.toNat, r.par.toNat)

theorem rmrAtaRecordValid_iff {r : Record} : rmrAtaRecordValid r = true ↔
    (1 ≤ r.k.toNat ∧ r.k.toNat ≤ rmrAtaRecordCount) ∧ (1 ≤ r.par.toNat ∧ r.par.toNat ≤ 9) := by
  rw [rmrAtaRecordValid, Bool.and_eq_true, Bool.and_eq_true, Bool.and_eq_true, decide_eq_true_eq,
    decide_eq_true_eq, decide_eq_true_eq, decide_eq_true_eq, UInt64.le_iff_toNat_le,
    UInt64.le_iff_toNat_le, UInt64.le_iff_toNat_le, UInt64.le_iff_toNat_le, and_assoc]
  rfl

/-- Each record is found behind those before it. -/
theorem drop_recordBytes {i : ℕ} (hi : i < rs.length) :
    (recordBytes rs).drop (i * 24) = rmrAtaEncodeRecord rs[i] ++ recordBytes (rs.drop (i + 1)) := by
  have hsplit : recordBytes rs = recordBytes (rs.take i) ++ recordBytes (rs.drop i) := by
    rw [recordBytes, recordBytes, recordBytes, ← List.flatMap_append, List.take_append_drop]
  have hlength : (recordBytes (rs.take i)).length = i * 24 := by
    rw [length_recordBytes, List.length_take]
    omega
  rw [hsplit, List.drop_left' hlength, List.drop_eq_getElem_cons hi, recordBytes_cons]

theorem unpackFrom_recordBytes {i : ℕ} (hi : i < rs.length) :
    (unpackFrom 8 (recordBytes rs) (i * 24), unpackFrom 8 (recordBytes rs) (i * 24 + 8),
      unpackFrom 8 (recordBytes rs) (i * 24 + 16)) = rs[i].fields := by
  have hlength := length_recordBytes rs
  have hdecode := rmrAtaDecodeRecord_encode rs[i] (recordBytes (rs.drop (i + 1)))
  rw [← drop_recordBytes hi, rmrAtaDecodeRecord, List.drop_drop, List.drop_drop] at hdecode
  rw [unpackFrom_eight (by omega), unpackFrom_eight (by omega), unpackFrom_eight (by omega),
    Record.fields, ← hdecode]

/-- The loop of `_decode_records` at an index. -/
theorem decodeRecords_step {i : ℕ} (hi : i < rs.length) {out : ℕ × ℕ × ℕ} :
    (do
      let offset := i * 24
      let k := unpackFrom 8 (recordBytes rs) offset
      let cyc := unpackFrom 8 (recordBytes rs) (offset + 8)
      let par := unpackFrom 8 (recordBytes rs) (offset + 16)
      if ¬((1 ≤ k ∧ k ≤ rmrAtaRecordCount) ∧ (1 ≤ par ∧ par ≤ 9)) then throw (.record i k par)
      pure (k, cyc, par) : Except DecodeError (ℕ × ℕ × ℕ)) = .ok out ↔
      rmrAtaRecordValid rs[i] = true ∧ out = rs[i].fields := by
  have hfields := unpackFrom_recordBytes hi
  simp only [Record.fields, Prod.mk.injEq] at hfields
  obtain ⟨hk, hcyc, hpar⟩ := hfields
  dsimp only
  rw [hk, hcyc, hpar, rmrAtaRecordValid_iff]
  split_ifs with hvalid
  · exact ⟨fun h => ⟨hvalid, (Except.ok.inj h).symm⟩, fun h => congrArg Except.ok h.2.symm⟩
  · exact iff_of_false Result.error_ne_ok fun h => hvalid h.1

/-- The decoder takes the right number of bytes apart into records, all of them valid. -/
theorem decodeRecords_eq_ok {out : List (ℕ × ℕ × ℕ)} :
    decodeRecords data count = .ok out ↔ ∃ rs : List Record, rs.length = count ∧
      data = recordBytes rs ∧ (∀ r ∈ rs, rmrAtaRecordValid r = true) ∧
        out = rs.map Record.fields := by
  rw [decodeRecords, rmrAtaRecordSize]
  split_ifs with hlength
  · refine iff_of_false Result.error_ne_ok ?_
    rintro ⟨rs, hcount, hdata, -⟩
    rw [hdata, length_recordBytes, hcount, Nat.mul_comm] at hlength
    exact hlength rfl
  rw [not_not, Nat.mul_comm] at hlength
  obtain ⟨rs, hcount, rfl⟩ := exists_recordBytes hlength
  rw [← hcount]
  refine Iff.trans mapM_eq_ok ?_
  simp only [List.forall₂_iff_get, List.length_range, List.get_eq_getElem, List.getElem_range]
  constructor
  · rintro ⟨hout, hsteps⟩
    have hstep : ∀ i (hi : i < rs.length),
        rmrAtaRecordValid rs[i] = true ∧ out.get ⟨i, hout ▸ hi⟩ = rs[i].fields := by
      intro i hi
      exact (decodeRecords_step hi).mp (hsteps i hi (hout ▸ hi))
    refine ⟨rs, rfl, rfl, ?_, ?_⟩
    · intro r hr
      obtain ⟨i, hi, rfl⟩ := List.mem_iff_getElem.mp hr
      exact (hstep i hi).1
    · apply List.ext_get (by rw [List.length_map, ← hout])
      intro i hi hi'
      rw [(hstep i (hout ▸ hi)).2, List.get_eq_getElem, List.getElem_map]
  · rintro ⟨rs', hcount', hdata, hvalid, rfl⟩
    obtain ⟨rfl, -⟩ := recordBytes_inj hcount'.symm (congrArg (· ++ ([] : List Byte)) hdata)
    refine ⟨by rw [List.length_map], ?_⟩
    intro i hi hi'
    rw [List.getElem_map]
    exact (decodeRecords_step hi).mpr ⟨hvalid _ (List.getElem_mem hi), rfl⟩

/-- The numbers of the records are checked after the records. -/
theorem checkSequence_eq_ok (next : ℕ) (hvalid : ∀ r ∈ rs, rmrAtaRecordValid r = true) :
    checkSequence next (rs.map Record.fields) = .ok () ↔ Sequential next rs := by
  induction rs generalizing next with
  | nil => exact iff_of_true rfl trivial
  | cons r rs ih =>
      rw [List.forall_mem_cons] at hvalid
      rw [List.map_cons, Record.fields, checkSequence, Sequential, ← ih _ hvalid.2]
      split_ifs with hk
      · exact iff_of_false (by simp) fun h => hk h.2.1
      · exact (and_iff_right (not_not.mp hk)).symm.trans (and_iff_right hvalid.1).symm

theorem Sequential.valid {next : ℕ} (h : Sequential next rs) :
    ∀ r ∈ rs, rmrAtaRecordValid r = true := by
  induction rs generalizing next with
  | nil => simp
  | cons r rs ih =>
      rw [List.forall_mem_cons]
      exact ⟨h.1, ih h.2.2⟩

end Records

/-! ### Files -/

section Files

variable {blob : List Byte} {decoded : Decoded}

theorem unpackFrom_probe {size offset : ℕ} (h : offset + size ≤ 24) :
    unpackFrom size ((blob.drop 4).take 24) offset = unpackFrom size blob (4 + offset) := by
  rw [unpackFrom, unpackFrom, List.drop_take, List.take_take, Nat.min_eq_left (by omega),
    List.drop_drop]

theorem unpackFrom_header (hlen : 28 ≤ blob.length) :
    unpackFrom 4 blob 12 = (rmrAtaGetU32Le (((blob.drop 4).take 24).drop 8)).toNat ∧
      unpackFrom 8 blob 20 = (rmrAtaGetU64Le (((blob.drop 4).take 24).drop 16)).toNat := by
  have hlength : ((blob.drop 4).take 24).length = 24 := by
    rw [List.length_take, List.length_drop]
    omega
  constructor
  · rw [← unpackFrom_four (by omega), unpackFrom_probe (by omega)]
  · rw [← unpackFrom_eight (by omega), unpackFrom_probe (by omega)]

/-- The decoder looks for a V1 header as the loader does. -/
theorem looksV1_iff_unpackFrom (hlen : 28 ≤ blob.length) :
    looksV1 blob = true ↔ unpackFrom 4 blob 4 = 1 ∧ unpackFrom 4 blob 8 = rmrAtaRecordSize ∧
      (1 ≤ unpackFrom 4 blob 12 ∧ unpackFrom 4 blob 12 ≤ rmrAtaRecordCount) ∧
        unpackFrom 4 blob 16 = 0 := by
  have hlength : ((blob.drop 4).take 24).length = 24 := by
    rw [List.length_take, List.length_drop]
    omega
  have hword : ∀ offset, offset + 4 ≤ 24 →
      (rmrAtaGetU32Le (((blob.drop 4).take 24).drop offset)).toNat =
        unpackFrom 4 blob (4 + offset) := by
    intro offset h
    rw [← unpackFrom_four (by omega), unpackFrom_probe h]
  have hversion := hword 0 (by omega)
  rw [List.drop_zero] at hversion
  rw [looksV1, isV1Probe_iff, ← UInt32.toNat_inj, ← UInt32.toNat_inj, ← UInt32.toNat_inj, hversion,
    hword 4 (by omega), hword 8 (by omega), hword 12 (by omega), and_assoc]
  rfl

theorem decodeV1_eq_ok {count : ℕ} :
    decodeV1 blob count = .ok decoded ↔ ∃ rs : List Record, rs.length = count ∧
      blob.drop 28 = recordBytes rs ∧ Sequential 1 rs ∧
        decoded =
          { format := .v1, hwSig := unpackFrom 8 blob 20, records := rs.map Record.fields } := by
  rw [decodeV1, Result.bind_eq_ok]
  constructor
  · rintro ⟨records, hrecords, h⟩
    obtain ⟨rs, hcount, hdata, hvalid, rfl⟩ := decodeRecords_eq_ok.mp hrecords
    obtain ⟨_, hcheck, h⟩ := Result.bind_eq_ok.mp h
    exact ⟨rs, hcount, hdata, (checkSequence_eq_ok 1 hvalid).mp hcheck, (Except.ok.inj h).symm⟩
  · rintro ⟨rs, hcount, hdata, hseq, rfl⟩
    refine ⟨_, decodeRecords_eq_ok.mpr ⟨rs, hcount, hdata, hseq.valid, rfl⟩, ?_⟩
    exact Result.bind_eq_ok.mpr ⟨_, (checkSequence_eq_ok 1 hseq.valid).mpr hseq, rfl⟩

theorem decodeLegacy_eq_ok :
    decodeLegacy blob = .ok decoded ↔ ∃ rs : List Record, 0 < rs.length ∧ rs.length ≤ 42 ∧
      blob.drop 12 = recordBytes rs ∧ (∀ r ∈ rs, rmrAtaRecordValid r = true) ∧
        decoded = { format := .legacy, hwSig := unpackFrom 8 blob 4,
                    records := rs.map Record.fields } := by
  rw [decodeLegacy]
  dsimp only
  have hmultiple : ∀ rs : List Record, blob.drop 12 = recordBytes rs →
      (blob.drop 12).length / rmrAtaRecordSize = rs.length ∧
        (blob.drop 12).length % rmrAtaRecordSize = 0 := by
    intro rs hdata
    rw [hdata, length_recordBytes, rmrAtaRecordSize]
    omega
  by_cases hempty : blob.drop 12 = [] ∨ (blob.drop 12).length % rmrAtaRecordSize ≠ 0
  · rw [if_pos hempty]
    refine iff_of_false Result.error_ne_ok ?_
    rintro ⟨rs, hpos, -, hdata, -⟩
    rcases hempty with hempty | hempty
    · have hlength := length_recordBytes rs
      rw [← hdata, hempty, List.length_nil] at hlength
      omega
    · exact hempty (hmultiple rs hdata).2
  rw [if_neg hempty]
  by_cases hmany : rmrAtaRecordCount < (blob.drop 12).length / rmrAtaRecordSize
  · rw [if_pos hmany]
    refine iff_of_false Result.error_ne_ok ?_
    rintro ⟨rs, -, hle, hdata, -⟩
    rw [(hmultiple rs hdata).1] at hmany
    exact Nat.not_le.mpr hmany hle
  rw [if_neg hmany]
  refine Iff.trans Result.bind_eq_ok ?_
  constructor
  · rintro ⟨records, hrecords, h⟩
    obtain ⟨rs, hcount, hdata, hvalid, rfl⟩ := decodeRecords_eq_ok.mp hrecords
    have hpos : 0 < rs.length := by
      rw [List.length_pos_iff]
      rintro rfl
      exact hempty (.inl hdata)
    refine ⟨rs, hpos, ?_, hdata, hvalid, (Except.ok.inj h).symm⟩
    rw [hcount]
    exact Nat.not_lt.mp hmany
  · rintro ⟨rs, -, -, hdata, hvalid, rfl⟩
    exact ⟨_, decodeRecords_eq_ok.mpr ⟨rs, (hmultiple rs hdata).1.symm, hdata, hvalid, rfl⟩, rfl⟩

/-- The decoder accepts what stands for records, with nothing behind them. -/
theorem decodeAtaBytes_eq_ok :
    decodeAtaBytes blob = .ok decoded ↔ ∃ format hwSig rs, Reads 42 blob format hwSig rs [] ∧
      decoded = { format := format, hwSig := hwSig.toNat, records := rs.map Record.fields } := by
  rw [decodeAtaBytes]
  by_cases hmagic : blob.length < 12 ∨ blob.take 4 ≠ rmrAtaMagic
  · rw [if_pos hmagic]
    refine iff_of_false Result.error_ne_ok ?_
    rintro ⟨format, hwSig, rs, hreads, -⟩
    rcases hmagic with hmagic | hmagic
    · have hle := hreads.length_le
      omega
    · exact hmagic hreads.take_four
  rw [if_neg hmagic]
  rw [not_or, not_not] at hmagic
  dsimp only
  by_cases hlooks : 28 ≤ blob.length ∧ looksV1 blob = true
  · rw [if_pos ⟨hlooks.1, (looksV1_iff_unpackFrom hlooks.1).mp hlooks.2⟩, decodeV1_eq_ok]
    obtain ⟨hcount, hsig⟩ := unpackFrom_header hlooks.1
    constructor
    · rintro ⟨rs, hlength, hdata, hseq, rfl⟩
      obtain ⟨-, -, ⟨hpos, hle⟩, -⟩ := (looksV1_iff_unpackFrom hlooks.1).mp hlooks.2
      rw [← hlength] at hpos hle
      refine ⟨_, _, rs, .v1 ?_ hpos hle hle hseq, by rw [hsig]⟩
      rw [List.append_nil, v1Bytes, hlength, hcount, UInt32.ofNat_toNat, ← hdata]
      exact eq_of_looksV1 hmagic.2 hlooks.1 hlooks.2
    · rintro ⟨format, hwSig, rs, hreads, rfl⟩
      obtain rfl := hreads.looksV1_iff.mp hlooks.2
      cases hreads with
      | v1 h hpos hle hcap hseq =>
          rw [h, take_drop_v1Bytes] at hcount hsig
          rw [rmrAtaGetU32Le_v1Probe, toNat_count hle, ← h] at hcount
          rw [rmrAtaGetU64Le_v1Probe, ← h] at hsig
          refine ⟨rs, hcount.symm, ?_, hseq, by rw [hsig]⟩
          -- the records stand behind the magic number and the probe
          have hdrop : blob.drop 28 = (blob.drop 4).drop 24 := by rw [List.drop_drop]
          rw [hdrop, h, drop_v1Bytes, List.drop_left' length_v1Probe, List.append_nil]
  · rw [if_neg fun h => hlooks ⟨h.1, (looksV1_iff_unpackFrom h.1).mpr h.2⟩, decodeLegacy_eq_ok]
    have hsig : unpackFrom 8 blob 4 = (rmrAtaGetU64Le (blob.drop 4)).toNat :=
      unpackFrom_eight (by omega)
    constructor
    · rintro ⟨rs, hpos, hle, hdata, hvalid, rfl⟩
      have hlength := congrArg List.length hdata
      rw [List.length_drop, length_recordBytes] at hlength
      -- a compact file has a whole record and so is long enough to be probed
      have hlooks' : looksV1 blob = false :=
        Bool.eq_false_iff.mpr fun h => hlooks ⟨by omega, h⟩
      refine ⟨_, _, rs, .legacy ?_ hpos hle hvalid (.inl rfl) hlooks', by rw [hsig]⟩
      rw [List.append_nil, legacyBytes, ← hdata]
      exact eq_of_magic hmagic.2 (by omega)
    · rintro ⟨format, hwSig, rs, hreads, rfl⟩
      have hlen := hreads.length_le
      cases hreads with
      | v1 h hpos hle hcap hseq =>
          exact absurd ⟨by omega, (Reads.v1 h hpos hle hcap hseq).looksV1_iff.mpr rfl⟩ hlooks
      | legacy h hpos hcap hvalid hend =>
          have hdrop : blob.drop 12 = (blob.drop 4).drop 8 := by rw [List.drop_drop]
          rw [h, drop_legacyBytes, rmrAtaGetU64Le_put, ← h] at hsig
          refine ⟨rs, hpos, hcap, ?_, hvalid, by rw [hsig]⟩
          rw [hdrop, h, drop_legacyBytes, List.drop_left' (length_rmrAtaPutU64Le _),
            List.append_nil]

end Files

/-! ### The loader and the decoder -/

def Decoded.cycles (decoded : Decoded) : List ℕ := decoded.records.map fun record => record.2.1

section Agreement

variable {blob : List Byte} {format : Format} {hwSig : UInt64} {cycles : List UInt64}

/-- A file that goes on after the last of its records. -/
def Overlong (blob : List Byte) : Prop :=
  ∃ hwSig rs extra, extra ≠ [] ∧
    ((blob = v1Bytes hwSig rs ++ extra ∧ 0 < rs.length ∧ rs.length ≤ 42 ∧ Sequential 1 rs) ∨
      (blob = legacyBytes hwSig rs ++ extra ∧ rs.length = 42 ∧
        (∀ r ∈ rs, rmrAtaRecordValid r = true) ∧ looksV1 blob = false))

theorem overlong_iff :
    Overlong blob ↔ ∃ format hwSig rs extra, Reads 42 blob format hwSig rs extra ∧ extra ≠ [] := by
  constructor
  · rintro ⟨hwSig, rs, extra, hne, ⟨h, hpos, hle, hseq⟩ | ⟨h, hlength, hvalid, hlooks⟩⟩
    · exact ⟨_, _, _, _, .v1 h hpos hle hle hseq, hne⟩
    · exact ⟨_, _, _, _, .legacy h (by omega) (by omega) hvalid (.inr hlength) hlooks, hne⟩
  · rintro ⟨format, hwSig, rs, extra, hreads, hne⟩
    cases hreads with
    | v1 h hpos hle hcap hseq => exact ⟨hwSig, rs, extra, hne, .inl ⟨h, hpos, hle, hseq⟩⟩
    | legacy h hpos hcap hvalid hend hlooks =>
        exact ⟨hwSig, rs, extra, hne, .inr ⟨h, hend.resolve_left hne, hvalid, hlooks⟩⟩

theorem rmrAtaLoadFd_eq_iff (sizes : ℕ → ℕ) :
    rmrAtaLoadFd (.inReads blob sizes) 42 =
      { code := cycles.length, hwSig := some hwSig, format := some format, arena := cycles } ↔
      ∃ rs extra, Reads 42 blob format hwSig rs extra ∧ rs.map Record.cyc = cycles := by
  constructor
  · intro h
    have hcode : 0 ≤ (rmrAtaLoadFd (.inReads blob sizes) (42 : ℕ)).code := by
      rw [show ((42 : ℕ) : ℤ) = 42 from rfl, h]
      exact Int.natCast_nonneg _
    obtain ⟨format', hwSig', rs, extra, hreads, hload⟩ := reads_of_rmrAtaLoadFd (by decide) hcode
    rw [show ((42 : ℕ) : ℤ) = 42 from rfl, h, Loaded.mk.injEq, Option.some.injEq,
      Option.some.injEq] at hload
    obtain ⟨-, rfl, rfl, rfl⟩ := hload
    exact ⟨rs, extra, hreads, rfl⟩
  · rintro ⟨rs, extra, hreads, rfl⟩
    rw [List.length_map]
    exact rmrAtaLoadFd_of_reads hreads sizes (by decide)

theorem decodeAtaBytes_eq_iff :
    (∃ decoded, decodeAtaBytes blob = .ok decoded ∧ decoded.format = format ∧
      decoded.hwSig = hwSig.toNat ∧ decoded.cycles = cycles.map UInt64.toNat) ↔
      ∃ rs, Reads 42 blob format hwSig rs [] ∧ rs.map Record.cyc = cycles := by
  have hcycles : ∀ rs : List Record, (rs.map Record.fields).map (fun record => record.2.1) =
      (rs.map Record.cyc).map UInt64.toNat := by
    intro rs
    rw [List.map_map, List.map_map]
    rfl
  constructor
  · rintro ⟨decoded, h, rfl, hsig, hdecoded⟩
    obtain ⟨format, hwSig', rs, hreads, rfl⟩ := decodeAtaBytes_eq_ok.mp h
    obtain rfl := UInt64.toNat_inj.mp hsig
    rw [Decoded.cycles, hcycles] at hdecoded
    exact ⟨rs, hreads, List.map_injective_iff.mpr (fun _ _ => UInt64.toNat_inj.mp) hdecoded⟩
  · rintro ⟨rs, hreads, rfl⟩
    exact ⟨_, decodeAtaBytes_eq_ok.mpr ⟨format, hwSig, rs, hreads, rfl⟩, rfl, rfl, hcycles rs⟩

/-- The loader and the decoder accept the same file with the same contents, however it is read,
exactly when the file does not go on after its records. -/
theorem load_iff_decode_iff (blob : List Byte) :
    (∀ sizes format (hwSig : UInt64) (cycles : List UInt64),
      rmrAtaLoadFd (.inReads blob sizes) 42 =
        { code := cycles.length, hwSig := some hwSig, format := some format, arena := cycles } ↔
        ∃ decoded, decodeAtaBytes blob = .ok decoded ∧ decoded.format = format ∧
          decoded.hwSig = hwSig.toNat ∧ decoded.cycles = cycles.map UInt64.toNat) ↔
      ¬Overlong blob := by
  simp only [rmrAtaLoadFd_eq_iff, decodeAtaBytes_eq_iff, overlong_iff]
  constructor
  · rintro h ⟨format, hwSig, rs, extra, hreads, hne⟩
    obtain ⟨rs', hreads', -⟩ := (h (fun _ => 0) format hwSig _).mp ⟨rs, extra, hreads, rfl⟩
    exact hne (hreads.unique hreads').2.2.2
  · intro hnone sizes format hwSig cycles
    constructor
    · rintro ⟨rs, extra, hreads, hcycles⟩
      have hextra : extra = [] := by
        by_contra hne
        exact hnone ⟨format, hwSig, rs, extra, hreads, hne⟩
      exact ⟨rs, hextra ▸ hreads, hcycles⟩
    · rintro ⟨rs, hreads, hcycles⟩
      exact ⟨rs, [], hreads, hcycles⟩

/-- One byte behind a V1 file of one record. -/
theorem load_overlong :
    rmrAtaLoadFd (.inReads (v1Bytes 5 [⟨1, 7, 9⟩] ++ [0]) fun _ => 0) 42 =
      { code := 1, hwSig := some 5, format := some .v1, arena := [7] } ∧
    decodeAtaBytes (v1Bytes 5 [⟨1, 7, 9⟩] ++ [0]) = .error (.payload 24 25) := by
  constructor
  · have hreads : Reads 42 (v1Bytes 5 [⟨1, 7, 9⟩] ++ [0]) .v1 5 [⟨1, 7, 9⟩] [0] :=
      .v1 rfl (by decide) (by decide) (by decide) ⟨by decide, rfl, trivial⟩
    exact rmrAtaLoadFd_of_reads hreads _ (by decide)
  · rfl

end Agreement

end Blake3.Ata
