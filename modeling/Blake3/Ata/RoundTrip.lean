import Blake3.Ata.Loader

/-!
Files that are written and read again: the V1 file of `rafaelia_core.c`, and
compact files.
-/

namespace Blake3.Ata

open ShortReads

section Loads

variable {blob : List Byte} {cap : ℕ}

/-- What a file stands for is loaded. -/
theorem rmrAtaLoadFd_of_reads {format : Format} {hwSig : UInt64} {rs : List Record}
    {extra : List Byte} (h : Reads cap blob format hwSig rs extra) (sizes : ℕ → ℕ)
    (hcap : 0 < cap) :
    rmrAtaLoadFd (.inReads blob sizes) cap =
      { code := rs.length, hwSig := some hwSig, format := some format,
        arena := rs.map Record.cyc } := by
  have hspec := rmrAtaLoadFd_spec (Source.reliable_inReads blob sizes) hcap
  generalize rmrAtaLoadFd (.inReads blob sizes) cap = loaded at hspec ⊢
  cases hspec with
  | accepted h' =>
      obtain ⟨rfl, rfl, rfl, -⟩ := h.unique h'
      rfl
  | rejected _ _ hno => exact absurd h (hno _ _ _ _)

/-- What is loaded is what the file stands for. -/
theorem reads_of_rmrAtaLoadFd {sizes : ℕ → ℕ} (hcap : 0 < cap)
    (hcode : 0 ≤ (rmrAtaLoadFd (.inReads blob sizes) cap).code) :
    ∃ format hwSig rs extra, Reads cap blob format hwSig rs extra ∧
      rmrAtaLoadFd (.inReads blob sizes) cap =
        { code := rs.length, hwSig := some hwSig, format := some format,
          arena := rs.map Record.cyc } := by
  have hspec := rmrAtaLoadFd_spec (Source.reliable_inReads blob sizes) hcap
  generalize rmrAtaLoadFd (.inReads blob sizes) cap = loaded at hspec hcode ⊢
  cases hspec with
  | accepted h => exact ⟨_, _, _, _, h, rfl⟩
  | rejected hneg _ _ => omega

/-- A file is taken for a V1 file only when it looks like one. -/
theorem looksV1_of_format {sizes : ℕ → ℕ} (hcap : 0 < cap)
    (h : (rmrAtaLoadFd (.inReads blob sizes) cap).format = some .v1) : looksV1 blob = true := by
  have hspec := rmrAtaLoadFd_spec (Source.reliable_inReads blob sizes) hcap
  generalize rmrAtaLoadFd (.inReads blob sizes) cap = loaded at hspec h
  cases hspec with
  | accepted hreads => exact hreads.looksV1_iff.mpr (Option.some.inj h)
  | rejected _ hformat _ => exact hformat h

end Loads

/-! ### The V1 file of `rafaelia_core.c` -/

section Core

variable {hwSig : UInt64} {cycles : Vector UInt64 42}

/-- The records that are written. -/
def coreRecords (cycles : Vector UInt64 42) : List Record :=
  (List.finRange 42).map fun (i : Fin 42) => coreRecord (UInt64.ofNat (i.val + 1)) (cycles.get i)

@[simp] theorem length_coreRecords (cycles : Vector UInt64 42) :
    (coreRecords cycles).length = 42 := by
  simp [coreRecords]

theorem rafaeliaCore_eq : rafaeliaCore hwSig cycles = v1Bytes hwSig (coreRecords cycles) := by
  rw [rafaeliaCore, rmrAtaBuildV1Header, v1Bytes, length_coreRecords, v1Probe, recordBytes,
    coreRecords, List.flatMap_map]
  simp only [List.append_assoc]
  rfl

theorem p9_valid (n : UInt64) : (1 ≤ p9 n ∧ p9 n ≤ 9) ↔ n ≠ 0 := by
  rw [p9]
  split_ifs with h
  · refine iff_of_true ?_ h
    have hmod : ((n - 1) % 9).toNat = (n - 1).toNat % 9 := UInt64.toNat_mod _ _
    have hlt := Nat.mod_lt (n - 1).toNat (show 0 < 9 by decide)
    have hsum : (1 + (n - 1) % 9).toNat = 1 + (n - 1).toNat % 9 := by
      rw [UInt64.toNat_add, hmod]
      exact Nat.mod_eq_of_lt (show 1 + (n - 1).toNat % 9 < 2 ^ 64 by omega)
    rw [UInt64.le_iff_toNat_le, UInt64.le_iff_toNat_le, hsum]
    exact ⟨Nat.le_add_right 1 _, show 1 + (n - 1).toNat % 9 ≤ 9 by omega⟩
  · exact iff_of_false (by decide) h

theorem sequential_iff (next : ℕ) (rs : List Record) :
    Sequential next rs ↔ ∀ i r, rs[i]? = some r →
      rmrAtaRecordValid r = true ∧ r.k.toNat = next + i := by
  induction rs generalizing next with
  | nil => simp [Sequential]
  | cons r rs ih =>
      rw [Sequential, ih]
      constructor
      · rintro ⟨hvalid, hk, hrest⟩ (_ | i) r' hr'
        · obtain rfl := Option.some.inj hr'
          exact ⟨hvalid, hk⟩
        · obtain ⟨hvalid', hk'⟩ := hrest i r' hr'
          exact ⟨hvalid', by omega⟩
      · intro h
        obtain ⟨hvalid, hk⟩ := h 0 r rfl
        refine ⟨hvalid, hk, fun i r' hr' => ?_⟩
        obtain ⟨hvalid', hk'⟩ := h (i + 1) r' hr'
        exact ⟨hvalid', by omega⟩

/-- The number of a record is in range, so that the record is valid where the sum is not zero. -/
theorem coreRecord_valid (i : Fin 42) (cyc : UInt64) :
    rmrAtaRecordValid (coreRecord (UInt64.ofNat (i.val + 1)) cyc) = true ↔
      cyc + UInt64.ofNat (i.val + 1) ≠ 0 := by
  have hk : (UInt64.ofNat (i.val + 1)).toNat = i.val + 1 := toNat_ofNat64 (by omega)
  have hlow : 1 ≤ UInt64.ofNat (i.val + 1) := by
    rw [UInt64.le_iff_toNat_le, hk]
    exact Nat.le_add_left 1 _
  have hhigh : UInt64.ofNat (i.val + 1) ≤ 42 := by
    rw [UInt64.le_iff_toNat_le, hk]
    exact i.isLt
  generalize UInt64.ofNat (i.val + 1) = k at hlow hhigh
  rw [← p9_valid, rmrAtaRecordValid, coreRecord]
  simp [hlow, hhigh]

/-- The records are numbered in order. -/
theorem sequential_coreRecords :
    Sequential 1 (coreRecords cycles) ↔
      ∀ i : Fin 42, cycles.get i + UInt64.ofNat (i.val + 1) ≠ 0 := by
  have hentry : ∀ i : Fin 42, (coreRecords cycles)[i.val]? =
      some (coreRecord (UInt64.ofNat (i.val + 1)) (cycles.get i)) := by
    intro i
    simp [coreRecords]
  rw [sequential_iff]
  constructor
  · intro h i
    exact (coreRecord_valid i _).mp (h i.val _ (hentry i)).1
  · intro h i r hr
    have hi : i < 42 := by
      have hlt := (List.getElem?_eq_some_iff.mp hr).1
      simpa [coreRecords] using hlt
    rw [hentry ⟨i, hi⟩] at hr
    obtain rfl := Option.some.inj hr
    refine ⟨(coreRecord_valid ⟨i, hi⟩ _).mpr (h ⟨i, hi⟩), ?_⟩
    rw [coreRecord, toNat_ofNat64 (show i + 1 < 2 ^ 64 by omega), Nat.add_comm]

/-- The records that were written are read if they are in order. -/
theorem reads_rafaeliaCore (hwSig : UInt64) (hseq : Sequential 1 (coreRecords cycles)) :
    Reads 42 (rafaeliaCore hwSig cycles) .v1 hwSig (coreRecords cycles) [] := by
  have hlength := length_coreRecords cycles
  refine .v1 ?_ (by omega) (by omega) (by omega) hseq
  rw [rafaeliaCore_eq, List.append_nil]

theorem map_cyc_coreRecords : (coreRecords cycles).map Record.cyc = cycles.toList := by
  apply List.ext_getElem
  · rw [List.length_map, length_coreRecords, Vector.length_toList]
  · intro i hi hi'
    simp [coreRecords, coreRecord, Vector.get]

/-- A V1 file that is read at all is read as the records that were written. -/
theorem sequential_of_reads {format : Format} {hwSig' : UInt64} {rs : List Record}
    {extra : List Byte} (h : Reads 42 (rafaeliaCore hwSig cycles) format hwSig' rs extra) :
    Sequential 1 (coreRecords cycles) := by
  have hlength := length_coreRecords cycles
  have hprobe : ((rafaeliaCore hwSig cycles).drop 4).take 24 = v1Probe hwSig 42 := by
    rw [rafaeliaCore_eq, ← List.append_nil (v1Bytes hwSig (coreRecords cycles)),
      take_drop_v1Bytes, hlength]
    rfl
  have hlooks : looksV1 (rafaeliaCore hwSig cycles) = true := by
    rw [looksV1, hprobe, isV1Probe_v1Probe]
    decide
  obtain rfl := h.looksV1_iff.mp hlooks
  cases h with
  | v1 h hpos hle hcap hseq =>
      have hcount : rs.length = 42 := by
        rw [h, take_drop_v1Bytes] at hprobe
        have hget := congrArg (fun bytes => rmrAtaGetU32Le (bytes.drop 8)) hprobe
        rw [rmrAtaGetU32Le_v1Probe, rmrAtaGetU32Le_v1Probe] at hget
        rw [← toNat_count hle, hget]
        rfl
      have hdrop := congrArg (fun bytes => (bytes.drop 4).drop 24) h
      rw [rafaeliaCore_eq, ← List.append_nil (v1Bytes hwSig (coreRecords cycles)), drop_v1Bytes,
        drop_v1Bytes, List.drop_left' length_v1Probe, List.drop_left' length_v1Probe] at hdrop
      rw [(recordBytes_inj (hlength.trans hcount.symm) hdrop).1]
      exact hseq

/-- What `rafaelia_core.c` writes is loaded, whatever the lengths of the reads, exactly when no
sum of a cycle value and its number wraps to zero. -/
theorem load_rafaeliaCore_iff (hwSig : UInt64) (cycles : Vector UInt64 42) :
    (∀ sizes, rmrAtaLoadFd (.inReads (rafaeliaCore hwSig cycles) sizes) 42 =
      { code := 42, hwSig := some hwSig, format := some .v1, arena := cycles.toList }) ↔
      ∀ i : Fin 42, cycles.get i + UInt64.ofNat (i.val + 1) ≠ 0 := by
  rw [← sequential_coreRecords]
  constructor
  · intro h
    have hcode : 0 ≤ (rmrAtaLoadFd (.inReads (rafaeliaCore hwSig cycles) fun _ => 0)
        (42 : ℕ)).code := by
      rw [show ((42 : ℕ) : ℤ) = 42 from rfl, h]
      exact Int.natCast_nonneg 42
    obtain ⟨_, _, _, _, hreads, -⟩ := reads_of_rmrAtaLoadFd (by decide) hcode
    exact sequential_of_reads hreads
  · intro hseq sizes
    have hlength := length_coreRecords cycles
    have hload := rmrAtaLoadFd_of_reads (reads_rafaeliaCore hwSig hseq) sizes (by decide)
    rw [length_coreRecords, map_cyc_coreRecords] at hload
    exact hload

/-- A cycle value of all ones is followed by the number one. -/
theorem load_rafaeliaCore_rejected :
    (rmrAtaLoadFd (.inReads (rafaeliaCore 0 (Vector.replicate 42 0xffffffffffffffff))
      fun _ => 0) 42).code < 0 := by
  by_contra hcode
  obtain ⟨_, _, _, _, hreads, -⟩ := reads_of_rmrAtaLoadFd (by decide) (Int.not_lt.mp hcode)
  exact sequential_coreRecords.mp (sequential_of_reads hreads) 0 (by decide)

end Core

/-! ### Compact files -/

section Legacy

/-- Only one signature makes a compact file look like a V1 file. -/
theorem hwSig_of_looksV1 {hwSig : UInt64} {rest : List Byte}
    (h : looksV1 (rmrAtaMagic ++ (rmrAtaPutU64Le hwSig ++ rest)) = true) :
    hwSig = 0x1800000001 := by
  have hdrop : (rmrAtaMagic ++ (rmrAtaPutU64Le hwSig ++ rest)).drop 4 =
      rmrAtaPutU64Le hwSig ++ rest := rfl
  have hlength := length_rmrAtaPutU64Le hwSig
  rw [looksV1, hdrop, List.take_append, hlength, List.take_of_length_le (by omega)] at h
  obtain ⟨hversion, hsize, -⟩ := isV1Probe_iff.mp h
  have hlow : LittleEndian.ofBytes ((rmrAtaPutU64Le hwSig).take 4) = 1 := by
    have hget := toNat_rmrAtaGetU32Le
      (show 4 ≤ (rmrAtaPutU64Le hwSig ++ rest.take 16).length by
        rw [List.length_append]
        omega)
    rw [hversion, List.take_append_of_le_length (by omega)] at hget
    exact hget.symm
  have hhigh : LittleEndian.ofBytes ((rmrAtaPutU64Le hwSig).drop 4) = 24 := by
    rw [List.drop_append_of_le_length (by omega)] at hsize
    have hget := toNat_rmrAtaGetU32Le
      (show 4 ≤ ((rmrAtaPutU64Le hwSig).drop 4 ++ rest.take 16).length by
        rw [List.length_append, List.length_drop]
        omega)
    rw [hsize, List.take_left' (by rw [List.length_drop, hlength])] at hget
    exact hget.symm
  have hvalue := rmrAtaPutU64Le_eq hwSig
  rw [← List.take_append_drop 4 (rmrAtaPutU64Le hwSig)] at hvalue
  apply UInt64.toNat_inj.mp
  have hbound : hwSig.toNat < 256 ^ 8 := hwSig.toNat_lt
  rw [← LittleEndian.ofBytes_toBytes_of_lt hbound, ← hvalue, LittleEndian.ofBytes_append, hlow,
    hhigh, List.length_take, hlength]
  rfl

/-- A compact file of 42 records is loaded as one, and none is taken for a V1 file, where the
signature is not the beginning of a V1 header. -/
theorem load_legacyBytes {hwSig : UInt64} (hsig : hwSig ≠ 0x1800000001) :
    (∀ rs : List Record, rs.length = 42 → (∀ r ∈ rs, rmrAtaRecordValid r = true) →
      ∀ sizes, rmrAtaLoadFd (.inReads (legacyBytes hwSig rs) sizes) 42 =
        { code := 42, hwSig := some hwSig, format := some .legacy, arena := rs.map Record.cyc }) ∧
    ∀ rest sizes, (rmrAtaLoadFd
      (.inReads (rmrAtaMagic ++ (rmrAtaPutU64Le hwSig ++ rest)) sizes) 42).format ≠ some .v1 := by
  constructor
  · intro rs hlength hvalid sizes
    have hlooks : looksV1 (legacyBytes hwSig rs) = false :=
      Bool.eq_false_iff.mpr fun h => hsig (hwSig_of_looksV1 h)
    have hreads : Reads 42 (legacyBytes hwSig rs) .legacy hwSig rs [] :=
      .legacy (List.append_nil _).symm (by omega) (by omega) hvalid (.inl rfl) hlooks
    have hload := rmrAtaLoadFd_of_reads hreads sizes (by decide)
    rw [hlength] at hload
    exact hload
  · intro rest sizes hformat
    exact hsig (hwSig_of_looksV1 (looksV1_of_format (show 0 < 42 by decide) hformat))

theorem load_legacyBytes_zero :
    (0 : UInt64) ≠ 0x1800000001 ∧
    ∀ sizes, rmrAtaLoadFd (.inReads (legacyBytes 0 (List.replicate 42 ⟨1, 7, 9⟩)) sizes) 42 =
      { code := 42, hwSig := some 0, format := some .legacy, arena := List.replicate 42 7 } :=
  ⟨by decide, (load_legacyBytes (by decide)).1 _ (by decide) (by decide)⟩

/-- The other signature is read as the version and the size of the records of a V1 file, and
the number of the first record as their count. -/
theorem load_legacyBytes_as_v1 :
    (∀ r ∈ List.replicate 42 (⟨1, 1, 1⟩ : Record), rmrAtaRecordValid r = true) ∧
    rmrAtaLoadFd (.inReads (legacyBytes 0x1800000001 (List.replicate 42 ⟨1, 1, 1⟩)) fun _ => 0)
      42 = { code := 1, hwSig := some 1, format := some .v1, arena := [1] } := by
  refine ⟨by decide, ?_⟩
  have hreads : Reads 42 (legacyBytes 0x1800000001 (List.replicate 42 ⟨1, 1, 1⟩)) .v1 1 [⟨1, 1, 1⟩]
      (rmrAtaPutU64Le 1 ++ recordBytes (List.replicate 40 ⟨1, 1, 1⟩)) :=
    .v1 (by decide +kernel) (by decide) (by decide) (by decide) ⟨by decide, rfl, trivial⟩
  exact rmrAtaLoadFd_of_reads hreads _ (by decide)

end Legacy

end Blake3.Ata
