import Blake3.Ata.Streams

/-!
The loader in C, whatever the lengths of the reads: it accepts exactly the
files that stand for records, and leaves alone what follows them.
-/

namespace Blake3.Ata

open ShortReads

/-! ### Reading -/

section ReadExact

variable {fd : Source Byte} {len : ℕ} {done : List Byte}

/-- How reading `len` bytes of what is left ends. -/
inductive ReadSpec (rest : List Byte) (len : ℕ) : ReadStatus × List Byte × Source Byte → Prop
  | success {fd : Source Byte} (hlen : len ≤ rest.length) (hrest : fd.rest = rest.drop len)
      (hreliable : fd.Reliable) : ReadSpec rest len (.success, rest.take len, fd)
  | eof {bytes : List Byte} {fd : Source Byte} (hlen : rest = []) (hpos : 0 < len) :
      ReadSpec rest len (.eof, bytes, fd)
  | failure {bytes : List Byte} {fd : Source Byte} (hlen : rest.length < len) (hne : rest ≠ []) :
      ReadSpec rest len (.failure, bytes, fd)

/-- The loop goes on until all bytes, those read before included, are there. -/
theorem readExactFrom_spec (hreliable : fd.Reliable) (hdone : done.length ≤ len) :
    ReadSpec (done ++ fd.rest) len (readExactFrom len done fd) := by
  induction hleft : len - done.length using Nat.strong_induction_on generalizing done fd with
  | _ left ih =>
  rw [readExactFrom]
  rcases Nat.lt_or_ge done.length len with hlt | hge
  · rw [if_pos hlt]
    obtain ⟨n, fd', hread, hrest, hreliable', hpos, hle⟩ :=
      hreliable.read (show 0 < len - done.length by omega)
    rw [hread]
    rcases hgot : fd.rest.take n with _ | ⟨b, got⟩
    · -- the end of the source
      have hnil : fd.rest = [] := by
        rcases List.take_eq_nil_iff.mp hgot with h | h
        · omega
        · exact h
      dsimp only
      rw [hnil, List.append_nil]
      split_ifs with hempty
      · exact .eof hempty (by omega)
      · exact .failure hlt hempty
    · have hlength : (b :: got).length ≤ n := by
        rw [← hgot, List.length_take]
        omega
      have hjoin : done ++ fd.rest = done ++ b :: got ++ fd'.rest := by
        rw [hrest, ← hgot, List.append_assoc, List.take_append_drop]
      rw [hjoin]
      rw [List.length_cons] at hlength
      apply ih _ _ hreliable' _ rfl
      · rw [List.length_append, List.length_cons]
        omega
      · rw [List.length_append, List.length_cons]
        omega
  · rw [if_neg (Nat.not_lt.mpr hge)]
    have hfull : done.length = len := by omega
    have hspec : ReadSpec (done ++ fd.rest) len (.success, (done ++ fd.rest).take len, fd) := by
      refine .success (by rw [List.length_append]; omega) ?_ hreliable
      rw [List.drop_left' hfull]
    rwa [List.take_left' hfull] at hspec

theorem rmrAtaReadExact_spec (hreliable : fd.Reliable) (len : ℕ) :
    ReadSpec fd.rest len (rmrAtaReadExact fd len) := by
  have hspec : ReadSpec ([] ++ fd.rest) len (readExactFrom len [] fd) :=
    readExactFrom_spec hreliable (Nat.zero_le len)
  exact hspec

end ReadExact

/-! ### The loops over the records -/

section Loops

/-- How a loop over records ends: with as many records as are good, or with an error. -/
inductive LoopSpec (bytes : List Byte) (arena : List UInt64)
    (good : List Record → List Byte → Prop) : ℤ × List UInt64 → Prop
  | done {rs : List Record} {extra : List Byte} (h : bytes = recordBytes rs ++ extra)
      (hgood : good rs extra) :
      LoopSpec bytes arena good ((arena.length + rs.length : ℕ), arena ++ rs.map Record.cyc)
  | failed {code : ℤ} {arena' : List UInt64} (hcode : code < 0)
      (hno : ∀ rs extra, bytes = recordBytes rs ++ extra → ¬good rs extra) :
      LoopSpec bytes arena good (code, arena')

/-- The records that are left of a V1 file of `count` records. -/
def LeftOfV1 (count : ℕ) (arena : List UInt64) (rs : List Record) (_ : List Byte) : Prop :=
  arena.length + rs.length = count ∧ Sequential (arena.length + 1) rs

/-- The records that are left of a compact file, as many as fit. -/
def LeftOfLegacy (cap : ℕ) (arena : List UInt64) (rs : List Record) (extra : List Byte) : Prop :=
  arena.length + rs.length ≤ cap ∧ (∀ r ∈ rs, rmrAtaRecordValid r = true) ∧
    (extra = [] ∨ arena.length + rs.length = cap)

variable {fd : Source Byte} {arena : List UInt64} {bytes : List Byte}

/-- One more record in front. -/
theorem LoopSpec.cons {good good' : List Record → List Byte → Prop} {out : ℤ × List UInt64}
    (hlen : 24 ≤ bytes.length)
    (hgood : ∀ rs extra, good (rmrAtaDecodeRecord bytes :: rs) extra ↔ good' rs extra)
    (hnil : ¬good [] bytes)
    (h : LoopSpec (bytes.drop 24) (arena ++ [(rmrAtaDecodeRecord bytes).cyc]) good' out) :
    LoopSpec bytes arena good out := by
  have hsplit : bytes = rmrAtaEncodeRecord (rmrAtaDecodeRecord bytes) ++ bytes.drop 24 := by
    rw [rmrAtaEncodeRecord_decode hlen, List.take_append_drop]
  cases h with
  | @done rs extra hrest hrs =>
      have hbytes : bytes = recordBytes (rmrAtaDecodeRecord bytes :: rs) ++ extra := by
        rw [recordBytes_cons, List.append_assoc, ← hrest, ← hsplit]
      have hdone : LoopSpec bytes arena good _ := .done hbytes ((hgood rs extra).mpr hrs)
      rw [List.length_append, List.length_singleton, List.append_assoc, Nat.add_assoc,
        Nat.add_comm 1]
      exact hdone
  | failed hcode hno =>
      refine .failed hcode ?_
      rintro (_ | ⟨r, rs⟩) extra hrs hrsGood
      · rw [hrs] at hnil
        exact hnil hrsGood
      · have hr : rmrAtaDecodeRecord bytes = r := by
          rw [hrs, recordBytes_cons, List.append_assoc, rmrAtaDecodeRecord_encode]
        rw [← hr] at hrs hrsGood
        refine hno rs extra ?_ ((hgood rs extra).mp hrsGood)
        rw [recordBytes_cons, List.append_assoc] at hrs
        exact List.append_cancel_left (hsplit.symm.trans hrs)

/-- Fewer bytes than a record has are not the bytes of records. -/
theorem recordBytes_of_short {rs : List Record} {extra : List Byte}
    (h : bytes = recordBytes rs ++ extra) (hshort : bytes.length < 24) : rs = [] := by
  rw [h, List.length_append, length_recordBytes] at hshort
  exact List.length_eq_zero_iff.mp (by omega)

theorem loadV1_spec (arena : List UInt64) (hreliable : fd.Reliable) {count : ℕ}
    (hle : arena.length ≤ count) (hcount : count < 2 ^ 64) :
    LoopSpec fd.rest arena (LeftOfV1 count arena) (loadV1 count fd arena) := by
  induction hleft : count - arena.length using Nat.strong_induction_on generalizing arena fd with
  | _ left ih =>
  rw [loadV1]
  rcases Nat.lt_or_ge arena.length count with hlt | hge
  · have hnil : ∀ extra, ¬LeftOfV1 count arena [] extra := by
      rintro extra ⟨hlength, -⟩
      rw [List.length_nil] at hlength
      omega
    have hshort : fd.rest.length < 24 → ∀ rs extra, fd.rest = recordBytes rs ++ extra →
        ¬LeftOfV1 count arena rs extra := by
      intro hlt24 rs extra hrs
      rw [recordBytes_of_short hrs hlt24]
      exact hnil extra
    rw [if_pos hlt]
    have hread := rmrAtaReadExact_spec hreliable rmrAtaRecordSize
    generalize rmrAtaReadExact fd rmrAtaRecordSize = result at hread
    cases hread with
    | @success fd' hlen hrest hreliable' =>
        rw [rmrAtaRecordSize] at hlen hrest ⊢
        have hnext : (UInt64.ofNat (arena.length + 1)).toNat = arena.length + 1 :=
          toNat_ofNat64 (by omega)
        dsimp only
        rw [rmrAtaDecodeRecord_take hlen]
        split_ifs with hbad
        · refine .failed (by decide) ?_
          rintro (_ | ⟨r, rs⟩) extra hrs hgood
          · exact hnil extra hgood
          · rw [hrs, recordBytes_cons, List.append_assoc, rmrAtaDecodeRecord_encode] at hbad
            obtain ⟨-, hvalid, hk, -⟩ := hgood
            rcases hbad with hbad | hbad
            · exact hbad hvalid
            · exact hbad (UInt64.toNat_inj.mp (hk.trans hnext.symm))
        · rw [not_or, not_not, not_not] at hbad
          have hlength :
              (arena ++ [(rmrAtaDecodeRecord fd.rest).cyc]).length = arena.length + 1 := by
            rw [List.length_append, List.length_singleton]
          have hspec := ih _ (by rw [hlength]; omega) _ hreliable' (by rw [hlength]; omega) rfl
          rw [hrest] at hspec
          refine .cons hlen ?_ (hnil fd.rest) hspec
          intro rs extra
          rw [LeftOfV1, LeftOfV1, hlength, List.length_cons, Sequential, hbad.2, hnext]
          constructor
          · rintro ⟨hlength, -, -, hrs⟩
            exact ⟨by omega, hrs⟩
          · rintro ⟨hlength, hrs⟩
            exact ⟨by omega, hbad.1, rfl, hrs⟩
    | eof hempty hpos =>
        exact .failed (by decide) (hshort (by rw [hempty]; exact hpos))
    | failure hlen hne => exact .failed (by decide) (hshort hlen)
  · rw [if_neg (Nat.not_lt.mpr hge)]
    have hdone : LoopSpec fd.rest arena (LeftOfV1 count arena)
        ((arena.length + ([] : List Record).length : ℕ), arena ++ [].map Record.cyc) :=
      .done rfl ⟨by rw [List.length_nil]; omega, trivial⟩
    rwa [List.map_nil, List.append_nil] at hdone

theorem loadLegacy_spec (arena : List UInt64) (hreliable : fd.Reliable) {cap : ℕ}
    (hle : arena.length ≤ cap) :
    LoopSpec fd.rest arena (LeftOfLegacy cap arena) (loadLegacy cap fd arena) := by
  -- on the places that are left in the arena
  induction hleft : cap - arena.length using Nat.strong_induction_on generalizing arena fd with
  | _ left ih =>
  -- a good end: the file ends between two records, or the arena is full
  have hstop : fd.rest = [] ∨ arena.length = cap →
      LoopSpec fd.rest arena (LeftOfLegacy cap arena) (arena.length, arena) := by
    intro hend
    have hdone : LoopSpec fd.rest arena (LeftOfLegacy cap arena)
        ((arena.length + ([] : List Record).length : ℕ), arena ++ [].map Record.cyc) :=
      .done rfl ⟨hle, by simp, hend⟩
    rwa [List.map_nil, List.append_nil] at hdone
  rw [loadLegacy]
  rcases Nat.lt_or_ge arena.length cap with hlt | hge
  · rw [if_pos hlt]
    have hread := rmrAtaReadExact_spec hreliable rmrAtaRecordSize
    generalize rmrAtaReadExact fd rmrAtaRecordSize = result at hread
    cases hread with
    | @success fd' hlen hrest hreliable' =>
        rw [rmrAtaRecordSize] at hlen hrest ⊢
        have hne : fd.rest ≠ [] := by
          intro hempty
          rw [hempty] at hlen
          exact absurd hlen (by decide)
        dsimp only
        rw [rmrAtaDecodeRecord_take hlen]
        split_ifs with hvalid
        · have hlength : (arena ++ [(rmrAtaDecodeRecord fd.rest).cyc]).length =
              arena.length + 1 := by
            rw [List.length_append, List.length_singleton]
          have hspec := ih _ (by rw [hlength]; omega) _ hreliable' (by rw [hlength]; omega) rfl
          rw [hrest] at hspec
          refine .cons hlen ?_ ?_ hspec
          · intro rs extra
            rw [LeftOfLegacy, LeftOfLegacy, hlength, List.length_cons, List.forall_mem_cons,
              Nat.add_assoc, Nat.add_comm 1]
            simp only [hvalid, true_and]
          · rintro ⟨-, -, hend | hend⟩
            · exact hne hend
            · rw [List.length_nil] at hend
              omega
        · refine .failed (by decide) ?_
          rintro (_ | ⟨r, rs⟩) extra hrs ⟨-, hall, hend⟩
          · rcases hend with hend | hend
            · exact hne (by rw [hrs, hend]; rfl)
            · rw [List.length_nil] at hend
              omega
          · rw [hrs, recordBytes_cons, List.append_assoc, rmrAtaDecodeRecord_encode] at hvalid
            exact hvalid (hall r (List.mem_cons_self ..))
    | eof hempty hpos => exact hstop (.inl hempty)
    | failure hlen hne =>
        refine .failed (by decide) ?_
        rintro rs extra hrs ⟨-, -, hend⟩
        obtain rfl := recordBytes_of_short hrs hlen
        rcases hend with hend | hend
        · exact hne (by rw [hrs, hend]; rfl)
        · rw [List.length_nil] at hend
          omega
  · rw [if_neg (Nat.not_lt.mpr hge)]
    exact hstop (.inr (by omega))

end Loops

/-! ### The loader -/

section Load

variable {fd : Source Byte} {cap : ℕ}

/-- How the loader ends: with what the file stands for, or with an error. -/
inductive LoadSpec (cap : ℕ) (blob : List Byte) : Loaded → Prop
  | accepted {format : Format} {hwSig : UInt64} {rs : List Record} {extra : List Byte}
      (h : Reads cap blob format hwSig rs extra) :
      LoadSpec cap blob { code := rs.length, hwSig := some hwSig, format := some format,
                          arena := rs.map Record.cyc }
  | rejected {loaded : Loaded} (hcode : loaded.code < 0)
      (hformat : loaded.format = some .v1 → looksV1 blob = true)
      (hno : ∀ format hwSig rs extra, ¬Reads cap blob format hwSig rs extra) :
      LoadSpec cap blob loaded

/-- A file without room for a record is rejected. -/
theorem LoadSpec.of_short {blob : List Byte} {loaded : Loaded} (hcode : loaded.code < 0)
    (hformat : loaded.format ≠ some .v1) (hlen : blob.length < 36) : LoadSpec cap blob loaded := by
  refine .rejected hcode (fun h => absurd h hformat) ?_
  intro format hwSig rs extra hreads
  have hle := hreads.length_le
  omega

/-- The first record of a compact file is checked before the others are read. -/
theorem not_reads_of_first {blob : List Byte} (hlooks : looksV1 blob = false)
    (hvalid : ¬rmrAtaRecordValid (rmrAtaDecodeRecord (blob.drop 12)) = true) (format : Format)
    (hwSig : UInt64) (rs : List Record) (extra : List Byte) :
    ¬Reads cap blob format hwSig rs extra := by
  intro hreads
  obtain rfl := hreads.format_eq_legacy hlooks
  cases hreads with
  | legacy h hpos hle hvalids _ _ =>
      obtain _ | ⟨r, rs⟩ := rs
      · exact absurd hpos (Nat.lt_irrefl 0)
      · rw [h, show 12 = 4 + 8 from rfl, ← List.drop_drop, drop_legacyBytes,
          List.drop_left' (length_rmrAtaPutU64Le _), recordBytes_cons, List.append_assoc,
          rmrAtaDecodeRecord_encode] at hvalid
        exact hvalid (hvalids r (List.mem_cons_self ..))

/-- The records of a V1 file. -/
theorem loadV1_loadSpec {blob probe : List Byte} (hreliable : fd.Reliable)
    (hmagic : blob.take 4 = rmrAtaMagic) (hlen : 28 ≤ blob.length)
    (hprobe : probe = (blob.drop 4).take 24) (hlooks : isV1Probe probe = true)
    (hrest : fd.rest = blob.drop 28) (hcount : (rmrAtaGetU32Le (probe.drop 8)).toNat ≤ cap) :
    LoadSpec cap blob
      { code := (loadV1 (rmrAtaGetU32Le (probe.drop 8)).toNat fd []).1
        hwSig := some (rmrAtaGetU64Le (probe.drop 16))
        format := some .v1
        arena := (loadV1 (rmrAtaGetU32Le (probe.drop 8)).toNat fd []).2 } := by
  have hlooks' : looksV1 blob = true := by rw [looksV1, ← hprobe, hlooks]
  obtain ⟨-, -, hpos, hle, -⟩ := isV1Probe_iff.mp hlooks
  have hblob := eq_of_looksV1 hmagic hlen hlooks'
  rw [← hprobe, ← hrest] at hblob
  have hspec := loadV1_spec [] hreliable (Nat.zero_le _)
    (show (rmrAtaGetU32Le (probe.drop 8)).toNat < 2 ^ 64 by omega)
  generalize loadV1 (rmrAtaGetU32Le (probe.drop 8)).toNat fd [] = result at hspec ⊢
  cases hspec with
  | @done rs extra h hgood =>
      obtain ⟨hcountEq, hseq⟩ := hgood
      rw [List.length_nil, Nat.zero_add] at hcountEq hseq
      have hword : rmrAtaGetU32Le (probe.drop 8) = UInt32.ofNat rs.length := by
        rw [hcountEq, UInt32.ofNat_toNat]
      rw [hword, h] at hblob
      rw [List.length_nil, Nat.zero_add, List.nil_append]
      have hreads : Reads cap blob .v1 (rmrAtaGetU64Le (probe.drop 16)) rs extra := by
        refine .v1 ?_ (by omega) (by omega) (by omega) hseq
        rw [v1Bytes, List.append_assoc, List.append_assoc]
        exact hblob
      exact .accepted hreads
  | failed hcode hno =>
      refine .rejected hcode (fun _ => hlooks') ?_
      intro format hwSig rs extra hreads
      obtain rfl := hreads.looksV1_iff.mp hlooks'
      cases hreads with
      | v1 h hpos' hle' hcap hseq =>
          have hprobe' : probe = v1Probe hwSig (UInt32.ofNat rs.length) := by
            rw [hprobe, h, take_drop_v1Bytes]
          refine hno rs extra ?_ ⟨?_, hseq⟩
          · rw [hrest, show 28 = 4 + 24 from rfl, ← List.drop_drop, h, drop_v1Bytes,
              List.drop_left' length_v1Probe]
          · rw [hprobe', rmrAtaGetU32Le_v1Probe, toNat_count hle', List.length_nil, Nat.zero_add]

/-- The records of a compact file. -/
theorem loadLegacy_loadSpec {blob : List Byte} (hreliable : fd.Reliable)
    (hmagic : blob.take 4 = rmrAtaMagic) (hlen : 36 ≤ blob.length) (hlooks : looksV1 blob = false)
    (hrest : fd.rest = blob.drop 36) (hcap : 0 < cap)
    (hvalid : rmrAtaRecordValid (rmrAtaDecodeRecord (blob.drop 12)) = true) :
    LoadSpec cap blob
      { code := (loadLegacy cap fd [(rmrAtaDecodeRecord (blob.drop 12)).cyc]).1
        hwSig := some (rmrAtaGetU64Le (blob.drop 4))
        format := some .legacy
        arena := (loadLegacy cap fd [(rmrAtaDecodeRecord (blob.drop 12)).cyc]).2 } := by
  have hpayload : 24 ≤ (blob.drop 12).length := by
    rw [List.length_drop]
    omega
  have hspec := loadLegacy_spec [(rmrAtaDecodeRecord (blob.drop 12)).cyc] hreliable hcap
  rw [hrest, show 36 = 12 + 24 from rfl, ← List.drop_drop] at hspec
  -- the first record and those of the loop together
  have hall : LoopSpec (blob.drop 12) []
      (fun rs extra => 0 < rs.length ∧ rs.length ≤ cap ∧
        (∀ r ∈ rs, rmrAtaRecordValid r = true) ∧ (extra = [] ∨ rs.length = cap))
      (loadLegacy cap fd [(rmrAtaDecodeRecord (blob.drop 12)).cyc]) := by
    refine .cons hpayload ?_ (fun h => absurd h.1 (Nat.lt_irrefl 0)) hspec
    intro rs extra
    rw [LeftOfLegacy, List.length_cons, List.length_singleton, List.forall_mem_cons, Nat.add_comm 1]
    simp only [hvalid, true_and, Nat.zero_lt_succ]
  generalize loadLegacy cap fd [(rmrAtaDecodeRecord (blob.drop 12)).cyc] = result at hall ⊢
  cases hall with
  | @done rs extra h hgood =>
      obtain ⟨hpos, hle, hvalids, hend⟩ := hgood
      have hreads : Reads cap blob .legacy (rmrAtaGetU64Le (blob.drop 4)) rs extra := by
        refine .legacy ?_ hpos hle hvalids hend hlooks
        rw [legacyBytes, List.append_assoc, List.append_assoc, ← h]
        exact eq_of_magic hmagic (by omega)
      rw [List.length_nil, Nat.zero_add, List.nil_append]
      exact .accepted hreads
  | failed hcode hno =>
      refine .rejected hcode (by simp) ?_
      intro format hwSig rs extra hreads
      obtain rfl := hreads.format_eq_legacy hlooks
      cases hreads with
      | legacy h hpos hle hvalids hend _ =>
          refine hno rs extra ?_ ⟨hpos, hle, hvalids, hend⟩
          rw [show 12 = 4 + 8 from rfl, ← List.drop_drop, h, drop_legacyBytes,
            List.drop_left' (length_rmrAtaPutU64Le _)]

/-- The first record is read in two parts. -/
theorem probe_tail (bytes : List Byte) :
    (bytes.take 24).drop 8 ++ (bytes.drop 24).take 8 = (bytes.drop 8).take 24 := by
  have hdrop : bytes.drop 24 = (bytes.drop 8).drop 16 := by rw [List.drop_drop]
  rw [List.drop_take, hdrop]
  exact List.take_add.symm

/-- The loader accepts what stands for records, whatever the lengths of the reads. -/
theorem rmrAtaLoadFd_spec (hreliable : fd.Reliable) (hcap : 0 < cap) :
    LoadSpec cap fd.rest (rmrAtaLoadFd fd cap) := by
  rw [rmrAtaLoadFd]
  dsimp only
  rw [if_neg (by omega)]
  have hread := rmrAtaReadExact_spec hreliable 4
  generalize rmrAtaReadExact fd 4 = result at hread
  cases hread with
  | eof hempty hpos => exact .of_short (by simp) (by simp) (by rw [hempty]; decide)
  | failure hlen hne => exact .of_short (by simp) (by simp) (by omega)
  | @success fd₁ hlen hrest₁ hreliable₁ =>
  dsimp only
  rcases hmagicOk : rmrAtaMagicOk (fd.rest.take 4) with _ | _
  · rw [if_pos (by simp)]
    refine .rejected (by simp) (by simp) ?_
    intro format hwSig rs extra hreads
    rw [hreads.take_four] at hmagicOk
    exact absurd hmagicOk (by decide)
  have hmagic : fd.rest.take 4 = rmrAtaMagic := by simpa [rmrAtaMagicOk] using hmagicOk
  rw [if_neg (by simp)]
  have hread := rmrAtaReadExact_spec hreliable₁ 24
  have hlength₁ := congrArg List.length hrest₁
  rw [List.length_drop] at hlength₁
  generalize rmrAtaReadExact fd₁ 24 = result at hread
  cases hread with
  | eof hempty hpos =>
      rw [hempty, List.length_nil] at hlength₁
      exact .of_short (by simp) (by simp) (by omega)
  | failure hlen₁ hne => exact .of_short (by simp) (by simp) (by omega)
  | @success fd₂ hlen₁ hrest₂ hreliable₂ =>
  -- the next 24 bytes tell a V1 header from the first record of a compact file
  rw [hrest₁] at hrest₂ ⊢
  rw [List.drop_drop] at hrest₂
  dsimp only
  rcases hlooks : isV1Probe ((fd.rest.drop 4).take 24) with _ | _
  · rw [if_neg (by simp)]
    have hread := rmrAtaReadExact_spec hreliable₂ 8
    have hlength₂ := congrArg List.length hrest₂
    rw [List.length_drop] at hlength₂
    generalize rmrAtaReadExact fd₂ 8 = result at hread
    cases hread with
    | eof hempty hpos =>
        rw [hempty, List.length_nil] at hlength₂
        exact .of_short (by simp) (by simp) (by omega)
    | failure hlen₂ hne => exact .of_short (by simp) (by simp) (by omega)
    | @success fd₃ hlen₂ hrest₃ hreliable₃ =>
        rw [hrest₂] at hrest₃ ⊢
        rw [List.drop_drop] at hrest₃
        dsimp only
        -- the record that began inside the probe is put together again
        have hrecord : ((fd.rest.drop 4).take 24).drop 8 ++ (fd.rest.drop 28).take 8 =
            (fd.rest.drop 12).take 24 := by
          have htail := probe_tail (fd.rest.drop 4)
          rwa [List.drop_drop, List.drop_drop] at htail
        rw [hrecord, rmrAtaDecodeRecord_take (by rw [List.length_drop]; omega),
          rmrAtaGetU64Le_take (by decide) (by rw [List.length_drop]; omega)]
        by_cases hvalid : rmrAtaRecordValid (rmrAtaDecodeRecord (fd.rest.drop 12)) = true
        · rw [if_neg (not_not.mpr hvalid)]
          exact loadLegacy_loadSpec hreliable₃ hmagic (by omega) hlooks hrest₃ hcap hvalid
        · rw [if_pos hvalid]
          exact .rejected (by simp) (by simp) (not_reads_of_first hlooks hvalid)
  · rw [if_pos rfl]
    by_cases hcount : (rmrAtaGetU32Le (((fd.rest.drop 4).take 24).drop 8)).toNat ≤ cap
    · rw [if_neg (by omega)]
      exact loadV1_loadSpec hreliable₂ hmagic (by omega) rfl hlooks hrest₂ hcount
    · rw [if_pos (by omega)]
      refine .rejected (by simp) (by simp) ?_
      intro format hwSig rs extra hreads
      obtain rfl := hreads.looksV1_iff.mp hlooks
      cases hreads with
      | v1 h hpos hle hcap hseq =>
          rw [h, take_drop_v1Bytes, rmrAtaGetU32Le_v1Probe, toNat_count hle] at hcount
          exact hcount hcap

end Load

end Blake3.Ata
