import Blake3.Ata.Core

/-!
What a run of `rafaelia_core.c` leaves behind, wherever the system stops taking
what it writes: a file that is loaded as a whole or not at all, and a report
that says which of the two it is.
-/

namespace Blake3.Ata

open Hwif ShortReads ShortWrites

/-! ### Numbers -/

def v20Letter (d : ℕ) : Char := v20Alphabet.getD d '0'

/-- A number as `v20` is to print it. -/
def v20Text (x : UInt64) : Str := (Numeral.digitsOf 20 x.toNat).reverse.map v20Letter

theorem length_digits_le {x : UInt64} : (Numeral.digitsOf 20 x.toNat).length ≤ 15 := by
  have hx := x.toNat_lt
  exact Numeral.length_digitsOf_le (by decide) (by decide) (by omega)

theorem v20Digits_eq {size : ℕ} {x : UInt64} {t : Str}
    (h : t.length + (Nat.digits 20 x.toNat).length ≤ size) :
    v20Digits size x t = .ok (t ++ (Nat.digits 20 x.toNat).map v20Letter) := by
  induction hx : x.toNat using Nat.strong_induction_on generalizing x t with
  | _ n ih =>
  subst hx
  rw [v20Digits]
  split
  · next hzero =>
      subst hzero
      simp
  · next hne =>
      have hpos : 0 < x.toNat := Nat.pos_of_ne_zero fun hzero => hne (UInt64.toNat_inj.mp hzero)
      have hdigits : Nat.digits 20 x.toNat =
          (x % 20).toNat :: Nat.digits 20 (x / 20).toNat := by
        rw [Nat.digits_def' (by decide) hpos, UInt64.toNat_mod, UInt64.toNat_div]
        rfl
      rw [hdigits, List.length_cons] at h
      rw [if_pos (by omega), ih _ (div_twenty_lt hne)
        (by rw [List.length_append, List.length_singleton]; omega) rfl, hdigits, List.map_cons,
        List.append_assoc, List.singleton_append]
      rfl

/-- Arrays of 16 characters are enough for any number. -/
theorem v20_eq {size : ℕ} (hsize : 16 ≤ size) (x : UInt64) : v20 size x = .ok (v20Text x) := by
  have hlength : (v20Text x).length ≤ 15 := by
    rw [v20Text, List.length_map, List.length_reverse]
    exact length_digits_le
  rw [v20]
  split
  · next hzero =>
      subst hzero
      exact if_pos (show 1 < size by omega)
  · next hne =>
      have hne' : x.toNat ≠ 0 := fun hzero => hne (UInt64.toNat_inj.mp hzero)
      have htext : v20Text x = ((Nat.digits 20 x.toNat).map v20Letter).reverse := by
        rw [v20Text, Numeral.digitsOf_of_ne_zero 20 hne', List.map_reverse]
      rw [htext, List.length_reverse, List.length_map] at hlength
      rw [v20Digits_eq (by rw [List.length_nil]; omega), Result.ok_bind, List.nil_append,
        terminated, if_pos (by rw [List.length_reverse, List.length_map]; omega), htext]

theorem idxOf_v20Letter {d : ℕ} (h : d < 20) : v20Alphabet.idxOf? (v20Letter d) = some d := by
  apply Numeral.idxOf_getElem (by decide)
  have hlt : d < v20Alphabet.length := h
  rw [v20Letter, List.getD_eq_getElem?_getD, List.getElem?_eq_getElem hlt, Option.getD_some]

/-- A printed number is read back. -/
theorem read_v20Text (x : UInt64) : Numeral.read v20Alphabet 20 (v20Text x) = some x.toNat := by
  have hcanonical := Numeral.canonical_digitsOf (show 1 < 20 by decide) x.toNat
  rw [v20Text, Numeral.read_map fun d hd =>
    idxOf_v20Letter (hcanonical.lt d (List.mem_reverse.mp hd))]
  exact hcanonical.weigh

theorem v20Text_inj {x y : UInt64} (h : v20Text x = v20Text y) : x = y := by
  have hread := read_v20Text x
  rw [h, read_v20Text] at hread
  exact UInt64.toNat_inj.mp (Option.some.inj hread).symm

/-! ### The run -/

section Run

variable {target : BuildTarget} {m : Machine}

/-- What the clock shows for the records. -/
def Machine.cycles (m : Machine) : Vector UInt64 42 := Vector.ofFn fun i => m.time (i.val + 1)

theorem get_cycles (m : Machine) (i : Fin 42) : m.cycles.get i = m.time (i.val + 1) := by
  change (Vector.ofFn fun i : Fin 42 => m.time (i.val + 1))[i.val] = _
  rw [Vector.getElem_ofFn]

def recordAt (m : Machine) (k : ℕ) : Record := coreRecord (UInt64.ofNat k) (m.time k)

/-- What is printed for a record. -/
def coreLine (m : Machine) (k : ℕ) : Str :=
  "[CHAVE:".toList ++ recordId k ++ "] [CYC:".toList ++ v20Text (m.time k) ++ "] [P:".toList ++
    digit (recordAt m k).par ++ "] ".toList ++ phrase (recordAt m k).par ++ newline

def registersText (target : BuildTarget) (m : Machine) : Str :=
  if target.arch = .aarch64 then
    "MIDR(V20): ".toList ++ v20Text m.midr ++ newline ++
      "MPIDR(V20): ".toList ++ v20Text m.mpidr ++ newline
  else []

def headingText (target : BuildTarget) (m : Machine) : Str :=
  "\n[RAFAELIA_OMEGA] ATA(V1) :: AUTO-ID64 + 42\n".toList ++
    "BACKEND: ".toList ++ (selected target).backendName.toList ++ newline ++
    registersText target m ++
    "CPU_ID_RAW(V20): ".toList ++ v20Text m.cpuId ++ newline ++
    "HW_SIG64(V20): ".toList ++ v20Text m.cpuId ++ newline ++
    "ATA_FORMAT: V1 header=28 record=24 count=42 LE\n".toList ++ rule

/-- The report of a run. -/
def coreReport (target : BuildTarget) (m : Machine) (writeOk : Bool) : Str :=
  headingText target m ++ (List.range' 1 42).flatMap (coreLine m) ++ rule ++
    if writeOk then "OK: ATA_OMEGA.bin V1 gravada.\n".toList
    else "ERRO: ATA_OMEGA.bin incompleta ou nao gravada.\n".toList

theorem coreRegisters_eq (target : BuildTarget) (m : Machine) :
    coreRegisters target m = .ok (registersText target m) := by
  rw [coreRegisters, registersText, v20_eq (by decide), v20_eq (by decide)]
  split_ifs <;> rfl

theorem coreHeading_eq (target : BuildTarget) (m : Machine) :
    coreHeading target m = .ok (headingText target m) := by
  unfold coreHeading
  rw [v20_eq (by decide), Result.ok_bind, Result.ok_bind, coreRegisters_eq, Result.ok_bind,
    Result.pure_eq]
  unfold headingText
  rfl

theorem coreStep_eq (m : Machine) (state : Bool × Sink Byte) (printed : Str) (k : ℕ) :
    coreStep m (state, printed) k =
      .ok (writePieces [rmrAtaEncodeRecord (recordAt m k)] state, printed ++ coreLine m k) := by
  have hcycle : v20 24 (m.time k) = .ok (v20Text (m.time k)) := v20_eq (by decide) _
  unfold coreStep
  dsimp only
  rw [hcycle, Result.ok_bind, Result.pure_eq, writePieces_singleton]
  unfold coreLine recordAt
  simp only [List.append_assoc]

theorem foldlM_coreStep (m : Machine) (ks : List ℕ) (state : Bool × Sink Byte) (printed : Str) :
    ks.foldlM (coreStep m) (state, printed) =
      .ok (writePieces (ks.map fun k => rmrAtaEncodeRecord (recordAt m k)) state,
        printed ++ ks.flatMap (coreLine m)) := by
  induction ks generalizing state printed with
  | nil => simp [writePieces]
  | cons k ks ih =>
      rw [List.foldlM_cons, coreStep_eq, Result.ok_bind, ih, List.map_cons, List.flatMap_cons,
        List.append_assoc, ← writePieces_append]
      rfl

/-- The buffers that are written one after the other. -/
def corePieces (m : Machine) : List (List Byte) :=
  rmrAtaBuildV1Header m.cpuId :: (List.range' 1 42).map fun k => rmrAtaEncodeRecord (recordAt m k)

theorem flatten_corePieces (m : Machine) :
    (corePieces m).flatten = rafaeliaCore m.cpuId m.cycles := by
  have hrange : List.range' 1 42 = (List.finRange 42).map fun i => i.val + 1 := by decide
  have hrecord : ∀ i : Fin 42, rmrAtaEncodeRecord (recordAt m (i.val + 1)) =
      rmrAtaEncodeRecord (coreRecord (UInt64.ofNat (i.val + 1)) (m.cycles.get i)) := by
    intro i
    rw [recordAt, get_cycles]
  rw [corePieces, List.flatten_cons, rafaeliaCore, hrange, List.map_map, List.flatMap_def]
  simp only [← hrecord]
  rfl

/-- What the file has taken at the end, and whether that was all. -/
def coreWrites (target : BuildTarget) (m : Machine) : Bool × Sink Byte :=
  writePieces (corePieces m) (0 ≤ sysOpenat target m, { written := [], plan := m.writes })

theorem open_of_coreWrites (h : (coreWrites target m).1 = true) : 0 ≤ sysOpenat target m := by
  by_contra hfd
  rw [coreWrites, decide_eq_false hfd, writePieces_failed] at h
  exact Bool.false_ne_true h

theorem coreMain_eq (target : BuildTarget) (m : Machine) :
    ∃ writeOk : Bool,
      (writeOk = true ↔ (coreWrites target m).1 = true ∧ 0 ≤ sysFsync target m) ∧
      coreMain target m = .ok {
        printed := coreReport target m writeOk
        file := if 0 ≤ sysOpenat target m then some (coreWrites target m).2.written else none
        writeOk := writeOk } := by
  have hstart : (if 0 ≤ sysOpenat target m then
        writeFrom (rmrAtaBuildV1Header m.cpuId) 0 { written := [], plan := m.writes }
      else (false, { written := [], plan := m.writes })) =
      writePieces [rmrAtaBuildV1Header m.cpuId]
        (0 ≤ sysOpenat target m, { written := [], plan := m.writes }) := by
    rw [writePieces_singleton]
    by_cases hfd : 0 ≤ sysOpenat target m
    · rw [if_pos hfd, if_pos (decide_eq_true hfd)]
    · rw [if_neg hfd, decide_eq_false hfd, if_neg Bool.false_ne_true]
  refine ⟨if 0 ≤ sysOpenat target m ∧ (coreWrites target m).1 = true ∧ sysFsync target m < 0 then
    false else (coreWrites target m).1, ?_, ?_⟩
  · split
    · next h => exact iff_of_false Bool.false_ne_true fun hok => absurd h.2.2 (not_lt.mpr hok.2)
    · next h =>
        refine ⟨fun hok => ⟨hok, ?_⟩, fun hok => hok.1⟩
        by_contra hfsync
        exact h ⟨open_of_coreWrites hok, hok, not_le.mp hfsync⟩
  · unfold coreMain
    dsimp only
    rw [coreHeading_eq, Result.ok_bind, hstart, foldlM_coreStep, Result.ok_bind,
      ← writePieces_append]
    rfl

end Run

/-! ### The file -/

section File

variable {target : BuildTarget} {m : Machine} {hwSig : UInt64} {cycles : Vector UInt64 42}
  {file : List Byte}

theorem length_rafaeliaCore (hwSig : UInt64) (cycles : Vector UInt64 42) :
    (rafaeliaCore hwSig cycles).length = 1036 := by
  rw [rafaeliaCore_eq, length_v1Bytes, length_coreRecords]

/-- Only the whole of what is written stands for anything. -/
theorem eq_of_reads_prefix {format : Format} {hwSig' : UInt64} {rs : List Record}
    {extra : List Byte} (h : Reads 42 file format hwSig' rs extra)
    (hfront : file <+: rafaeliaCore hwSig cycles) : file = rafaeliaCore hwSig cycles := by
  have hlen := h.length_le
  have hprobe : (file.drop 4).take 24 = v1Probe hwSig 42 := by
    obtain ⟨rest, hrest⟩ := hfront
    have hcore : ((rafaeliaCore hwSig cycles).drop 4).take 24 = v1Probe hwSig 42 := by
      rw [rafaeliaCore_eq, ← List.append_nil (v1Bytes hwSig (coreRecords cycles)),
        take_drop_v1Bytes, length_coreRecords]
      rfl
    rw [← hrest, List.drop_append_of_le_length (by omega),
      List.take_append_of_le_length (by rw [List.length_drop]; omega)] at hcore
    exact hcore
  have hlooks : looksV1 file = true := by
    rw [looksV1, hprobe, isV1Probe_v1Probe]
    decide
  obtain rfl := h.looksV1_iff.mp hlooks
  cases h with
  | v1 h hpos hle hcap hseq =>
      have hcount : rs.length = 42 := by
        rw [h, take_drop_v1Bytes] at hprobe
        have hget := congrArg (fun bytes => rmrAtaGetU32Le (bytes.drop 8)) hprobe
        rw [rmrAtaGetU32Le_v1Probe, rmrAtaGetU32Le_v1Probe] at hget
        rw [← toNat_count hle, hget]
        rfl
      apply hfront.eq_of_length_le
      rw [length_rafaeliaCore, h, List.length_append, length_v1Bytes, hcount]
      omega

/-- No sum of a cycle value and its number is zero. -/
def NoWrap (cycles : Vector UInt64 42) : Prop :=
  ∀ i : Fin 42, cycles.get i + UInt64.ofNat (i.val + 1) ≠ 0

/-- What is loaded of a file that was written in part or as a whole. -/
theorem load_prefix (hfront : file <+: rafaeliaCore hwSig cycles) (sizes : ℕ → ℕ) :
    (rmrAtaLoadFd (.inReads file sizes) 42 =
        { code := 42, hwSig := some hwSig, format := some .v1, arena := cycles.toList } ↔
      file = rafaeliaCore hwSig cycles ∧ NoWrap cycles) ∧
    (¬(file = rafaeliaCore hwSig cycles ∧ NoWrap cycles) →
      (rmrAtaLoadFd (.inReads file sizes) 42).code < 0) := by
  have hneg : ¬(file = rafaeliaCore hwSig cycles ∧ NoWrap cycles) →
      (rmrAtaLoadFd (.inReads file sizes) 42).code < 0 := by
    intro h
    by_contra hcode
    obtain ⟨_, _, _, _, hreads, -⟩ := reads_of_rmrAtaLoadFd (by decide) (Int.not_lt.mp hcode)
    obtain rfl := eq_of_reads_prefix hreads hfront
    exact h ⟨rfl, sequential_coreRecords.mp (sequential_of_reads hreads)⟩
  refine ⟨⟨fun hload => ?_, ?_⟩, hneg⟩
  · by_contra h
    have hcode := hneg h
    rw [hload] at hcode
    exact absurd hcode (Int.not_lt.mpr (Int.natCast_nonneg 42))
  · rintro ⟨rfl, hwrap⟩
    have hload := rmrAtaLoadFd_of_reads
      (reads_rafaeliaCore hwSig (sequential_coreRecords.mpr hwrap)) sizes (by decide)
    rw [length_coreRecords, map_cyc_coreRecords] at hload
    exact hload

/-- What a run leaves is the front of the file it is to write. -/
theorem coreMain_prefix (target : BuildTarget) (m : Machine) :
    ∃ run, coreMain target m = .ok run ∧
      ∀ file, run.file = some file → file <+: rafaeliaCore m.cpuId m.cycles := by
  obtain ⟨writeOk, -, hmain⟩ := coreMain_eq target m
  refine ⟨_, hmain, fun file hfile => ?_⟩
  dsimp only at hfile
  split_ifs at hfile with hfd
  obtain ⟨n, -, hwritten, -⟩ := writePieces_spec (corePieces m)
    { written := [], plan := m.writes }
  rw [flatten_corePieces, List.nil_append] at hwritten
  rw [coreWrites, decide_eq_true hfd, hwritten] at hfile
  obtain rfl := Option.some.inj hfile
  exact List.take_prefix _ _

/-- A run prints its report, without a write outside its arrays, and leaves the
front of the file it is to write. It says that all is well if and only if the
file is complete and is on the disk. A file that is not complete is never
loaded, and a complete one always is if no cycle value wraps around. -/
theorem core_run (target : BuildTarget) (m : Machine) :
    ∃ run, coreMain target m = .ok run ∧
      run.printed = coreReport target m run.writeOk ∧
      (run.writeOk = true ↔ 0 ≤ sysOpenat target m ∧ 0 ≤ sysFsync target m ∧
        run.file = some (rafaeliaCore m.cpuId m.cycles)) ∧
      (run.file = none ↔ sysOpenat target m < 0) ∧
      (0 ≤ sysOpenat target m → (∀ i, 0 < m.writes i) →
        run.file = some (rafaeliaCore m.cpuId m.cycles)) ∧
      ∀ file, run.file = some file → file <+: rafaeliaCore m.cpuId m.cycles ∧
        ∀ sizes,
          (rmrAtaLoadFd (.inReads file sizes) 42 =
              { code := 42, hwSig := some m.cpuId, format := some .v1,
                arena := m.cycles.toList } ↔
            file = rafaeliaCore m.cpuId m.cycles ∧ NoWrap m.cycles) ∧
          (¬(file = rafaeliaCore m.cpuId m.cycles ∧ NoWrap m.cycles) →
            (rmrAtaLoadFd (.inReads file sizes) 42).code < 0) := by
  obtain ⟨writeOk, hok, hmain⟩ := coreMain_eq target m
  rcases lt_or_ge (sysOpenat target m) 0 with hfd | hfd
  · have hclosed : ¬0 ≤ sysOpenat target m := Int.not_le.mpr hfd
    rw [if_neg hclosed] at hmain
    refine ⟨_, hmain, rfl, ?_, ⟨fun _ => hfd, fun _ => rfl⟩, fun h => absurd h hclosed,
      fun _ hfile => by cases hfile⟩
    exact iff_of_false (fun h => hclosed (open_of_coreWrites (hok.mp h).1)) fun h => hclosed h.1
  · obtain ⟨n, hn, hwritten, hall⟩ := writePieces_spec (corePieces m)
      { written := [], plan := m.writes }
    have hwrites : coreWrites target m = writePieces (corePieces m)
        (true, { written := [], plan := m.writes }) := by
      rw [coreWrites, decide_eq_true hfd]
    rw [← hwrites, flatten_corePieces] at hwritten hall
    rw [flatten_corePieces] at hn
    rw [List.nil_append] at hwritten
    rw [if_pos hfd, hwritten] at hmain
    have hwhole : (rafaeliaCore m.cpuId m.cycles).take n = rafaeliaCore m.cpuId m.cycles ↔
        n = (rafaeliaCore m.cpuId m.cycles).length := by
      rw [List.take_eq_self_iff]
      omega
    refine ⟨_, hmain, rfl, ?_, iff_of_false (fun hfile => by cases hfile)
      (Int.not_lt.mpr hfd), fun _ hpos => ?_, ?_⟩
    · rw [hok, hall, Option.some.injEq, hwhole]
      exact ⟨fun h => ⟨hfd, h.2, h.1⟩, fun h => ⟨h.2.2, h.2.1⟩⟩
    · have hdone : (writePieces (corePieces m)
          (true, { written := [], plan := m.writes })).1 = true := writePieces_reliable hpos
      rw [← hwrites, hall, ← hwhole] at hdone
      exact congrArg some hdone
    · rintro file hfile
      obtain rfl := Option.some.inj hfile
      exact ⟨List.take_prefix _ _, load_prefix (List.take_prefix _ _)⟩

end File

end Blake3.Ata
