import Blake3.Lib.LittleEndian
import Blake3.Lib.ShortReads
import Blake3.Words

/-!
The ATA files of `ata_omega_format.h`: a header and up to 42 records of 24
bytes, written by `rafaelia_core.c` and read by the loader in C, which is given a
file descriptor, and by `ata_decode.py`, which is given the whole file.
-/

namespace Blake3.Ata

open ShortReads

def rmrAtaRecordSize : ℕ := 24
def rmrAtaRecordCount : ℕ := 42

inductive Format where
  | legacy
  | v1
  deriving DecidableEq, Repr

/-! ### Fields -/

def rmrAtaMagic : List Byte := [0x52, 0x46, 0x41, 0]

def rmrAtaMagicOk (b : List Byte) : Bool := b == rmrAtaMagic

def rmrAtaPutU32Le (v : Word) : List Byte :=
  [(v &&& 0xff).toUInt8, ((v >>> 8) &&& 0xff).toUInt8, ((v >>> 16) &&& 0xff).toUInt8,
    ((v >>> 24) &&& 0xff).toUInt8]

/-- The word in the first four bytes. -/
def rmrAtaGetU32Le (bytes : List Byte) : Word :=
  load32 (bytes.getD 0 0) (bytes.getD 1 0) (bytes.getD 2 0) (bytes.getD 3 0)

def rmrAtaPutU64Le (v : UInt64) : List Byte :=
  (List.range 8).map fun i => ((v >>> UInt64.ofNat (i * 8)) &&& 0xff).toUInt8

/-- The word in the first eight bytes. -/
def rmrAtaGetU64Le (bytes : List Byte) : UInt64 :=
  (List.range 8).foldl (fun v i => v ||| (bytes.getD i 0).toUInt64 <<< UInt64.ofNat (i * 8)) 0

structure Record where
  k : UInt64
  cyc : UInt64
  par : UInt64
  deriving DecidableEq

def rmrAtaBuildV1Header (hwSig : UInt64) : List Byte :=
  rmrAtaMagic ++ rmrAtaPutU32Le 1 ++ rmrAtaPutU32Le 24 ++ rmrAtaPutU32Le 42 ++
    rmrAtaPutU32Le 0 ++ rmrAtaPutU64Le hwSig

def rmrAtaEncodeRecord (r : Record) : List Byte :=
  rmrAtaPutU64Le r.k ++ rmrAtaPutU64Le r.cyc ++ rmrAtaPutU64Le r.par

def rmrAtaDecodeRecord (bytes : List Byte) : Record where
  k := rmrAtaGetU64Le bytes
  cyc := rmrAtaGetU64Le (bytes.drop 8)
  par := rmrAtaGetU64Le (bytes.drop 16)

def rmrAtaRecordValid (r : Record) : Bool :=
  1 ≤ r.k && r.k ≤ 42 && 1 ≤ r.par && r.par ≤ 9

/-! ### The writer -/

def p9 (n : UInt64) : UInt64 := if n ≠ 0 then 1 + (n - 1) % 9 else 0

/-- Record `k` of a run that read the cycle counter as `cyc`. -/
def coreRecord (k cyc : UInt64) : Record := { k := k, cyc := cyc, par := p9 (cyc + k) }

/-- What `main` of `rafaelia_core.c` writes, every write succeeding. -/
def rafaeliaCore (hwSig : UInt64) (cycles : Vector UInt64 42) : List Byte :=
  rmrAtaBuildV1Header hwSig ++
    (List.finRange 42).flatMap fun (i : Fin 42) =>
      rmrAtaEncodeRecord (coreRecord (UInt64.ofNat (i.val + 1)) (cycles.get i))

/-! ### The loader -/

/-- What `rmr_ata_read_exact` returns. -/
inductive ReadStatus where
  | success
  | eof
  | failure
  deriving DecidableEq

/-- The loop of `rmr_ata_read_exact`, after `done`. -/
def readExactFrom (len : ℕ) (done : List Byte) (fd : Source Byte) :
    ReadStatus × List Byte × Source Byte :=
  if done.length < len then
    match fd.read (len - done.length) with
    | (none, fd) => (.failure, done, fd)
    | (some [], fd) => (if done = [] then .eof else .failure, done, fd)
    | (some (b :: got), fd) => readExactFrom len (done ++ b :: got) fd
  else (.success, done, fd)
termination_by len - done.length
decreasing_by
  rw [List.length_append, List.length_cons]
  omega

def rmrAtaReadExact (fd : Source Byte) (len : ℕ) : ReadStatus × List Byte × Source Byte :=
  readExactFrom len [] fd

/-- What `rmr_ata_load_fd` returns, and what it has stored by then. -/
structure Loaded where
  code : ℤ
  hwSig : Option UInt64
  format : Option Format
  arena : List UInt64
  deriving DecidableEq

/-- The loop over the records of a V1 file. -/
def loadV1 (count : ℕ) (fd : Source Byte) (arena : List UInt64) : ℤ × List UInt64 :=
  if arena.length < count then
    match rmrAtaReadExact fd rmrAtaRecordSize with
    | (.success, bytes, fd) =>
        let record := rmrAtaDecodeRecord bytes
        if ¬rmrAtaRecordValid record ∨ record.k ≠ UInt64.ofNat (arena.length + 1) then (-7, arena)
        else loadV1 count fd (arena ++ [record.cyc])
    | _ => (-6, arena)
  else (arena.length, arena)
termination_by count - arena.length
decreasing_by
  rw [List.length_append, List.length_singleton]
  omega

/-- The loop over the records of a compact file. -/
def loadLegacy (cap : ℕ) (fd : Source Byte) (arena : List UInt64) : ℤ × List UInt64 :=
  if arena.length < cap then
    match rmrAtaReadExact fd rmrAtaRecordSize with
    | (.success, bytes, fd) =>
        let record := rmrAtaDecodeRecord bytes
        if ¬rmrAtaRecordValid record then (-11, arena)
        else loadLegacy cap fd (arena ++ [record.cyc])
    | (.eof, _, _) => (arena.length, arena)
    | (.failure, _, _) => (-10, arena)
  else (arena.length, arena)
termination_by cap - arena.length
decreasing_by
  rw [List.length_append, List.length_singleton]
  omega

/-- The 24 bytes after the magic are the rest of a V1 header. -/
def isV1Probe (probe : List Byte) : Bool :=
  rmrAtaGetU32Le probe == 1 && rmrAtaGetU32Le (probe.drop 4) == 24 &&
    1 ≤ rmrAtaGetU32Le (probe.drop 8) && rmrAtaGetU32Le (probe.drop 8) ≤ 42 &&
    rmrAtaGetU32Le (probe.drop 12) == 0

/-- `rmr_ata_load_fd`, none of its pointers being null. -/
def rmrAtaLoadFd (fd : Source Byte) (cap : ℤ) : Loaded :=
  let failed (code : ℤ) : Loaded := { code := code, hwSig := none, format := none, arena := [] }
  if cap ≤ 0 then failed (-1)
  else
    match rmrAtaReadExact fd 4 with
    | (.success, magic, fd) =>
        if ¬rmrAtaMagicOk magic then failed (-3)
        else
          match rmrAtaReadExact fd 24 with
          | (.success, probe, fd) =>
              if isV1Probe probe then
                let count := (rmrAtaGetU32Le (probe.drop 8)).toNat
                if cap < count then failed (-5)
                else
                  let (code, arena) := loadV1 count fd []
                  { code := code, hwSig := some (rmrAtaGetU64Le (probe.drop 16)),
                    format := some .v1, arena := arena }
              else
                -- the signature and the first 16 bytes of the first record
                let legacy (code : ℤ) (arena : List UInt64) : Loaded :=
                  { code := code, hwSig := some (rmrAtaGetU64Le probe), format := some .legacy,
                    arena := arena }
                match rmrAtaReadExact fd 8 with
                | (.success, tail, fd) =>
                    let record := rmrAtaDecodeRecord (probe.drop 8 ++ tail)
                    if ¬rmrAtaRecordValid record then legacy (-9) []
                    else
                      let (code, arena) := loadLegacy cap.toNat fd [record.cyc]
                      legacy code arena
                | _ => legacy (-8) []
          | _ => failed (-4)
    | _ => failed (-2)

/-! ### The decoder -/

/-- The errors of `ata_decode.py`. -/
inductive DecodeError where
  | magic
  | payload (expected actual : ℕ)
  | record (index k par : ℕ)
  | sequence (expected k : ℕ)
  | truncated
  | tooMany (count : ℕ)
  deriving DecidableEq

def DecodeError.message : DecodeError → String
  | .magic => "magic ou tamanho inicial invalido"
  | .payload expected actual =>
      "payload invalido: esperado=" ++ toString expected ++ " obtido=" ++ toString actual
  | .record index k par =>
      "registro invalido no indice " ++ toString index ++ ": k=" ++ toString k ++ " par=" ++
        toString par
  | .sequence expected k =>
      "sequencia V1 invalida: esperado k=" ++ toString expected ++ ", obtido=" ++ toString k
  | .truncated => "payload legacy truncado ou vazio"
  | .tooMany count => "quantidade legacy excede limite: " ++ toString count

structure Decoded where
  format : Format
  hwSig : ℕ
  records : List (ℕ × ℕ × ℕ)

/-- A little-endian integer of `size` bytes, as `struct.unpack_from` reads it. -/
def unpackFrom (size : ℕ) (blob : List Byte) (offset : ℕ) : ℕ :=
  LittleEndian.ofBytes ((blob.drop offset).take size)

def decodeRecords (data : List Byte) (count : ℕ) : Except DecodeError (List (ℕ × ℕ × ℕ)) := do
  let expected := count * rmrAtaRecordSize
  if data.length ≠ expected then throw (.payload expected data.length)
  (List.range count).mapM fun index => do
    let offset := index * rmrAtaRecordSize
    let k := unpackFrom 8 data offset
    let cyc := unpackFrom 8 data (offset + 8)
    let par := unpackFrom 8 data (offset + 16)
    if ¬((1 ≤ k ∧ k ≤ rmrAtaRecordCount) ∧ (1 ≤ par ∧ par ≤ 9)) then throw (.record index k par)
    pure (k, cyc, par)

/-- The check that the records of a V1 file are numbered in order. -/
def checkSequence : ℕ → List (ℕ × ℕ × ℕ) → Except DecodeError Unit
  | _, [] => pure ()
  | expectedK, (k, _, _) :: records =>
      if k ≠ expectedK then throw (.sequence expectedK k)
      else checkSequence (expectedK + 1) records

def decodeV1 (blob : List Byte) (count : ℕ) : Except DecodeError Decoded := do
  let hwSig := unpackFrom 8 blob 20
  let records ← decodeRecords (blob.drop 28) count
  checkSequence 1 records
  pure { format := .v1, hwSig := hwSig, records := records }

def decodeLegacy (blob : List Byte) : Except DecodeError Decoded := do
  let payload := blob.drop 12
  if payload = [] ∨ payload.length % rmrAtaRecordSize ≠ 0 then throw .truncated
  let count := payload.length / rmrAtaRecordSize
  if rmrAtaRecordCount < count then throw (.tooMany count)
  let hwSig := unpackFrom 8 blob 4
  let records ← decodeRecords payload count
  pure { format := .legacy, hwSig := hwSig, records := records }

def decodeAtaBytes (blob : List Byte) : Except DecodeError Decoded :=
  if blob.length < 12 ∨ blob.take 4 ≠ rmrAtaMagic then throw .magic
  else
    let version := unpackFrom 4 blob 4
    let recordSize := unpackFrom 4 blob 8
    let count := unpackFrom 4 blob 12
    let reserved := unpackFrom 4 blob 16
    if 28 ≤ blob.length ∧ version = 1 ∧ recordSize = rmrAtaRecordSize ∧
        (1 ≤ count ∧ count ≤ rmrAtaRecordCount) ∧ reserved = 0 then
      decodeV1 blob count
    else decodeLegacy blob

end Blake3.Ata
