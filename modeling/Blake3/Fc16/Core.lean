import Blake3.Fc16.Sha256
import Blake3.Lib.Crc
import Blake3.Lib.LittleEndian

/-!
The core of Custody16: `rmr_fc16_core.c` and the scalar code it calls in
`rmr_fc16_crc32c.c` and `rmr_fc16_vector.c`. The core feeds one byte stream to
SHA-256; the hash is a parameter, so that the stream itself can be looked at.
-/

namespace Blake3.Fc16

inductive Status where
  | ok
  | errArgument
  | errState
  | errCapacity
  | errSize
  | errIntegrity
  | errThermal
  deriving DecidableEq, Repr

/-! ### CRC32C -/

def crc32cNibble : Vector Word 16 := #v[
  0x00000000, 0x105ec76f, 0x20bd8ede, 0x30e349b1, 0x417b1dbc, 0x5125dad3, 0x61c69362, 0x7198540d,
  0x82f63b78, 0x92a8fc17, 0xa24bb5a6, 0xb21572c9, 0xc38d26c4, 0xd3d3e1ab, 0xe330a81a, 0xf36e6f75]

def crc32cFold (state : Word) : Word :=
  (state >>> 4) ^^^ crc32cNibble.get (Fin.ofNat 16 (state &&& 0x0f).toNat)

def crc32cByte (state : Word) (b : Byte) : Word := crc32cFold (crc32cFold (state ^^^ b.toUInt32))

def crc32cUpdate (state : Word) (data : List Byte) : Word := data.foldl crc32cByte state

def crc32cFinish (state : Word) : Word := state ^^^ 0xffffffff

def flagThermalAccept : Word := 0x10
def flagHwStampValid : Word := 0x40

/-- `rmr_fc16_crc32c_backend_flags`, the scalar code having none. -/
def crc32cBackendFlags : Word := 0

def vectorBackendFlags : Word := 0

/-! ### Fields -/

def putU32 (v : Word) : List Byte :=
  [v.toUInt8, (v >>> 8).toUInt8, (v >>> 16).toUInt8, (v >>> 24).toUInt8]

def putU64 (v : UInt64) : List Byte :=
  (List.range 8).map fun i => (v >>> UInt64.ofNat (i * 8)).toUInt8

/-- A pointer, which may be null, and the length that comes with it. -/
structure Span (w : ℕ) where
  data : Option (List Byte)
  len : ℕ
  len_lt : len < 2 ^ w
  len_eq : ∀ bytes ∈ data, bytes.length = len

namespace Span

variable {w : ℕ}

def bytes (s : Span w) : List Byte := s.data.getD []

/-- A pointer to some bytes. -/
def of (bytes : List Byte) (h : bytes.length < 2 ^ w) : Span w where
  data := some bytes
  len := bytes.length
  len_lt := h
  len_eq := fun _ h => congrArg _ (Option.some.inj h).symm

end Span

/-! ### Lanes -/

structure Lane where
  crcState : Word
  xorFold : Word
  bytes : UInt64
  blocks16 : UInt64

abbrev Lanes := Vector Lane 16

def Lanes.modify (lanes : Lanes) (i : Fin 16) (f : Lane → Lane) : Lanes :=
  lanes.setIfInBounds i.val (f (lanes.get i))

def xorFold16 (data : List Byte) : Word :=
  (List.range 16).foldl
    (fun v i => v ^^^ (data.getD i 0).toUInt32 <<< UInt32.ofNat ((i &&& 3) * 8)) 0

/-- The lane of the byte at position `absolute` of an entry. -/
def laneIndex (base : Byte) (absolute : UInt64) : Fin 16 :=
  Fin.ofNat 16 ((base.toUInt32 + (absolute >>> 4).toUInt32) &&& 15).toNat

def Lane.feedByte (absolute : UInt64) (b : Byte) (l : Lane) : Lane :=
  { l with
    crcState := crc32cUpdate l.crcState [b]
    xorFold := l.xorFold ^^^ b.toUInt32 <<< ((absolute &&& 3).toUInt32 * 8)
    bytes := l.bytes + 1 }

def Lane.feedBlock (data : List Byte) (l : Lane) : Lane where
  crcState := crc32cUpdate l.crcState data
  xorFold := l.xorFold ^^^ xorFold16 data
  bytes := l.bytes + 16
  blocks16 := l.blocks16 + 1

/-- The bytes up to the next multiple of 16; what is left, and its position. -/
def feedHead (base : Byte) : Lanes → UInt64 → List Byte → Lanes × UInt64 × List Byte
  | lanes, absolute, [] => (lanes, absolute, [])
  | lanes, absolute, b :: data =>
      if absolute &&& 15 ≠ 0 then
        feedHead base (lanes.modify (laneIndex base absolute) (Lane.feedByte absolute b))
          (absolute + 1) data
      else (lanes, absolute, b :: data)

/-- Blocks of 16 bytes; what is left, and its position. -/
def feedBlocks (base : Byte) (lanes : Lanes) (absolute : UInt64) (data : List Byte) :
    Lanes × UInt64 × List Byte :=
  if 16 ≤ data.length then
    feedBlocks base (lanes.modify (laneIndex base absolute) (Lane.feedBlock (data.take 16)))
      (absolute + 16) (data.drop 16)
  else (lanes, absolute, data)
termination_by data.length
decreasing_by
  rw [List.length_drop]
  omega

/-- Single bytes. -/
def feedTail (base : Byte) : Lanes → UInt64 → List Byte → Lanes
  | lanes, _, [] => lanes
  | lanes, absolute, b :: data =>
      feedTail base (lanes.modify (laneIndex base absolute) (Lane.feedByte absolute b))
        (absolute + 1) data

/-- The three loops of `rmr_fc16_entry_data`. -/
def feedLanes (base : Byte) (lanes : Lanes) (absolute : UInt64) (data : List Byte) : Lanes :=
  let (lanes, absolute, data) := feedHead base lanes absolute data
  let (lanes, absolute, data) := feedBlocks base lanes absolute data
  feedTail base lanes absolute data

/-! ### The context -/

/-- What the core asks of SHA-256. -/
structure Hash (σ : Type) where
  init : σ
  update : σ → List Byte → Result σ
  final : σ → Result (σ × Vector Byte 32)

def sha256 : Hash Sha256Ctx where
  init := .init
  update := Sha256Ctx.update
  final := Sha256Ctx.final

/-- A hash that keeps the bytes it is fed. -/
def recorder : Hash (List Byte) where
  init := []
  update := fun fed p => .ok (fed ++ p)
  final := fun fed => .ok (fed, Vector.replicate 32 0)

structure Context (σ : Type) where
  lane : Lanes
  sha : σ
  rootCrcState : Word
  entryCrcState : Word
  pathCrcFinal : Word
  flags : Word
  entryDeclaredSize : UInt64
  entrySeenSize : UInt64
  entryCount : UInt64
  totalBytes : UInt64
  hwStamp : UInt64
  thermalBeforeMilliC : Word
  thermalAfterMilliC : Word
  thermalLimitMilliC : Word
  thermalMaxDeltaMilliC : Word
  entryOpen : Bool
  entryBaseLane : Byte

structure Snapshot where
  version : Word
  flags : Word
  rootCrc32c : Word
  pathCountLow : Word
  entryCount : UInt64
  totalBytes : UInt64
  hwStamp : UInt64
  thermalBeforeMilliC : Word
  thermalAfterMilliC : Word
  warmupRounds : Word
  benchmarkSamples : Word
  benchmarkANs : UInt64
  benchmarkBNs : UInt64
  laneCrc32c : Vector Word 16
  laneXorFold : Vector Word 16
  laneBytes : Vector UInt64 16
  sha256 : Vector Byte 32

variable {σ : Type} (H : Hash σ)

def feedMeta (c : Context σ) (p : List Byte) : Result (Context σ) := do
  let sha ← H.update c.sha p
  pure { c with rootCrcState := crc32cUpdate c.rootCrcState p, sha := sha }

/-- `{'R','F','C','1','6',0,1,0}` -/
def tag : List Byte := [0x52, 0x46, 0x43, 0x31, 0x36, 0, 1, 0]

def init (hw : UInt64) (tb limit delta : Word) : Result (Context σ) :=
  let flags := crc32cBackendFlags ||| vectorBackendFlags
  feedMeta H
    { lane :=
        Vector.replicate 16 { crcState := 0xffffffff, xorFold := 0, bytes := 0, blocks16 := 0 }
      sha := H.init
      rootCrcState := 0xffffffff
      entryCrcState := 0xffffffff
      pathCrcFinal := 0
      flags := if hw ≠ 0 then flags ||| flagHwStampValid else flags
      entryDeclaredSize := 0
      entrySeenSize := 0
      entryCount := 0
      totalBytes := 0
      hwStamp := hw
      thermalBeforeMilliC := tb
      thermalAfterMilliC := 0
      thermalLimitMilliC := limit
      thermalMaxDeltaMilliC := delta
      entryOpen := false
      entryBaseLane := 0 }
    tag

/-- `'E','N','T','R'` and the fields of an entry, 20 bytes. -/
def entryMeta (pathLen : ℕ) (size : UInt64) (kind : Word) : List Byte :=
  [0x45, 0x4e, 0x54, 0x52] ++ putU32 (UInt32.ofNat pathLen) ++ putU64 size ++ putU32 kind

def pathCrc (path : List Byte) : Word := crc32cFinish (crc32cUpdate 0xffffffff path)

/-- The header and the path of an entry in its base lane. -/
def Lane.feedPath (header path : List Byte) (l : Lane) : Lane :=
  { l with
    crcState := crc32cUpdate (crc32cUpdate l.crcState header) path
    xorFold := l.xorFold ^^^ pathCrc path }

def entryBegin (c : Context σ) (path : Span 32) (size : UInt64) (kind : Word) :
    Result (Status × Context σ) :=
  match path.data with
  | none => .ok (.errArgument, c)
  | some bytes =>
      if path.len = 0 then .ok (.errArgument, c)
      else if c.entryOpen then .ok (.errState, c)
      else do
        let base := (pathCrc bytes &&& 15).toUInt8
        let header := entryMeta path.len size kind
        let c := { c with
          pathCrcFinal := pathCrc bytes
          entryBaseLane := base
          entryCrcState := 0xffffffff
          entryDeclaredSize := size
          entrySeenSize := 0
          entryOpen := true }
        let c ← feedMeta H c header
        let c ← feedMeta H c bytes
        pure (.ok, { c with
          lane := c.lane.modify (Fin.ofNat 16 base.toNat) (Lane.feedPath header bytes) })

def entryData (c : Context σ) (data : Span 64) : Result (Status × Context σ) :=
  if data.data = none ∧ data.len ≠ 0 then .ok (.errArgument, c)
  else if ¬c.entryOpen then .ok (.errState, c)
  else if c.entryDeclaredSize < c.entrySeenSize + UInt64.ofNat data.len then .ok (.errSize, c)
  else do
    let sha ← H.update c.sha data.bytes
    pure (.ok, { c with
      entryCrcState := crc32cUpdate c.entryCrcState data.bytes
      sha := sha
      lane := feedLanes c.entryBaseLane c.lane c.entrySeenSize data.bytes
      entrySeenSize := c.entrySeenSize + UInt64.ofNat data.len
      totalBytes := c.totalBytes + UInt64.ofNat data.len })

/-- `'E','N','D','R'` and what was seen of an entry, 24 bytes. -/
def endMeta (c : Context σ) : List Byte :=
  [0x45, 0x4e, 0x44, 0x52] ++ putU32 c.pathCrcFinal ++ putU32 (crc32cFinish c.entryCrcState) ++
    putU64 c.entrySeenSize ++ putU32 c.entryBaseLane.toUInt32

def entryEnd (c : Context σ) : Result (Status × Context σ) :=
  if ¬c.entryOpen then .ok (.errState, c)
  else if c.entrySeenSize ≠ c.entryDeclaredSize then .ok (.errSize, c)
  else do
    let c ← feedMeta H c (endMeta c)
    pure (.ok, { c with entryCount := c.entryCount + 1, entryOpen := false })

/-- Whether the temperatures before and after are within the limits. -/
def thermalAccepted (c : Context σ) (ta : Word) : Bool :=
  let tb := c.thermalBeforeMilliC
  let d := if tb < ta then ta - tb else tb - ta
  !(c.thermalLimitMilliC != 0 && (c.thermalLimitMilliC < tb || c.thermalLimitMilliC < ta)) &&
    !(c.thermalMaxDeltaMilliC != 0 && c.thermalMaxDeltaMilliC < d)

/-- `'F','I','N','L'` and the totals, 28 bytes. -/
def finalMeta (c : Context σ) (ta : Word) : List Byte :=
  [0x46, 0x49, 0x4e, 0x4c] ++ putU64 c.entryCount ++ putU64 c.totalBytes ++
    putU32 c.thermalBeforeMilliC ++ putU32 ta

/-- What a snapshot shows of a context. -/
def snapshotOf (c : Context σ) (ta : Word) (digest : Vector Byte 32) : Snapshot where
  version := 1
  flags := c.flags
  rootCrc32c := crc32cFinish c.rootCrcState
  pathCountLow := c.entryCount.toUInt32
  entryCount := c.entryCount
  totalBytes := c.totalBytes
  hwStamp := c.hwStamp
  thermalBeforeMilliC := c.thermalBeforeMilliC
  thermalAfterMilliC := ta
  warmupRounds := 0
  benchmarkSamples := 0
  benchmarkANs := 0
  benchmarkBNs := 0
  laneCrc32c := c.lane.map fun l => crc32cFinish l.crcState
  laneXorFold := c.lane.map Lane.xorFold
  laneBytes := c.lane.map Lane.bytes
  sha256 := digest

/-- `rmr_fc16_finalize`, `out` saying whether the pointer to the snapshot is not null. -/
def finalize (c : Context σ) (ta : Word) (out : Bool) :
    Result (Status × Context σ × Option Snapshot) :=
  if ¬out then .ok (.errArgument, c, none)
  else if c.entryOpen then .ok (.errState, c, none)
  else do
    let accepted := thermalAccepted c ta
    let c := { c with
      thermalAfterMilliC := ta
      flags := if accepted then c.flags ||| flagThermalAccept else c.flags }
    let c ← feedMeta H c (finalMeta c ta)
    let (sha, digest) ← H.final c.sha
    pure (if accepted then .ok else .errThermal, { c with sha := sha },
      some (snapshotOf c ta digest))

/-! ### Runs -/

/-- A call, as its caller writes it. -/
inductive Call where
  | entryBegin (path : Span 32) (size : UInt64) (kind : Word)
  | entryData (data : Span 64)
  | entryEnd
  | finalize (ta : Word) (out : Bool)

def step (c : Context σ) : Call → Result (Status × Context σ)
  | .entryBegin path size kind => entryBegin H c path size kind
  | .entryData data => entryData H c data
  | .entryEnd => entryEnd H c
  | .finalize ta out => (fun (s, c, _) => (s, c)) <$> finalize H c ta out

/-- The statuses of a sequence of calls, and the context after them. -/
def run (c : Context σ) : List Call → Result (List Status × Context σ)
  | [] => .ok ([], c)
  | call :: calls => do
      let (s, c) ← step H c call
      let (statuses, c) ← run c calls
      pure (s :: statuses, c)

end Blake3.Fc16
