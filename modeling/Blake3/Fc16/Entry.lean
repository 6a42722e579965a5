import Blake3.Fc16.Adapter
import Blake3.Fc16.Zip
import Blake3.Lib.ShortWrites

/-!
A whole run of the adapter, `rmr_fc16_termux_entry`: two scans, one snapshot,
and the three files it is kept in. The machine says what is found in each scan
and what becomes of each write.
-/

namespace Blake3.Fc16.Adapter

open ShortReads ShortWrites

abbrev Str := List Char

/-! ### The machine -/

/-- The file of the temperature, which is read once. -/
def readTemp : Option (Source Byte) → Word
  | none => 0
  | some fd =>
      match (fd.read 32).1 with
      | none => 0
      | some got =>
          (got.takeWhile fun b => 0x30 ≤ b ∧ b ≤ 0x39).foldl
            (fun v b => v * 10 + (b.toUInt32 - 0x30)) 0

/-- Seconds and nanoseconds, if there is a clock. -/
def nowNs : Option (UInt64 × UInt64) → UInt64
  | none => 0
  | some (sec, nsec) => sec * 1000000000 + nsec

/-- A scan: the directory that is opened, if it can be opened, and what the kernel
does meanwhile. -/
structure Scan where
  root : Option Children
  kernel : Kernel

/-- The files that are written. -/
inductive Artifact where
  | bin
  | zip
  | digest
  deriving DecidableEq, Repr

structure Machine where
  hwStamp : UInt64
  tempBefore : Option (Source Byte)
  tempAfter : Option (Source Byte)
  /-- The clock at its three reads. -/
  clock : ℕ → Option (UInt64 × UInt64)
  scanA : Scan
  scanB : Scan
  /-- How much of a file the writes take at most, if it can be opened. -/
  opened : Artifact → Option (ℕ → ℕ)
  terminal : ℕ → ℕ

theorem maxPath_pos : 0 < maxPath := Nat.succ_pos 767

/-- Static memory before the run. -/
def Globals.start : Globals where
  io := Vector.replicate 16384 0
  entries := fun _ => Vector.replicate 128 { type := 0, name := .empty (by decide) }
  paths := fun _ => .empty maxPath_pos

/-! ### The warm-up -/

/-- `rmr_fc16_diff16`: whether anything differs, and the differences. -/
def diff16 (before after : Vector Byte 16) : Bool × Vector Byte 16 :=
  let mask := Vector.ofFn fun i => before.get i ^^^ after.get i
  (mask.toList.foldl (· ||| ·) 0 != 0, mask)

def apply16 (target mask : Vector Byte 16) : Vector Byte 16 :=
  Vector.ofFn fun i => target.get i ^^^ mask.get i

/-- One lane in one round. -/
def warmupLane (r : ℕ) (lane : Fin 16) (a b : Vector Byte 16) : Vector Byte 16 :=
  let m := (diff16 a b).2
  let a := apply16 (apply16 a m) m
  let a := a.setIfInBounds (r % 16) (a.get (Fin.ofNat 16 r) ^^^ UInt8.ofNat (lane + r))
  a.setIfInBounds (r % 16) (a.get (Fin.ofNat 16 r) ^^^ UInt8.ofNat (lane + r))

/-- The buffers of the warm-up, sixteen lanes of sixteen bytes. -/
abbrev WarmBuffer := Vector (Vector Byte 16) 16

def warmup (a b : WarmBuffer) (rounds : ℕ) : WarmBuffer :=
  (List.range rounds).foldl
    (fun a r => Vector.ofFn fun lane => warmupLane r lane (a.get lane) (b.get lane)) a

def warmA : WarmBuffer := Vector.ofFn fun lane => Vector.ofFn fun i => UInt8.ofNat (16 * lane + i)

def warmB : WarmBuffer :=
  Vector.ofFn fun lane => Vector.ofFn fun i => UInt8.ofNat (255 - (16 * lane + i))

/-! ### Two snapshots -/

/-- What two snapshots differ in, all bits together. -/
def snapshotDiff (a b : Snapshot) : Word :=
  let diff := (a.rootCrc32c ^^^ b.rootCrc32c) ||| (a.pathCountLow ^^^ b.pathCountLow) |||
    (a.entryCount ^^^ b.entryCount).toUInt32 |||
    ((a.entryCount ^^^ b.entryCount) >>> 32).toUInt32 |||
    (a.totalBytes ^^^ b.totalBytes).toUInt32 |||
    ((a.totalBytes ^^^ b.totalBytes) >>> 32).toUInt32
  let diff := (List.finRange 16).foldl
    (fun diff i => diff ||| (a.laneCrc32c.get i ^^^ b.laneCrc32c.get i) |||
      (a.laneXorFold.get i ^^^ b.laneXorFold.get i) |||
      (a.laneBytes.get i ^^^ b.laneBytes.get i).toUInt32 |||
      ((a.laneBytes.get i ^^^ b.laneBytes.get i) >>> 32).toUInt32) diff
  (List.finRange 32).foldl
    (fun diff i => diff ||| (a.sha256.get i ^^^ b.sha256.get i).toUInt32) diff

/-- `rmr_fc16_snapshot_equal`, none of its pointers being null. -/
def snapshotEqual (a b : Snapshot) : Bool := snapshotDiff a b = 0

/-! ### Files -/

/-- `write_file`; without a file there is nothing that holds what was written. -/
def writeFile (opened : Option (ℕ → ℕ)) (p : List Byte) : Status × Option (List Byte) :=
  match opened with
  | none => (.errState, none)
  | some plan =>
      match writeFrom p 0 { written := [], plan := plan } with
      | (true, s) => (.ok, some s.written)
      | (false, s) => (.errState, some s.written)

/-- Files one after the other, none behind one that is not written. -/
def writeFiles (opened : Artifact → Option (ℕ → ℕ)) (bytes : Artifact → List Byte) :
    List Artifact → (Artifact → Option (List Byte)) → Status × (Artifact → Option (List Byte))
  | [], files => (.ok, files)
  | a :: rest, files =>
      match writeFile (opened a) (bytes a) with
      | (.ok, content) => writeFiles opened bytes rest (Function.update files a content)
      | (status, content) => (status, Function.update files a content)

/-- SHA-256 of some bytes. -/
def sha256Of (p : List Byte) : Result (Vector Byte 32) := do
  let c ← sha256.update sha256.init p
  let (_, digest) ← sha256.final c
  pure digest

/-- `{'R','F','C','1','6','D','1',0}` -/
def digestMagic : List Byte := [0x52, 0x46, 0x43, 0x31, 0x36, 0x44, 0x31, 0]

/-- `digest_make`, 76 bytes. -/
def digestMake (gSeal gZip : List Byte) : Result (List Byte) := do
  let sealDigest ← sha256Of gSeal
  let zipDigest ← sha256Of gZip
  let body := digestMagic ++ sealDigest.toList ++ zipDigest.toList
  pure (body ++ putU32 (crc32c body))

/-! ### The terminal -/

/-- `out`, which gives up at a write that fails. -/
def out (text : Str) (s : Sink Char) : Sink Char := (writeFrom text 0 s).2

def hexDigits : Str := "0123456789abcdef".toList

/-- What `out_hex32` writes, the digits stored from the last to the first. -/
def hex32Text (v : Word) : Str :=
  '0' :: 'x' :: ((List.range 8).foldl
    (fun (v, text) _ => (v >>> 4, hexDigits.getD (v &&& 15).toNat '0' :: text)) (v, ['\n'])).2

/-- The digits of a number, as many as there are places for. -/
def u64Digits : ℕ → UInt64 → Str → Str
  | 0, _, text => text
  | places + 1, v, text =>
      if v = 0 then text
      else u64Digits places (v / 10) (Char.ofNat ('0'.toNat + (v % 10).toNat) :: text)

/-- What `out_u64` writes. -/
def u64Text (v : UInt64) : Str := if v = 0 then ['0', '\n'] else u64Digits 31 v ['\n']

def outHex32 (v : Word) (s : Sink Char) : Sink Char := (s.write (hex32Text v)).2

def outU64 (v : UInt64) (s : Sink Char) : Sink Char := (s.write (u64Text v)).2

/-! ### The run -/

def flagSnapshotMatch : Word := 0x20

def sealCapacity : ℕ := 512
def zipCapacity : ℕ := 512 + 128

structure CustodyRun where
  code : Status
  printed : Str
  /-- What each file holds, if it was opened. -/
  files : Artifact → Option (List Byte)
  warm : WarmBuffer

/-- A run that ends before anything is written. -/
def Machine.leaves (m : Machine) (code : Status) (text : Str) : CustodyRun where
  code := code
  printed := (out text { written := [], plan := m.terminal }).written
  files := fun _ => none
  warm := warmup warmA warmB 3

/-- What is printed at the end, for the lengths of the seal, the archive and the digest. -/
def Machine.report (m : Machine) (s : Snapshot) (sealLen zipLen digestLen : ℕ) : Str :=
  let t : Sink Char := { written := [], plan := m.terminal }
  let t := outHex32 s.rootCrc32c (out "FC16_OK\nroot_crc32c=".toList t)
  let t := outU64 s.benchmarkANs (out "scan_a_ns=".toList t)
  let t := outU64 s.benchmarkBNs (out "scan_b_ns=".toList t)
  let t := outU64 s.entryCount (out "entries=".toList t)
  let t := outU64 s.totalBytes (out "bytes=".toList t)
  let t := outU64 (UInt64.ofNat sealLen) (out "seal_bytes=".toList t)
  let t := outU64 (UInt64.ofNat zipLen) (out "zip_bytes=".toList t)
  (outU64 (UInt64.ofNat digestLen) (out "digest_bytes=".toList t)).written

def artifactBytes (gSeal gZip gDigest : List Byte) : Artifact → List Byte
  | .bin => gSeal
  | .zip => gZip
  | .digest => gDigest

/-- The files of a snapshot. -/
def Machine.store (m : Machine) (s : Snapshot) : Result CustodyRun :=
  match sealSnapshot s sealCapacity with
  | .error _ => .ok (m.leaves .errCapacity [])
  | .ok gSeal =>
      if verifySeal (some gSeal) ≠ .ok then .ok (m.leaves .errIntegrity [])
      else do
        let stored ← zipStore gSeal (List.replicate zipCapacity 0)
        match stored with
        | .error _ => pure (m.leaves .errCapacity [])
        | .ok (mem, zipLen) =>
            let gZip := mem.take zipLen
            let roundtrip ← zipVerifyRoundtrip (some gZip) (some gSeal)
            if roundtrip ≠ .ok then pure (m.leaves .errIntegrity [])
            else do
              let gDigest ← digestMake gSeal gZip
              match writeFiles m.opened (artifactBytes gSeal gZip gDigest) [.bin, .zip, .digest]
                  fun _ => none with
              | (.ok, files) =>
                  pure { m.leaves .ok [] with
                    printed := m.report s gSeal.length zipLen gDigest.length
                    files := files }
              | (_, files) => pure { m.leaves .errState [] with files := files }

/-- `snapshot_root` of what is found at the root, if it can be opened. -/
def Scan.run {M : Type} (emit : M → Call → Result (Status × M)) (scan : Scan) (m : M)
    (g : Globals) : Result (Status × M × Globals) :=
  match scan.root with
  | none => .ok (.errState, m, g)
  | some root => snapshotRoot emit scan.kernel root m g

/-- The end of a run, behind two scans that worked. -/
def Machine.compare (m : Machine) (tb : Word) (ca cb : Context Sha256Ctx) : Result CustodyRun := do
  let ta := if tb = 0 then 0 else readTemp m.tempAfter
  let (ra, _, sa) ← finalize sha256 ca ta true
  let (rb, _, sb) ← finalize sha256 cb ta true
  if ra = .errThermal ∨ rb = .errThermal then
    pure (m.leaves .errThermal "FC16_THERMAL_REJECT\n".toList)
  else if ra ≠ .ok ∨ rb ≠ .ok then pure (m.leaves .errState "FC16_FINALIZE_FAIL\n".toList)
  else
    match sa, sb with
    | some sa, some sb =>
        if ¬snapshotEqual sa sb then
          pure (m.leaves .errIntegrity "FC16_SNAPSHOT_MISMATCH\n".toList)
        else
          m.store { sa with
            flags := sa.flags ||| flagSnapshotMatch
            warmupRounds := 3
            benchmarkSamples := 2
            benchmarkANs := nowNs (m.clock 1) - nowNs (m.clock 0)
            benchmarkBNs := nowNs (m.clock 2) - nowNs (m.clock 1) }
    | _, _ => .error .uninitialized

/-- `rmr_fc16_termux_entry` -/
def Machine.entry (m : Machine) : Result CustodyRun := do
  let tb := readTemp m.tempBefore
  let limit : Word := if tb = 0 then 0 else 85000
  let delta : Word := if tb = 0 then 0 else 5000
  let ca ← init sha256 m.hwStamp tb limit delta
  let cb ← init sha256 m.hwStamp tb limit delta
  let (rc, ca, g) ← m.scanA.run (step sha256) ca .start
  if rc ≠ .ok then pure (m.leaves rc "FC16_SCAN_A_FAIL\n".toList)
  else do
    let (rc, cb, _) ← m.scanB.run (step sha256) cb g
    if rc ≠ .ok then pure (m.leaves rc "FC16_SCAN_B_FAIL\n".toList)
    else m.compare tb ca cb

end Blake3.Fc16.Adapter
