import Blake3.Ata.CoreRun
import Blake3.Lib.Text
import Blake3.Lib.Xorshift

/-!
The two programs that read the file of `rafaelia_core.c`: `sync_omega.c`, which
prints piece by piece, and `sync_fast.c`, which collects its report in an array
and prints it once.
-/

namespace Blake3.Ata

open ShortReads

/-! ### What both have in common -/

/-- What the registers show at the reads of a run. -/
structure Readings where
  cntfrq : ℕ → UInt64
  cntvct : ℕ → UInt64
  midr : ℕ → UInt64

def mix64 (x : UInt64) : UInt64 :=
  let x := x ^^^ x >>> 12
  let x := x ^^^ x <<< 25
  let x := x ^^^ x >>> 27
  x * 2685821657736338717

/-- `load_ata` of a file that could be opened, or could not. -/
def loadAta : Option (Source Byte) → Loaded
  | none => { code := -1, hwSig := none, format := none, arena := [] }
  | some fd => rmrAtaLoadFd fd 42

/-- An entry of the arena, which is there only if it was loaded. -/
def arenaAt (loaded : Loaded) (i : ℕ) : Result UInt64 :=
  match loaded.arena[i]? with
  | some cyc => .ok cyc
  | none => .error .uninitialized

def seed (midr cntfrq : UInt64) : UInt64 := (0x524641 : UInt64) ^^^ midr <<< 1 ^^^ cntfrq <<< 7

/-- The value of key `i` at time `t`. -/
def keyValue (seed t cyc : UInt64) (i : ℕ) : UInt64 :=
  mix64 (seed ^^^ t ^^^ (cyc * 0x9e3779b97f4a7c15) ^^^ UInt64.ofNat i)

def keyCycle (loaded : Loaded) (i : ℕ) : Result UInt64 :=
  if 0 < loaded.code then arenaAt loaded ((i - 1) % loaded.code.toNat) else .ok 0

/-- The three digits of a key's number. -/
def keyId (i : ℕ) : Str :=
  [Char.ofNat ('0'.toNat + i / 100 % 10), Char.ofNat ('0'.toNat + i / 10 % 10),
    Char.ofNat ('0'.toNat + i % 10)]

def formatName (loaded : Loaded) : Str :=
  if loaded.format = some .v1 then "V1_EXTENDED".toList else "LEGACY_COMPACT".toList

/-! ### `sync_omega.c` -/

namespace SyncOmega

def heading (r : Readings) : Result Str := do
  let bCntfrq ← v20 64 (r.cntfrq 0)
  let bCntvct ← v20 64 (r.cntvct 0)
  let bMidr ← v20 64 (r.midr 0 &&& 0xffffffff)
  return newline ++ "[RAFAELIA_SYNC_OMEGA] ARM64 no-libc :: ATA + CLOCK + 3-6-9".toList ++
    newline ++
    "CNTFRQ(V20): ".toList ++ bCntfrq ++ newline ++
    "CNTVCT(V20): ".toList ++ bCntvct ++ newline ++
    "MIDR (V20): ".toList ++ bMidr ++ newline ++ rule

/-- The number of the cycle values, in two digits. -/
def count (loaded : Loaded) : Str :=
  [Char.ofNat ('0'.toNat + loaded.code.toNat / 10), Char.ofNat ('0'.toNat + loaded.code.toNat % 10)]

def found (loaded : Loaded) : Result Str := do
  if 0 < loaded.code then
    let hw20 ← v20 64 (loaded.hwSig.getD 0)
    let c0 ← v20 64 (← arenaAt loaded 0)
    let c1 ← v20 64 (← arenaAt loaded (if 1 < loaded.code then 1 else 0))
    let c2 ← v20 64 (← arenaAt loaded (if 2 < loaded.code then 2 else 0))
    return "ATA_FORMAT: ".toList ++ formatName loaded ++ newline ++
      "ATA_HW_SIG(V20): ".toList ++ hw20 ++ newline ++
      "ATA_LOADED: ".toList ++ count loaded ++ newline ++
      "CYC0: ".toList ++ c0 ++ newline ++
      "CYC1: ".toList ++ c1 ++ newline ++
      "CYC2: ".toList ++ c2 ++ newline ++ rule
  else return "WARN: ATA_OMEGA.bin invalida/ausente. SYNC em modo clock-only.".toList ++ newline ++
    rule

def key (r : Readings) (loaded : Loaded) (printed : Str) (i : ℕ) : Result Str := do
  let cyc ← keyCycle loaded i
  let x := keyValue (seed (r.midr 0) (r.cntfrq 0)) (r.cntvct i) cyc i
  let bx ← v20 64 x
  return printed ++ "[CHAVE:".toList ++ keyId i ++ "] [X:".toList ++ bx ++ "] [P:".toList ++
    digit (p9 x) ++ "] ".toList ++ phrase (p9 x) ++ newline

/-- All that `main` prints. -/
def run (r : Readings) (file : Option (Source Byte)) : Result Str := do
  let heading ← heading r
  let loaded := loadAta file
  let found ← found loaded
  let printed ← (List.range' 1 42).foldlM (key r loaded) (heading ++ found)
  return printed ++ rule ++ "OK: SYNC concluido.".toList ++ newline

end SyncOmega

/-! ### `sync_fast.c` -/

namespace SyncFast

def outCap : ℕ := 128 * 1024

def bPutc (out : Str) (c : Char) : Str := if out.length < outCap then out ++ [c] else out

def bPuts (out s : Str) : Str := s.foldl bPutc out

def bPutnl (out : Str) : Str := bPutc out '\n'

def bPutU3 (out : Str) (n : ℕ) : Str := bPuts out (keyId n)

def bPutV20 (out : Str) (n : UInt64) : Result Str :=
  if n = 0 then .ok (bPutc out '0')
  else do
    let tmp ← v20Digits 64 n []
    return bPuts out tmp.reverse

def hdr (r : Readings) (out : Str) : Result Str := do
  let out := bPutnl (bPuts out
    "[RAFAELIA_SYNC_OMEGA_FAST] ARM64 no-libc :: ATA + CLOCK + 3-6-9".toList)
  let out ← bPutV20 (bPuts out "CNTFRQ(V20): ".toList) (r.cntfrq 0)
  let out ← bPutV20 (bPuts (bPutnl out) "CNTVCT(V20): ".toList) (r.cntvct 0)
  let out ← bPutV20 (bPuts (bPutnl out) "MIDR (V20): ".toList) (r.midr 0 &&& 0xffffffff)
  return bPutnl (bPuts (bPutnl out) dashes)

def found (loaded : Loaded) (out : Str) : Result Str := do
  if 0 < loaded.code then
    let out := bPutnl (bPuts (bPuts out "ATA_FORMAT: ".toList) (formatName loaded))
    let out ← bPutV20 (bPuts out "ATA_HW_SIG(V20): ".toList) (loaded.hwSig.getD 0)
    let out ← bPutV20 (bPuts (bPutnl out) "ATA_LOADED: ".toList) (UInt64.ofNat loaded.code.toNat)
    let c0 ← arenaAt loaded 0
    let out ← bPutV20 (bPuts (bPutnl out) "CYC0: ".toList) c0
    let c1 ← arenaAt loaded (if 1 < loaded.code then 1 else 0)
    let out ← bPutV20 (bPuts (bPutnl out) "CYC1: ".toList) c1
    let c2 ← arenaAt loaded (if 2 < loaded.code then 2 else 0)
    let out ← bPutV20 (bPuts (bPutnl out) "CYC2: ".toList) c2
    return bPutnl (bPuts (bPutnl out) dashes)
  else
    let out := bPutnl (bPuts out "WARN: ATA_OMEGA.bin invalida/ausente. (clock-only)".toList)
    return bPutnl (bPuts out dashes)

def key (r : Readings) (loaded : Loaded) (out : Str) (i : ℕ) : Result Str := do
  let cyc ← keyCycle loaded i
  let x := keyValue (seed (r.midr 1) (r.cntfrq 1)) (r.cntvct i) cyc i
  let out := bPuts (bPutU3 (bPuts out "[CHAVE:".toList) i) "] [X:".toList
  let out ← bPutV20 out x
  let out := bPuts (bPuts (bPuts out "] [P:".toList) (digit (p9 x))) "] ".toList
  return bPutnl (bPuts out (phrase (p9 x)))

/-- What `main` hands to `sys_write`. -/
def run (r : Readings) (file : Option (Source Byte)) : Result Str := do
  let out ← hdr r []
  let loaded := loadAta file
  let out ← found loaded out
  let out ← (List.range' 1 42).foldlM (key r loaded) out
  let out := bPutnl (bPuts out dashes)
  return bPutnl (bPuts out "OK: SYNC FAST concluido.".toList)

end SyncFast

end Blake3.Ata
