import Blake3.Ata.RoundTrip
import Blake3.Fault
import Blake3.Hwif.Bootstrap
import Blake3.Lib.Numeral
import Blake3.Lib.ShortWrites

/-!
The run of `rafaelia_core.c`: the file it writes, in whatever pieces the system
takes it, and the report it prints.
-/

namespace Blake3.Ata

open Hwif ShortWrites

abbrev Str := List Char

/-! ### Numbers -/

def v20Alphabet : Str := "0123456789ABCDEFGHIJ".toList

theorem div_twenty_lt {x : UInt64} (h : ¬x = 0) : (x / 20).toNat < x.toNat := by
  have hpos : x.toNat ≠ 0 := fun hzero => h (UInt64.toNat_inj.mp hzero)
  rw [UInt64.toNat_div]
  exact Nat.div_lt_self (Nat.pos_of_ne_zero hpos) (by decide)

/-- The loop of `v20` that takes the digits off a number, the lowest first, into
an array of `size` characters. -/
def v20Digits (size : ℕ) (x : UInt64) (t : Str) : Result Str :=
  if x = 0 then .ok t
  else if t.length < size then
    v20Digits size (x / 20) (t ++ [v20Alphabet.getD (x % 20).toNat '0'])
  else .error .outOfBounds
termination_by x.toNat
decreasing_by exact div_twenty_lt ‹_›

/-- A text and the null character behind it, in an array of `size` characters. -/
def terminated (size : ℕ) (text : Str) : Result Str :=
  if text.length < size then .ok text else .error .outOfBounds

/-- `v20` with arrays of `size` characters for the digits and for the text. -/
def v20 (size : ℕ) (x : UInt64) : Result Str :=
  if x = 0 then terminated size ['0']
  else do
    let t ← v20Digits size x []
    terminated size t.reverse

/-! ### The system -/

/-- What a run gets from the hardware and from the system. -/
structure Machine where
  cpuId : UInt64
  midr : UInt64
  mpidr : UInt64
  /-- The clock at its `k`-th read. -/
  time : ℕ → UInt64
  /-- What `openat` and `fsync` return. -/
  openat : ℤ
  fsync : ℤ
  /-- How much of the file the writes take at most. -/
  writes : ℕ → ℕ

/-- The system calls are there for two architectures only. -/
def hasSyscalls (target : BuildTarget) : Bool :=
  target.arch = .aarch64 ∨ target.arch = .x86_64

def sysOpenat (target : BuildTarget) (m : Machine) : ℤ :=
  if hasSyscalls target then m.openat else -1

def sysFsync (target : BuildTarget) (m : Machine) : ℤ :=
  if hasSyscalls target then m.fsync else -1

/-! ### The run -/

structure CoreRun where
  printed : Str
  /-- What `ATA_OMEGA.bin` holds, if it was opened. -/
  file : Option (List Byte)
  writeOk : Bool

def newline : Str := "\n".toList

/-- What a value of `p9` is called. -/
def phrase (par : UInt64) : Str :=
  if par = 9 then "SINGULARIDADE_OMEGA".toList
  else if par = 3 ∨ par = 6 then "RESSONANCIA".toList
  else "FLUXO".toList

/-- The three digits of a record's number. -/
def recordId (k : ℕ) : Str :=
  [Char.ofNat (k / 100 + '0'.toNat), Char.ofNat (k / 10 % 10 + '0'.toNat),
    Char.ofNat (k % 10 + '0'.toNat)]

/-- The character of a value of `p9`. -/
def digit (par : UInt64) : Str := [Char.ofNat ('0'.toNat + par.toNat)]

def dashes : Str := "--------------------------------------------------------------".toList

def rule : Str := dashes ++ newline

/-- The registers that are printed on one architecture only. -/
def coreRegisters (target : BuildTarget) (m : Machine) : Result Str := do
  if target.arch = .aarch64 then
    let midrV20 ← v20 24 m.midr
    let mpidrV20 ← v20 24 m.mpidr
    return "MIDR(V20): ".toList ++ midrV20 ++ newline ++
      "MPIDR(V20): ".toList ++ mpidrV20 ++ newline
  else return []

/-- What is printed before the records. -/
def coreHeading (target : BuildTarget) (m : Machine) : Result Str := do
  let cpuV20 ← v20 24 m.cpuId
  let sigV20 ← v20 24 m.cpuId
  let registers ← coreRegisters target m
  return "\n[RAFAELIA_OMEGA] ATA(V1) :: AUTO-ID64 + 42\n".toList ++
    "BACKEND: ".toList ++ (selected target).backendName.toList ++ newline ++ registers ++
    "CPU_ID_RAW(V20): ".toList ++ cpuV20 ++ newline ++
    "HW_SIG64(V20): ".toList ++ sigV20 ++ newline ++
    "ATA_FORMAT: V1 header=28 record=24 count=42 LE\n".toList ++ rule

/-- One record: what of it is written, and what is printed for it. -/
def coreStep (m : Machine) (state : (Bool × Sink Byte) × Str) (k : ℕ) :
    Result ((Bool × Sink Byte) × Str) := do
  let cyc := m.time k
  let record := coreRecord (UInt64.ofNat k) cyc
  let write :=
    if state.1.1 then writeFrom (rmrAtaEncodeRecord record) 0 state.1.2 else state.1
  let cycV20 ← v20 24 cyc
  return (write, state.2 ++ "[CHAVE:".toList ++ recordId k ++ "] [CYC:".toList ++ cycV20 ++
    "] [P:".toList ++ digit record.par ++ "] ".toList ++ phrase record.par ++ newline)

/-- `main`, run with the operations that `rmr_hwif_bootstrap` returns. -/
def coreMain (target : BuildTarget) (m : Machine) : Result CoreRun := do
  let fd := sysOpenat target m
  let heading ← coreHeading target m
  let sink : Sink Byte := { written := [], plan := m.writes }
  let start : Bool × Sink Byte :=
    if 0 ≤ fd then writeFrom (rmrAtaBuildV1Header m.cpuId) 0 sink else (false, sink)
  let state ← (List.range' 1 42).foldlM (coreStep m) (start, heading)
  let writeOk := if 0 ≤ fd ∧ state.1.1 ∧ sysFsync target m < 0 then false else state.1.1
  return {
    printed := state.2 ++ rule ++
      if writeOk then "OK: ATA_OMEGA.bin V1 gravada.\n".toList
      else "ERRO: ATA_OMEGA.bin incompleta ou nao gravada.\n".toList
    file := if 0 ≤ fd then some state.1.2.written else none
    writeOk := writeOk }

end Blake3.Ata
