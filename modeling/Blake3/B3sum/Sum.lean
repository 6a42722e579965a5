import Blake3.B3sum.Check
import Blake3.B3sum.RoundTrip
import Blake3.Lib.ShortReads

/-!
`b3sum` without `--check`, `b3sum/src/main.rs`: the arguments and the key from
standard input, the output of each file, and the status that the run exits
with.
-/

namespace Blake3.B3sum

open Rust ShortReads

/-! ### Arguments -/

/-- What the command line says, with its defaults. -/
structure Inner where
  file : List Path
  keyed : Bool := false
  deriveKey : Option (List Byte) := none
  length : UInt64 := 32
  seek : UInt64 := 0
  noMmap : Bool := false
  noNames : Bool := false
  raw : Bool := false
  tag : Bool := false
  quiet : Bool := false

structure SumArgs extends CheckArgs, Args

inductive ArgsError where
  | rawFiles
  /-- The error of a read, with the message of the system. -/
  | io
  | shortKey (found : ℕ)
  | longKey
  deriving DecidableEq

def ArgsError.message : ArgsError → Option String
  | rawFiles => some "Only one filename can be provided when using --raw"
  | io => none
  | shortKey found =>
      some ("expected " ++ toString 32 ++ " key bytes from stdin, found " ++ toString found)
  | longKey => some ("read more than " ++ toString 32 ++ " key bytes from stdin")

/-- The loop of `read_key_from_stdin` with `done` read, and the read behind it. -/
def readKeyFrom (done : List Byte) (stdin : Source Byte) : Except ArgsError (List Byte) :=
  if done.length < 32 then
    match stdin.read (32 - done.length) with
    | (none, _) => .error .io
    | (some [], _) => .error (.shortKey done.length)
    | (some (byte :: got), stdin) => readKeyFrom (done ++ byte :: got) stdin
  else
    match stdin.read 1 with
    | (none, _) => .error .io
    | (some [], _) => .ok done
    | (some (_ :: _), _) => .error .longKey
termination_by 32 - done.length
decreasing_by simp; omega

def readKeyFromStdin (stdin : Source Byte) : Except ArgsError CVBytes :=
  (readKeyFrom [] stdin).map fun bytes => Vector.ofFn fun i => bytes.getD i 0

/-- `Args::parse` behind the parser of the command line. -/
def parseArgs (f : Compress) (b : Build) (simd : Simd) (inner : Inner) (stdin : Source Byte) :
    Result (Except ArgsError SumArgs) := do
  let fileArgs := if inner.file ≠ [] then inner.file else [[0x2d]]
  if inner.raw ∧ 1 < fileArgs.length then return .error .rawFiles
  else
    let args (baseHasher : Hasher) : SumArgs :=
      { fileArgs := fileArgs, baseHasher := baseHasher, keyed := inner.keyed,
        noMmap := inner.noMmap, seek := inner.seek, quiet := inner.quiet,
        len := inner.length.toNat, noNames := inner.noNames, raw := inner.raw, tag := inner.tag }
    if inner.keyed then return (readKeyFromStdin stdin).map fun key => args (.newKeyed key)
    else
      match inner.deriveKey with
      | some context => do
          let hasher ← Hasher.newDeriveKey f b simd context
          return .ok (args hasher)
      | none => return .ok (args .new)

/-! ### The output of a file -/

section

variable (f : Compress) (b : Build) (simd : Simd) (join : Join) (windows : Bool) (world : World)
  (args : SumArgs)

/-- The loop of `write_hex_output`, with what it prints. -/
def writeHexFrom (output : OutputReader) (len : ℕ) : Result Str :=
  if 0 < len then do
    let (block, output) ← output.fill f b 64
    let takeBytes := min len 64
    let rest ← writeHexFrom output (len - takeBytes)
    return (hexEncode block).take (2 * takeBytes) ++ rest
  else return []
termination_by len

/-- `io::copy` from the output, whose `k`-th read asks for at most `sizes k + 1` bytes. -/
def copyFrom (sizes : ℕ → ℕ) (output : OutputReader) (len : ℕ) : Result (List Byte) :=
  if 0 < len then do
    let (bytes, output) ← output.fill f b (min (sizes 0 + 1) len)
    let rest ← copyFrom (fun k => sizes (k + 1)) output (len - min (sizes 0 + 1) len)
    return bytes ++ rest
  else return []
termination_by len

/-- `hash_one_input`, which prints as `hash_path` allows. -/
def hashOneFile (sizes : ℕ → ℕ) (moment : Moment) (path : Path) : Call Printed := do
  let output ← hashPath f b simd join windows world args.toCheckArgs moment path
  if args.raw then
    return .raw (← .ofResult (copyFrom f b sizes output args.len))
  else if args.noNames then
    return .text ((← .ofResult (writeHexFrom f b output args.len)) ++ ['\n'])
  else
    let printed := filepathToString windows (Utf8.decodeLossy path)
    let slash := if printed.isEscaped then ['\\'] else []
    let hex ← .ofResult (writeHexFrom f b output args.len)
    if args.tag then
      return .text (slash ++ "BLAKE3 (".toList ++ printed.filepathString ++ ") = ".toList ++
        hex ++ ['\n'])
    else
      return .text (slash ++ hex ++ "  ".toList ++ printed.filepathString ++ ['\n'])

/-! ### The run -/

/-- What a run has printed and counted. -/
structure Sums where
  filesFailed : UInt64 := 0
  stdout : List Printed := []
  stderr : Str := []

def Sums.add (sums : Sums) (path : Path) : Except String Printed → Sums
  | .ok printed => { sums with stdout := sums.stdout ++ [printed] }
  | .error e =>
      { sums with
        filesFailed := saturatingAdd sums.filesFailed 1
        stderr := sums.stderr ++ "b3sum: ".toList ++ Utf8.decodeLossy path ++ ": ".toList ++
          e.toList ++ ['\n'] }

/-- The loop of `main` over the files from one on. -/
def sumFiles (sizes : ℕ → ℕ) : ℕ → List Path → Sums → Process Fault Sums
  | _, [], sums => return sums
  | argument, path :: paths, sums => do
      let result ← (hashOneFile f b simd join windows world args sizes ⟨argument, 0⟩ path).run
      sumFiles sizes (argument + 1) paths (sums.add path result)

/-- The status `main` exits with, and what it has printed. -/
def sumMain (sizes : ℕ → ℕ) : Process Fault (ℕ × Sums) := do
  let sums ← sumFiles f b simd join windows world args sizes 0 args.fileArgs {}
  return (if 0 < sums.filesFailed then 1 else 0, sums)

end

end Blake3.B3sum
