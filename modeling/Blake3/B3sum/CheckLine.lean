import Blake3.Fault
import Blake3.Lib.Text
import Blake3.Words

/-!
The lines of a checkfile, `b3sum/src/main.rs`: how one is printed for a path and
a hash, and how one is read back. A `&str` is its list of characters, and a path
is the bytes of an `OsStr` that is not on Windows. An error has the text of its
message, and what would panic is a fault; arithmetic is checked.
-/

namespace Blake3.B3sum

abbrev Str := List Char

/-- A computation that returns a value or an error, or panics. -/
abbrev Fallible := ExceptT String Result

def panicking {α : Type} (fault : Fault) : Fallible α := ExceptT.mk (.error fault)

def bail {α : Type} (message : String) : Fallible α := throw message

def ensure (p : Prop) [Decidable p] (message : String) : Fallible Unit :=
  if p then return () else bail message

/-- A slice, which panics where there is none. -/
def slice {α : Type} : Option α → Fallible α
  | some a => return a
  | none => panicking .outOfBounds

def addU8 (a b : Byte) : Fallible Byte :=
  if a.toNat + b.toNat < 2 ^ 8 then return a + b else panicking .overflow

def subU8 (a b : Byte) : Fallible Byte := if b ≤ a then return a - b else panicking .overflow

def mulU8 (a b : Byte) : Fallible Byte :=
  if a.toNat * b.toNat < 2 ^ 8 then return a * b else panicking .overflow

def subUsize (a b : ℕ) : Fallible ℕ := if b ≤ a then return a - b else panicking .overflow

/-! ### Printing -/

/-- The options that say what is printed, with their defaults. -/
structure Args where
  len : ℕ := 32
  noNames : Bool := false
  raw : Bool := false
  tag : Bool := false

structure FilepathString where
  filepathString : Str
  isEscaped : Bool

/-- The printed form of a path, given by its `to_string_lossy`. -/
def filepathToString (windows : Bool) (unicode : Str) : FilepathString :=
  let filepathString := if windows then Text.replace '\\' ['/'] unicode else unicode
  if filepathString.any fun c => c = '\\' ∨ c = '\n' ∨ c = '\r' then
    { filepathString := Text.replace '\r' ['\\', 'r']
        (Text.replace '\n' ['\\', 'n'] (Text.replace '\\' ['\\', '\\'] filepathString))
      isEscaped := true }
  else { filepathString := filepathString, isEscaped := false }

def hexDigits : Vector Char 16 :=
  #v['0', '1', '2', '3', '4', '5', '6', '7', '8', '9', 'a', 'b', 'c', 'd', 'e', 'f']

/-- The two digits of a byte. -/
def highDigit (b : Byte) : Fin 16 := ⟨b.toNat / 16, by have := b.toNat_lt; omega⟩

def lowDigit (b : Byte) : Fin 16 := ⟨b.toNat % 16, by omega⟩

def hexEncode (bytes : List Byte) : Str :=
  bytes.flatMap fun b => [hexDigits.get (highDigit b), hexDigits.get (lowDigit b)]

/-- `len` bytes of output in hex, encoded block by block. -/
def writeHexOutput (output : ℕ → Byte) (len : ℕ) : Str :=
  if len = 0 then []
  else
    let block := (List.range 64).map output
    let takeBytes := min len block.length
    (hexEncode block).take (2 * takeBytes) ++
      writeHexOutput (fun i => output (i + 64)) (len - takeBytes)
termination_by len
decreasing_by simp; omega

inductive Printed where
  | raw (bytes : List Byte)
  | text (text : Str)

/-- What is printed for a path, `output i` being byte `i` of what `hash_path`
returns for it. -/
def hashOneInput (windows : Bool) (args : Args) (unicode : Str) (output : ℕ → Byte) : Printed :=
  if args.raw then .raw ((List.range args.len).map output)
  else if args.noNames then .text (writeHexOutput output args.len ++ ['\n'])
  else
    let printed := filepathToString windows unicode
    let slash := if printed.isEscaped then ['\\'] else []
    if args.tag then
      .text (slash ++ "BLAKE3 (".toList ++ printed.filepathString ++ ") = ".toList ++
        writeHexOutput output args.len ++ ['\n'])
    else
      .text (slash ++ writeHexOutput output args.len ++ "  ".toList ++ printed.filepathString ++
        ['\n'])

/-! ### Reading a line back -/

def hexHalfByte (c : Char) : Fallible Byte := do
  let byte := UInt8.ofNat c.toNat
  if '0' ≤ c ∧ c ≤ '9' then return ← subU8 byte (UInt8.ofNat '0'.toNat)
  if 'a' ≤ c ∧ c ≤ 'f' then return ← addU8 (← subU8 byte (UInt8.ofNat 'a'.toNat)) 10
  bail "Invalid hex"

def checkForInvalidCharacters (windows : Bool) (utf8Path : Str) : Fallible Unit := do
  if '\x00' ∈ utf8Path then bail "Null character in path"
  if '\uFFFD' ∈ utf8Path then bail "Unicode replacement character in path"
  if windows ∧ '\\' ∈ utf8Path then bail "Backslash in path"

/-- What an escape sequence stands for, by its second character. -/
def escapeSequence : Char → Fallible Str
  | 'n' => return ['\n']
  | 'r' => return ['\r']
  | '\\' => return ['\\']
  | _ => bail "Invalid backslash escape"

/-- The loop of `unescape`, with what it has unescaped so far. -/
def unescapeLoop (path unescaped : Str) : Fallible Str :=
  match Text.find '\\' path with
  | none => return unescaped ++ path
  | some i => do
      let last ← subUsize (Text.byteLen path) 1
      ensure (i < last) "Invalid backslash escape"
      let before ← slice (Text.sliceTo path i)
      match ← slice (Text.sliceFrom path (i + 1)) with
      | [] => panicking .unwrapNone
      | next :: _ =>
          let piece ← escapeSequence next
          match _h : Text.sliceFrom path (i + 2) with
          | none => panicking .outOfBounds
          | some rest => unescapeLoop rest (unescaped ++ before ++ piece)
termination_by path.length
decreasing_by exact Text.length_sliceFrom _h (by omega)

def unescape (path : Str) : Fallible Str := unescapeLoop path []

structure ParsedCheckLine where
  fileString : Str
  isEscaped : Bool
  filePath : List Byte
  expectedHash : CVBytes

/-- The hash and the file of `<hash>  <file>`, split from the left. -/
def splitUntaggedCheckLine (lineAfterSlash : Str) : Option (Str × Str) :=
  Text.splitOnce "  ".toList lineAfterSlash

/-- The file and the hash of `BLAKE3 (<file>) = <hash>`, split from the right. -/
def splitTaggedCheckLine (lineAfterSlash : Str) : Fallible (Option (Str × Str)) := do
  let tagPrefix := "BLAKE3 (".toList
  if ¬tagPrefix <+: lineAfterSlash then return none
  let rest ← slice (Text.sliceFrom lineAfterSlash (Text.byteLen tagPrefix))
  return Text.rsplitOnce ") = ".toList rest

/-- Whether a line is escaped, and what is behind the backslash that says so. -/
def lineAfterSlash (line : Str) : Fallible (Bool × Str) :=
  match line with
  | [] => bail "Empty line"
  | first :: _ => do
      if first = '\\' then return (true, ← slice (Text.sliceFrom line 1))
      else return (false, line)

/-- The hash and the file of a line of either form. -/
def splitCheckLine (lineAfterSlash : Str) : Fallible (Str × Str) := do
  match splitUntaggedCheckLine lineAfterSlash with
  | some (hashHex, fileStr) => return (hashHex, fileStr)
  | none =>
      match ← splitTaggedCheckLine lineAfterSlash with
      | some (fileStr, hashHex) => return (hashHex, fileStr)
      | none => bail "Invalid check line format"

/-- The bytes of `n` pairs of hex digits. Both characters of a pair are taken
before either is looked at. -/
def decodeHexPairs : ℕ → Str → Fallible (List Byte)
  | 0, _ => return []
  | n + 1, highChar :: lowChar :: hexChars => do
      let high ← mulU8 16 (← hexHalfByte highChar)
      let byte ← addU8 high (← hexHalfByte lowChar)
      return byte :: (← decodeHexPairs n hexChars)
  | _ + 1, _ => panicking .unwrapNone

def decodeHash (hashHex : Str) : Fallible CVBytes := do
  ensure (Text.byteLen hashHex = 2 * 32) "Invalid hash length"
  let hashBytes ← decodeHexPairs 32 hashHex
  return Vector.ofFn fun i => hashBytes.getD i 0

/-- Unescape and validate the filepath. -/
def checkedFilePath (windows isEscaped : Bool) (fileStr : Str) : Fallible Str := do
  let filePathString ← (if isEscaped then unescape fileStr else pure fileStr)
  ensure (filePathString ≠ []) "empty file path"
  checkForInvalidCharacters windows filePathString
  return filePathString

def trimNewlines (line : Str) : Str := line.rdropWhile fun c => c = '\r' ∨ c = '\n'

def parseCheckLine (windows : Bool) (line : Str) : Fallible ParsedCheckLine := do
  -- trim off the trailing newlines, if any
  let (isEscaped, lineAfterSlash) ← lineAfterSlash (trimNewlines line)
  let (hashHex, fileStr) ← splitCheckLine lineAfterSlash
  let expectedHash ← decodeHash hashHex
  let filePathString ← checkedFilePath windows isEscaped fileStr
  return { fileString := fileStr, isEscaped := isEscaped,
           filePath := Utf8.encode filePathString, expectedHash := expectedHash }

end Blake3.B3sum
