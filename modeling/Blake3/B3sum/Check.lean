import Blake3.B3sum.Panics
import Blake3.Rust.CopyWide

/-!
`b3sum --check`, `b3sum/src/main.rs`: the loops over the checkfiles and their
lines, and the status that the run exits with. What is outside the program
answers each call as it likes, and may leave a call without an answer; what is
printed is recorded line by line.
-/

namespace Blake3.B3sum

open Rust

abbrev Path := List Byte

/-- `path == Path::new("-")`, which compares by components: a separator at the end,
alone or before a dot, makes no difference. -/
def isDash (windows : Bool) (path : Path) : Bool :=
  let separates (byte : Byte) : Bool := byte = 0x2f || (windows && byte = 0x5c)
  match path.splitOnP separates with
  | first :: rest =>
      first = [0x2d] && rest.all fun component => component = [] || component = [0x2e]
  | [] => false

/-! ### The outside of a run -/

/-- Where a run stands: at which of its arguments, with how many lines of it read. -/
structure Moment where
  argument : ℕ
  line : ℕ

/-- What a call comes to: a value, an error by its message, or `none` if the
call does not return. -/
abbrev Answer (α : Type) := Option (Except String α)

/-- What the reads of a file return, and how the last one ends. -/
structure Reading where
  pieces : List (List Byte)
  ending : Answer Unit

/-- An open file: what `maybe_mmap_file` returns for it, and what its reads return. -/
structure File where
  mmap : Answer (Option (List Byte))
  reading : Reading

/-- The answers to all the calls a run can make, each by the moment of the call.
Nothing relates the answers of different moments. -/
structure World where
  openCheckfile : ℕ → Path → Answer Unit
  readLine : Moment → Answer Str
  openFile : Moment → Path → Answer File
  stdin : Moment → Reading

/-- A computation that returns a value or an error, panics, or does not end. -/
abbrev Call := ExceptT String (Process Fault)

def ask {α : Type} (answer : Answer α) : Call α := ExceptT.mk (ExceptT.mk (answer.map .ok))

def Call.ofResult {α : Type} (x : Result α) : Call α := ExceptT.mk (ExceptT.mk (some (x.map .ok)))

def Call.ofFallible {α : Type} (x : Fallible α) : Call α := ExceptT.mk (ExceptT.mk (some x.run))

/-! ### Hashing a file -/

/-- The arguments that a check reads. -/
structure CheckArgs where
  fileArgs : List Path
  baseHasher : Hasher
  keyed : Bool
  noMmap : Bool
  seek : UInt64
  quiet : Bool

section

variable (f : Compress) (b : Build) (simd : Simd) (join : Join) (windows : Bool) (world : World)
  (args : CheckArgs)

def copyWide (hasher : Hasher) (reading : Reading) : Call Hasher := do
  let hasher ← .ofResult (hasher.updates f b simd .serial reading.pieces)
  ask reading.ending
  return hasher

/-- The hasher of `hash_path` with the file in it. -/
def hashInput (moment : Moment) (path : Path) : Call Hasher := do
  if isDash windows path then
    if args.keyed then throw "Cannot open `-` in keyed mode"
    copyWide f b simd args.baseHasher (world.stdin moment)
  else
    let file ← ask (world.openFile moment path)
    if args.noMmap then copyWide f b simd args.baseHasher file.reading
    else
      match ← ask file.mmap with
      | some bytes => .ofResult (args.baseHasher.updateWithJoin f b simd join bytes)
      | none => copyWide f b simd args.baseHasher file.reading

def hashPath (moment : Moment) (path : Path) : Call OutputReader := do
  let hasher ← hashInput f b simd join windows world args moment path
  let outputReader ← .ofResult (hasher.finalizeXof f b)
  return outputReader.setPosition args.seek

/-- The bytes `check_one_line` takes from `hash_path`. -/
def foundHash (moment : Moment) (path : Path) : Call CVBytes := do
  let output ← hashPath f b simd join windows world args moment path
  let (bytes, _) ← .ofResult (output.fill f b 32)
  return Vector.ofFn fun i => bytes.getD i 0

/-! ### Checking -/

/-- What `check_one_line` returns and prints. -/
structure Report where
  success : Bool
  stdout : Str := []
  stderr : Str := []

/-- The part of `check_one_line` after the file is hashed. -/
def hashReport (quiet : Bool) (parsed : ParsedCheckLine) (hash : Except String CVBytes) : Report :=
  let fileString := if parsed.isEscaped then '\\' :: parsed.fileString else parsed.fileString
  match hash with
  | .error e =>
      { success := false, stdout := fileString ++ ": FAILED (".toList ++ e.toList ++ ")\n".toList }
  | .ok found =>
      if parsed.expectedHash = found then
        { success := true, stdout := if quiet then [] else fileString ++ ": OK\n".toList }
      else { success := false, stdout := fileString ++ ": FAILED\n".toList }

def checkOneLine (moment : Moment) (line : Str) : Process Fault Report := do
  match ← (Call.ofFallible (parseCheckLine windows line)).run with
  | .error e => return { success := false, stderr := "b3sum: ".toList ++ e.toList ++ ['\n'] }
  | .ok parsed =>
      let found ← (foundHash f b simd join windows world args moment parsed.filePath).run
      return hashReport args.quiet parsed found

def saturatingAdd (x y : UInt64) : UInt64 :=
  if 2 ^ 64 ≤ x.toNat + y.toNat then UInt64.ofNat (2 ^ 64 - 1) else x + y

/-- The count of failures, and what there is to say of each line so far. -/
structure Progress where
  filesFailed : UInt64 := 0
  reports : List Report := []

def Progress.add (progress : Progress) (report : Report) : Progress :=
  { filesFailed :=
      if report.success then progress.filesFailed else saturatingAdd progress.filesFailed 1,
    reports := progress.reports ++ [report] }

/-- The loop of `check_one_checkfile` over the lines from one on, for at most
`fuel` calls of `read_line`. -/
def checkLines : ℕ → Moment → Progress → Process Fault (Except String Unit × Progress)
  | 0, _, _ => .never
  | fuel + 1, moment, progress => do
      match ← (ask (world.readLine moment)).run with
      | .error e => return (.error e, progress)
      | .ok [] => return (.ok (), progress)
      | .ok (c :: line) =>
          let report ← checkOneLine f b simd join windows world args moment (c :: line)
          checkLines fuel { moment with line := moment.line + 1 } (progress.add report)

def checkOneCheckfile (fuel argument : ℕ) (path : Path) (progress : Progress) :
    Process Fault (Except String Unit × Progress) := do
  let opened ← if isDash windows path then pure (.ok ()) else
    (ask (world.openCheckfile argument path)).run
  match opened with
  | .error e => return (.error e, progress)
  | .ok () =>
      checkLines f b simd join windows world args fuel { argument := argument, line := 0 } progress

/-- The loop of `main` over the checkfiles from one on. -/
def checkFiles (fuel : ℕ) : ℕ → List Path → Progress → Process Fault (Except String Unit × Progress)
  | _, [], progress => return (.ok (), progress)
  | argument, path :: paths, progress => do
      match ← checkOneCheckfile f b simd join windows world args fuel argument path progress with
      | (.error e, progress) => return (.error e, progress)
      | (.ok (), progress) => checkFiles fuel (argument + 1) paths progress

/-- What `main` prints at the end of a check. -/
def warning (progress : Progress) : Str :=
  if 0 < progress.filesFailed then
    "b3sum: WARNING: ".toList ++ (toString progress.filesFailed.toNat).toList ++
      " computed checksum".toList ++ (if progress.filesFailed = 1 then [] else ['s']) ++
      " did NOT match\n".toList
  else []

/-- How the process ends: by `exit`, with the error that `main` returns, or by a panic. -/
inductive Ending where
  | exit (status : ℕ) (progress : Progress) (stderr : Str)
  | error (message : String) (progress : Progress)
  | panicked (fault : Fault)

def Ending.status : Ending → ℕ
  | exit status _ _ => status
  | error _ _ => 1
  | panicked _ => 101

/-- The progress at the end, where the process did not panic. -/
def Ending.progress : Ending → Option Progress
  | exit _ progress _ => some progress
  | error _ progress => some progress
  | panicked _ => none

/-- What `main` does in its thread pool where there is something to check. -/
def main (fuel : ℕ) : Option Ending :=
  match (checkFiles f b simd join windows world args fuel 0 args.fileArgs {}).run with
  | none => none
  | some (.error fault) => some (.panicked fault)
  | some (.ok (.error e, progress)) => some (.error e progress)
  | some (.ok (.ok (), progress)) =>
      some (.exit (if 0 < progress.filesFailed then 1 else 0) progress (warning progress))

/-! ### What a check is to find out -/

/-- The line parses, its file can be hashed, and the hash is the one on the line. -/
def Verifies (moment : Moment) (line : Str) : Prop :=
  ∃ parsed, parseCheckLine windows line = pure parsed ∧
    foundHash f b simd join windows world args moment parsed.filePath = pure parsed.expectedHash

/-- The checkfile is read to its end, and all its lines verify. -/
def ReadsAndVerifies (argument : ℕ) (path : Path) : Prop :=
  (isDash windows path ∨ world.openCheckfile argument path = some (.ok ())) ∧
    ∃ n, world.readLine ⟨argument, n⟩ = some (.ok []) ∧
      ∀ j < n, ∃ line, world.readLine ⟨argument, j⟩ = some (.ok line) ∧ line ≠ [] ∧
        Verifies f b simd join windows world args ⟨argument, j⟩ line

end

/-! ### Calls -/

@[simp] theorem ask_ok_bind {α β : Type} (a : α) (k : α → Call β) :
    ask (some (.ok a)) >>= k = k a := rfl

@[simp] theorem ofResult_ok_bind {α β : Type} (a : α) (k : α → Call β) :
    Call.ofResult (.ok a) >>= k = k a := rfl

/-! ### One line -/

section

variable {f : Compress} {b : Build} {simd : Simd} {join : Join} {windows : Bool} {world : World}
  {args : CheckArgs} {moment : Moment} {line : Str}

theorem checkOneLine_invalid {message : String}
    (h : parseCheckLine windows line = bail message) :
    checkOneLine f b simd join windows world args moment line =
      pure { success := false, stderr := "b3sum: ".toList ++ message.toList ++ ['\n'] } := by
  rw [checkOneLine, h]
  rfl

theorem checkOneLine_panicking {fault : Fault} (h : parseCheckLine windows line = panicking fault) :
    checkOneLine f b simd join windows world args moment line =
      Process.fault fault := by
  rw [checkOneLine, h]
  rfl

theorem checkOneLine_parsed {parsed : ParsedCheckLine}
    (h : parseCheckLine windows line = pure parsed) :
    checkOneLine f b simd join windows world args moment line =
      (foundHash f b simd join windows world args moment parsed.filePath).run >>=
        fun found => pure (hashReport args.quiet parsed found) := by
  rw [checkOneLine, h]
  rfl

theorem hashReport_success_iff (quiet : Bool) (parsed : ParsedCheckLine)
    (found : Except String CVBytes) :
    (hashReport quiet parsed found).success = true ↔ found = .ok parsed.expectedHash := by
  rcases found with message | found
  · exact iff_of_false Bool.false_ne_true nofun
  · rw [hashReport]
    by_cases heq : parsed.expectedHash = found
    · rw [if_pos heq, heq]
      exact iff_of_true rfl rfl
    · rw [if_neg heq]
      exact iff_of_false Bool.false_ne_true fun h => heq (Except.ok.inj h).symm

/-- A line is a success if and only if it verifies. -/
theorem checkOneLine_success_iff :
    (∃ report, checkOneLine f b simd join windows world args moment line = pure report ∧
      report.success = true) ↔ Verifies f b simd join windows world args moment line := by
  rcases hparse : (parseCheckLine windows line).run with fault | (message | parsed)
  · refine iff_of_false ?_ ?_
    · rintro ⟨report, hreport, -⟩
      rw [checkOneLine_panicking hparse] at hreport
      exact Process.fault_ne_pure hreport
    · rintro ⟨parsed, hparsed, -⟩
      exact Result.error_ne_ok (hparse.symm.trans hparsed)
  · refine iff_of_false ?_ ?_
    · rintro ⟨report, hreport, hsuccess⟩
      rw [checkOneLine_invalid hparse] at hreport
      rw [← Process.pure_inj hreport] at hsuccess
      exact Bool.false_ne_true hsuccess
    · rintro ⟨parsed, hparsed, -⟩
      cases hparse.symm.trans hparsed
  · rw [checkOneLine_parsed hparse]
    constructor
    · rintro ⟨report, hreport, hsuccess⟩
      refine ⟨parsed, hparse, ?_⟩
      rcases Process.cases
          (foundHash f b simd join windows world args moment parsed.filePath).run with
        hfound | ⟨fault, hfound⟩ | ⟨found, hfound⟩ <;> rw [hfound] at hreport
      · exact absurd hreport Process.never_ne_pure
      · exact absurd hreport Process.fault_ne_pure
      · rw [pure_bind] at hreport
        rw [← Process.pure_inj hreport, hashReport_success_iff] at hsuccess
        rw [hsuccess] at hfound
        exact hfound
    · rintro ⟨parsed', hparsed', hfound⟩
      obtain rfl : parsed = parsed' := by
        cases hparse.symm.trans hparsed'
        rfl
      rw [hfound]
      exact ⟨_, rfl, (hashReport_success_iff args.quiet parsed _).2 rfl⟩

theorem success_iff_of_returns {report : Report}
    (h : checkOneLine f b simd join windows world args moment line = pure report) :
    report.success = true ↔ Verifies f b simd join windows world args moment line := by
  rw [← checkOneLine_success_iff, h]
  constructor
  · intro hsuccess
    exact ⟨report, rfl, hsuccess⟩
  · rintro ⟨report', hreport', hsuccess⟩
    rwa [Process.pure_inj hreport']

end

/-! ### The hash that is found -/

section

variable {f : Compress} {b : Build} {simd : Simd} {join : Join} {windows : Bool} {world : World}
  {args : CheckArgs} {moment : Moment} {key : CVWords} {flags : Byte}

/-- The bytes that `hash_path` gets of a file. -/
inductive Delivers (windows : Bool) (world : World) (args : CheckArgs) (moment : Moment)
    (path : Path) : List Byte → Prop where
  | stdin (hdash : isDash windows path) (hkeyed : args.keyed = false)
      (hend : (world.stdin moment).ending = some (.ok ())) :
      Delivers windows world args moment path (world.stdin moment).pieces.flatten
  | read {file : File} (hdash : ¬isDash windows path)
      (hopen : world.openFile moment path = some (.ok file))
      (hread : args.noMmap = true ∨ file.mmap = some (.ok none))
      (hend : file.reading.ending = some (.ok ())) :
      Delivers windows world args moment path file.reading.pieces.flatten
  | mapped {file : File} {bytes : List Byte} (hdash : ¬isDash windows path)
      (hopen : world.openFile moment path = some (.ok file)) (hmmap : args.noMmap = false)
      (hmapped : file.mmap = some (.ok (some bytes))) :
      Delivers windows world args moment path bytes

variable (f b simd) in
theorem copyWide_eq {reading : Reading} (hend : reading.ending = some (.ok ()))
    (hroom : Room 0 reading.pieces.flatten.length) :
    ∃ hasher, copyWide f b simd (Hasher.newInternal key flags) reading = pure hasher ∧
      hasher.Reads f key flags 0 reading.pieces.flatten := by
  obtain ⟨hasher, hupdates, hreads⟩ := Hasher.updates_eq simd .serial
    (Hasher.reads_newInternal f key flags) reading.pieces hroom
  refine ⟨hasher, ?_, hreads⟩
  rw [copyWide, hupdates, hend]
  rfl

/-- The reads of a reader up to its end. -/
def Reading.ofReader (reader : Reader) : Reading where
  pieces := reader.slices
  ending := match reader.last.returned with
    | .ok _ => some (.ok ())
    | .error .interrupted => none
    | .error (.other message) => some (.error message)

/-- `copy_wide` of the library, which is what a file is hashed with: its loop over the calls
of a reader has the same hasher in the end, and the same error. -/
theorem copyWide_ofReader {reader : Reader} {after : List ReadCall} {hasher hasher' : Hasher}
    {r : Except IoError UInt64}
    (hrun : Rust.copyWide f b simd (reader.before ++ reader.last :: after) hasher =
      pure (r, hasher')) :
    (∃ total, r = .ok total ∧ copyWide f b simd hasher (.ofReader reader) = pure hasher') ∨
      ∃ message, r = .error (.other message) ∧
        copyWide f b simd hasher (.ofReader reader) = throw message := by
  obtain ⟨hupdates, rfl⟩ := copyWide_updates hrun
  rw [copyWide, Reading.ofReader, hupdates, Reader.answer]
  rcases reader.ends with hend | ⟨message, hend⟩
  · rw [hend]
    exact .inl ⟨_, rfl, rfl⟩
  · rw [hend]
    exact .inr ⟨message, rfl, rfl⟩

variable (f b simd join) in
theorem hashInput_eq {path : Path} {bytes : List Byte}
    (hbase : args.baseHasher = Hasher.newInternal key flags)
    (h : Delivers windows world args moment path bytes) (hroom : Room 0 bytes.length) :
    ∃ hasher, hashInput f b simd join windows world args moment path = pure hasher ∧
      hasher.Reads f key flags 0 bytes := by
  rw [hashInput, hbase]
  cases h with
  | stdin hdash hkeyed hend =>
      obtain ⟨hasher, hcopy, hreads⟩ := copyWide_eq f b simd hend hroom
      refine ⟨hasher, ?_, hreads⟩
      rw [if_pos hdash, hkeyed]
      exact hcopy
  | read hdash hopen hread hend =>
      obtain ⟨hasher, hcopy, hreads⟩ := copyWide_eq f b simd hend hroom
      refine ⟨hasher, ?_, hreads⟩
      rw [if_neg hdash, hopen, ask_ok_bind]
      rcases hread with hmmap | hmmap
      · rw [if_pos hmmap]
        exact hcopy
      · rw [hmmap, ask_ok_bind]
        split
        · exact hcopy
        · exact hcopy
  | mapped hdash hopen hmmap hmapped =>
      obtain ⟨hasher, hupdate, hreads⟩ := Hasher.updateWithJoin_eq (b := b) simd join
        (Hasher.reads_newInternal f key flags) bytes hroom
      refine ⟨hasher, ?_, hreads⟩
      rw [if_neg hdash, hopen, ask_ok_bind, hmmap, if_neg Bool.false_ne_true, hmapped, ask_ok_bind]
      dsimp only
      rw [hupdate]
      rfl

theorem ofFn_streamBytes (f : Compress) (node : CompressInput) (pos : ℕ) :
    (Vector.ofFn fun i => (streamBytes f node pos 32).getD i 0 : CVBytes) =
      hashOf fun i => stream f node (pos + i) := by
  ext i hi
  rw [hashOf, Vector.getElem_ofFn, Vector.getElem_ofFn,
    List.getD_eq_getElem _ _ (by rwa [length_streamBytes])]
  simp [streamBytes]

variable (f b simd join) in
/-- The hash of a file of fewer than `2 ^ 64` bytes: the output for them from
position `seek` on. -/
theorem foundHash_eq {path : Path} {bytes : List Byte}
    (hbase : args.baseHasher = Hasher.newInternal key flags)
    (h : Delivers windows world args moment path bytes) (hlen : bytes.length < 2 ^ 64)
    (hseek : args.seek.toNat + 32 < 2 ^ 64) :
    foundHash f b simd join windows world args moment path =
      pure (hashOf fun i =>
        stream f (rootNode f key flags.toUInt32 bytes) (args.seek.toNat + i)) := by
  have hroom : Room 0 bytes.length := ⟨by omega, .inl rfl⟩
  obtain ⟨hasher, hinput, hreads⟩ := hashInput_eq f b simd join hbase h hroom
  obtain ⟨o, -, -, hnode, -, -, hxof, -⟩ := Hasher.finalize_eq (b := b) hreads hlen
  have hpath : hashPath f b simd join windows world args moment path =
      pure ((OutputReader.new o).setPosition args.seek) := by
    rw [hashPath, hinput, pure_bind, hxof, ofResult_ok_bind]
  rw [foundHash, hpath, pure_bind, OutputReader.fill_setPosition f b o hseek, ofResult_ok_bind,
    hnode, ← ofFn_streamBytes]

/-- A line verifies if and only if it has the hash of the bytes its file delivers. -/
theorem verifies_iff_of_delivers {line : Str} {parsed : ParsedCheckLine} {bytes : List Byte}
    (hparse : parseCheckLine windows line = pure parsed)
    (hbase : args.baseHasher = Hasher.newInternal key flags)
    (h : Delivers windows world args moment parsed.filePath bytes) (hlen : bytes.length < 2 ^ 64)
    (hseek : args.seek.toNat + 32 < 2 ^ 64) :
    Verifies f b simd join windows world args moment line ↔
      parsed.expectedHash = hashOf fun i =>
        stream f (rootNode f key flags.toUInt32 bytes) (args.seek.toNat + i) := by
  have hfound := foundHash_eq f b simd join hbase h hlen hseek
  constructor
  · rintro ⟨parsed', hparse', hfound'⟩
    cases hparse.symm.trans hparse'
    exact Except.ok.inj (Process.pure_inj (hfound'.symm.trans hfound))
  · exact fun heq => ⟨parsed, hparse, by rw [hfound, heq]⟩

end

/-! ### The count of failures -/

theorem saturatingAdd_one (x : UInt64) :
    (saturatingAdd x 1).toNat = min (x.toNat + 1) (2 ^ 64 - 1) := by
  have hx := x.toNat_lt
  rw [saturatingAdd, UInt64.toNat_one]
  split
  · rw [UInt64.toNat_ofNat']
    omega
  · rw [UInt64.toNat_add, UInt64.toNat_one]
    omega

namespace Progress

variable (progress : Progress) (report : Report)

/-- The lines that did not verify. -/
def failures : ℕ := progress.reports.countP fun report => !report.success

/-- The counter is the number of failures, as far as it goes. -/
def Counts : Prop := progress.filesFailed.toNat = min progress.failures (2 ^ 64 - 1)

theorem failures_add :
    (progress.add report).failures = progress.failures + if report.success then 0 else 1 := by
  rw [failures, failures, add, List.countP_append, List.countP_singleton]
  cases report.success <;> rfl

variable {progress}

theorem Counts.add (h : progress.Counts) : (progress.add report).Counts := by
  rw [Counts] at h ⊢
  rw [failures_add, Progress.add]
  cases report.success with
  | true => exact h
  | false =>
      rw [if_neg Bool.false_ne_true, saturatingAdd_one, h]
      simp only [Bool.false_eq_true, if_false]
      omega

variable (progress)

/-- No line takes the counter back to zero. -/
theorem filesFailed_add_eq_zero_iff :
    (progress.add report).filesFailed = 0 ↔ progress.filesFailed = 0 ∧ report.success = true := by
  rw [Progress.add]
  cases report.success with
  | true => simp
  | false =>
      refine iff_of_false ?_ (by simp)
      rw [if_neg Bool.false_ne_true, ← UInt64.toNat_inj, saturatingAdd_one, UInt64.toNat_zero]
      omega

end Progress

/-! ### The lines of a checkfile -/

section

variable (f : Compress) (b : Build) (simd : Simd) (join : Join) (windows : Bool) (world : World)
  (args : CheckArgs)

/-- From line `j` of a checkfile to its end, all lines are read and verify. -/
def LinesVerify (argument j : ℕ) : Prop :=
  ∃ n, j ≤ n ∧ world.readLine ⟨argument, n⟩ = some (.ok []) ∧
    ∀ k, j ≤ k → k < n → ∃ line, world.readLine ⟨argument, k⟩ = some (.ok line) ∧ line ≠ [] ∧
      Verifies f b simd join windows world args ⟨argument, k⟩ line

variable {f b simd join windows world args}

theorem readsAndVerifies_iff {argument : ℕ} {path : Path} :
    ReadsAndVerifies f b simd join windows world args argument path ↔
      (isDash windows path ∨ world.openCheckfile argument path = some (.ok ())) ∧
        LinesVerify f b simd join windows world args argument 0 := by
  simp [ReadsAndVerifies, LinesVerify]

theorem linesVerify_iff {argument j : ℕ} :
    LinesVerify f b simd join windows world args argument j ↔
      world.readLine ⟨argument, j⟩ = some (.ok []) ∨
        ∃ line, world.readLine ⟨argument, j⟩ = some (.ok line) ∧ line ≠ [] ∧
          Verifies f b simd join windows world args ⟨argument, j⟩ line ∧
          LinesVerify f b simd join windows world args argument (j + 1) := by
  constructor
  · rintro ⟨n, hle, hend, hlines⟩
    rcases eq_or_lt_of_le hle with rfl | hlt
    · exact .inl hend
    · obtain ⟨line, hread, hne, hverifies⟩ := hlines j le_rfl hlt
      exact .inr ⟨line, hread, hne, hverifies, n, hlt, hend,
        fun k hk => hlines k (Nat.le_of_succ_le hk)⟩
  · rintro (hend | ⟨line, hread, hne, hverifies, n, hlt, hend, hlines⟩)
    · exact ⟨j, le_rfl, hend, fun k hk hkn => absurd hkn (not_lt.2 hk)⟩
    · refine ⟨n, Nat.le_of_succ_le hlt, hend, fun k hk hkn => ?_⟩
      rcases eq_or_lt_of_le hk with rfl | hk
      · exact ⟨line, hread, hne, hverifies⟩
      · exact hlines k hk hkn

/-- The loop came to the end of what it reads, with no failure on its count. -/
def Clean (outcome : Result (Except String Unit × Progress)) : Prop :=
  ∃ progress, outcome = .ok (.ok (), progress) ∧ progress.filesFailed = 0

theorem clean_ok {progress : Progress} :
    Clean (.ok (.ok (), progress)) ↔ progress.filesFailed = 0 := by
  constructor
  · rintro ⟨progress', heq, hzero⟩
    cases heq
    exact hzero
  · exact fun hzero => ⟨progress, rfl, hzero⟩

theorem not_clean_error {message : String} {progress : Progress} :
    ¬Clean (.ok (.error message, progress)) := by
  rintro ⟨progress', heq, -⟩
  cases heq

theorem not_clean_panic {fault : Fault} : ¬Clean (.error fault) := by
  rintro ⟨progress', heq, -⟩
  cases heq

theorem checkLines_clean_iff {fuel argument j : ℕ} {progress : Progress}
    {outcome : Result (Except String Unit × Progress)}
    (h : (checkLines f b simd join windows world args fuel ⟨argument, j⟩ progress).run =
      some outcome) :
    Clean outcome ↔
      progress.filesFailed = 0 ∧ LinesVerify f b simd join windows world args argument j := by
  induction fuel generalizing j progress with
  | zero => cases h
  | succ fuel ih =>
      rw [checkLines] at h
      rw [linesVerify_iff]
      rcases hread : world.readLine ⟨argument, j⟩ with _ | (message | (_ | ⟨c, line⟩)) <;>
        rw [hread] at h
      · cases h
      · cases h
        exact iff_of_false not_clean_error (by simp)
      · cases h
        rw [clean_ok]
        simp
      · change (checkOneLine f b simd join windows world args ⟨argument, j⟩ (c :: line) >>=
          fun report => checkLines f b simd join windows world args fuel ⟨argument, j + 1⟩
            (progress.add report)).run = some outcome at h
        rcases Process.cases
            (checkOneLine f b simd join windows world args ⟨argument, j⟩ (c :: line)) with
          hline | ⟨fault, hline⟩ | ⟨report, hline⟩ <;> rw [hline] at h
        · cases h
        · cases h
          refine iff_of_false not_clean_panic ?_
          rintro ⟨-, hend | ⟨line', hread', -, hverifies, -⟩⟩
          · cases hend
          · cases hread'
            obtain ⟨report, hreport, -⟩ := checkOneLine_success_iff.2 hverifies
            exact Process.fault_ne_pure (hline.symm.trans hreport)
        · rw [pure_bind] at h
          rw [ih h, Progress.filesFailed_add_eq_zero_iff, success_iff_of_returns hline]
          simp [and_assoc]

/-- A checkfile whose lines verify is read to its end. -/
theorem checkLines_returns {argument j : ℕ}
    (h : LinesVerify f b simd join windows world args argument j) :
    ∃ needed, ∀ fuel, needed ≤ fuel → ∀ progress, ∃ outcome,
      (checkLines f b simd join windows world args fuel ⟨argument, j⟩ progress).run =
        some outcome := by
  obtain ⟨n, hle, hend, hlines⟩ := h
  refine ⟨n - j + 1, fun fuel hfuel progress => ?_⟩
  -- on the number of lines that are left
  induction fuel generalizing j progress with
  | zero => omega
  | succ fuel ih =>
      rw [checkLines]
      rcases eq_or_lt_of_le hle with rfl | hlt
      · rw [hend]
        exact ⟨_, rfl⟩
      · obtain ⟨line, hread, hne, hverifies⟩ := hlines j le_rfl hlt
        obtain ⟨report, hreport, -⟩ := checkOneLine_success_iff.2 hverifies
        obtain ⟨outcome, houtcome⟩ := ih (j := j + 1) hlt
          (fun k hk => hlines k (Nat.le_of_succ_le hk)) (by omega) (progress.add report)
        refine ⟨outcome, ?_⟩
        rw [hread]
        cases line with
        | nil => exact absurd rfl hne
        | cons c line =>
            change (checkOneLine f b simd join windows world args ⟨argument, j⟩ (c :: line) >>=
              fun report => checkLines f b simd join windows world args fuel ⟨argument, j + 1⟩
                (progress.add report)).run = some outcome
            rw [hreport, pure_bind]
            exact houtcome

/-- What every line keeps of the progress, the loop keeps. -/
theorem checkLines_invariant {I : Progress → Prop}
    (hadd : ∀ progress report, I progress → I (progress.add report)) {fuel : ℕ} {moment : Moment}
    {progress progress' : Progress} {r : Except String Unit} (hI : I progress)
    (h : (checkLines f b simd join windows world args fuel moment progress).run =
      some (.ok (r, progress'))) : I progress' := by
  induction fuel generalizing moment progress with
  | zero => cases h
  | succ fuel ih =>
      rw [checkLines] at h
      rcases hread : world.readLine moment with _ | (message | (_ | ⟨c, line⟩)) <;> rw [hread] at h
      · cases h
      · cases h
        exact hI
      · cases h
        exact hI
      · change (checkOneLine f b simd join windows world args moment (c :: line) >>=
          fun report => checkLines f b simd join windows world args fuel
            ⟨moment.argument, moment.line + 1⟩ (progress.add report)).run = _ at h
        rcases Process.cases (checkOneLine f b simd join windows world args moment (c :: line)) with
          hline | ⟨fault, hline⟩ | ⟨report, hline⟩ <;> rw [hline] at h
        · cases h
        · cases h
        · exact ih (hadd progress report hI) h

/-! ### The checkfiles -/

variable (f b simd join args) in
/-- A checkfile is opened, or it is not and the check of it ends there. -/
theorem checkOneCheckfile_cases (fuel argument : ℕ) (path : Path) (progress : Progress) :
    ((isDash windows path ∨ world.openCheckfile argument path = some (.ok ())) ∧
        checkOneCheckfile f b simd join windows world args fuel argument path progress =
          checkLines f b simd join windows world args fuel ⟨argument, 0⟩ progress) ∨
      (¬(isDash windows path ∨ world.openCheckfile argument path = some (.ok ())) ∧
        (checkOneCheckfile f b simd join windows world args fuel argument path progress =
            .never ∨
          ∃ message, checkOneCheckfile f b simd join windows world args fuel argument path
            progress = pure (.error message, progress))) := by
  rw [checkOneCheckfile]
  by_cases hdash : isDash windows path
  · rw [if_pos hdash]
    exact .inl ⟨.inl hdash, rfl⟩
  · rw [if_neg hdash]
    rcases world.openCheckfile argument path with _ | (message | _)
    · exact .inr ⟨by simp [hdash], .inl rfl⟩
    · exact .inr ⟨by simp [hdash], .inr ⟨message, rfl⟩⟩
    · exact .inl ⟨.inr rfl, rfl⟩

theorem checkOneCheckfile_clean_iff {fuel argument : ℕ} {path : Path} {progress : Progress}
    {outcome : Result (Except String Unit × Progress)}
    (h : (checkOneCheckfile f b simd join windows world args fuel argument path progress).run =
      some outcome) :
    Clean outcome ↔ progress.filesFailed = 0 ∧
      ReadsAndVerifies f b simd join windows world args argument path := by
  rw [readsAndVerifies_iff]
  rcases checkOneCheckfile_cases f b simd join args fuel argument path progress with
    ⟨hopen, hrun⟩ | ⟨hopen, hrun | ⟨message, hrun⟩⟩ <;> rw [hrun] at h
  · rw [checkLines_clean_iff h, and_iff_right hopen]
  · cases h
  · cases h
    exact iff_of_false not_clean_error fun hall => hopen hall.2.1

variable (f b simd join windows world args) in
/-- All the checkfiles are read and verify, the first being argument `argument`. -/
def AllVerify (argument : ℕ) (paths : List Path) : Prop :=
  ∀ i path, paths[i]? = some path →
    ReadsAndVerifies f b simd join windows world args (argument + i) path

theorem allVerify_nil (argument : ℕ) :
    AllVerify f b simd join windows world args argument [] := nofun

theorem allVerify_cons {argument : ℕ} {path : Path} {paths : List Path} :
    AllVerify f b simd join windows world args argument (path :: paths) ↔
      ReadsAndVerifies f b simd join windows world args argument path ∧
        AllVerify f b simd join windows world args (argument + 1) paths := by
  constructor
  · intro h
    refine ⟨h 0 path rfl, fun i path' hpath' => ?_⟩
    rw [Nat.add_right_comm]
    exact h (i + 1) path' hpath'
  · rintro ⟨hfirst, hrest⟩ i path' hpath'
    cases i with
    | zero =>
        cases hpath'
        exact hfirst
    | succ i =>
        have h := hrest i path' hpath'
        rwa [Nat.add_right_comm] at h

theorem checkFiles_clean_iff {fuel argument : ℕ} {paths : List Path} {progress : Progress}
    {outcome : Result (Except String Unit × Progress)}
    (h : (checkFiles f b simd join windows world args fuel argument paths progress).run =
      some outcome) :
    Clean outcome ↔
      progress.filesFailed = 0 ∧ AllVerify f b simd join windows world args argument paths := by
  induction paths generalizing argument progress with
  | nil =>
      cases h
      rw [clean_ok, and_iff_left (allVerify_nil argument)]
  | cons path paths ih =>
      rw [checkFiles] at h
      rw [allVerify_cons, ← and_assoc]
      rcases Process.cases (checkOneCheckfile f b simd join windows world args fuel argument path
        progress) with hrun | ⟨fault, hrun⟩ | ⟨⟨message | _, progress'⟩, hrun⟩ <;> rw [hrun] at h
      · cases h
      · rw [← checkOneCheckfile_clean_iff (congrArg ExceptT.run hrun)]
        cases h
        exact iff_of_false not_clean_panic fun hall => not_clean_panic hall.1
      · rw [← checkOneCheckfile_clean_iff (congrArg ExceptT.run hrun)]
        cases h
        exact iff_of_false not_clean_error fun hall => not_clean_error hall.1
      · rw [← checkOneCheckfile_clean_iff (congrArg ExceptT.run hrun)]
        rw [pure_bind] at h
        rw [ih h]
        exact and_congr_left' clean_ok.symm

/-- Checkfiles that verify are all read to their ends. -/
theorem checkFiles_returns {argument : ℕ} {paths : List Path}
    (h : AllVerify f b simd join windows world args argument paths) :
    ∃ needed, ∀ fuel, needed ≤ fuel → ∀ progress, progress.filesFailed = 0 → ∃ outcome,
      (checkFiles f b simd join windows world args fuel argument paths progress).run =
        some outcome := by
  induction paths generalizing argument with
  | nil => exact ⟨0, fun fuel _ progress _ => ⟨_, rfl⟩⟩
  | cons path paths ih =>
      obtain ⟨hfirst, hrest⟩ := allVerify_cons.1 h
      obtain ⟨needed, hneeded⟩ := ih hrest
      obtain ⟨hopen, hlines⟩ := readsAndVerifies_iff.1 hfirst
      obtain ⟨needed', hneeded'⟩ := checkLines_returns hlines
      refine ⟨max needed needed', fun fuel hfuel progress hzero => ?_⟩
      rw [checkFiles]
      obtain ⟨outcome, houtcome⟩ := hneeded' fuel (le_trans (le_max_right _ _) hfuel) progress
      obtain ⟨progress', rfl, hzero'⟩ := (checkLines_clean_iff houtcome).2 ⟨hzero, hlines⟩
      rcases checkOneCheckfile_cases f b simd join args fuel argument path progress with
          ⟨-, hrun⟩ | ⟨hno, -⟩
      · rw [hrun, show checkLines f b simd join windows world args fuel ⟨argument, 0⟩ progress =
          pure (.ok (), progress') from houtcome, pure_bind]
        exact hneeded fuel (le_trans (le_max_left _ _) hfuel) progress' hzero'
      · exact absurd hopen hno

theorem checkFiles_invariant {I : Progress → Prop}
    (hadd : ∀ progress report, I progress → I (progress.add report)) {fuel argument : ℕ}
    {paths : List Path} {progress progress' : Progress} {r : Except String Unit}
    (hI : I progress)
    (h : (checkFiles f b simd join windows world args fuel argument paths progress).run =
      some (.ok (r, progress'))) : I progress' := by
  induction paths generalizing argument progress with
  | nil =>
      cases h
      exact hI
  | cons path paths ih =>
      rw [checkFiles] at h
      have hfile {r' progress''} (hrun : checkOneCheckfile f b simd join windows world args fuel
          argument path progress = pure (r', progress'')) : I progress'' := by
        rcases checkOneCheckfile_cases f b simd join args fuel argument path progress with
          ⟨-, hcase⟩ | ⟨-, hcase | ⟨message, hcase⟩⟩ <;> rw [hcase] at hrun
        · exact checkLines_invariant hadd hI (congrArg ExceptT.run hrun)
        · exact absurd hrun Process.never_ne_pure
        · cases hrun
          exact hI
      rcases Process.cases (checkOneCheckfile f b simd join windows world args fuel argument path
        progress) with hrun | ⟨fault, hrun⟩ | ⟨⟨message | _, progress''⟩, hrun⟩ <;> rw [hrun] at h
      · cases h
      · cases h
      · cases h
        exact hfile hrun
      · exact ih (hfile hrun) h

/-- How a check ends, by how its loop does. -/
theorem main_cases {fuel : ℕ} {ending : Ending}
    (h : main f b simd join windows world args fuel = some ending) :
    ∃ outcome, (checkFiles f b simd join windows world args fuel 0 args.fileArgs {}).run =
        some outcome ∧ (ending.status = 0 ↔ Clean outcome) ∧
      ∀ progress ∈ ending.progress, ∃ r, outcome = .ok (r, progress) := by
  rw [main] at h
  split at h
  · cases h
  · next fault hrun =>
      cases h
      exact ⟨_, hrun, iff_of_false (Nat.succ_ne_zero 100) not_clean_panic, nofun⟩
  · next message progress hrun =>
      cases h
      refine ⟨_, hrun, iff_of_false (Nat.succ_ne_zero 0) not_clean_error, ?_⟩
      rintro progress' ⟨⟩
      exact ⟨_, rfl⟩
  · next progress hrun =>
      cases h
      refine ⟨_, hrun, ?_, ?_⟩
      · rw [clean_ok]
        simp [Ending.status, UInt64.pos_iff_ne_zero]
      · rintro progress' ⟨⟩
        exact ⟨_, rfl⟩

theorem main_of_checkFiles {fuel : ℕ} {outcome : Result (Except String Unit × Progress)}
    (h : (checkFiles f b simd join windows world args fuel 0 args.fileArgs {}).run =
      some outcome) : ∃ ending, main f b simd join windows world args fuel = some ending := by
  rw [main, h]
  rcases outcome with fault | ⟨message | _, progress⟩
  · exact ⟨_, rfl⟩
  · exact ⟨_, rfl⟩
  · exact ⟨_, rfl⟩

theorem counts_start : Progress.Counts {} := rfl

end

end Blake3.B3sum
