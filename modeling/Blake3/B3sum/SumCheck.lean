import Blake3.B3sum.SumRun

/-!
A checkfile that `b3sum` has printed, and a later check of it, at the same position
in the output, of files that may have changed. The command line allows `--check` in
the plain mode only, in whatever mode the checkfile was printed.
-/

namespace Blake3.B3sum

open Rust ShortReads

/-! ### The check of a file -/

section Line

variable {f : Compress} {b : Build} {simd : Simd} {join : Join} {windows : Bool} {world : World}
  {args : CheckArgs} {moment : Moment} {key : CVWords} {flags : Byte}

/-- The output of a file from the position `seek` on. -/
def outputOf (f : Compress) (key : CVWords) (flags : Byte) (seek : UInt64) (bytes : List Byte)
    (i : ℕ) : Byte :=
  stream f (rootNode f key flags.toUInt32 bytes) (seek.toNat + i)

/-- The first 32 bytes of it. -/
def digest (f : Compress) (key : CVWords) (flags : Byte) (seek : UInt64) (bytes : List Byte) :
    CVBytes :=
  hashOf (outputOf f key flags seek bytes)

theorem foundHash_becomes {path : Path} {outcome : Except String (List Byte)}
    (hbase : args.baseHasher = Hasher.newInternal key flags)
    (h : Becomes windows world args moment path outcome) (hseek : args.seek.toNat + 32 < 2 ^ 64) :
    (foundHash f b simd join windows world args moment path).run =
      pure (outcome.map (digest f key flags args.seek)) := by
  cases h with
  | delivered h hlen =>
      rw [foundHash_eq f b simd join hbase h hlen hseek]
      rfl
  | failed h =>
      rw [foundHash, hashPath_error f b simd join hbase h]
      rfl

/-- A path whose printed line gives it back. -/
structure Printable (tag : Bool) (path : Path) : Prop where
  ne_nil : Utf8.decodeLossy path ≠ []
  null : '\x00' ∉ Utf8.decodeLossy path
  replacement : '\uFFFD' ∉ Utf8.decodeLossy path
  spaces : tag = true → ¬HasDoubleSpace (Utf8.decodeLossy path)

/-- What is said of a line that was printed for a path and a hash. -/
def reportOf (quiet : Bool) (path : Path) (output : ℕ → Byte) (found : Except String CVBytes) :
    Report :=
  hashReport quiet (parsedLine (Utf8.decodeLossy path) output) found

/-- The report is of a success if the file now has the hash on its line. -/
theorem reportOf_success_iff (quiet : Bool) (path : Path) (seek : UInt64) (bytes : List Byte)
    (outcome : Except String (List Byte)) {key' : CVWords} {flags' : Byte} :
    (reportOf quiet path (outputOf f key flags seek bytes)
        (outcome.map (digest f key' flags' seek))).success = true ↔
      ∃ bytes', outcome = .ok bytes' ∧
        digest f key' flags' seek bytes' = digest f key flags seek bytes := by
  rw [reportOf, hashReport_success_iff]
  change outcome.map (digest f key' flags' seek) = .ok (digest f key flags seek bytes) ↔ _
  cases outcome with
  | error e => simp [Except.map]
  | ok bytes' => simp only [Except.map, Except.ok.injEq, exists_eq_left']

variable (f b simd join) in
theorem checkOneLine_printed {tag : Bool} {path : Path} {outcome : Except String (List Byte)}
    (hpath : Printable tag path) (output : ℕ → Byte)
    (hbase : args.baseHasher = Hasher.newInternal key flags)
    (h : Becomes false world args moment path outcome) (hseek : args.seek.toNat + 32 < 2 ^ 64) :
    checkOneLine f b simd join false world args moment
        (checkLine tag (Utf8.decodeLossy path) output ++ ['\n']) =
      pure (reportOf args.quiet path output (outcome.map (digest f key flags args.seek))) := by
  have hparse := parseCheckLine_of_valid hpath.ne_nil hpath.null hpath.replacement hpath.spaces
    output newline_only
  have hencode : (parsedLine (Utf8.decodeLossy path) output).filePath = path :=
    Utf8.encode_decodeLossy path hpath.replacement
  rw [checkOneLine_parsed hparse, hencode, foundHash_becomes hbase h hseek, pure_bind]
  rfl

end Line

/-! ### A checkfile of known lines -/

section Lines

variable {f : Compress} {b : Build} {simd : Simd} {join : Join} {windows : Bool} {world : World}
  {args : CheckArgs}

/-- Every line, of which there are as many as reports, is read and reported on. -/
theorem checkLines_eq {argument : ℕ} {reports : List Report} {j : ℕ} {progress : Progress}
    (hline : ∀ k report, reports[k]? = some report → ∃ line, line ≠ [] ∧
      world.readLine ⟨argument, j + k⟩ = some (.ok line) ∧
      checkOneLine f b simd join windows world args ⟨argument, j + k⟩ line = pure report)
    (hend : world.readLine ⟨argument, j + reports.length⟩ = some (.ok []))
    {fuel : ℕ} (hfuel : reports.length < fuel) :
    checkLines f b simd join windows world args fuel ⟨argument, j⟩ progress =
      pure (.ok (), reports.foldl Progress.add progress) := by
  induction reports generalizing j progress fuel with
  | nil =>
      obtain ⟨fuel, rfl⟩ := Nat.exists_eq_succ_of_ne_zero (Nat.ne_of_gt hfuel)
      rw [checkLines, show world.readLine ⟨argument, j⟩ = some (.ok []) from hend]
      rfl
  | cons report reports ih =>
      obtain ⟨fuel, rfl⟩ := Nat.exists_eq_succ_of_ne_zero (Nat.ne_of_gt (Nat.zero_lt_of_lt hfuel))
      obtain ⟨line, hne, hread, hcheck⟩ := hline 0 report rfl
      rw [Nat.add_zero] at hread hcheck
      obtain ⟨c, line, rfl⟩ := List.exists_cons_of_ne_nil hne
      have hrest : checkLines f b simd join windows world args fuel ⟨argument, j + 1⟩
          (progress.add report) =
            pure (.ok (), reports.foldl Progress.add (progress.add report)) := by
        apply ih
        · intro k report' hreport'
          rw [Nat.add_right_comm, Nat.add_assoc]
          exact hline (k + 1) report' hreport'
        · rw [Nat.add_right_comm, Nat.add_assoc]
          exact hend
        · exact Nat.lt_of_succ_lt_succ hfuel
      rw [checkLines, hread]
      change (checkOneLine f b simd join windows world args ⟨argument, j⟩ (c :: line) >>=
        fun report => checkLines f b simd join windows world args fuel ⟨argument, j + 1⟩
          (progress.add report)) = _
      rw [hcheck, pure_bind, hrest, List.foldl_cons]

theorem foldl_add (reports : List Report) (progress : Progress) :
    (reports.foldl Progress.add progress).reports = progress.reports ++ reports := by
  induction reports generalizing progress with
  | nil => exact (List.append_nil _).symm
  | cons report reports ih =>
      rw [List.foldl_cons, ih, Progress.add, List.append_assoc, List.singleton_append]

/-- After the reports the counter is zero if all of them are of successes. -/
theorem foldl_add_eq_zero_iff (reports : List Report) (progress : Progress) :
    (reports.foldl Progress.add progress).filesFailed = 0 ↔
      progress.filesFailed = 0 ∧ ∀ report ∈ reports, report.success = true := by
  induction reports generalizing progress with
  | nil => simp
  | cons report reports ih =>
      rw [List.foldl_cons, ih, Progress.filesFailed_add_eq_zero_iff, List.forall_mem_cons,
        and_assoc]

theorem foldl_add_counts (reports : List Report) {progress : Progress} (h : progress.Counts) :
    (reports.foldl Progress.add progress).Counts := by
  induction reports generalizing progress with
  | nil => exact h
  | cons report reports ih => exact ih (h.add report)

end Lines

/-! ### A printed checkfile -/

section File

variable {f : Compress} {b b' : Build} {simd simd' : Simd} {join join' : Join}
  {world world' : World} {inner : Inner} {stdin : Source Byte} {args : SumArgs} {args' : CheckArgs}
  {key : CVWords} {flags : Byte}

/-- The files that a run has hashed, with what they held. -/
def hashedFiles (args : SumArgs) (outcome : ℕ → Except String (List Byte)) :
    List (Path × List Byte) :=
  args.fileArgs.zipIdx.filterMap fun file =>
    (outcome file.2).toOption.map fun bytes => (file.1, bytes)

theorem newInternal_inj {key' : CVWords} {flags' : Byte}
    (h : Hasher.newInternal key flags = Hasher.newInternal key' flags') :
    key = key' ∧ flags = flags' := by
  cases h
  exact ⟨rfl, rfl⟩

/-- The command line asks for lines with a name and a hash of 32 bytes. -/
structure Lines (args : SumArgs) : Prop where
  len : args.len = 32
  noNames : args.noNames = false
  raw : args.raw = false

theorem printedOf_eq (h : Lines args) (path : Path) (bytes : List Byte) :
    printedOf f false args key flags path bytes =
      .text (checkLine args.tag (Utf8.decodeLossy path) (outputOf f key flags args.seek bytes) ++
        ['\n']) := by
  have hargs : args.toArgs = { tag := args.tag } := by
    rw [show args.toArgs = ⟨args.len, args.noNames, args.raw, args.tag⟩ from rfl, h.len,
      h.noNames, h.raw]
  rw [printedOf, hargs, hashOneInput_eq]
  rfl

/-- A check of one checkfile, with this text, at the position of the run that printed it.
With `--check` there is no `--keyed` and no `--derive-key`. -/
structure Rechecks (args : SumArgs) (args' : CheckArgs) (world' : World) (text : Str) : Prop where
  checkfile : ∃ path, args'.fileArgs = [path] ∧
    (isDash false path ∨ world'.openCheckfile 0 path = some (.ok ()))
  baseHasher : args'.baseHasher = .new
  seek : args'.seek = args.seek
  lines : ∀ k, world'.readLine ⟨0, k⟩ = some (.ok (Text.lineOf k text))

theorem main_of_checkLines {fuel : ℕ} {progress : Progress} {path : Path}
    (hpath : args'.fileArgs = [path])
    (hopen : isDash false path ∨ world'.openCheckfile 0 path = some (.ok ()))
    (h : checkLines f b' simd' join' false world' args' fuel ⟨0, 0⟩ {} = pure (.ok (), progress)) :
    main f b' simd' join' false world' args' fuel =
      some (.exit (if 0 < progress.filesFailed then 1 else 0) progress (warning progress)) := by
  have hfile : checkOneCheckfile f b' simd' join' false world' args' fuel 0 path {} =
      pure (.ok (), progress) := by
    rcases checkOneCheckfile_cases f b' simd' join' args' fuel 0 path {} with ⟨-, hrun⟩ | ⟨hno, -⟩
    · rw [hrun, h]
    · exact absurd hopen hno
  rw [main, hpath, checkFiles, hfile]
  rfl

variable (f b b' simd simd' join join' world world' args') in
/-- Where a run has printed lines of names and hashes, a later check of what it
printed reports on every file it hashed, in the same order, and exits with 0 if
and only if each of them now has the hash on its line. A run in the plain mode has
printed the hash that the file had. -/
theorem check_of_sum (sizes : ℕ → ℕ) {outcome outcome' : ℕ → Except String (List Byte)}
    {status : ℕ} {sums : Sums} {texts : List Str}
    (hparse : parseArgs f b simd inner stdin = .ok (.ok args))
    (hlines : Lines args)
    (hpaths : ∀ file ∈ hashedFiles args outcome, Printable args.tag file.1)
    (hseek : args.seek.toNat + 95 < 2 ^ 64)
    (hfiles : ∀ i path, args.fileArgs[i]? = some path →
      Becomes false world args.toCheckArgs ⟨i, 0⟩ path (outcome i))
    (hrun : sumMain f b simd join false world args sizes = pure (status, sums))
    (htexts : sums.stdout = texts.map .text)
    (hchecks : Rechecks args args' world' texts.flatten)
    (hfiles' : ∀ k file, (hashedFiles args outcome)[k]? = some file →
      Becomes false world' args' ⟨0, k⟩ file.1 (outcome' k)) :
    ∃ key flags, args.baseHasher = Hasher.newInternal key flags ∧
      (inner.keyed = false → inner.deriveKey = none → key = iv ∧ flags = 0) ∧
      ∀ fuel, (hashedFiles args outcome).length < fuel → ∃ (status' : ℕ) (progress : Progress),
        main f b' simd' join' false world' args' fuel =
          some (.exit status' progress (warning progress)) ∧
        progress.reports = (hashedFiles args outcome).mapIdx (fun k file =>
          reportOf args'.quiet file.1 (outputOf f key flags args.seek file.2)
            ((outcome' k).map (digest f iv 0 args.seek))) ∧
        progress.filesFailed.toNat = min progress.failures (2 ^ 64 - 1) ∧
        (status' = 0 ↔ ∀ k file, (hashedFiles args outcome)[k]? = some file →
          ∃ bytes, outcome' k = .ok bytes ∧
            digest f iv 0 args.seek bytes = digest f key flags args.seek file.2) := by
  obtain ⟨key, flags, hbase⟩ := parseArgs_baseHasher hparse
  refine ⟨key, flags, hbase, fun hkeyed hderive => ?_, fun fuel hfuel => ?_⟩
  · exact newInternal_inj (hbase.symm.trans (parseArgs_plain hparse hkeyed hderive))
  -- what was printed
  obtain ⟨sums', hsums', hstdout, -⟩ := sumMain_eq sizes hbase hfiles
    (by rw [hlines.len]; exact hseek)
  obtain rfl : sums = sums' := (Prod.mk.inj (Process.pure_inj (hrun.symm.trans hsums'))).2
  let put (file : Path × List Byte) : Str :=
    checkLine args.tag (Utf8.decodeLossy file.1) (outputOf f key flags args.seek file.2)
  have htext :
      texts.flatten = (hashedFiles args outcome).flatMap fun file => put file ++ ['\n'] := by
    have hmap : texts.map .text = (hashedFiles args outcome).map fun file =>
        Printed.text (put file ++ ['\n']) := by
      rw [← htexts, hstdout, hashedFiles, List.map_filterMap]
      apply List.filterMap_congr
      intro file _
      cases outcome file.2 with
      | error e => rfl
      | ok bytes => exact congrArg some (printedOf_eq hlines file.1 bytes)
    have htexts' : texts = (hashedFiles args outcome).map fun file => put file ++ ['\n'] := by
      apply List.map_injective_iff.mpr (fun _ _ => Printed.text.inj)
      rw [hmap, List.map_map]
      rfl
    rw [htexts', List.flatMap_def]
  -- what is said of each line
  let reports : List Report := (hashedFiles args outcome).mapIdx fun k file =>
    reportOf args'.quiet file.1 (outputOf f key flags args.seek file.2)
      ((outcome' k).map (digest f iv 0 args.seek))
  have hread : ∀ k, world'.readLine ⟨0, k⟩ =
      some (.ok (((hashedFiles args outcome)[k]?.map fun file => put file ++ ['\n']).getD [])) := by
    intro k
    rw [hchecks.lines, htext, Text.lineOf_flatMap fun file _ hmem => (mem_checkLine hmem).1 rfl]
  have hcheck : checkLines f b' simd' join' false world' args' fuel ⟨0, 0⟩ {} =
      pure (.ok (), reports.foldl Progress.add {}) := by
    apply checkLines_eq
    · intro k report hreport
      obtain ⟨file, hfile, rfl⟩ : ∃ file, (hashedFiles args outcome)[k]? = some file ∧
          reportOf args'.quiet file.1 (outputOf f key flags args.seek file.2)
            ((outcome' k).map (digest f iv 0 args.seek)) = report := by
        rw [List.getElem?_mapIdx] at hreport
        exact Option.map_eq_some_iff.mp hreport
      have hpath := hpaths file (List.mem_of_getElem? hfile)
      refine ⟨put file ++ ['\n'], by simp, ?_, ?_⟩
      · rw [Nat.zero_add, hread, hfile]
        rfl
      · have hline := checkOneLine_printed f b' simd' join' hpath
          (outputOf f key flags args.seek file.2) hchecks.baseHasher
          (hfiles' k file hfile) (by rw [hchecks.seek]; omega)
        rw [hchecks.seek] at hline
        rw [Nat.zero_add]
        exact hline
    · rw [Nat.zero_add, List.length_mapIdx, hread, List.getElem?_eq_none le_rfl]
      rfl
    · rwa [List.length_mapIdx]
  obtain ⟨path, hpath, hopen⟩ := hchecks.checkfile
  refine ⟨_, reports.foldl Progress.add {}, main_of_checkLines hpath hopen hcheck, ?_,
    foldl_add_counts reports counts_start, ?_⟩
  · rw [foldl_add]
    rfl
  · have hzero : (if 0 < (reports.foldl Progress.add {}).filesFailed then 1 else 0) = 0 ↔
        (reports.foldl Progress.add {}).filesFailed = 0 := by
      rw [ite_eq_right_iff, UInt64.pos_iff_ne_zero]
      simp
    rw [hzero, foldl_add_eq_zero_iff, and_iff_right rfl]
    constructor
    · intro h k file hfile
      rw [← reportOf_success_iff args'.quiet file.1]
      apply h
      exact List.mem_of_getElem? (i := k) (by rw [List.getElem?_mapIdx, hfile]; rfl)
    · intro h report hreport
      obtain ⟨k, hk⟩ := List.mem_iff_getElem?.mp hreport
      rw [List.getElem?_mapIdx] at hk
      obtain ⟨file, hfile, rfl⟩ := Option.map_eq_some_iff.mp hk
      exact (reportOf_success_iff args'.quiet file.1 _ _ _).mpr (h k file hfile)

end File

/-! ### Two files -/

theorem printable_letter {path : Path} {c : Char} (hdecode : Utf8.decodeLossy path = [c])
    (hnull : c ≠ '\x00') (hreplacement : c ≠ '\uFFFD') : Printable true path where
  ne_nil := by
    rw [hdecode]
    exact List.cons_ne_nil _ _
  null := by
    rw [hdecode, List.mem_singleton]
    exact hnull.symm
  replacement := by
    rw [hdecode, List.mem_singleton]
    exact hreplacement.symm
  spaces := by
    rw [hdecode]
    intro _ hspace
    have hlen := hspace.length_le
    rw [List.length_singleton] at hlen
    exact absurd hlen (by decide)

/-- The files `a` and `b` can be read, and nothing else is there. -/
def twoFiles : World :=
  { oneFile with
    openFile := fun moment path =>
      if path = [0x62] then
        some (.ok { mmap := some (.ok none), reading := ⟨[[4]], some (.ok ())⟩ })
      else oneFile.openFile moment path }

def twoArgs : SumArgs where
  fileArgs := [[0x61], [0x6d], [0x62]]
  baseHasher := .new
  keyed := false
  noMmap := false
  seek := 0
  quiet := false
  tag := true

def notFound : String := "No such file or directory (os error 2)"

/-- The file `m` is missing. -/
def twoOutcome : ℕ → Except String (List Byte)
  | 0 => .ok [1, 2, 3]
  | 1 => .error notFound
  | _ => .ok [4]

theorem hashedFiles_two : hashedFiles twoArgs twoOutcome = [([0x61], [1, 2, 3]), ([0x62], [4])] :=
  rfl

theorem becomes_two (i : ℕ) (path : Path) (hpath : twoArgs.fileArgs[i]? = some path) :
    Becomes false twoFiles twoArgs.toCheckArgs ⟨i, 0⟩ path (twoOutcome i) := by
  rcases i with _ | _ | _ | i
  · cases hpath
    exact becomes_read [[1], [2, 3]] (by decide) rfl (by decide)
  · cases hpath
    exact .failed (.opened (by decide) rfl)
  · cases hpath
    exact becomes_read [[4]] (by decide) rfl (by decide)
  · cases hpath

theorem printable_two (file : Path × List Byte) (hfile : file ∈ hashedFiles twoArgs twoOutcome) :
    Printable twoArgs.tag file.1 := by
  have ha : Utf8.decodeLossy [0x61] = ['a'] := Utf8.decodeLossy_encode ['a']
  have hb : Utf8.decodeLossy [0x62] = ['b'] := Utf8.decodeLossy_encode ['b']
  rw [hashedFiles_two] at hfile
  rcases List.mem_cons.mp hfile with rfl | hfile
  · exact printable_letter ha (by decide) (by decide)
  · rw [List.mem_singleton.mp hfile]
    exact printable_letter hb (by decide) (by decide)

/-- The files `a` and `c` at the later check, where `c` is the checkfile. -/
def recheckWorld (text : Str) : World :=
  { oneFile with readLine := fun moment => some (.ok (Text.lineOf moment.line text)) }

def recheckArgs : CheckArgs := { twoArgs.toCheckArgs with fileArgs := [[0x63]] }

def recheckOutcome (k : ℕ) : Except String (List Byte) :=
  if k = 0 then .ok [1, 2, 3] else .error notFound

theorem rechecks_two (text : Str) : Rechecks twoArgs recheckArgs (recheckWorld text) text :=
  ⟨⟨[0x63], rfl, .inr rfl⟩, rfl, rfl, fun _ => rfl⟩

theorem becomes_recheck (text : Str) (k : ℕ) (file : Path × List Byte)
    (hfile : (hashedFiles twoArgs twoOutcome)[k]? = some file) :
    Becomes false (recheckWorld text) recheckArgs ⟨0, k⟩ file.1 (recheckOutcome k) := by
  rw [hashedFiles_two] at hfile
  rcases k with _ | _ | k
  · cases hfile
    exact becomes_read [[1], [2, 3]] (by decide) rfl (by decide)
  · cases hfile
    exact .failed (.opened (by decide) rfl)
  · cases hfile

/-- The checkfile `c` that was printed for the files `a` and `b`, where `b` has been deleted
before the check. -/
theorem check_of_sum_two_files :
    ∃ (args : SumArgs) (sums : Sums) (texts : List Str),
      sumMain compress .wrapping .portable .serial false twoFiles args (fun _ => 0) =
        pure (1, sums) ∧
      args.fileArgs = [[0x61], [0x6d], [0x62]] ∧
      sums.stdout = texts.map .text ∧
      ∃ (status : ℕ) (progress : Progress), main compress .wrapping .portable .rightFirst false
          { oneFile with
            readLine := fun moment => some (.ok (Text.lineOf moment.line texts.flatten)) }
          { args.toCheckArgs with fileArgs := [[0x63]] } 3 =
        some (.exit status progress (warning progress)) ∧ status ≠ 0 ∧
        progress.reports.map Report.success = [true, false] := by
  have hparse : parseArgs compress .wrapping .portable
      { file := [[0x61], [0x6d], [0x62]], tag := true } (Source.inReads [] fun _ => 0) =
        .ok (.ok twoArgs) := rfl
  have hlines : Lines twoArgs := ⟨rfl, rfl, rfl⟩
  obtain ⟨sums, hrun, hstdout, hfailed⟩ : ∃ sums : Sums,
      sumMain compress .wrapping .portable .serial false twoFiles twoArgs (fun _ => 0) =
        pure (if 0 < sums.filesFailed then 1 else 0, sums) ∧
      sums.stdout = [printedOf compress false twoArgs iv 0 [0x61] [1, 2, 3],
        printedOf compress false twoArgs iv 0 [0x62] [4]] ∧
      sums.filesFailed.toNat = 1 :=
    sumMain_eq _ rfl becomes_two (by decide)
  have hone : sums.filesFailed = 1 := UInt64.toNat_inj.mp hfailed
  rw [hone, if_pos (by decide)] at hrun
  obtain ⟨texts, htexts⟩ : ∃ texts, sums.stdout = texts.map .text :=
    ⟨[_, _], by rw [hstdout, printedOf_eq hlines, printedOf_eq hlines]; rfl⟩
  obtain ⟨key, flags, -, hplain, hcheck⟩ := check_of_sum compress .wrapping .wrapping .portable
    .portable .serial .rightFirst twoFiles (recheckWorld texts.flatten) recheckArgs _ hparse hlines
    printable_two (by decide) becomes_two hrun htexts (rechecks_two _) (becomes_recheck _)
  obtain ⟨rfl, rfl⟩ := hplain rfl rfl
  obtain ⟨status, progress, hmain, hreports, -, hstatus⟩ :=
    hcheck 3 (by rw [hashedFiles_two]; decide)
  refine ⟨twoArgs, sums, texts, hrun, rfl, htexts, status, progress, hmain, fun hzero => ?_, ?_⟩
  · -- the second file cannot be read any more
    obtain ⟨bytes, hbytes, -⟩ := hstatus.mp hzero 1 ([0x62], [4]) rfl
    cases hbytes
  · have hfirst : (reportOf recheckArgs.quiet [0x61] (outputOf compress iv 0 twoArgs.seek [1, 2, 3])
        ((recheckOutcome 0).map (digest compress iv 0 twoArgs.seek))).success = true :=
      (reportOf_success_iff false [0x61] 0 [1, 2, 3] _).mpr ⟨_, rfl, rfl⟩
    have hsecond : (reportOf recheckArgs.quiet [0x62] (outputOf compress iv 0 twoArgs.seek [4])
        ((recheckOutcome 1).map (digest compress iv 0 twoArgs.seek))).success = false := rfl
    rw [hreports, hashedFiles_two, List.mapIdx_cons, List.mapIdx_cons, List.mapIdx_nil,
      List.map_cons, List.map_cons, List.map_nil]
    exact congrArg₂ (fun first second => [first, second]) hfirst hsecond

end Blake3.B3sum
