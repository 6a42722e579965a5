import Blake3.B3sum.Sum

/-!
What a run of `b3sum` prints and how it exits, whatever the pieces in which the
key, the files and the output are read.
-/

namespace Blake3.B3sum

open Rust ShortReads

/-! ### The key -/

/-- The loop goes on until all 32 bytes, those read before included, are there. -/
theorem readKeyFrom_eq {done : List Byte} {stdin : Source Byte} (h : stdin.Reliable)
    (hdone : done.length ≤ 32) :
    readKeyFrom done stdin =
      if (done ++ stdin.rest).length < 32 then .error (.shortKey (done ++ stdin.rest).length)
      else if (done ++ stdin.rest).length = 32 then .ok (done ++ stdin.rest)
      else .error .longKey := by
  induction hleft : 32 - done.length using Nat.strong_induction_on generalizing done stdin with
  | _ left ih =>
  rw [readKeyFrom]
  rcases Nat.lt_or_ge done.length 32 with hlt | hge
  · obtain ⟨n, stdin', hread, hrest, h', hpos, hle⟩ := h.read (show 0 < 32 - done.length by omega)
    rw [if_pos hlt, hread]
    rcases htake : stdin.rest.take n with _ | ⟨byte, got⟩
    · have hnil : stdin.rest = [] :=
        (List.take_eq_nil_iff.mp htake).resolve_left (Nat.ne_of_gt hpos)
      simp [hnil, hlt]
    · have hlength := congrArg List.length htake
      rw [List.length_take, List.length_cons] at hlength
      have hjoin : done ++ stdin.rest = done ++ byte :: got ++ stdin'.rest := by
        rw [hrest, ← htake, List.append_assoc, List.take_append_drop]
      dsimp only
      rw [hjoin]
      apply ih _ _ h' _ rfl
      · rw [List.length_append, List.length_cons]
        omega
      · rw [List.length_append, List.length_cons]
        omega
  · obtain ⟨n, stdin', hread, hrest, -, hpos, -⟩ := h.read (show 0 < 1 by omega)
    rw [if_neg (by omega), hread]
    rcases hcase : stdin.rest with _ | ⟨byte, rest⟩
    · simp [show done.length = 32 by omega]
    · obtain ⟨m, rfl⟩ := Nat.exists_eq_succ_of_ne_zero (Nat.ne_of_gt hpos)
      simp [show done.length = 32 by omega]

/-- The key is what standard input holds, if that is 32 bytes. -/
theorem readKeyFromStdin_eq {stdin : Source Byte} (h : stdin.Reliable) :
    readKeyFromStdin stdin =
      if stdin.rest.length < 32 then .error (.shortKey stdin.rest.length)
      else if stdin.rest.length = 32 then .ok (Vector.ofFn fun i => stdin.rest.getD i 0)
      else .error .longKey := by
  rw [readKeyFromStdin, readKeyFrom_eq h (Nat.zero_le _), List.nil_append]
  split_ifs <;> rfl

/-- The hasher of every mode is new. -/
theorem parseArgs_baseHasher {f : Compress} {b : Build} {simd : Simd} {inner : Inner}
    {stdin : Source Byte} {args : SumArgs}
    (h : parseArgs f b simd inner stdin = .ok (.ok args)) :
    ∃ key flags, args.baseHasher = Hasher.newInternal key flags := by
  rw [parseArgs] at h
  dsimp only at h
  generalize (if inner.file ≠ [] then inner.file else [[0x2d]]) = fileArgs at h
  split_ifs at h with hraw hkeyed
  · cases h
  · cases hkey : readKeyFromStdin stdin with
    | error e =>
        rw [hkey] at h
        cases h
    | ok key =>
        rw [hkey] at h
        cases h
        exact ⟨_, _, rfl⟩
  · cases hderive : inner.deriveKey with
    | none =>
        rw [hderive] at h
        cases h
        exact ⟨_, _, rfl⟩
    | some context =>
        rw [hderive] at h
        obtain ⟨hasher, hhasher, h⟩ := Result.bind_eq_ok.mp h
        obtain ⟨contextKey, -, hhasher⟩ := Result.bind_eq_ok.mp hhasher
        cases hhasher
        cases h
        exact ⟨_, _, rfl⟩

/-- Without a key and a context it is the one of the plain mode. -/
theorem parseArgs_plain {f : Compress} {b : Build} {simd : Simd} {inner : Inner}
    {stdin : Source Byte} {args : SumArgs} (h : parseArgs f b simd inner stdin = .ok (.ok args))
    (hkeyed : inner.keyed = false) (hderive : inner.deriveKey = none) :
    args.baseHasher = .new := by
  rw [parseArgs, hkeyed, hderive] at h
  simp only [Bool.false_eq_true, if_false] at h
  generalize (if inner.file ≠ [] then inner.file else [[0x2d]]) = fileArgs at h
  split_ifs at h with hraw
  · cases h
  · cases h
    rfl

/-! ### The output -/

section Output

variable (f : Compress) (b : Build) (o : Output)

theorem take_streamBytes (node : CompressInput) (pos : ℕ) {k n : ℕ} (h : k ≤ n) :
    (streamBytes f node pos n).take k = streamBytes f node pos k := by
  obtain ⟨m, rfl⟩ := Nat.exists_eq_add_of_le h
  rw [streamBytes_add, List.take_left' (length_streamBytes _ _ _ _)]

theorem writeHexFrom_zero (output : OutputReader) : writeHexFrom f b output 0 = .ok [] := by
  rw [writeHexFrom]
  rfl

theorem writeHexFrom_eq {p len : ℕ} (h : p + len + 63 < 2 ^ 64) :
    writeHexFrom f b (OutputReader.atPosition o p) len =
      .ok (hexEncode (streamBytes f o.node p len)) := by
  induction len using Nat.strong_induction_on generalizing p with
  | _ len ih =>
    rw [writeHexFrom]
    rcases Nat.eq_zero_or_pos len with rfl | hpos
    · rfl
    · rw [if_pos hpos, OutputReader.fill_eq f b o (by omega), Result.ok_bind]
      dsimp only
      rcases Nat.le_total len 64 with hle | hle
      · rw [Nat.min_eq_left hle, Nat.sub_self, writeHexFrom_zero, Result.ok_bind,
          take_hexEncode, take_streamBytes f _ _ hle, List.append_nil]
        rfl
      · rw [Nat.min_eq_right hle, ih (len - 64) (by omega) (by omega), Result.ok_bind,
          take_hexEncode, take_streamBytes f _ _ le_rfl]
        change Except.ok _ = _
        rw [← hexEncode_append, ← streamBytes_add, Nat.add_sub_cancel' hle]

theorem copyFrom_eq (sizes : ℕ → ℕ) {p len : ℕ} (h : p + len < 2 ^ 64) :
    copyFrom f b sizes (OutputReader.atPosition o p) len =
      .ok (streamBytes f o.node p len) := by
  induction len using Nat.strong_induction_on generalizing p sizes with
  | _ len ih =>
    rw [copyFrom]
    rcases Nat.eq_zero_or_pos len with rfl | hpos
    · rfl
    · have hle : min (sizes 0 + 1) len ≤ len := Nat.min_le_right _ _
      rw [if_pos hpos, OutputReader.fill_eq f b o (by omega), Result.ok_bind]
      dsimp only
      rw [ih (len - min (sizes 0 + 1) len) (by omega) _ (by omega), Result.ok_bind]
      change Except.ok _ = _
      rw [← streamBytes_add, Nat.add_sub_cancel' hle]

end Output

/-! ### One file -/

section File

variable {f : Compress} {b : Build} {simd : Simd} {join : Join} {windows : Bool} {world : World}
  {checkArgs : CheckArgs} {args : SumArgs} {moment : Moment} {key : CVWords} {flags : Byte}

variable (f b simd join) in
/-- The output that `hash_path` returns for a file. -/
theorem hashPath_eq {path : Path} {bytes : List Byte}
    (hbase : checkArgs.baseHasher = Hasher.newInternal key flags)
    (h : Delivers windows world checkArgs moment path bytes)
    (hlen : bytes.length < 2 ^ 64) :
    ∃ o : Output, o.node = rootNode f key flags.toUInt32 bytes ∧
      hashPath f b simd join windows world checkArgs moment path =
        pure (OutputReader.atPosition o checkArgs.seek.toNat) := by
  obtain ⟨hasher, hinput, hreads⟩ := hashInput_eq f b simd join hbase h ⟨by omega, .inl rfl⟩
  obtain ⟨o, -, -, hnode, -, -, hxof, -⟩ := Hasher.finalize_eq (b := b) hreads hlen
  refine ⟨o, hnode, ?_⟩
  rw [hashPath, hinput, pure_bind, hxof, ofResult_ok_bind, OutputReader.new_eq_atPosition,
    OutputReader.setPosition_atPosition]

variable (f key flags windows args) in
/-- What is printed for a file, by the function that takes its output as a stream. -/
def printedOf (path : Path) (bytes : List Byte) : Printed :=
  hashOneInput windows args.toArgs (Utf8.decodeLossy path) fun i =>
    stream f (rootNode f key flags.toUInt32 bytes) (args.seek.toNat + i)

theorem streamBytes_eq_map (f : Compress) (node : CompressInput) (pos len : ℕ) :
    streamBytes f node pos len = (List.range len).map fun i => stream f node (pos + i) := by
  rw [streamBytes, List.range'_eq_map_range, List.map_map]
  rfl

theorem hashOneFile_eq (sizes : ℕ → ℕ) {path : Path} {bytes : List Byte}
    (hbase : args.baseHasher = Hasher.newInternal key flags)
    (h : Delivers windows world args.toCheckArgs moment path bytes)
    (hlen : bytes.length < 2 ^ 64) (hseek : args.seek.toNat + args.len + 63 < 2 ^ 64) :
    hashOneFile f b simd join windows world args sizes moment path =
      pure (printedOf f windows args key flags path bytes) := by
  obtain ⟨o, hnode, hpath⟩ := hashPath_eq f b simd join hbase h hlen
  have hhex := writeHexFrom_eq f b o hseek
  have hcopy := copyFrom_eq f b o sizes (show args.seek.toNat + args.len < 2 ^ 64 by omega)
  rw [hnode, streamBytes_eq_map] at hhex hcopy
  rw [hashOneFile, hpath, pure_bind, hhex, hcopy]
  simp only [ofResult_ok_bind, printedOf, hashOneInput, writeHexOutput_eq]
  split_ifs <;> rfl

/-- The errors that `hash_path` can end with. -/
inductive Fails (windows : Bool) (world : World) (args : CheckArgs) (moment : Moment)
    (path : Path) : String → Prop where
  | keyed (hdash : isDash windows path) (hkeyed : args.keyed = true) :
      Fails windows world args moment path "Cannot open `-` in keyed mode"
  | stdin {e : String} (hdash : isDash windows path) (hkeyed : args.keyed = false)
      (hend : (world.stdin moment).ending = some (.error e))
      (hlen : (world.stdin moment).pieces.flatten.length < 2 ^ 64) :
      Fails windows world args moment path e
  | opened {e : String} (hdash : ¬isDash windows path)
      (hopen : world.openFile moment path = some (.error e)) :
      Fails windows world args moment path e
  | mapped {e : String} {file : File} (hdash : ¬isDash windows path)
      (hopen : world.openFile moment path = some (.ok file)) (hmmap : args.noMmap = false)
      (hmapped : file.mmap = some (.error e)) : Fails windows world args moment path e
  | read {e : String} {file : File} (hdash : ¬isDash windows path)
      (hopen : world.openFile moment path = some (.ok file))
      (hread : args.noMmap = true ∨ file.mmap = some (.ok none))
      (hend : file.reading.ending = some (.error e))
      (hlen : file.reading.pieces.flatten.length < 2 ^ 64) :
      Fails windows world args moment path e

theorem copyWide_error {reading : Reading} {e : String}
    (hend : reading.ending = some (.error e)) (hlen : reading.pieces.flatten.length < 2 ^ 64) :
    copyWide f b simd (Hasher.newInternal key flags) reading = throw e := by
  obtain ⟨hasher, hupdates, -⟩ := Hasher.updates_eq (b := b) simd .serial
    (Hasher.reads_newInternal f key flags) reading.pieces
    ⟨by rwa [List.nil_append, Nat.add_comm] , .inl rfl⟩
  rw [copyWide, hupdates, hend]
  rfl

variable (f b simd join) in
theorem hashPath_error {path : Path} {e : String}
    (hbase : checkArgs.baseHasher = Hasher.newInternal key flags)
    (h : Fails windows world checkArgs moment path e) :
    hashPath f b simd join windows world checkArgs moment path = throw e := by
  have hinput : hashInput f b simd join windows world checkArgs moment path = throw e := by
    rw [hashInput, hbase]
    cases h with
    | keyed hdash hkeyed =>
        rw [if_pos hdash, hkeyed]
        rfl
    | stdin hdash hkeyed hend hlen =>
        rw [if_pos hdash, hkeyed, copyWide_error hend hlen]
        rfl
    | opened hdash hopen =>
        rw [if_neg hdash, hopen]
        rfl
    | mapped hdash hopen hmmap hmapped =>
        rw [if_neg hdash, hopen, ask_ok_bind, hmmap, hmapped]
        rfl
    | read hdash hopen hread hend hlen =>
        rw [if_neg hdash, hopen, ask_ok_bind, copyWide_error hend hlen]
        rcases hread with hmmap | hmmap
        · rw [if_pos hmmap]
        · rw [hmmap, ask_ok_bind]
          exact ite_self _
  rw [hashPath, hinput]
  rfl

theorem hashOneFile_error (sizes : ℕ → ℕ) {path : Path} {e : String}
    (hbase : args.baseHasher = Hasher.newInternal key flags)
    (h : Fails windows world args.toCheckArgs moment path e) :
    hashOneFile f b simd join windows world args sizes moment path = throw e := by
  rw [hashOneFile, hashPath_error f b simd join hbase h]
  rfl

/-- What becomes of a file: its bytes are hashed, or it fails. -/
inductive Becomes (windows : Bool) (world : World) (args : CheckArgs) (moment : Moment)
    (path : Path) : Except String (List Byte) → Prop where
  | delivered {bytes : List Byte} (h : Delivers windows world args moment path bytes)
      (hlen : bytes.length < 2 ^ 64) : Becomes windows world args moment path (.ok bytes)
  | failed {e : String} (h : Fails windows world args moment path e) :
      Becomes windows world args moment path (.error e)

theorem hashOneFile_becomes (sizes : ℕ → ℕ) {path : Path} {outcome : Except String (List Byte)}
    (hbase : args.baseHasher = Hasher.newInternal key flags)
    (h : Becomes windows world args.toCheckArgs moment path outcome)
    (hseek : args.seek.toNat + args.len + 63 < 2 ^ 64) :
    (hashOneFile f b simd join windows world args sizes moment path).run =
      pure (outcome.map (printedOf f windows args key flags path)) := by
  cases h with
  | delivered h hlen =>
      rw [hashOneFile_eq sizes hbase h hlen hseek]
      rfl
  | failed h =>
      rw [hashOneFile_error sizes hbase h]
      rfl

end File

/-! ### All files -/

section Run

variable {f : Compress} {b : Build} {simd : Simd} {join : Join} {windows : Bool} {world : World}
  {args : SumArgs} {inner : Inner} {stdin : Source Byte}

/-- The files from one on, by what becomes of each of them. -/
def Sums.addAll (outcome : ℕ → Except String Printed) : ℕ → List Path → Sums → Sums
  | _, [], sums => sums
  | argument, path :: paths, sums =>
      addAll outcome (argument + 1) paths (sums.add path (outcome argument))

theorem sumFiles_eq (sizes : ℕ → ℕ) {outcome : ℕ → Except String Printed} {argument : ℕ}
    {paths : List Path} (sums : Sums)
    (h : ∀ i path, paths[i]? = some path →
      (hashOneFile f b simd join windows world args sizes ⟨argument + i, 0⟩ path).run =
        pure (outcome (argument + i))) :
    sumFiles f b simd join windows world args sizes argument paths sums =
      pure (sums.addAll outcome argument paths) := by
  induction paths generalizing argument sums with
  | nil => rfl
  | cons path paths ih =>
      have hrest : ∀ i path', paths[i]? = some path' →
          (hashOneFile f b simd join windows world args sizes ⟨argument + 1 + i, 0⟩ path').run =
            pure (outcome (argument + 1 + i)) := by
        intro i path' hpath'
        rw [Nat.add_right_comm, Nat.add_assoc]
        exact h (i + 1) path' hpath'
      rw [sumFiles, show argument = argument + 0 from rfl, h 0 path rfl, pure_bind]
      exact ih _ hrest

theorem stdout_addAll (outcome : ℕ → Except String Printed) (argument : ℕ) (paths : List Path)
    (sums : Sums) :
    (sums.addAll outcome argument paths).stdout = sums.stdout ++
      (paths.zipIdx argument).filterMap fun file => (outcome file.2).toOption := by
  induction paths generalizing argument sums with
  | nil => simp [Sums.addAll]
  | cons path paths ih =>
      rw [Sums.addAll, ih, List.zipIdx_cons, List.filterMap_cons]
      cases outcome argument with
      | ok printed => simp [Sums.add, Except.toOption]
      | error e => simp [Sums.add, Except.toOption]

theorem filesFailed_addAll (outcome : ℕ → Except String Printed) (argument : ℕ)
    (paths : List Path) (sums : Sums) :
    (sums.addAll outcome argument paths).filesFailed.toNat =
      min (sums.filesFailed.toNat +
        (paths.zipIdx argument).countP fun file => !(outcome file.2).isOk) (2 ^ 64 - 1) := by
  induction paths generalizing argument sums with
  | nil =>
      have hlt := sums.filesFailed.toNat_lt
      simp only [Sums.addAll, List.zipIdx_nil, List.countP_nil]
      omega
  | cons path paths ih =>
      rw [Sums.addAll, ih, List.zipIdx_cons, List.countP_cons]
      cases outcome argument with
      | ok printed => simp [Sums.add, Except.isOk, Except.toBool]
      | error e =>
          simp only [Sums.add, saturatingAdd_one, Except.isOk, Except.toBool, Bool.not_false,
            if_true]
          omega

theorem sumMain_eq (sizes : ℕ → ℕ) {key : CVWords} {flags : Byte}
    {outcome : ℕ → Except String (List Byte)}
    (hbase : args.baseHasher = Hasher.newInternal key flags)
    (hfiles : ∀ i path, args.fileArgs[i]? = some path →
      Becomes windows world args.toCheckArgs ⟨i, 0⟩ path (outcome i))
    (hseek : args.seek.toNat + args.len + 63 < 2 ^ 64) :
    ∃ sums : Sums, sumMain f b simd join windows world args sizes =
        pure (if 0 < sums.filesFailed then 1 else 0, sums) ∧
      sums.stdout = args.fileArgs.zipIdx.filterMap (fun file =>
        (outcome file.2).toOption.map (printedOf f windows args key flags file.1)) ∧
      sums.filesFailed.toNat =
        min (args.fileArgs.zipIdx.countP fun file => !(outcome file.2).isOk) (2 ^ 64 - 1) := by
  let printed (i : ℕ) : Except String Printed :=
    (outcome i).map (printedOf f windows args key flags (args.fileArgs.getD i []))
  have hrun : sumFiles f b simd join windows world args sizes 0 args.fileArgs {} =
      pure (Sums.addAll printed 0 args.fileArgs {}) := by
    apply sumFiles_eq
    intro i path hpath
    rw [Nat.zero_add, hashOneFile_becomes sizes hbase (hfiles i path hpath) hseek]
    simp only [printed, List.getD_eq_getElem?_getD, hpath, Option.getD_some]
  refine ⟨Sums.addAll printed 0 args.fileArgs {}, by rw [sumMain, hrun]; rfl, ?_, ?_⟩
  · rw [stdout_addAll]
    apply List.filterMap_congr
    intro file hfile
    rw [List.mem_zipIdx_iff_getElem?] at hfile
    simp only [printed, List.getD_eq_getElem?_getD, hfile, Option.getD_some]
    cases outcome file.2 <;> rfl
  · rw [filesFailed_addAll]
    congr 1
    rw [show (Sums.filesFailed {}).toNat = 0 from rfl, Nat.zero_add]
    apply List.countP_congr
    intro file _
    simp only [printed]
    cases outcome file.2 <;> exact Iff.rfl

variable (f b simd join windows world) in
/-- A run hashes every file that can be hashed, in the order of the arguments and
in the mode of the command line, whatever pieces key, files and output are
read in, and it exits with 1 if and only if some file could not be hashed. -/
theorem sum_run (sizes : ℕ → ℕ) {outcome : ℕ → Except String (List Byte)}
    (hparse : parseArgs f b simd inner stdin = .ok (.ok args))
    (hfiles : ∀ i path, args.fileArgs[i]? = some path →
      Becomes windows world args.toCheckArgs ⟨i, 0⟩ path (outcome i))
    (hseek : args.seek.toNat + args.len + 63 < 2 ^ 64) :
    ∃ key flags, args.baseHasher = Hasher.newInternal key flags ∧ ∃ (status : ℕ) (sums : Sums),
      sumMain f b simd join windows world args sizes = pure (status, sums) ∧
      (status = 0 ↔ ∀ i < args.fileArgs.length, (outcome i).isOk) ∧
      sums.stdout = args.fileArgs.zipIdx.filterMap (fun file =>
        (outcome file.2).toOption.map (printedOf f windows args key flags file.1)) ∧
      sums.filesFailed.toNat =
        min (args.fileArgs.zipIdx.countP fun file => !(outcome file.2).isOk) (2 ^ 64 - 1) := by
  obtain ⟨key, flags, hbase⟩ := parseArgs_baseHasher hparse
  obtain ⟨sums, hrun, hstdout, hfailed⟩ := sumMain_eq sizes hbase hfiles hseek
  refine ⟨key, flags, hbase, _, sums, hrun, ?_, hstdout, hfailed⟩
  have hzero : (if 0 < sums.filesFailed then 1 else 0) = 0 ↔ sums.filesFailed.toNat = 0 := by
    rw [ite_eq_right_iff, UInt64.lt_iff_toNat_lt]
    simp only [UInt64.toNat_zero]
    omega
  have hcount : min (args.fileArgs.zipIdx.countP fun file => !(outcome file.2).isOk)
        (2 ^ 64 - 1) = 0 ↔
      args.fileArgs.zipIdx.countP (fun file => !(outcome file.2).isOk) = 0 := by
    omega
  rw [hzero, hfailed, hcount, List.countP_eq_zero]
  constructor
  · intro h i hi
    have hnot := h (args.fileArgs[i], i) (List.mem_zipIdx_iff_getElem?.mpr (by simp [hi]))
    simpa using hnot
  · intro h file hfile
    have hi := (List.getElem?_eq_some_iff.mp (List.mem_zipIdx_iff_getElem?.mp hfile)).1
    simpa using h file.2 hi

/-- The file `a` can be read, and nothing else is there. -/
def oneFile : World :=
  { openCheckfile := fun _ _ => some (.ok ())
    readLine := fun _ => some (.ok [])
    openFile := fun _ path =>
      if path = [0x61] then
        some (.ok { mmap := some (.ok none), reading := ⟨[[1], [2, 3]], some (.ok ())⟩ })
      else some (.error "No such file or directory (os error 2)")
    stdin := fun _ => ⟨[], some (.ok ())⟩ }

theorem becomes_read {path : Path} {checkArgs : CheckArgs} {moment : Moment}
    (pieces : List (List Byte)) (hdash : ¬isDash false path)
    (hopen : world.openFile moment path =
      some (.ok { mmap := some (.ok none), reading := ⟨pieces, some (.ok ())⟩ }))
    (hlen : pieces.flatten.length < 2 ^ 64) :
    Becomes false world checkArgs moment path (.ok pieces.flatten) :=
  .delivered (.read hdash hopen (.inr rfl) rfl) hlen

theorem sum_run_one_missing :
    ∃ args, parseArgs compress .wrapping .portable { file := [[0x61], [0x62]] }
        (Source.inReads [] fun _ => 0) = .ok (.ok args) ∧
      ∃ (status : ℕ) (sums : Sums), sumMain compress .wrapping .portable .serial false oneFile args
        (fun _ => 0) = pure (status, sums) ∧ ¬status = 0 := by
  have hparse : parseArgs compress .wrapping .portable { file := [[0x61], [0x62]] }
      (Source.inReads [] fun _ => 0) = .ok (.ok
        { fileArgs := [[0x61], [0x62]], baseHasher := .new, keyed := false, noMmap := false,
          seek := 0, quiet := false }) := rfl
  refine ⟨_, hparse, ?_⟩
  let outcome (i : ℕ) : Except String (List Byte) :=
    if i = 0 then .ok [1, 2, 3] else .error "No such file or directory (os error 2)"
  have hfiles : ∀ i path, [[0x61], [0x62]][i]? = some path →
      Becomes false oneFile ⟨[[0x61], [0x62]], .new, false, false, 0, false⟩ ⟨i, 0⟩ path
        (outcome i) := by
    rintro (_ | _ | i) path hpath
    · cases hpath
      exact becomes_read [[1], [2, 3]] (by decide) rfl (by decide)
    · cases hpath
      exact .failed (.opened (by decide) rfl)
    · cases hpath
  obtain ⟨-, -, -, status, sums, hrun, hstatus, -⟩ := sum_run compress .wrapping .portable .serial
    false oneFile (fun _ => 0) hparse hfiles (by decide)
  refine ⟨status, sums, hrun, fun hzero => ?_⟩
  have hok := hstatus.mp hzero 1 (by decide)
  exact Bool.false_ne_true hok

end Run

end Blake3.B3sum
