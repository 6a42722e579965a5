import Blake3.Pai.Exclusion

/-!
The array `ex_list` of `pai_cmd_scan`: the places that are stored at, and when all of them
are there.
-/

namespace Blake3.Pai

/-! ### Stores -/

/-- The places that the loop over the arguments stores at. -/
def loopStores (opt : ScanOpts) : List Str → List ℕ
  | [] => []
  | [_] => []
  | arg :: value :: rest =>
      match valueArg opt arg value with
      | some opt' =>
          if arg = excludeArg ∧ opt.excludes.length < exListSize then
            opt.excludes.length :: loopStores opt' rest
          else loopStores opt' rest
      | none => loopStores (flagArg opt arg) (value :: rest)

/-- What `pai_cmd_scan` does before `pai_scan_run`: the places that it stores at, and the
options that it passes on, if it gets so far. -/
structure ScanCall where
  stores : List ℕ
  passed : Option ScanOpts

def scanCall (argv : List Str) : ScanCall :=
  let opt := scanOpts argv
  let stores := loopStores initialOpts (argv.drop 2)
  match opt.baseDir, opt.outDir with
  | some _, some out =>
      { stores := stores ++ [opt.excludes.length], passed := some (excludeOut opt out) }
  | _, _ => { stores := stores, passed := none }

/-- Every store is at one of the 64 places, no more than 64 exclusions are passed on, and
the output directory is one of them. -/
def ScanCall.Sound (call : ScanCall) : Prop :=
  (∀ i ∈ call.stores, i < exListSize) ∧
    ∀ opt ∈ call.passed, opt.excludes.length ≤ exListSize ∧
      ∃ out, opt.outDir = some out ∧ some out ∈ opt.excludes

/-! ### The options of a command line -/

def takesValue (arg : Str) : Bool :=
  arg = baseArg || arg = outArg || arg = maxDepthArg || arg = maxSizeArg || arg = hashArg ||
    arg = excludeArg

/-- The options that have a value, and their values. -/
def options : List Str → List (Str × Str)
  | [] => []
  | [_] => []
  | arg :: value :: rest =>
      if takesValue arg then (arg, value) :: options rest else options (value :: rest)

/-- How many exclusions the arguments ask for. -/
def excluding (argv : List Str) : ℕ :=
  (options (argv.drop 2)).countP fun o => o.1 = excludeArg

def gives (arg : Str) (argv : List Str) : Prop := ∃ o ∈ options (argv.drop 2), o.1 = arg

/-! ### The loop -/

theorem loopStores_lt (opt : ScanOpts) (args : List Str) :
    ∀ i ∈ loopStores opt args, i < exListSize := by
  fun_induction loopStores opt args with
  | case1 | case2 => simp
  | case3 opt arg value rest opt' hvalue hplace ih => exact List.forall_mem_cons.mpr ⟨hplace.2, ih⟩
  | case4 opt arg value rest opt' hvalue hplace ih => exact ih
  | case5 opt arg value rest hvalue ih => exact ih

/-- What an option with a value does, unless it is a further exclusion. -/
theorem excludes_of_ne {opt opt' : ScanOpts} {arg : Str} (hne : arg ≠ excludeArg)
    (hsame : opt'.excludes = opt.excludes) (h : opt.excludes.length ≤ exListSize) :
    opt'.excludes.length =
      min exListSize (opt.excludes.length + if arg = excludeArg then 1 else 0) := by
  rw [hsame, if_neg hne, Nat.add_zero, Nat.min_eq_right h]

theorem valueArg_cases (opt : ScanOpts) (arg value : Str) (h : opt.excludes.length ≤ exListSize) :
    (takesValue arg = false ∧ valueArg opt arg value = none) ∨
      ∃ opt', takesValue arg = true ∧ valueArg opt arg value = some opt' ∧
        opt'.excludes.length =
          min exListSize (opt.excludes.length + if arg = excludeArg then 1 else 0) ∧
        (opt'.baseDir.isSome ↔ opt.baseDir.isSome ∨ arg = baseArg) ∧
        (opt'.outDir.isSome ↔ opt.outDir.isSome ∨ arg = outArg) := by
  have hother (hbase : arg ≠ baseArg) (hout : arg ≠ outArg) {opt' : ScanOpts}
      (hbase' : opt'.baseDir = opt.baseDir) (hout' : opt'.outDir = opt.outDir) :
      (opt'.baseDir.isSome ↔ opt.baseDir.isSome ∨ arg = baseArg) ∧
        (opt'.outDir.isSome ↔ opt.outDir.isSome ∨ arg = outArg) := by
    simp [hbase, hout, hbase', hout']
  by_cases hbase : arg = baseArg
  · subst hbase
    exact .inr ⟨_, by decide, rfl, excludes_of_ne (by decide) rfl h, by simp,
      by simp [show baseArg ≠ outArg by decide]⟩
  by_cases hout : arg = outArg
  · subst hout
    exact .inr ⟨_, by decide, rfl, excludes_of_ne (by decide) rfl h,
      by simp [show outArg ≠ baseArg by decide], by simp⟩
  rw [valueArg, if_neg hbase, if_neg hout]
  by_cases hdepth : arg = maxDepthArg
  · subst hdepth
    exact .inr ⟨_, by decide, rfl, excludes_of_ne (by decide) rfl h, hother hbase hout rfl rfl⟩
  by_cases hsize : arg = maxSizeArg
  · subst hsize
    exact .inr ⟨_, by decide, rfl, excludes_of_ne (by decide) rfl h, hother hbase hout rfl rfl⟩
  by_cases hhash : arg = hashArg
  · subst hhash
    exact .inr ⟨_, by decide, rfl, excludes_of_ne (by decide) rfl h, hother hbase hout rfl rfl⟩
  rw [if_neg hdepth, if_neg hsize, if_neg hhash]
  by_cases hexclude : arg = excludeArg
  · rw [if_pos hexclude, if_pos hexclude]
    refine .inr ?_
    by_cases hplace : opt.excludes.length < exListSize
    · rw [if_pos hplace]
      refine ⟨_, by rw [hexclude]; decide, rfl, ?_, hother hbase hout rfl rfl⟩
      rw [List.length_append, List.length_singleton]
      omega
    · rw [if_neg hplace]
      exact ⟨_, by rw [hexclude]; decide, rfl, by omega, hother hbase hout rfl rfl⟩
  · rw [if_neg hexclude]
    exact .inl ⟨by simp [takesValue, hbase, hout, hdepth, hsize, hhash, hexclude], rfl⟩

theorem flagArg_eq (opt : ScanOpts) (arg : Str) :
    (flagArg opt arg).excludes = opt.excludes ∧ (flagArg opt arg).baseDir = opt.baseDir ∧
      (flagArg opt arg).outDir = opt.outDir := by
  rw [flagArg]
  split_ifs <;> exact ⟨rfl, rfl, rfl⟩

/-- The loop has the exclusions that there is room for, and knows whether it was given a base
and an output directory. -/
theorem scanArgs_spec (opt : ScanOpts) (args : List Str) (h : opt.excludes.length ≤ exListSize) :
    (scanArgs opt args).excludes.length = min exListSize
        (opt.excludes.length + (options args).countP fun o => o.1 = excludeArg) ∧
      ((scanArgs opt args).baseDir.isSome ↔
        opt.baseDir.isSome ∨ ∃ o ∈ options args, o.1 = baseArg) ∧
      ((scanArgs opt args).outDir.isSome ↔
        opt.outDir.isSome ∨ ∃ o ∈ options args, o.1 = outArg) := by
  fun_induction scanArgs opt args with
  | case1 opt => simp [options, h]
  | case2 opt arg =>
      obtain ⟨hexcludes, hbase, hout⟩ := flagArg_eq opt arg
      simp [options, h, hexcludes, hbase, hout]
  | case3 opt arg value rest opt' hvalue ih =>
      rcases valueArg_cases opt arg value h with
        ⟨-, hnone⟩ | ⟨opt'', htakes, hsome, hlength, hbase, hout⟩
      · rw [hvalue] at hnone
        cases hnone
      · rw [hvalue] at hsome
        cases hsome
        obtain ⟨ihlength, ihbase, ihout⟩ := ih (by omega)
        rw [ihlength, ihbase, ihout, hlength, hbase, hout, options, if_pos htakes]
        refine ⟨?_, ?_, ?_⟩
        · rw [List.countP_cons]
          simp only [decide_eq_true_eq]
          omega
        · simp only [List.exists_mem_cons_iff, or_assoc]
        · simp only [List.exists_mem_cons_iff, or_assoc]
  | case4 opt arg value rest hvalue ih =>
      rcases valueArg_cases opt arg value h with ⟨htakes, -⟩ | ⟨opt'', -, hsome, -⟩
      · obtain ⟨hexcludes, hbase, hout⟩ := flagArg_eq opt arg
        rw [hexcludes, hbase, hout] at ih
        rw [options, if_neg (by simp [htakes])]
        exact ih h
      · rw [hvalue] at hsome
        cases hsome

/-! ### Command lines -/

/-- `pai_cmd_scan` goes on if there was a place for every store. -/
theorem paiCmdScan_scanCall (P : Platform) (fs : FileSystem) (argv : List Str) (fuel : ℕ) :
    paiCmdScan P fs argv fuel =
      match (scanCall argv).passed with
      | none => pure ⟨1, [], []⟩
      | some opt =>
          if ∀ i ∈ (scanCall argv).stores, i < exListSize then paiScanRun P fs opt fuel
          else Process.fault .outOfBounds := by
  have hloop := loopStores_lt initialOpts (argv.drop 2)
  rw [paiCmdScan, scanCall]
  cases (scanOpts argv).baseDir with
  | none => rfl
  | some base =>
      cases (scanOpts argv).outDir with
      | none => rfl
      | some out =>
          dsimp only
          congr 1
          rw [eq_iff_iff, List.forall_mem_append, List.forall_mem_singleton]
          exact (and_iff_right hloop).symm

theorem length_excludes (argv : List Str) :
    (scanOpts argv).excludes.length = min exListSize (excluding argv) := by
  have hlength := (scanArgs_spec initialOpts (argv.drop 2) (Nat.zero_le _)).1
  rwa [show initialOpts.excludes.length = 0 from rfl, Nat.zero_add] at hlength

/-- A base and an output directory are what is needed to go on. -/
theorem scanCall_cases (argv : List Str) :
    (gives baseArg argv ∧ gives outArg argv ∧ ∃ out,
      (scanOpts argv).outDir = some out ∧
      scanCall argv = {
        stores := loopStores initialOpts (argv.drop 2) ++ [min exListSize (excluding argv)]
        passed := some (excludeOut (scanOpts argv) out) }) ∨
    ((¬gives baseArg argv ∨ ¬gives outArg argv) ∧
      scanCall argv = { stores := loopStores initialOpts (argv.drop 2), passed := none }) := by
  obtain ⟨-, hbase, hout⟩ := scanArgs_spec initialOpts (argv.drop 2) (Nat.zero_le _)
  have hbase' : (scanOpts argv).baseDir.isSome ↔ gives baseArg argv := by
    rw [scanOpts, hbase, show initialOpts.baseDir = none from rfl]
    simp [gives]
  have hout' : (scanOpts argv).outDir.isSome ↔ gives outArg argv := by
    rw [scanOpts, hout, show initialOpts.outDir = none from rfl]
    simp [gives]
  rw [← hbase', ← hout', ← length_excludes, scanCall]
  cases hb : (scanOpts argv).baseDir with
  | none => exact .inr ⟨by simp, rfl⟩
  | some base =>
      cases ho : (scanOpts argv).outDir with
      | none => exact .inr ⟨by simp, rfl⟩
      | some out => exact .inl ⟨rfl, rfl, out, rfl, rfl⟩

/-- There is a place for every store, and for the output directory among them, unless a scan
is asked for with 64 exclusions or more. -/
theorem scanCall_sound_iff (argv : List Str) :
    (scanCall argv).Sound ↔
      excluding argv < exListSize ∨ ¬gives baseArg argv ∨ ¬gives outArg argv := by
  have hloop := loopStores_lt initialOpts (argv.drop 2)
  have hlength := length_excludes argv
  rcases scanCall_cases argv with ⟨hbase, hout, out, hdir, hcall⟩ | ⟨hmissing, hcall⟩
  · rw [hcall, ScanCall.Sound]
    constructor
    · intro h
      have hlast := h.1 (min exListSize (excluding argv)) (by simp)
      exact .inl (by omega)
    · rintro (hfew | hbase' | hout')
      · refine ⟨List.forall_mem_append.mpr ⟨hloop, by simp [hfew]⟩, ?_⟩
        intro opt hopt
        obtain rfl := Option.some.inj hopt
        refine ⟨?_, out, hdir, by simp [excludeOut]⟩
        rw [excludeOut, List.length_append, List.length_singleton, hlength]
        omega
      · exact absurd hbase hbase'
      · exact absurd hout hout'
  · rw [hcall, ScanCall.Sound]
    exact iff_of_true ⟨hloop, by simp⟩ (.inr hmissing)

/-- `pai scan --base p --out o`, and 64 times `--exclude x`. -/
def crowdedArgs : List Str :=
  [[0x70, 0x61, 0x69], [0x73, 0x63, 0x61, 0x6e], baseArg, [0x70], outArg, [0x6f]] ++
    (List.replicate 64 [excludeArg, [0x78]]).flatten

theorem not_scanCall_sound : ¬(scanCall crowdedArgs).Sound := by
  have hlast : 64 ∈ (scanCall crowdedArgs).stores := by decide +kernel
  exact fun h => absurd (h.1 64 hlast) (by decide)

end Blake3.Pai
