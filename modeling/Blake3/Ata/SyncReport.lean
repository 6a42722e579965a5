import Blake3.Ata.Sync

/-!
The report of a sync run, line by line: both programs print it, and it says all
that was loaded.
-/

namespace Blake3.Ata

open ShortReads

/-! ### The report -/

/-- The texts in which the two programs differ. -/
structure Wording where
  title : List Str
  count : Loaded → Str
  warning : Str
  done : Str

/-- What the head of a report shows of the registers. -/
structure Head where
  cntfrq : UInt64
  cntvct : UInt64
  midr : UInt64

def Readings.head (r : Readings) : Head :=
  { cntfrq := r.cntfrq 0, cntvct := r.cntvct 0, midr := r.midr 0 }

def headLines (w : Wording) (head : Head) : List Str :=
  w.title ++ ["CNTFRQ(V20): ".toList ++ v20Text head.cntfrq,
    "CNTVCT(V20): ".toList ++ v20Text head.cntvct,
    "MIDR (V20): ".toList ++ v20Text (head.midr &&& 0xffffffff), dashes]

def cycleAt (loaded : Loaded) (i : ℕ) : UInt64 := loaded.arena.getD i 0

def foundLines (w : Wording) (loaded : Loaded) : List Str :=
  if 0 < loaded.code then
    ["ATA_FORMAT: ".toList ++ formatName loaded,
      "ATA_HW_SIG(V20): ".toList ++ v20Text (loaded.hwSig.getD 0),
      "ATA_LOADED: ".toList ++ w.count loaded,
      "CYC0: ".toList ++ v20Text (cycleAt loaded 0),
      "CYC1: ".toList ++ v20Text (cycleAt loaded (if 1 < loaded.code then 1 else 0)),
      "CYC2: ".toList ++ v20Text (cycleAt loaded (if 2 < loaded.code then 2 else 0)),
      dashes]
  else [w.warning, dashes]

/-- The cycle value that key `i` is mixed with: the values over and over again, or none. -/
def cycleOf (loaded : Loaded) (i : ℕ) : UInt64 :=
  if 0 < loaded.code then cycleAt loaded ((i - 1) % loaded.code.toNat) else 0

def keyLine (seed : UInt64) (t : ℕ → UInt64) (loaded : Loaded) (i : ℕ) : Str :=
  let x := keyValue seed (t i) (cycleOf loaded i) i
  "[CHAVE:".toList ++ keyId i ++ "] [X:".toList ++ v20Text x ++ "] [P:".toList ++
    digit (p9 x) ++ "] ".toList ++ phrase (p9 x)

def reportLines (w : Wording) (head : Head) (seed : UInt64) (t : ℕ → UInt64) (loaded : Loaded) :
    List Str :=
  headLines w head ++ (foundLines w loaded ++ ((List.range' 1 42).map (keyLine seed t loaded) ++
    [dashes, w.done]))

/-- Lines one after the other. -/
def unlines (lines : List Str) : Str := lines.flatMap fun line => line ++ ['\n']

@[simp] theorem unlines_nil : unlines [] = [] := rfl

@[simp] theorem unlines_cons (line : Str) (lines : List Str) :
    unlines (line :: lines) = line ++ '\n' :: unlines lines := by
  rw [unlines, List.flatMap_cons, List.append_assoc]
  rfl

@[simp] theorem unlines_append (lines lines' : List Str) :
    unlines (lines ++ lines') = unlines lines ++ unlines lines' := List.flatMap_append

/-! ### What is loaded -/

/-- A positive result counts what is in the arena. -/
structure Whole (cap : ℕ) (code : ℤ) (arena : List UInt64) : Prop where
  length : 0 < code → code = arena.length
  le : arena.length ≤ cap

theorem whole_failed {cap : ℕ} {code : ℤ} {arena : List UInt64} (hcode : code ≤ 0)
    (h : arena.length ≤ cap) : Whole cap code arena :=
  ⟨fun hpos => absurd hpos (Int.not_lt.mpr hcode), h⟩

theorem whole_loadV1 (count : ℕ) (fd : Source Byte) (arena : List UInt64)
    (h : arena.length ≤ count) :
    Whole count (loadV1 count fd arena).1 (loadV1 count fd arena).2 := by
  induction hleft : count - arena.length using Nat.strong_induction_on generalizing arena fd with
  | _ left ih =>
  rw [loadV1]
  split
  · next hlt =>
      have hnext : ∀ cyc, (arena ++ [cyc]).length = arena.length + 1 := fun _ => List.length_append
      split
      · dsimp only
        split
        · exact whole_failed (show (-7 : ℤ) ≤ 0 by decide) h
        · exact ih _ (by rw [hnext]; omega) _ _ (by rw [hnext]; omega) rfl
      · exact whole_failed (show (-6 : ℤ) ≤ 0 by decide) h
  · exact ⟨fun _ => rfl, h⟩

theorem whole_loadLegacy (cap : ℕ) (fd : Source Byte) (arena : List UInt64)
    (h : arena.length ≤ cap) :
    Whole cap (loadLegacy cap fd arena).1 (loadLegacy cap fd arena).2 := by
  induction hleft : cap - arena.length using Nat.strong_induction_on generalizing arena fd with
  | _ left ih =>
  rw [loadLegacy]
  split
  · next hlt =>
      have hnext : ∀ cyc, (arena ++ [cyc]).length = arena.length + 1 := fun _ => List.length_append
      split
      · dsimp only
        split
        · exact whole_failed (show (-11 : ℤ) ≤ 0 by decide) h
        · exact ih _ (by rw [hnext]; omega) _ _ (by rw [hnext]; omega) rfl
      · exact ⟨fun _ => rfl, h⟩
      · exact whole_failed (show (-10 : ℤ) ≤ 0 by decide) h
  · exact ⟨fun _ => rfl, h⟩

/-- Whatever the file holds, and wherever a read of it fails. -/
theorem whole_rmrAtaLoadFd (fd : Source Byte) :
    Whole 42 (rmrAtaLoadFd fd 42).code (rmrAtaLoadFd fd 42).arena := by
  rw [rmrAtaLoadFd]
  dsimp only
  rw [if_neg (by decide)]
  split
  · split
    · exact whole_failed (show (-3 : ℤ) ≤ 0 by decide) (Nat.zero_le _)
    · split
      · next probe fd' hread =>
          split
          · split
            · exact whole_failed (show (-5 : ℤ) ≤ 0 by decide) (Nat.zero_le _)
            · next hcount =>
                obtain ⟨hlength, hle⟩ := whole_loadV1
                  (rmrAtaGetU32Le (probe.drop 8)).toNat fd' [] (Nat.zero_le _)
                exact ⟨hlength, hle.trans (by omega)⟩
          · split
            · split
              · exact whole_failed (show (-9 : ℤ) ≤ 0 by decide) (Nat.zero_le _)
              · exact whole_loadLegacy 42 _ _ (show 1 ≤ 42 by decide)
            · exact whole_failed (show (-8 : ℤ) ≤ 0 by decide) (Nat.zero_le _)
      · exact whole_failed (show (-4 : ℤ) ≤ 0 by decide) (Nat.zero_le _)
  · exact whole_failed (show (-2 : ℤ) ≤ 0 by decide) (Nat.zero_le _)

theorem whole_loadAta (file : Option (Source Byte)) :
    Whole 42 (loadAta file).code (loadAta file).arena := by
  cases file with
  | none => exact whole_failed (show (-1 : ℤ) ≤ 0 by decide) (Nat.zero_le _)
  | some fd => exact whole_rmrAtaLoadFd fd

section Keys

variable {loaded : Loaded}

theorem arenaAt_eq {i : ℕ} (hi : i < loaded.arena.length) :
    arenaAt loaded i = .ok (cycleAt loaded i) := by
  rw [arenaAt, cycleAt, List.getD_eq_getElem?_getD, List.getElem?_eq_getElem hi, Option.getD_some]

theorem keyCycle_eq (h : Whole 42 loaded.code loaded.arena) (i : ℕ) :
    keyCycle loaded i = .ok (cycleOf loaded i) := by
  rw [keyCycle, cycleOf]
  split
  · next hpos =>
      have hlength := h.length hpos
      have hlt := Nat.mod_lt (i - 1) (show 0 < loaded.code.toNat by omega)
      exact arenaAt_eq (by omega)
  · rfl

end Keys

/-! ### Lines -/

theorem newline_eq : newline = ['\n'] := by decide

/-! ### `sync_omega.c` -/

namespace SyncOmega

def wording : Wording :=
  { title := [[], "[RAFAELIA_SYNC_OMEGA] ARM64 no-libc :: ATA + CLOCK + 3-6-9".toList]
    count := count
    warning := "WARN: ATA_OMEGA.bin invalida/ausente. SYNC em modo clock-only.".toList
    done := "OK: SYNC concluido.".toList }

variable {r : Readings} {loaded : Loaded}

theorem heading_eq (r : Readings) : heading r = .ok (unlines (headLines wording r.head)) := by
  unfold heading
  rw [v20_eq (by decide), v20_eq (by decide), v20_eq (by decide)]
  simp only [Result.ok_bind, Result.pure_eq, headLines, wording, unlines_cons,
    unlines_nil, newline_eq, rule, List.append_assoc, List.cons_append, List.nil_append,
    Readings.head]

theorem found_eq (h : Whole 42 loaded.code loaded.arena) :
    found loaded = .ok (unlines (foundLines wording loaded)) := by
  unfold found foundLines
  split
  · next hpos =>
      have hlength := h.length hpos
      rw [arenaAt_eq (show 0 < loaded.arena.length by omega),
        arenaAt_eq (show (if 1 < loaded.code then 1 else 0) < loaded.arena.length by
          split <;> omega),
        arenaAt_eq (show (if 2 < loaded.code then 2 else 0) < loaded.arena.length by
          split <;> omega)]
      simp only [Result.ok_bind, v20_eq (show 16 ≤ 64 by decide), Result.pure_eq, wording,
        unlines_cons, unlines_nil, newline_eq, rule, List.append_assoc, List.cons_append,
        List.nil_append]
  · simp only [Result.pure_eq, wording, unlines_cons, unlines_nil, newline_eq, rule,
      List.append_assoc, List.cons_append, List.nil_append]

theorem key_eq (h : Whole 42 loaded.code loaded.arena) (printed : Str) (i : ℕ) :
    key r loaded printed i = .ok (printed ++
      (keyLine (seed (r.midr 0) (r.cntfrq 0)) r.cntvct loaded i ++ ['\n'])) := by
  unfold key
  rw [keyCycle_eq h, Result.ok_bind]
  dsimp only
  rw [v20_eq (by decide), Result.ok_bind, Result.pure_eq]
  unfold keyLine
  simp only [newline_eq, List.append_assoc]

theorem foldlM_key (h : Whole 42 loaded.code loaded.arena) (printed : Str) (ks : List ℕ) :
    ks.foldlM (key r loaded) printed = .ok (printed ++
      unlines (ks.map (keyLine (seed (r.midr 0) (r.cntfrq 0)) r.cntvct loaded))) := by
  induction ks generalizing printed with
  | nil => simp
  | cons k ks ih =>
      rw [List.foldlM_cons, key_eq h, Result.ok_bind, ih, List.map_cons, unlines_cons]
      simp only [List.append_assoc, List.singleton_append]

theorem run_eq (r : Readings) (file : Option (Source Byte)) :
    run r file = .ok (unlines (reportLines wording r.head (seed (r.midr 0) (r.cntfrq 0)) r.cntvct
      (loadAta file))) := by
  have h := whole_loadAta file
  unfold run
  rw [heading_eq, Result.ok_bind]
  dsimp only
  rw [found_eq h, Result.ok_bind, foldlM_key h, Result.ok_bind, Result.pure_eq]
  simp only [reportLines, unlines_append, unlines_cons, unlines_nil, newline_eq, rule, wording,
    List.append_assoc, List.cons_append, List.nil_append]

end SyncOmega

/-! ### `sync_fast.c` -/

namespace SyncFast

def wording : Wording :=
  { title := ["[RAFAELIA_SYNC_OMEGA_FAST] ARM64 no-libc :: ATA + CLOCK + 3-6-9".toList]
    count := fun loaded => v20Text (UInt64.ofNat loaded.code.toNat)
    warning := "WARN: ATA_OMEGA.bin invalida/ausente. (clock-only)".toList
    done := "OK: SYNC FAST concluido.".toList }

variable {r : Readings} {loaded : Loaded}

/-! The array holds the front of all that was put into it. -/

theorem bPutc_take (t : Str) (c : Char) :
    bPutc (t.take outCap) c = (t ++ [c]).take outCap := by
  rw [bPutc, List.length_take]
  rcases Nat.lt_or_ge t.length outCap with hlt | hge
  · rw [if_pos (by omega), List.take_of_length_le hlt.le, List.take_of_length_le]
    rw [List.length_append, List.length_singleton]
    omega
  · rw [if_neg (by omega), List.take_append_of_le_length hge]

theorem bPuts_take (t s : Str) : bPuts (t.take outCap) s = (t ++ s).take outCap := by
  induction s generalizing t with
  | nil => rw [List.append_nil, bPuts, List.foldl_nil]
  | cons c s ih =>
      have hnext := ih (t ++ [c])
      rw [List.append_assoc, List.singleton_append] at hnext
      rw [← hnext, bPuts, List.foldl_cons, bPutc_take]
      rfl

theorem bPutnl_take (t : Str) : bPutnl (t.take outCap) = (t ++ ['\n']).take outCap :=
  bPutc_take t '\n'

theorem eq_of_terminated {size : ℕ} {text text' : Str} (h : terminated size text = .ok text') :
    text = text' := by
  rw [terminated] at h
  split_ifs at h
  exact Except.ok.inj h

theorem bPutV20_take (t : Str) (n : UInt64) :
    bPutV20 (t.take outCap) n = .ok ((t ++ v20Text n).take outCap) := by
  have hv20 := v20_eq (show 16 ≤ 64 by decide) n
  rw [v20] at hv20
  rw [bPutV20]
  split
  · next hzero =>
      rw [if_pos hzero] at hv20
      rw [bPutc_take, eq_of_terminated hv20]
  · next hne =>
      rw [if_neg hne] at hv20
      obtain ⟨tmp, htmp, hterminated⟩ := Result.bind_eq_ok.mp hv20
      rw [htmp, Result.ok_bind, Result.pure_eq, bPuts_take, eq_of_terminated hterminated]

theorem hdr_eq (r : Readings) :
    hdr r [] = .ok ((unlines (headLines wording r.head)).take outCap) := by
  have hempty : ([] : Str) = [].take outCap := List.take_nil.symm
  unfold hdr
  rw [hempty]
  simp only [bPuts_take, bPutnl_take, bPutV20_take, Result.ok_bind, Result.pure_eq, headLines,
    wording, unlines_cons, unlines_nil, List.append_assoc, List.cons_append, List.nil_append,
    Readings.head]

theorem found_take (h : Whole 42 loaded.code loaded.arena) (t : Str) :
    found loaded (t.take outCap) =
      .ok ((t ++ unlines (foundLines wording loaded)).take outCap) := by
  unfold found foundLines
  split
  · next hpos =>
      have hlength := h.length hpos
      rw [arenaAt_eq (show 0 < loaded.arena.length by omega),
        arenaAt_eq (show (if 1 < loaded.code then 1 else 0) < loaded.arena.length by
          split <;> omega),
        arenaAt_eq (show (if 2 < loaded.code then 2 else 0) < loaded.arena.length by
          split <;> omega)]
      simp only [bPuts_take, bPutnl_take, bPutV20_take, Result.ok_bind, Result.pure_eq, wording,
        unlines_cons, unlines_nil, List.append_assoc, List.cons_append, List.nil_append]
  · simp only [bPuts_take, bPutnl_take, Result.pure_eq, wording, unlines_cons, unlines_nil,
      List.append_assoc, List.cons_append, List.nil_append]

theorem key_take (h : Whole 42 loaded.code loaded.arena) (t : Str) (i : ℕ) :
    key r loaded (t.take outCap) i = .ok ((t ++
      (keyLine (seed (r.midr 1) (r.cntfrq 1)) r.cntvct loaded i ++ ['\n'])).take outCap) := by
  unfold key
  rw [keyCycle_eq h, Result.ok_bind]
  unfold keyLine
  simp only [bPuts_take, bPutU3, bPutnl_take, bPutV20_take, Result.ok_bind, Result.pure_eq,
    List.append_assoc]

theorem foldlM_key_take (h : Whole 42 loaded.code loaded.arena) (t : Str) (ks : List ℕ) :
    ks.foldlM (key r loaded) (t.take outCap) = .ok ((t ++
      unlines (ks.map (keyLine (seed (r.midr 1) (r.cntfrq 1)) r.cntvct loaded))).take outCap) := by
  induction ks generalizing t with
  | nil => simp
  | cons k ks ih =>
      rw [List.foldlM_cons, key_take h, Result.ok_bind, ih, List.map_cons, unlines_cons]
      simp only [List.append_assoc, List.singleton_append]

theorem run_take (r : Readings) (file : Option (Source Byte)) :
    run r file = .ok ((unlines (reportLines wording r.head (seed (r.midr 1) (r.cntfrq 1)) r.cntvct
      (loadAta file))).take outCap) := by
  have h := whole_loadAta file
  unfold run
  rw [hdr_eq, Result.ok_bind]
  dsimp only
  rw [found_take h, Result.ok_bind, foldlM_key_take h, Result.ok_bind, Result.pure_eq]
  simp only [bPuts_take, bPutnl_take, reportLines, unlines_append, unlines_cons, unlines_nil,
    wording, List.append_assoc, List.cons_append, List.nil_append]

end SyncFast

/-! ### The size of a report -/

theorem length_unlines_le {lines : List Str} {bound : ℕ} (h : ∀ line ∈ lines, line.length ≤ bound) :
    (unlines lines).length ≤ lines.length * (bound + 1) := by
  induction lines with
  | nil => exact Nat.zero_le _
  | cons line lines ih =>
      have hline := h line List.mem_cons_self
      have hrest := ih fun l hl => h l (List.mem_cons_of_mem _ hl)
      rw [unlines_cons, List.length_append, List.length_cons, List.length_cons, Nat.succ_mul]
      omega

theorem length_v20Text_le (x : UInt64) : (v20Text x).length ≤ 15 := by
  rw [v20Text, List.length_map, List.length_reverse]
  exact length_digits_le

section Size

variable (seed : UInt64) (t : ℕ → UInt64) (loaded : Loaded) (head : Head)

theorem length_phrase_le (p : UInt64) : (phrase p).length ≤ 19 := by
  unfold phrase
  split_ifs <;> decide

theorem length_keyLine_le (i : ℕ) : (keyLine seed t loaded i).length ≤ 100 := by
  have hv20 := length_v20Text_le (keyValue seed (t i) (cycleOf loaded i) i)
  have hphrase := length_phrase_le (p9 (keyValue seed (t i) (cycleOf loaded i) i))
  have hkey : "[CHAVE:".toList.length = 7 := rfl
  have hx : "] [X:".toList.length = 5 := rfl
  have hp : "] [P:".toList.length = 5 := rfl
  have hend : "] ".toList.length = 2 := rfl
  unfold keyLine
  simp only [List.length_append, keyId, digit, List.length_cons, List.length_nil, hkey, hx, hp,
    hend]
  omega

theorem length_formatName_le : (formatName loaded).length ≤ 14 := by
  unfold formatName
  split_ifs <;> decide

/-- A name of a number and the number. -/
theorem length_append_le {label text : Str} (hlabel : label.length ≤ 50)
    (htext : text.length ≤ 50) :
    (label ++ text).length ≤ 100 := by
  rw [List.length_append]
  omega

theorem length_foundLines_le : ∀ line ∈ foundLines SyncFast.wording loaded, line.length ≤ 100 := by
  have hv20 (x : UInt64) : (v20Text x).length ≤ 50 := (length_v20Text_le x).trans (by decide)
  have hformat : (formatName loaded).length ≤ 50 := (length_formatName_le loaded).trans (by decide)
  unfold foundLines
  split
  · simp only [List.forall_mem_cons]
    refine ⟨length_append_le (by decide) hformat, length_append_le (by decide) (hv20 _),
      length_append_le (by decide) (hv20 _), length_append_le (by decide) (hv20 _),
      length_append_le (by decide) (hv20 _), length_append_le (by decide) (hv20 _), by decide,
      List.forall_mem_nil _⟩
  · simp only [List.forall_mem_cons]
    exact ⟨by decide, by decide, List.forall_mem_nil _⟩

theorem length_headLines_le : ∀ line ∈ headLines SyncFast.wording head, line.length ≤ 100 := by
  have hv20 (x : UInt64) : (v20Text x).length ≤ 50 := (length_v20Text_le x).trans (by decide)
  unfold headLines
  simp only [SyncFast.wording, List.singleton_append, List.forall_mem_cons]
  exact ⟨by decide, length_append_le (by decide) (hv20 _), length_append_le (by decide) (hv20 _),
    length_append_le (by decide) (hv20 _), by decide, List.forall_mem_nil _⟩

theorem length_foundLines (w : Wording) : (foundLines w loaded).length ≤ 7 := by
  unfold foundLines
  split
  · exact le_rfl
  · exact Nat.le_add_left 2 5

/-- The array is large enough for any report. -/
theorem length_report_le :
    (unlines (reportLines SyncFast.wording head seed t loaded)).length ≤ SyncFast.outCap := by
  have hlines : ∀ line ∈ reportLines SyncFast.wording head seed t loaded, line.length ≤ 100 := by
    simp only [reportLines, List.forall_mem_append, List.forall_mem_map, List.forall_mem_cons]
    exact ⟨length_headLines_le head, length_foundLines_le loaded,
      fun i _ => length_keyLine_le seed t loaded i, by decide, by decide, List.forall_mem_nil _⟩
  have hcount : (reportLines SyncFast.wording head seed t loaded).length ≤ 60 := by
    have hfound := length_foundLines loaded SyncFast.wording
    simp only [reportLines, headLines, SyncFast.wording, List.length_append, List.length_cons,
      List.length_nil, List.length_map, List.length_range'] at hfound ⊢
    omega
  calc
    _ ≤ (reportLines SyncFast.wording head seed t loaded).length * 101 := length_unlines_le hlines
    _ ≤ 60 * 101 := Nat.mul_le_mul_right _ hcount
    _ ≤ SyncFast.outCap := by decide

end Size

/-! ### The two programs -/

/-- Both programs print the same report, each in its own words, whatever the file
holds, however its reads go and whatever the registers show, and neither touches
an array where it must not. -/
theorem sync_reports (r : Readings) (file : Option (Source Byte)) :
    SyncOmega.run r file = .ok (unlines (reportLines SyncOmega.wording r.head
      (seed (r.midr 0) (r.cntfrq 0)) r.cntvct (loadAta file))) ∧
    SyncFast.run r file = .ok (unlines (reportLines SyncFast.wording r.head
      (seed (r.midr 1) (r.cntfrq 1)) r.cntvct (loadAta file))) := by
  refine ⟨SyncOmega.run_eq r file, ?_⟩
  rw [SyncFast.run_take, List.take_of_length_le (length_report_le _ _ _ _)]

end Blake3.Ata
