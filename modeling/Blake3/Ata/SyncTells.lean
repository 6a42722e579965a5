import Blake3.Ata.SyncReport

/-!
What the report of a sync run says of the file: all that was loaded of it. From
the run that wrote the file to the report of the run that read it nothing is
lost.
-/

namespace Blake3.Ata

open ShortReads

/-! ### What a report tells -/

theorem mix64_inj {x y : UInt64} (h : mix64 x = mix64 y) : x = y := by
  have h27 := Xorshift.mul_right_inj_of_inverse
    (show (2685821657736338717 : UInt64) * 6415128727920758069 = 1 by decide) h
  have h25 := Xorshift.xor_shiftRight_inj (by decide) h27
  have h12 := Xorshift.xor_shiftLeft_inj (by decide) h25
  exact Xorshift.xor_shiftRight_inj (by decide) h12

theorem keyValue_inj {seed t cyc cyc' : UInt64} {i : ℕ}
    (h : keyValue seed t cyc i = keyValue seed t cyc' i) : cyc = cyc' := by
  have hmixed := mix64_inj h
  rw [UInt64.xor_comm _ (UInt64.ofNat i), UInt64.xor_comm _ (UInt64.ofNat i)] at hmixed
  have hproduct := Xorshift.xor_left_inj (Xorshift.xor_left_inj hmixed)
  exact Xorshift.mul_right_inj_of_inverse
    (show (0x9e3779b97f4a7c15 : UInt64) * 17428512612931826493 = 1 by decide) hproduct

/-- The letters of a number are letters of the alphabet. -/
theorem mem_v20Text {x : UInt64} {c : Char} (h : c ∈ v20Text x) : c ∈ v20Alphabet := by
  obtain ⟨d, hd, rfl⟩ := List.mem_map.mp h
  have hlt : d < v20Alphabet.length :=
    (Numeral.canonical_digitsOf (show 1 < 20 by decide) x.toNat).lt d (List.mem_reverse.mp hd)
  rw [v20Letter, List.getD_eq_getElem _ _ hlt]
  exact List.getElem_mem hlt

theorem keyLine_inj {seed : UInt64} {t : ℕ → UInt64} {loaded loaded' : Loaded} {i : ℕ}
    (h : keyLine seed t loaded i = keyLine seed t loaded' i) :
    cycleOf loaded i = cycleOf loaded' i := by
  have hbracket (x : UInt64) : ']' ∉ v20Text x := fun hmem =>
    absurd (mem_v20Text hmem) (by decide)
  have hp : "] [P:".toList = ']' :: " [P:".toList := rfl
  unfold keyLine at h
  simp only [List.append_assoc, hp, List.cons_append] at h
  have hvalue := List.append_cancel_left (List.append_cancel_left (List.append_cancel_left h))
  obtain ⟨htext, -⟩ := Text.append_cons_inj_left (hbracket _) (hbracket _) hvalue
  exact keyValue_inj (v20Text_inj htext)

/-- What the words of a program have to be like. -/
structure Wording.Clear (w : Wording) : Prop where
  title : ∀ line ∈ w.title, '\n' ∉ line
  warning : '\n' ∉ w.warning
  done : '\n' ∉ w.done
  newline : ∀ loaded, '\n' ∉ w.count loaded
  count : ∀ loaded loaded' : Loaded, 0 < loaded.code → loaded.code ≤ 42 → 0 < loaded'.code →
    loaded'.code ≤ 42 → w.count loaded = w.count loaded' → loaded.code = loaded'.code

theorem newline_notMem_v20Text (x : UInt64) : '\n' ∉ v20Text x := fun hmem =>
  absurd (mem_v20Text hmem) (by decide)

section Newlines

variable {w : Wording} (hw : w.Clear) (seed : UInt64) (t : ℕ → UInt64) (loaded : Loaded)
  (head : Head)

theorem notMem_append {c : Char} {a b : Str} (ha : c ∉ a) (hb : c ∉ b) : c ∉ a ++ b := by
  rw [List.mem_append, not_or]
  exact ⟨ha, hb⟩

theorem newline_notMem_headLines (hw : w.Clear) : ∀ line ∈ headLines w head, '\n' ∉ line := by
  have hv20 := newline_notMem_v20Text
  simp only [headLines, List.forall_mem_append, List.forall_mem_cons]
  exact ⟨hw.title, notMem_append (by decide) (hv20 _), notMem_append (by decide) (hv20 _),
    notMem_append (by decide) (hv20 _), by decide, List.forall_mem_nil _⟩

theorem newline_notMem_foundLines (hw : w.Clear) : ∀ line ∈ foundLines w loaded, '\n' ∉ line := by
  have hv20 := newline_notMem_v20Text
  have hformat : '\n' ∉ formatName loaded := by
    unfold formatName
    split_ifs <;> decide
  unfold foundLines
  split
  · simp only [List.forall_mem_cons]
    exact ⟨notMem_append (by decide) hformat, notMem_append (by decide) (hv20 _),
      notMem_append (by decide) (hw.newline _), notMem_append (by decide) (hv20 _),
      notMem_append (by decide) (hv20 _), notMem_append (by decide) (hv20 _), by decide,
      List.forall_mem_nil _⟩
  · simp only [List.forall_mem_cons]
    exact ⟨hw.warning, by decide, List.forall_mem_nil _⟩

/-- A digit is no newline. -/
theorem ofNat_ne_newline (n : ℕ) : '\n' ≠ Char.ofNat ('0'.toNat + n) := by
  intro h
  by_cases hvalid : ('0'.toNat + n).isValidChar
  · have hval := congrArg (fun c : Char => c.val.toNat) h
    rw [Utf8.toNat_val_ofNat hvalid] at hval
    exact absurd hval (show (10 : ℕ) ≠ 48 + n by omega)
  · have hnull : Char.ofNat ('0'.toNat + n) = '\x00' := dif_neg hvalid
    rw [hnull] at h
    exact absurd h (by decide)

theorem newline_notMem_keyLine (i : ℕ) : '\n' ∉ keyLine seed t loaded i := by
  have hv20 := newline_notMem_v20Text
  have hphrase (p : UInt64) : '\n' ∉ phrase p := by
    unfold phrase
    split_ifs <;> decide
  have hdigit (p : UInt64) : '\n' ∉ digit p := by
    rw [digit, List.mem_singleton]
    exact ofNat_ne_newline _
  have hid : '\n' ∉ keyId i := by
    simp only [keyId, List.mem_cons, List.not_mem_nil, or_false, not_or]
    exact ⟨ofNat_ne_newline _, ofNat_ne_newline _, ofNat_ne_newline _⟩
  unfold keyLine
  dsimp only
  exact notMem_append (notMem_append (notMem_append (notMem_append (notMem_append (notMem_append
    (notMem_append (by decide) hid) (by decide)) (hv20 _)) (by decide)) (hdigit _)) (by decide))
    (hphrase _)

theorem newline_notMem_reportLines (hw : w.Clear) :
    ∀ line ∈ reportLines w head seed t loaded, '\n' ∉ line := by
  simp only [reportLines, List.forall_mem_append, List.forall_mem_map, List.forall_mem_cons]
  exact ⟨newline_notMem_headLines head hw, newline_notMem_foundLines loaded hw,
    fun i _ => newline_notMem_keyLine seed t loaded i, by decide, hw.done, List.forall_mem_nil _⟩

end Newlines

/-! What two reports of the same words have in common, their files have too. -/

section Same

variable {w : Wording} {head : Head} {seed : UInt64} {t : ℕ → UInt64} {loaded loaded' : Loaded}

theorem reportLines_inj (hw : w.Clear)
    (h : unlines (reportLines w head seed t loaded) = unlines (reportLines w head seed t loaded')) :
    foundLines w loaded = foundLines w loaded' ∧
      ∀ i ∈ List.range' 1 42, keyLine seed t loaded i = keyLine seed t loaded' i := by
  have hlines : reportLines w head seed t loaded = reportLines w head seed t loaded' :=
    Text.flatMap_terminated_inj (newline_notMem_reportLines seed t loaded head hw)
      (newline_notMem_reportLines seed t loaded' head hw) (fun _ _ _ _ => id) h
  have hrest := List.append_cancel_left hlines
  have hlength : (foundLines w loaded).length = (foundLines w loaded').length := by
    have hlengths := congrArg List.length hrest
    simp only [List.length_append, List.length_map] at hlengths
    omega
  obtain ⟨hfound, hkeys⟩ := List.append_inj hrest hlength
  exact ⟨hfound, List.map_inj_left.mp (List.append_cancel_right hkeys)⟩

theorem code_pos_iff (h : foundLines w loaded = foundLines w loaded') :
    0 < loaded.code ↔ 0 < loaded'.code := by
  have hlength (loaded : Loaded) : (foundLines w loaded).length = 7 ↔ 0 < loaded.code := by
    unfold foundLines
    split
    · next hpos => exact iff_of_true rfl hpos
    · next hpos => exact iff_of_false (by simp) hpos
  rw [← hlength, ← hlength, h]

/-- What is loaded has a signature and a format. -/
theorem isSome_of_code {fd : Source Byte} (h : 0 < (rmrAtaLoadFd fd 42).code) :
    (rmrAtaLoadFd fd 42).hwSig.isSome ∧ (rmrAtaLoadFd fd 42).format.isSome := by
  revert h
  rw [rmrAtaLoadFd]
  dsimp only
  rw [if_neg (by decide)]
  split
  · split
    · exact fun hpos => absurd hpos (show ¬0 < (-3 : ℤ) by decide)
    · split
      · split
        · split
          · exact fun hpos => absurd hpos (show ¬0 < (-5 : ℤ) by decide)
          · exact fun _ => ⟨rfl, rfl⟩
        · split
          · split
            · exact fun _ => ⟨rfl, rfl⟩
            · exact fun _ => ⟨rfl, rfl⟩
          · exact fun _ => ⟨rfl, rfl⟩
      · exact fun hpos => absurd hpos (show ¬0 < (-4 : ℤ) by decide)
  · exact fun hpos => absurd hpos (show ¬0 < (-2 : ℤ) by decide)

theorem isSome_of_loadAta {file : Option (Source Byte)} (h : 0 < (loadAta file).code) :
    (loadAta file).hwSig.isSome ∧ (loadAta file).format.isSome := by
  cases file with
  | none => exact absurd h (show ¬0 < (-1 : ℤ) by decide)
  | some fd => exact isSome_of_code h

theorem formatName_inj {format format' : Format} (hf : loaded.format = some format)
    (hf' : loaded'.format = some format') (h : formatName loaded = formatName loaded') :
    format = format' := by
  unfold formatName at h
  rw [hf, hf'] at h
  cases format <;> cases format'
  · rfl
  · exact absurd h (by decide)
  · exact absurd h (by decide)
  · rfl

/-- All that was loaded is in the lines. -/
theorem loaded_eq_of_lines (hw : w.Clear) (hwhole : Whole 42 loaded.code loaded.arena)
    (hwhole' : Whole 42 loaded'.code loaded'.arena)
    (hsome : loaded.hwSig.isSome ∧ loaded.format.isSome)
    (hsome' : loaded'.hwSig.isSome ∧ loaded'.format.isSome)
    (hpos : 0 < loaded.code) (hpos' : 0 < loaded'.code)
    (hfound : foundLines w loaded = foundLines w loaded')
    (hkeys : ∀ i ∈ List.range' 1 42, keyLine seed t loaded i = keyLine seed t loaded' i) :
    loaded = loaded' := by
  obtain ⟨⟨hwSig, hh⟩, ⟨format, hf⟩⟩ := hsome.imp Option.isSome_iff_exists.mp
    Option.isSome_iff_exists.mp
  obtain ⟨⟨hwSig', hh'⟩, ⟨format', hf'⟩⟩ := hsome'.imp Option.isSome_iff_exists.mp
    Option.isSome_iff_exists.mp
  have hlength := hwhole.length hpos
  have hlength' := hwhole'.length hpos'
  have hle := hwhole.le
  have hle' := hwhole'.le
  unfold foundLines at hfound
  rw [if_pos hpos, if_pos hpos'] at hfound
  simp only [List.cons.injEq, List.append_cancel_left_eq] at hfound
  obtain ⟨hformat, hsig, hcount, -⟩ := hfound
  have hcode : loaded.code = loaded'.code :=
    hw.count loaded loaded' hpos (by omega) hpos' (by omega) hcount
  have harena : loaded.arena = loaded'.arena := by
    apply List.ext_getElem (by omega)
    intro j hj hj'
    have hkey := keyLine_inj (hkeys (j + 1) (by rw [List.mem_range'_1]; omega))
    rw [cycleOf, cycleOf, if_pos hpos, if_pos hpos', Nat.add_sub_cancel,
      Nat.mod_eq_of_lt (show j < loaded.code.toNat by omega),
      Nat.mod_eq_of_lt (show j < loaded'.code.toNat by omega), cycleAt, cycleAt,
      List.getD_eq_getElem _ _ hj, List.getD_eq_getElem _ _ hj'] at hkey
    exact hkey
  rw [hh, hh', Option.getD_some, Option.getD_some] at hsig
  have hhw := v20Text_inj hsig
  have hfmt := formatName_inj hf hf' hformat
  cases loaded
  cases loaded'
  dsimp only at hh hh' hf hf' hcode harena
  rw [hcode, hh, hh', hf, hf', harena, hhw, hfmt]

/-- The same was loaded, or nothing in either case. -/
def Same (loaded loaded' : Loaded) : Prop :=
  loaded = loaded' ∨ loaded.code ≤ 0 ∧ loaded'.code ≤ 0

theorem report_eq_iff (hw : w.Clear) (file file' : Option (Source Byte)) :
    unlines (reportLines w head seed t (loadAta file)) =
        unlines (reportLines w head seed t (loadAta file')) ↔
      Same (loadAta file) (loadAta file') := by
  constructor
  · intro h
    obtain ⟨hfound, hkeys⟩ := reportLines_inj hw h
    have hiff := code_pos_iff hfound
    rcases le_or_gt (loadAta file).code 0 with hle | hpos
    · exact .inr ⟨hle, not_lt.mp fun hpos => absurd (hiff.mpr hpos) (not_lt.mpr hle)⟩
    · exact .inl (loaded_eq_of_lines hw (whole_loadAta file) (whole_loadAta file')
        (isSome_of_loadAta hpos) (isSome_of_loadAta (hiff.mp hpos)) hpos (hiff.mp hpos) hfound
        hkeys)
  · rintro (h | ⟨hle, hle'⟩)
    · rw [h]
    · have hfound : foundLines w (loadAta file) = foundLines w (loadAta file') := by
        unfold foundLines
        rw [if_neg (not_lt.mpr hle), if_neg (not_lt.mpr hle')]
      have hkeys : (List.range' 1 42).map (keyLine seed t (loadAta file)) =
          (List.range' 1 42).map (keyLine seed t (loadAta file')) := by
        apply List.map_congr_left
        intro i _
        unfold keyLine cycleOf
        rw [if_neg (not_lt.mpr hle), if_neg (not_lt.mpr hle')]
      unfold reportLines
      rw [hfound, hkeys]

end Same

theorem ofNat_digit_inj {a b : ℕ} (ha : a < 100) (hb : b < 100)
    (h : Char.ofNat ('0'.toNat + a) = Char.ofNat ('0'.toNat + b)) : a = b := by
  have hvalid {n : ℕ} (hn : n < 100) : ('0'.toNat + n).isValidChar :=
    .inl (show 48 + n < 0xd800 by omega)
  have hval := congrArg (fun c : Char => c.val.toNat) h
  rw [Utf8.toNat_val_ofNat (hvalid ha), Utf8.toNat_val_ofNat (hvalid hb)] at hval
  exact Nat.add_left_cancel hval

theorem SyncOmega.clear_wording : SyncOmega.wording.Clear where
  title := by
    simp only [SyncOmega.wording, List.forall_mem_cons]
    exact ⟨List.not_mem_nil, by decide, List.forall_mem_nil _⟩
  warning := by decide
  done := by decide
  newline loaded := by
    simp only [SyncOmega.wording, SyncOmega.count, List.mem_cons, List.not_mem_nil, or_false,
      not_or]
    exact ⟨ofNat_ne_newline _, ofNat_ne_newline _⟩
  count loaded loaded' hpos hle hpos' hle' h := by
    simp only [SyncOmega.wording, SyncOmega.count, List.cons.injEq, and_true] at h
    have htens := ofNat_digit_inj (by omega) (by omega) h.1
    have hones := ofNat_digit_inj (by omega) (by omega) h.2
    omega

theorem SyncFast.clear_wording : SyncFast.wording.Clear where
  title := by
    simp only [SyncFast.wording, List.forall_mem_cons]
    exact ⟨by decide, List.forall_mem_nil _⟩
  warning := by decide
  done := by decide
  newline loaded := newline_notMem_v20Text _
  count loaded loaded' hpos hle hpos' hle' h := by
    have hnat := congrArg UInt64.toNat (v20Text_inj h)
    rw [toNat_ofNat64 (by omega), toNat_ofNat64 (by omega)] at hnat
    omega

theorem SyncOmega.run_eq_iff (r : Readings) (file file' : Option (Source Byte)) :
    run r file = run r file' ↔ Same (loadAta file) (loadAta file') := by
  rw [run_eq, run_eq, Except.ok.injEq]
  exact report_eq_iff clear_wording file file'

theorem SyncFast.run_eq_iff (r : Readings) (file file' : Option (Source Byte)) :
    run r file = run r file' ↔ Same (loadAta file) (loadAta file') := by
  rw [run_take, run_take, List.take_of_length_le (length_report_le _ _ _ _),
    List.take_of_length_le (length_report_le _ _ _ _), Except.ok.injEq]
  exact report_eq_iff clear_wording file file'

/-- Under the same readings, two files are reported on alike exactly if the same
was loaded from them: no signature, no count and no cycle value is lost between
the file and the report. -/
theorem sync_tells (r : Readings) (file file' : Option (Source Byte)) :
    (SyncOmega.run r file = SyncOmega.run r file' ↔ Same (loadAta file) (loadAta file')) ∧
      (SyncFast.run r file = SyncFast.run r file' ↔ Same (loadAta file) (loadAta file')) :=
  ⟨SyncOmega.run_eq_iff r file file', SyncFast.run_eq_iff r file file'⟩

/-! ### From the writer to the readers -/

/-- The file has all that a run of `rafaelia_core.c` was to write, and a loader takes it. -/
def Complete (m : Machine) (file : List Byte) : Prop :=
  file = rafaeliaCore m.cpuId m.cycles ∧ NoWrap m.cycles

theorem same_iff {m m' : Machine} {file file' : List Byte}
    (h : file <+: rafaeliaCore m.cpuId m.cycles) (h' : file' <+: rafaeliaCore m'.cpuId m'.cycles)
    (sizes sizes' : ℕ → ℕ) :
    Same (loadAta (some (.inReads file sizes))) (loadAta (some (.inReads file' sizes'))) ↔
      (Complete m file ∧ Complete m' file' ∧ m.cpuId = m'.cpuId ∧ m.cycles = m'.cycles) ∨
        (¬Complete m file ∧ ¬Complete m' file') := by
  obtain ⟨hload, hneg⟩ := load_prefix h sizes
  obtain ⟨hload', hneg'⟩ := load_prefix h' sizes'
  have hfail : ¬(42 : ℤ) < 0 := by decide
  change Same (rmrAtaLoadFd _ 42) (rmrAtaLoadFd _ 42) ↔ _
  by_cases hc : Complete m file
  · rw [hload.mpr hc]
    by_cases hc' : Complete m' file'
    · rw [hload'.mpr hc']
      simp [Same, hc, hc', Vector.toList_inj]
    · refine iff_of_false ?_ (by simp [hc, hc'])
      have hcode := hneg' hc'
      rintro (heq | ⟨hle, -⟩)
      · rw [← heq] at hcode
        exact hfail hcode
      · exact absurd hle (show ¬(42 : ℤ) ≤ 0 by decide)
  · by_cases hc' : Complete m' file'
    · rw [hload'.mpr hc']
      refine iff_of_false ?_ (by simp [hc, hc'])
      have hcode := hneg hc
      rintro (heq | ⟨-, hle⟩)
      · rw [heq] at hcode
        exact hfail hcode
      · exact absurd hle (show ¬(42 : ℤ) ≤ 0 by decide)
    · exact iff_of_true (.inr ⟨(hneg hc).le, (hneg' hc').le⟩) (.inr ⟨hc, hc'⟩)

/-- What two runs of `rafaelia_core.c` leave behind, each in its own build, is reported on
alike, under the same readings, exactly if both files can be loaded, with the same
signature and cycle values, or neither can. -/
theorem core_to_sync (target target' : Hwif.BuildTarget) (m m' : Machine) :
    ∃ run run', coreMain target m = .ok run ∧ coreMain target' m' = .ok run' ∧
      ∀ file file', run.file = some file → run'.file = some file' → ∀ r sizes sizes',
        (SyncFast.run r (some (.inReads file sizes)) =
            SyncFast.run r (some (.inReads file' sizes')) ↔
          (Complete m file ∧ Complete m' file' ∧ m.cpuId = m'.cpuId ∧ m.cycles = m'.cycles) ∨
            (¬Complete m file ∧ ¬Complete m' file')) ∧
        (SyncOmega.run r (some (.inReads file sizes)) =
            SyncOmega.run r (some (.inReads file' sizes')) ↔
          (Complete m file ∧ Complete m' file' ∧ m.cpuId = m'.cpuId ∧ m.cycles = m'.cycles) ∨
            (¬Complete m file ∧ ¬Complete m' file')) := by
  obtain ⟨run, hrun, hfront⟩ := coreMain_prefix target m
  obtain ⟨run', hrun', hfront'⟩ := coreMain_prefix target' m'
  refine ⟨run, run', hrun, hrun', fun file file' hfile hfile' r sizes sizes' => ?_⟩
  have hsame := same_iff (hfront file hfile) (hfront' file' hfile') sizes sizes'
  exact ⟨(SyncFast.run_eq_iff r _ _).trans hsame, (SyncOmega.run_eq_iff r _ _).trans hsame⟩

end Blake3.Ata
