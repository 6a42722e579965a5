import Blake3.Fc16.Entry
import Blake3.Fc16.Session
import Blake3.Lib.Numeral

/-!
What a run of the adapter does once it has scanned: the comparison of the two
snapshots, the three files, of which each holds a front of what it is to hold,
and the report.
-/

namespace Blake3.Fc16.Adapter

open ShortReads ShortWrites

/-! ### The warm-up -/

theorem apply16_apply16 (a m : Vector Byte 16) : apply16 (apply16 a m) m = a := by
  ext i hi
  have hget : ∀ t : Vector Byte 16, (apply16 t m)[i] = t[i] ^^^ m[i] :=
    fun t => Vector.getElem_ofFn hi
  rw [hget, hget, UInt8.xor_assoc, UInt8.xor_self, UInt8.xor_zero]

/-- A lane is changed back. -/
theorem warmupLane_eq (r : ℕ) (lane : Fin 16) (a b : Vector Byte 16) :
    warmupLane r lane a b = a := by
  rw [warmupLane, apply16_apply16]
  ext1 i hi
  have hflip : ∀ t : Vector Byte 16,
      (t.setIfInBounds (r % 16) (t.get (Fin.ofNat 16 r) ^^^ UInt8.ofNat (lane + r)))[i] =
        if r % 16 = i then t[i] ^^^ UInt8.ofNat (lane + r) else t[i] := by
    intro t
    rw [Vector.getElem_setIfInBounds hi]
    split_ifs with h
    · subst h
      rfl
    · rfl
  rw [hflip, hflip]
  split_ifs
  · rw [UInt8.xor_assoc, UInt8.xor_self, UInt8.xor_zero]
  · rfl

/-- The warm-up changes nothing. -/
theorem warmup_eq (a b : WarmBuffer) (rounds : ℕ) : warmup a b rounds = a := by
  have hround : ∀ (a : WarmBuffer) (r : ℕ),
      (Vector.ofFn fun lane => warmupLane r lane (a.get lane) (b.get lane)) = a := by
    intro a r
    ext1 lane hlane
    rw [Vector.getElem_ofFn, warmupLane_eq]
    rfl
  rw [warmup]
  simp only [hround]
  exact List.foldl_fixed _

/-! ### Snapshots -/

theorem halves_eq_zero (x : UInt64) : x.toUInt32 = 0 ∧ (x >>> 32).toUInt32 = 0 ↔ x = 0 := by
  constructor
  · rintro ⟨hlow, hhigh⟩
    have hlow := congrArg UInt32.toNat hlow
    have hhigh := congrArg UInt32.toNat hhigh
    rw [UInt64.toNat_toUInt32] at hlow hhigh
    rw [UInt64.toNat_shiftRight, show UInt64.toNat 32 % 64 = 32 from rfl,
      Nat.shiftRight_eq_div_pow] at hhigh
    have hlt := x.toNat_lt
    apply UInt64.toNat_inj.mp
    rw [show UInt32.toNat 0 = 0 from rfl] at hlow hhigh
    rw [show UInt64.toNat 0 = 0 from rfl]
    omega
  · rintro rfl
    decide

theorem get_eq_iff {α : Type} {n : ℕ} {a b : Vector α n} : (∀ i, a.get i = b.get i) ↔ a = b := by
  constructor
  · intro h
    ext i hi
    exact h ⟨i, hi⟩
  · rintro rfl i
    rfl

/-- Snapshots are equal when all that they say of the entries is; what they say of
the machine and of the time is not compared. -/
theorem snapshotEqual_iff (a b : Snapshot) :
    snapshotEqual a b = true ↔
      a.rootCrc32c = b.rootCrc32c ∧ a.pathCountLow = b.pathCountLow ∧ a.entryCount = b.entryCount ∧
      a.totalBytes = b.totalBytes ∧ a.laneCrc32c = b.laneCrc32c ∧ a.laneXorFold = b.laneXorFold ∧
      a.laneBytes = b.laneBytes ∧ a.sha256 = b.sha256 := by
  have hor : ∀ a b : Word, a ||| b = 0 ↔ a = 0 ∧ b = 0 := fun a b => UInt32.or_eq_zero_iff
  have hbyte : ∀ x : Byte, x.toUInt32 = 0 ↔ x = 0 := by
    intro x
    rw [← UInt32.toNat_inj, ← UInt8.toNat_inj, UInt8.toNat_toUInt32]
    rfl
  rw [snapshotEqual, decide_eq_true_eq, snapshotDiff]
  simp only [UInt32.or_assoc]
  rw [Buffer.foldl_or_eq_zero hor, Buffer.foldl_or_eq_zero hor]
  have hcount := halves_eq_zero (a.entryCount ^^^ b.entryCount)
  rw [UInt64.xor_eq_zero_iff] at hcount
  simp only [hor, halves_eq_zero, hbyte, UInt32.xor_eq_zero_iff, UInt64.xor_eq_zero_iff,
    UInt8.xor_eq_zero_iff, List.mem_finRange, true_implies, forall_and, get_eq_iff]
  constructor
  · rintro ⟨⟨⟨hroot, hpath, hlow, hhigh, htotal⟩, hcrc, hfold, hbytes⟩, hsha⟩
    exact ⟨hroot, hpath, hcount.mp ⟨hlow, hhigh⟩, htotal, hcrc, hfold, hbytes, hsha⟩
  · rintro ⟨hroot, hpath, hentries, htotal, hcrc, hfold, hbytes, hsha⟩
    have hhalves := hcount.mpr hentries
    exact ⟨⟨⟨hroot, hpath, hhalves.1, hhalves.2, htotal⟩, hcrc, hfold, hbytes⟩, hsha⟩

/-! ### Files -/

section Files

variable (opened : Artifact → Option (ℕ → ℕ))

/-- A file that can be opened and takes whatever is written. -/
def Reliable (file : Option (ℕ → ℕ)) : Prop := ∃ plan, file = some plan ∧ ∀ i, 0 < plan i

/-- A file holds a front of what is written to it, and all of it exactly on success. -/
theorem writeFile_spec (file : Option (ℕ → ℕ)) (p : List Byte) :
    ((writeFile file p).1 = .ok ↔ (writeFile file p).2 = some p) ∧
      (∀ content, (writeFile file p).2 = some content → content <+: p) ∧
      (Reliable file → (writeFile file p).1 = .ok) := by
  rcases file with _ | plan
  · have hnone : writeFile none p = (.errState, none) := rfl
    rw [hnone]
    refine ⟨by simp, by simp, ?_⟩
    rintro ⟨plan, hplan, -⟩
    cases hplan
  · obtain ⟨n, hn, hwritten, hok⟩ := writeFrom_spec (s := ⟨[], plan⟩) (Nat.zero_le p.length)
    have hreliable : Reliable (some plan) → (writeFrom p 0 ⟨[], plan⟩).1 = true := by
      rintro ⟨plan', hplan, hpos⟩
      cases hplan
      exact (writeFrom_reliable (s := ⟨[], plan⟩) hpos).1
    rw [writeFile]
    rw [List.drop_zero, List.nil_append] at hwritten
    rw [List.drop_zero] at hok hn
    generalize writeFrom p 0 ⟨[], plan⟩ = result at hwritten hok hreliable
    obtain ⟨ok, s⟩ := result
    dsimp only at hwritten hok hreliable ⊢
    have hall : n = p.length ↔ s.written = p := by
      rw [hwritten]
      constructor
      · rintro rfl
        exact List.take_length
      · intro h
        have hlength := congrArg List.length h
        rw [List.length_take] at hlength
        omega
    cases ok with
    | true =>
        refine ⟨by simp [← hall, ← hok], ?_, fun _ => rfl⟩
        rintro content ⟨⟩
        exact hwritten ▸ List.take_prefix n p
    | false =>
        refine ⟨by simp [← hall, ← hok], ?_, fun h => absurd (hreliable h) (by decide)⟩
        rintro content ⟨⟩
        exact hwritten ▸ List.take_prefix n p

theorem writeFiles_cons (bytes : Artifact → List Byte) (a : Artifact) (todo : List Artifact)
    (files : Artifact → Option (List Byte)) :
    writeFiles opened bytes (a :: todo) files =
      if (writeFile (opened a) (bytes a)).1 = .ok
      then writeFiles opened bytes todo (Function.update files a (writeFile (opened a) (bytes a)).2)
      else ((writeFile (opened a) (bytes a)).1,
        Function.update files a (writeFile (opened a) (bytes a)).2) := by
  rw [writeFiles]
  generalize writeFile (opened a) (bytes a) = result
  obtain ⟨status, content⟩ := result
  cases status <;> rfl

theorem writeFiles_spec (bytes : Artifact → List Byte) {todo : List Artifact} (hnodup : todo.Nodup)
    {files : Artifact → Option (List Byte)} (hfiles : ∀ a ∈ todo, files a = none) :
    ((writeFiles opened bytes todo files).1 = .ok ↔
        ∀ a ∈ todo, (writeFiles opened bytes todo files).2 a = some (bytes a)) ∧
      (∀ a ∈ todo, ∀ content, (writeFiles opened bytes todo files).2 a = some content →
        content <+: bytes a) ∧
      (∀ a ∉ todo, (writeFiles opened bytes todo files).2 a = files a) ∧
      ((∀ a ∈ todo, Reliable (opened a)) → (writeFiles opened bytes todo files).1 = .ok) := by
  induction todo generalizing files with
  | nil => exact ⟨by simp [writeFiles], by simp, fun _ _ => rfl, fun _ => rfl⟩
  | cons a todo ih =>
      obtain ⟨hnotin, hnodup⟩ := List.nodup_cons.mp hnodup
      obtain ⟨hok, hfront, hreliable⟩ := writeFile_spec (opened a) (bytes a)
      rw [writeFiles_cons]
      generalize writeFile (opened a) (bytes a) = result at hok hfront hreliable
      obtain ⟨status, content⟩ := result
      dsimp only at hok hfront hreliable
      have hrest : ∀ b ∈ todo, Function.update files a content b = none := by
        intro b hb
        rw [Function.update_of_ne (ne_of_mem_of_not_mem hb hnotin)]
        exact hfiles b (List.mem_cons_of_mem _ hb)
      by_cases hstatus : status = .ok
      · subst hstatus
        obtain ⟨hok', hfront', hother, hreliable'⟩ := ih hnodup hrest
        -- the files after the first do not touch it
        have hfirst :
            (writeFiles opened bytes todo (Function.update files a content)).2 a = content := by
          rw [hother a hnotin, Function.update_self]
        rw [if_pos rfl]
        refine ⟨?_, ?_, ?_, fun h => hreliable' fun b hb => h b (List.mem_cons_of_mem _ hb)⟩
        · rw [List.forall_mem_cons, hfirst, hok', ← hok]
          exact (and_iff_right rfl).symm
        · rw [List.forall_mem_cons, hfirst]
          exact ⟨hfront, hfront'⟩
        · intro b hb
          rw [List.mem_cons, not_or] at hb
          rw [hother b hb.2, Function.update_of_ne hb.1]
      · rw [if_neg hstatus]
        dsimp only
        refine ⟨?_, ?_, ?_, fun h => absurd (hreliable (h a List.mem_cons_self)) hstatus⟩
        · refine iff_of_false hstatus fun h => hstatus (hok.mpr ?_)
          rw [← h a List.mem_cons_self, Function.update_self]
        · rw [List.forall_mem_cons, Function.update_self]
          refine ⟨hfront, fun b hb content' hcontent => ?_⟩
          rw [hrest b hb] at hcontent
          cases hcontent
        · intro b hb
          rw [List.mem_cons, not_or] at hb
          rw [Function.update_of_ne hb.1]

end Files

/-! ### The report -/

theorem digit_lt : ∀ d < 10, Char.ofNat ('0'.toNat + d) = Nat.digitChar d := by decide

theorem u64Digits_eq {places : ℕ} {v : UInt64} (text : Str)
    (h : (Nat.digits 10 v.toNat).length ≤ places) :
    u64Digits places v text = (Nat.digits 10 v.toNat).reverse.map Nat.digitChar ++ text := by
  induction places generalizing v text with
  | zero =>
      rw [List.length_eq_zero_iff.mp (Nat.le_zero.mp h)]
      rfl
  | succ places ih =>
      rw [u64Digits]
      split_ifs with hv
      · subst hv
        rfl
      · have hpos : 0 < v.toNat := Nat.pos_of_ne_zero fun hzero => hv (UInt64.toNat_inj.mp hzero)
        have hdigits : Nat.digits 10 v.toNat = v.toNat % 10 :: Nat.digits 10 (v / 10).toNat := by
          rw [Nat.digits_def' (by decide) hpos, UInt64.toNat_div]
          rfl
        rw [hdigits, List.length_cons] at h
        rw [ih _ (by omega), hdigits, List.reverse_cons, List.map_append, List.append_assoc,
          UInt64.toNat_mod, show UInt64.toNat 10 = 10 from rfl,
          digit_lt _ (Nat.mod_lt _ (by decide))]
        rfl

/-- A number in decimal, and the end of the line. -/
theorem u64Text_eq (v : UInt64) : u64Text v = Nat.toDigits 10 v.toNat ++ ['\n'] := by
  rw [u64Text, Numeral.toDigits_eq (by decide)]
  split_ifs with hv
  · subst hv
    rfl
  · have hne : v.toNat ≠ 0 := fun hzero => hv (UInt64.toNat_inj.mp hzero)
    have hlength : (Nat.digits 10 v.toNat).length ≤ 31 := by
      rw [Nat.digits_length_le_iff (by decide)]
      exact v.toNat_lt.trans (by decide)
    rw [u64Digits_eq _ hlength, Numeral.digitsOf_of_ne_zero 10 hne]

theorem length_u64Text_le (v : UInt64) : (u64Text v).length ≤ 21 := by
  rw [u64Text_eq, Numeral.toDigits_eq (by decide), List.length_append, List.length_map,
    List.length_reverse]
  have hle := Numeral.length_digitsOf_le (show 1 < 10 by decide) (show 0 < 20 by decide)
    (v.toNat_lt.trans (by decide : 2 ^ 64 < 10 ^ 20))
  exact Nat.succ_le_succ hle

theorem length_hex32Text (v : Word) : (hex32Text v).length = 11 := rfl

/-- A terminal that takes lines of this program whole. -/
def Wide (t : Sink Char) : Prop := ∀ i, 32 ≤ t.plan i

/-- What is written to a wide terminal is on it. -/
theorem write_wide {t : Sink Char} (h : Wide t) {text : Str} (hlength : text.length ≤ 32) :
    (t.write text).2 = ⟨t.written ++ text, fun i => t.plan (i + 1)⟩ := by
  rw [Sink.write]
  dsimp only
  rw [Nat.min_eq_left (hlength.trans (h 0)), List.take_length]

theorem out_wide {t : Sink Char} (h : Wide t) {text : Str} (hne : text ≠ [])
    (hlength : text.length ≤ 32) : out text t = ⟨t.written ++ text, fun i => t.plan (i + 1)⟩ := by
  have hpos : 0 < text.length := List.length_pos_iff.mpr hne
  obtain ⟨n, hn⟩ : ∃ n, text.length = n + 1 := ⟨text.length - 1, by omega⟩
  have hwrite : t.write text = (n + 1, ⟨t.written ++ text, fun i => t.plan (i + 1)⟩) := by
    refine Prod.ext ?_ (write_wide h hlength)
    rw [Sink.write, ← hn]
    exact Nat.min_eq_left (hlength.trans (h 0))
  rw [out, writeFrom, if_pos hpos, List.drop_zero, hwrite]
  dsimp only
  rw [Nat.zero_add, ← hn, writeFrom_length]

/-- A name and a number behind it. -/
theorem outU64_wide {t : Sink Char} (h : Wide t) (text : Str) (hne : text ≠ [])
    (hlength : text.length ≤ 32) (v : UInt64) :
    (outU64 v (out text t)).written = t.written ++ (text ++ u64Text v) ∧
      Wide (outU64 v (out text t)) := by
  have hwide : Wide ⟨t.written ++ text, fun i => t.plan (i + 1)⟩ := fun i => h (i + 1)
  rw [out_wide h hne hlength, outU64, write_wide hwide ((length_u64Text_le v).trans (by decide))]
  exact ⟨List.append_assoc _ _ _, fun i => h (i + 2)⟩

/-- What a run that went well reports. -/
def reportText (s : Snapshot) : Str :=
  "FC16_OK\nroot_crc32c=".toList ++ hex32Text s.rootCrc32c ++
    ("scan_a_ns=".toList ++ u64Text s.benchmarkANs) ++
    ("scan_b_ns=".toList ++ u64Text s.benchmarkBNs) ++
      ("entries=".toList ++ u64Text s.entryCount) ++
    ("bytes=".toList ++ u64Text s.totalBytes) ++ ("seal_bytes=".toList ++ u64Text 376) ++
    ("zip_bytes=".toList ++ u64Text 500) ++ ("digest_bytes=".toList ++ u64Text 76)

theorem report_wide (m : Machine) (s : Snapshot) (h : ∀ i, 32 ≤ m.terminal i) :
    m.report s 376 500 76 = reportText s := by
  have h₀ : Wide ⟨[], m.terminal⟩ := h
  have hfirst : outHex32 s.rootCrc32c (out "FC16_OK\nroot_crc32c=".toList ⟨[], m.terminal⟩) =
      ⟨"FC16_OK\nroot_crc32c=".toList ++ hex32Text s.rootCrc32c, fun i => m.terminal (i + 2)⟩ := by
    have h₁ : Wide ⟨"FC16_OK\nroot_crc32c=".toList, fun i => m.terminal (i + 1)⟩ :=
      fun i => h (i + 1)
    rw [out_wide h₀ (by decide) (by decide), outHex32]
    exact write_wide h₁ ((length_hex32Text _).trans_le (by decide))
  unfold Machine.report reportText
  dsimp only
  rw [hfirst]
  have h₁ : Wide ⟨"FC16_OK\nroot_crc32c=".toList ++ hex32Text s.rootCrc32c,
    fun i => m.terminal (i + 2)⟩ := fun i => h (i + 2)
  have h₂ := outU64_wide h₁ "scan_a_ns=".toList (by decide) (by decide) s.benchmarkANs
  have h₃ := outU64_wide h₂.2 "scan_b_ns=".toList (by decide) (by decide) s.benchmarkBNs
  have h₄ := outU64_wide h₃.2 "entries=".toList (by decide) (by decide) s.entryCount
  have h₅ := outU64_wide h₄.2 "bytes=".toList (by decide) (by decide) s.totalBytes
  have h₆ := outU64_wide h₅.2 "seal_bytes=".toList (by decide) (by decide) (UInt64.ofNat 376)
  have h₇ := outU64_wide h₆.2 "zip_bytes=".toList (by decide) (by decide) (UInt64.ofNat 500)
  have h₈ := outU64_wide h₇.2 "digest_bytes=".toList (by decide) (by decide) (UInt64.ofNat 76)
  rw [h₈.1, h₇.1, h₆.1, h₅.1, h₄.1, h₃.1, h₂.1]
  rfl

/-! ### The three files -/

/-- The seal of a snapshot. -/
def sealOf (s : Snapshot) : List Byte := sealBody s ++ putU32 (crc32c (sealBody s))

theorem length_sealOf (s : Snapshot) : (sealOf s).length = 376 := by
  rw [sealOf, List.length_append, length_sealBody]
  rfl

theorem exists_sha256Of (p : List Byte) : ∃ digest, sha256Of p = .ok digest := by
  obtain ⟨c, hupdate, hready⟩ := lawful_sha256.update _ p lawful_sha256.init
  obtain ⟨⟨c', digest⟩, hfinal⟩ := lawful_sha256.final c hready
  refine ⟨digest, ?_⟩
  rw [sha256Of, hupdate, Result.ok_bind, hfinal]
  rfl

theorem exists_digestMake (gSeal gZip : List Byte) :
    ∃ gDigest, digestMake gSeal gZip = .ok gDigest ∧ gDigest.length = 76 := by
  obtain ⟨d, hd⟩ := exists_sha256Of gSeal
  obtain ⟨d', hd'⟩ := exists_sha256Of gZip
  refine ⟨digestMagic ++ d.toList ++ d'.toList ++
    putU32 (crc32c (digestMagic ++ d.toList ++ d'.toList)), ?_, ?_⟩
  · rw [digestMake, hd, Result.ok_bind, hd']
    rfl
  · simp [digestMagic]

/-- What the files of a snapshot are to hold. -/
def fileBytes (s : Snapshot) (gDigest : List Byte) : Artifact → List Byte :=
  artifactBytes (sealOf s) (archive (sealOf s)) gDigest

/-- A run that has got as far as its files: each holds a front of what it is to hold,
and the run says whether all of them are complete. -/
structure Stored (m : Machine) (s : Snapshot) (gDigest : List Byte) (run : CustodyRun) : Prop where
  digest : digestMake (sealOf s) (archive (sealOf s)) = .ok gDigest
  front : ∀ file content, run.files file = some content → content <+: fileBytes s gDigest file
  complete : run.code = .ok ↔ ∀ file, run.files file = some (fileBytes s gDigest file)
  code : run.code = .ok ∨ run.code = .errState
  reliable : (∀ file, Reliable (m.opened file)) → run.code = .ok
  printed : run.code = .ok → (∀ i, 32 ≤ m.terminal i) → run.printed = reportText s

theorem zipStore_sealOf (s : Snapshot) :
    ∃ mem, zipStore (sealOf s) (List.replicate zipCapacity 0) = .ok (.ok (mem, 500)) ∧
      mem.take 500 = archive (sealOf s) := by
  have hlength : (archive (sealOf s)).length = 500 := by rw [length_archive, length_sealOf]
  have hstore : zipStore (sealOf s) (List.replicate zipCapacity 0) =
      .ok (.ok (Buffer.overwrite (List.replicate zipCapacity 0) 0 (archive (sealOf s)),
        (sealOf s).length + 124)) :=
    zipStore_eq (by rw [length_sealOf]; decide)
      (by rw [length_sealOf, List.length_replicate]; decide)
  rw [length_sealOf] at hstore
  refine ⟨_, hstore, ?_⟩
  rw [Buffer.overwrite, List.take_zero, List.nil_append]
  exact List.take_left' hlength

theorem verifySeal_sealOf (s : Snapshot) : verifySeal (some (sealOf s)) = .ok := by
  have hle : sealBytes ≤ sealCapacity := by decide
  obtain ⟨bytes, hbytes, -, hverify⟩ := verifySeal_sealSnapshot (s := s) hle
  have hseal : sealSnapshot s sealCapacity = .ok (sealOf s) := if_neg (Nat.not_lt_of_le hle)
  obtain rfl := Except.ok.inj (hseal.symm.trans hbytes)
  exact hverify

/-- Neither the seal nor the archive is ever refused by its own check. -/
theorem store_spec (m : Machine) (s : Snapshot) :
    ∃ run gDigest, m.store s = .ok run ∧ Stored m s gDigest run := by
  have hseal : sealSnapshot s sealCapacity = .ok (sealOf s) := if_neg (by decide)
  obtain ⟨mem, hzip, htake⟩ := zipStore_sealOf s
  have hroundtrip : zipVerifyRoundtrip (some (archive (sealOf s))) (some (sealOf s)) = .ok .ok :=
    zipVerifyRoundtrip_archive (by rw [length_sealOf]; decide)
  obtain ⟨gDigest, hdigest, hlength⟩ := exists_digestMake (sealOf s) (archive (sealOf s))
  have hall : ∀ file, file ∈ [Artifact.bin, .zip, .digest] := by
    intro file
    cases file <;> simp
  have hnodup : [Artifact.bin, .zip, .digest].Nodup := by decide
  have hnone : ∀ file ∈ [Artifact.bin, .zip, .digest],
      (fun _ => none : Artifact → Option (List Byte)) file = none := fun _ _ => rfl
  obtain ⟨hok, hfront, -, hreliable⟩ :=
    writeFiles_spec m.opened (fileBytes s gDigest) hnodup hnone
  rw [Machine.store, hseal]
  dsimp only
  rw [if_neg (not_not.mpr (verifySeal_sealOf s)), hzip, Result.ok_bind]
  dsimp only
  rw [htake, hroundtrip, Result.ok_bind, if_neg (by decide), hdigest, Result.ok_bind, ← fileBytes,
    length_sealOf, hlength]
  generalize writeFiles m.opened (fileBytes s gDigest) [.bin, .zip, .digest] (fun _ => none) =
    result at hok hfront hreliable
  obtain ⟨status, files⟩ := result
  cases status with
  | ok =>
      refine ⟨_, gDigest, rfl, hdigest, fun file => hfront file (hall file), ?_, .inl rfl,
        fun _ => rfl, fun _ hwide => report_wide m s hwide⟩
      exact iff_of_true rfl fun file => hok.mp rfl file (hall file)
  | _ =>
      refine ⟨_, gDigest, rfl, hdigest, fun file => hfront file (hall file), ?_, .inr rfl,
        fun h => ?_, fun h => by cases h⟩
      · exact iff_of_false (fun h => by cases h)
          fun h => absurd (hok.mpr fun file _ => h file) (by simp)
      · exact absurd (hreliable fun file _ => h file) (by simp)

end Blake3.Fc16.Adapter
