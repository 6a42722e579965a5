import Blake3.Fc16.EntryFiles
import Blake3.Fc16.Lockstep

/-!
Whole runs of the adapter. Nothing is written before two scans have given the
same snapshot; what is written is the snapshot of what was found, and the
status says whether all of it was.
-/

namespace Blake3.Fc16.Adapter

open ShortReads ShortWrites

/-! ### What is sealed -/

namespace Machine

variable (m : Machine)

/-- The temperatures, of which the second counts only if there is a first. -/
def before : Word := readTemp m.tempBefore
def after : Word := if m.before = 0 then 0 else readTemp m.tempAfter

/-- The context before the first entry. -/
def context {σ : Type} (s : σ) : Context σ :=
  .initial m.hwStamp m.before (if m.before = 0 then 0 else 85000)
    (if m.before = 0 then 0 else 5000) s

/-- Whether the temperatures are within the limits. -/
def accepted : Bool := thermalAccepted (m.context ()) m.after

/-- What the hash is fed for some entries. -/
def stream (entries : List Entry) : List Byte :=
  tag ++ ((entries.map Entry.record).flatten ++
    Log.finalMeta { closed := entries, opened := none } m.before m.after)

/-- What is compared of a scan. -/
def scanned (entries : List Entry) (digest : Vector Byte 32) : Snapshot :=
  Log.snapshot { closed := entries, opened := none } (m.context ()) m.after digest

/-- What is sealed. -/
def snapshot (entries : List Entry) (digest : Vector Byte 32) : Snapshot :=
  { m.scanned entries digest with
    flags := (m.scanned entries digest).flags ||| flagSnapshotMatch
    warmupRounds := 3
    benchmarkSamples := 2
    benchmarkANs := nowNs (m.clock 1) - nowNs (m.clock 0)
    benchmarkBNs := nowNs (m.clock 2) - nowNs (m.clock 1) }

/-- The entries that the two scans find, each logged. -/
def Finds (a b : List Entry) : Prop :=
  ∃ g g', m.scanA.run logEmit .empty .start = .ok (.ok, { closed := a, opened := none }, g) ∧
    m.scanB.run logEmit .empty g = .ok (.ok, { closed := b, opened := none }, g')

end Machine

variable {m : Machine} {a b : List Entry}

/-- The stream of entries tells them. -/
theorem stream_inj (ha : ∀ e ∈ a, e.Readable) (hb : ∀ e ∈ b, e.Readable)
    (h : m.stream a = m.stream b) : a = b :=
  (records_inj ha hb (List.append_cancel_left h)).1

theorem Tracked.readable {entries : List Entry}
    (h : Tracked { closed := entries, opened := none }) : ∀ e ∈ entries, e.Readable := by
  intro e he
  have hmem : e ∈ Log.entries { closed := entries, opened := none } := by
    rwa [Log.entries_of_none rfl]
  exact ⟨h.checked.path e hmem, h.checked.size e he, h.data e hmem⟩

/-! ### Finalizing -/

/-- A state of SHA-256 between two updates. -/
abbrev ShaReady (c : Sha256Ctx) : Prop := c.bufferLen < 64

variable {s : Sha256Ctx}

theorem finalize_scanned (hs : sha256.update sha256.init tag = .ok s) {c : Context Sha256Ctx}
    (hc : Keeps sha256 ShaReady (m.context s) { closed := a, opened := none } c) :
    ∃ c' digest, sha256Of (m.stream a) = .ok digest ∧
      finalize sha256 c m.after true =
        .ok (if m.accepted then .ok else .errThermal, c', some (m.scanned a digest)) := by
  obtain ⟨s₁, s₂, digest, c', hupdate, -, hfinal, -, -, hfinalize⟩ :=
    finalize_eq lawful_sha256 hc rfl m.after
  refine ⟨c', digest, ?_, hfinalize⟩
  have hstream : sha256.update sha256.init (m.stream a) = .ok s₁ := by
    rw [Machine.stream, lawful_sha256.append _ _ _ _ hs, ← hupdate, Log.stream_of_none rfl]
    rfl
  rw [sha256Of, hstream, Result.ok_bind, hfinal]
  rfl

/-- The end of a run behind two scans that worked. -/
theorem compare_eq (hs : sha256.update sha256.init tag = .ok s) {ca cb : Context Sha256Ctx}
    (hca : Keeps sha256 ShaReady (m.context s) { closed := a, opened := none } ca)
    (hcb : Keeps sha256 ShaReady (m.context s) { closed := b, opened := none } cb) :
    ∃ da db, sha256Of (m.stream a) = .ok da ∧ sha256Of (m.stream b) = .ok db ∧
      m.compare m.before ca cb =
        if m.accepted then
          if snapshotEqual (m.scanned a da) (m.scanned b db) then m.store (m.snapshot a da)
          else .ok (m.leaves .errIntegrity "FC16_SNAPSHOT_MISMATCH\n".toList)
        else .ok (m.leaves .errThermal "FC16_THERMAL_REJECT\n".toList) := by
  obtain ⟨ca', da, hda, hfa⟩ := finalize_scanned hs hca
  obtain ⟨cb', db, hdb, hfb⟩ := finalize_scanned hs hcb
  refine ⟨da, db, hda, hdb, ?_⟩
  unfold Machine.compare
  dsimp only
  rw [← Machine.after, hfa, hfb]
  simp only [Result.ok_bind]
  cases m.accepted with
  | false => simp only [Bool.false_eq_true, if_false, true_or, if_true, Result.pure_eq]
  | true =>
      simp only [if_true, reduceCtorEq, or_self, if_false, ne_eq, not_true_eq_false,
        Bool.not_eq_true, Result.pure_eq]
      cases snapshotEqual (m.scanned a da) (m.scanned b db) with
      | false => simp only [Bool.false_eq_true, if_true, if_false]
      | true => simp only [Bool.true_eq_false, if_true, if_false]; rfl

/-! ### Scanning -/

/-- No file that a scan can find has `2 ^ 64` bytes. -/
def Scan.Small (scan : Scan) : Prop := ∀ root, scan.root = some root → Adapter.Small root

theorem Scan.run_together {M : Type} {emit : M → Call → Result (Status × M)} {R : Log → M → Prop}
    (hobeys : Obeys emit R) {scan : Scan} (hsmall : scan.Small) (g : Globals) {x : M}
    (hx : R .empty x) : Together R (scan.run emit x g) (scan.run logEmit .empty g) := by
  rw [Scan.run, Scan.run]
  rcases hroot : scan.root with _ | root
  · exact ⟨.errState, x, .empty, g, rfl, rfl, hx, tracked_empty, fun h => by cases h⟩
  · exact snapshotRoot_together hobeys scan.kernel (hsmall root hroot) g hx

/-- A log that a scan ends with when it ends well. -/
theorem eq_closed {log : Log} (h : log.opened = none) :
    log = { closed := log.closed, opened := none } := by
  cases log
  cases h
  rfl

theorem entry_eq (hs : sha256.update sha256.init tag = .ok s) {rc : Status} {ca : Context Sha256Ctx}
    {g : Globals} (hrun : m.scanA.run (step sha256) (m.context s) .start = .ok (rc, ca, g)) :
    m.entry = if rc ≠ .ok then pure (m.leaves rc "FC16_SCAN_A_FAIL\n".toList)
      else m.scanB.run (step sha256) (m.context s) g >>= fun (rc, cb, _) =>
        if rc ≠ .ok then pure (m.leaves rc "FC16_SCAN_B_FAIL\n".toList)
        else m.compare m.before ca cb := by
  have hinit : init sha256 m.hwStamp m.before (if m.before = 0 then 0 else 85000)
      (if m.before = 0 then 0 else 5000) = .ok (m.context s) := init_eq hs
  unfold Machine.entry
  dsimp only
  rw [← Machine.before, hinit, Result.ok_bind, Result.ok_bind, hrun, Result.ok_bind]

/-- A run either ends in a scan, and then the scans do not work, or compares what
both have found. -/
theorem entry_cases (hA : m.scanA.Small) (hB : m.scanB.Small) :
    (∃ rc text, rc ≠ .ok ∧ m.entry = .ok (m.leaves rc text) ∧ ∀ a b, ¬m.Finds a b) ∨
      ∃ a b da db, m.Finds a b ∧ (∀ e ∈ a, e.Readable) ∧ (∀ e ∈ b, e.Readable) ∧
        sha256Of (m.stream a) = .ok da ∧ sha256Of (m.stream b) = .ok db ∧
        m.entry =
          if m.accepted then
            if snapshotEqual (m.scanned a da) (m.scanned b db) then m.store (m.snapshot a da)
            else .ok (m.leaves .errIntegrity "FC16_SNAPSHOT_MISMATCH\n".toList)
          else .ok (m.leaves .errThermal "FC16_THERMAL_REJECT\n".toList) := by
  obtain ⟨s, hs, hready⟩ := lawful_sha256.update _ tag lawful_sha256.init
  have hempty : Keeps sha256 ShaReady (m.context s) .empty (m.context s) :=
    keeps_initial lawful_sha256 _ _ _ _ hready
  obtain ⟨rc, ca, loga, g, hrun, hlogged, hca, hta, hopened⟩ :=
    Scan.run_together (obeys_keeps lawful_sha256 (m.context s)) hA .start hempty
  have hentry := entry_eq hs hrun
  by_cases hrc : rc = .ok
  swap
  · rw [if_pos hrc] at hentry
    refine .inl ⟨rc, _, hrc, hentry, ?_⟩
    rintro a b ⟨g', -, hfinds, -⟩
    rw [hlogged] at hfinds
    exact hrc (congrArg Prod.fst (Except.ok.inj hfinds))
  subst hrc
  have hloga := eq_closed (hopened rfl)
  obtain ⟨rc, cb, logb, g', hrun', hlogged', hcb, htb, hopened'⟩ :=
    Scan.run_together (obeys_keeps lawful_sha256 (m.context s)) hB g hempty
  rw [if_neg (by simp), hrun', Result.ok_bind] at hentry
  dsimp only at hentry
  by_cases hrc : rc = .ok
  swap
  · rw [if_pos hrc] at hentry
    refine .inl ⟨rc, _, hrc, hentry, ?_⟩
    rintro a b ⟨g₁, g₂, hfinds, hfinds'⟩
    rw [hlogged] at hfinds
    obtain rfl := (Prod.mk.inj (Prod.mk.inj (Except.ok.inj hfinds)).2).2
    rw [hlogged'] at hfinds'
    exact hrc (congrArg Prod.fst (Except.ok.inj hfinds'))
  subst hrc
  have hlogb := eq_closed (hopened' rfl)
  rw [if_neg (by simp)] at hentry
  rw [hloga] at hca hta hlogged
  rw [hlogb] at hcb htb hlogged'
  obtain ⟨da, db, hda, hdb, hcompare⟩ := compare_eq hs hca hcb
  exact .inr ⟨loga.closed, logb.closed, da, db, ⟨g, g', hlogged, hlogged'⟩, hta.readable,
    htb.readable, hda, hdb, hentry.trans hcompare⟩

/-! ### Directories of files -/

section Flat

variable {root : Children}

def Flat (root : Children) : Prop := ∀ c ∈ root, ∃ content, c.2 = .regular content

/-- A kernel that returns a directory record by record. -/
def flatKernel (root : Children) : Kernel where
  getdents := fun _ => root.map fun c => [{ ino := 1, off := 1, type := 8, name := c.1, pad := [] }]
  getdentsFails := fun _ => false
  statx := fun _ => none
  reads := fun _ _ _ => 0

/-- A machine without sensor and without clock on which everything can be written. -/
def flatMachine (root : Children) : Machine where
  hwStamp := 1
  tempBefore := none
  tempAfter := none
  clock := fun _ => none
  scanA := { root := some root, kernel := flatKernel root }
  scanB := { root := some root, kernel := flatKernel root }
  opened := fun _ => some fun _ => 5
  terminal := fun _ => 32

theorem dirAt_flat (h : Flat root) {depth : ℕ} {path : List Byte} {children : Children}
    (hdir : DirAt root depth path children) : depth = 0 ∧ path = [] ∧ children = root := by
  induction hdir with
  | root => exact ⟨rfl, rfl, rfl⟩
  | child parent mem ih =>
      obtain ⟨-, -, rfl⟩ := ih
      obtain ⟨content, hcontent⟩ := h _ (List.mem_of_mem_filter mem)
      cases hcontent

theorem serves_flat (h : Flat root) (hdot : ∀ c ∈ root, isDot c.1.bytes = false) :
    (flatKernel root).Serves root := by
  intro depth path children hdir
  obtain ⟨-, -, rfl⟩ := dirAt_flat h hdir
  have hnames : ((flatKernel children).getdents path).flatten.map Dirent.name =
      children.map Prod.fst := by
    clear h hdot hdir
    induction children with
    | nil => rfl
    | cons c children ih => exact congrArg (c.1 :: ·) ih
  constructor
  · have hall :
        (children.map Prod.fst).filter (fun n => !isDot n.bytes) = children.map Prod.fst := by
      rw [List.filter_eq_self]
      intro name hname
      obtain ⟨c, hc, rfl⟩ := List.mem_map.mp hname
      rw [hdot c hc]
      rfl
    rw [hnames, hall]
  · rfl
  · intro batch hbatch
    obtain ⟨c, -, rfl⟩ := List.mem_map.mp hbatch
    exact List.cons_ne_nil _ _
  · intro batch hbatch
    obtain ⟨c, -, rfl⟩ := List.mem_map.mp hbatch
    have hlt := c.1.length_lt
    simp [Dirent.bytes, ioBytes, maxName] at hlt ⊢
    omega
  · intro c hc mode size hstatx
    cases hstatx
  · intro c hc hstatx d hd hname
    obtain ⟨batch, hbatch, hd⟩ := List.mem_flatten.mp hd
    obtain ⟨c', -, rfl⟩ := List.mem_map.mp hbatch
    rw [List.mem_singleton.mp hd]
    obtain ⟨content, hcontent⟩ := h c hc
    rw [hcontent]
    rfl

theorem within_flat (h : Flat root) (hwf : WellFormed root)
    (hcount : (kept root).length ≤ maxEntries) : Within root := by
  constructor
  · intro depth path children hdir
    obtain ⟨-, -, rfl⟩ := dirAt_flat h hdir
    exact hwf
  · intro depth path children hdir
    obtain ⟨rfl, -, -⟩ := dirAt_flat h hdir
    decide
  · intro depth path children hdir
    obtain ⟨-, -, rfl⟩ := dirAt_flat h hdir
    exact hcount
  · intro depth path children hdir c hc
    obtain ⟨-, rfl, -⟩ := dirAt_flat h hdir
    have hlt := c.1.length_lt
    simp only [List.length_nil, maxName, maxPath] at hlt ⊢
    omega

end Flat

/-- A directory with one file. -/
def oneFile : Children := [(oneName, .regular [1, 2])]

theorem flat_oneFile : Flat oneFile := by
  intro c hc
  rw [List.mem_singleton.mp hc]
  exact ⟨_, rfl⟩

theorem within_oneFile : Within oneFile := by
  refine within_flat flat_oneFile ⟨?_, ?_, ?_, ?_⟩ ?_
  · simp [oneFile]
  · simp [oneFile, oneName]
  · simp [oneFile, oneName]
  · simp [oneFile]
  · exact (List.length_filter_le _ _).trans (by decide)

theorem serves_oneFile : (flatKernel oneFile).Serves oneFile :=
  serves_flat flat_oneFile (by simp [oneFile, oneName, isDot])

/-! ### Whole runs -/

/-- A run that ends before its files. -/
theorem leaves_unwritten (m : Machine) {code : Status} (h : code ≠ .ok) (text : Str) :
    (m.leaves code text).code ≠ .ok ∧ ∀ file, (m.leaves code text).files file = none :=
  ⟨h, fun _ => rfl⟩

/-- The run on a tree within the limits that does not change. -/
theorem entry_eq_of_serves {root : Children} (hwithin : Within root)
    (hA : m.scanA.root = some root) (hB : m.scanB.root = some root)
    (hkA : m.scanA.kernel.Serves root) (hkB : m.scanB.kernel.Serves root) :
    ∃ digest, sha256Of (m.stream (listing [] root)) = .ok digest ∧
      m.entry = if m.accepted then m.store (m.snapshot (listing [] root) digest)
        else .ok (m.leaves .errThermal "FC16_THERMAL_REJECT\n".toList) := by
  obtain ⟨s, hs, hready⟩ := lawful_sha256.update _ tag lawful_sha256.init
  have hempty : Keeps sha256 ShaReady (m.context s) .empty (m.context s) :=
    keeps_initial lawful_sha256 _ _ _ _ hready
  obtain ⟨ca, g, hrunA, hca⟩ :=
    snapshotRoot_eq (obeys_keeps lawful_sha256 (m.context s)) hwithin hkA .start hempty
  obtain ⟨cb, g', hrunB, hcb⟩ :=
    snapshotRoot_eq (obeys_keeps lawful_sha256 (m.context s)) hwithin hkB g hempty
  have hscanA : m.scanA.run (step sha256) (m.context s) .start = .ok (.ok, ca, g) := by
    rw [Scan.run, hA]
    exact hrunA
  have hscanB : m.scanB.run (step sha256) (m.context s) g = .ok (.ok, cb, g') := by
    rw [Scan.run, hB]
    exact hrunB
  obtain ⟨digest, digest', hdigest, hdigest', hcompare⟩ := compare_eq hs hca hcb
  obtain rfl := Except.ok.inj (hdigest.symm.trans hdigest')
  have hequal : snapshotEqual (m.scanned (listing [] root) digest)
      (m.scanned (listing [] root) digest) = true :=
    (snapshotEqual_iff _ _).mpr ⟨rfl, rfl, rfl, rfl, rfl, rfl, rfl, rfl⟩
  have hentry := entry_eq hs hscanA
  rw [if_neg (by simp), hscanB, Result.ok_bind] at hentry
  dsimp only at hentry
  rw [if_neg (by simp), hcompare, if_pos hequal] at hentry
  exact ⟨digest, hdigest, hentry⟩

theorem reliable_flatMachine (root : Children) (file : Artifact) :
    Reliable ((flatMachine root).opened file) :=
  ⟨_, rfl, fun _ => by decide⟩

theorem small_oneFile : Scan.Small { root := some oneFile, kernel := flatKernel oneFile } := by
  rintro root ⟨⟩ content hfile
  cases hfile with
  | here mem => cases List.mem_singleton.mp mem; decide
  | inside mem file => cases List.mem_singleton.mp mem

theorem entry_oneFile : ∃ run, (flatMachine oneFile).entry = .ok run ∧ run.code = .ok := by
  obtain ⟨digest, -, hentry⟩ := entry_eq_of_serves (m := flatMachine oneFile) within_oneFile rfl rfl
    serves_oneFile serves_oneFile
  obtain ⟨run, gDigest, hstore, hstored⟩ := store_spec (flatMachine oneFile)
    ((flatMachine oneFile).snapshot (listing [] oneFile) digest)
  rw [if_pos (show (flatMachine oneFile).accepted = true from rfl), hstore] at hentry
  exact ⟨run, hentry, hstored.reliable (reliable_flatMachine oneFile)⟩

/-- A tree within the limits that does not change, served in both scans by kernels
that do as they please otherwise: the run seals what is in it, unless the
temperatures are rejected. -/
theorem entry_of_serves (m : Machine) {root : Children} (hwithin : Within root)
    (hA : m.scanA.root = some root) (hB : m.scanB.root = some root)
    (hkA : m.scanA.kernel.Serves root) (hkB : m.scanB.kernel.Serves root) :
    ∃ run digest gDigest, m.entry = .ok run ∧ sha256Of (m.stream (listing [] root)) = .ok digest ∧
      (m.accepted → Stored m (m.snapshot (listing [] root) digest) gDigest run) ∧
      (¬m.accepted → run.code = .errThermal ∧ ∀ file, run.files file = none) := by
  obtain ⟨digest, hdigest, hentry⟩ := entry_eq_of_serves hwithin hA hB hkA hkB
  by_cases haccepted : m.accepted = true
  · rw [if_pos haccepted] at hentry
    obtain ⟨run, gDigest, hstore, hstored⟩ := store_spec m (m.snapshot (listing [] root) digest)
    exact ⟨run, digest, gDigest, hentry.trans hstore, hdigest, fun _ => hstored,
      fun h => absurd haccepted h⟩
  · rw [if_neg haccepted] at hentry
    exact ⟨_, digest, [], hentry, hdigest, fun h => absurd h haccepted,
      fun _ => ⟨rfl, fun _ => rfl⟩⟩

theorem entry_of_serves_one :
    ∃ run, (flatMachine oneFile).entry = .ok run ∧ run.code = .ok ∧
      ∃ digest, run.files .bin =
        some (sealOf ((flatMachine oneFile).snapshot (listing [] oneFile) digest)) := by
  obtain ⟨run, digest, gDigest, hentry, -, hstored, -⟩ :=
    entry_of_serves (flatMachine oneFile) within_oneFile rfl rfl serves_oneFile serves_oneFile
  have hok := (hstored rfl).reliable (reliable_flatMachine oneFile)
  exact ⟨run, hentry, hok, digest, (hstored rfl).complete.mp hok .bin⟩

/-! ### A second run -/

def Artifact.name : Artifact → CString maxName
  | .bin => ⟨custodyBin, by simp [custodyBin], by decide⟩
  | .zip => ⟨custodyZip, by simp [custodyZip], by decide⟩
  | .digest => ⟨custodyDigest, by simp [custodyDigest], by decide⟩

theorem Artifact.name_generated (file : Artifact) : file.name.bytes ∈ generatedNames := by
  cases file <;> simp [Artifact.name, generatedNames]

theorem Artifact.name_ne_nil (file : Artifact) : file.name.bytes ≠ [] := by
  cases file <;> decide

theorem Artifact.name_no_slash (file : Artifact) : 0x2f ∉ file.name.bytes := by
  cases file <;> decide

theorem Artifact.name_inj {file file' : Artifact} (h : file.name = file'.name) : file = file' := by
  cases file <;> cases file' <;> first | rfl | exact absurd (congrArg CString.bytes h) (by decide)

/-- The files that were written, as they are in the directory. -/
def written (files : Artifact → Option (List Byte)) : Children :=
  [Artifact.bin, .zip, .digest].filterMap fun file =>
    (files file).map fun content => (file.name, Node.regular content)

/-- The root after a run in it: a file that was written is in the place of one of its name. -/
def savedTo (root : Children) (files : Artifact → Option (List Byte)) : Children :=
  root.filter (fun c => c.1 ∉ (written files).map Prod.fst) ++ written files

section Saved

variable {root : Children} {files : Artifact → Option (List Byte)}

theorem mem_written {c : CString maxName × Node} (h : c ∈ written files) :
    ∃ file content, files file = some content ∧ c = (file.name, .regular content) := by
  obtain ⟨file, -, hc⟩ := List.mem_filterMap.mp h
  obtain ⟨content, hfile, rfl⟩ := Option.map_eq_some_iff.mp hc
  exact ⟨file, content, hfile, rfl⟩

/-- The scan does not see the files. -/
theorem kept_savedTo : kept (savedTo root files) = kept root := by
  rw [kept, savedTo, List.filter_append, List.filter_filter]
  have hnone : (written files).filter (fun c => c.1.bytes ∉ generatedNames) = [] := by
    rw [List.filter_eq_nil_iff]
    intro c hc
    obtain ⟨file, content, -, rfl⟩ := mem_written hc
    simp [file.name_generated]
  rw [hnone, List.append_nil]
  apply List.filter_congr
  intro c hc
  by_cases hgenerated : c.1.bytes ∈ generatedNames
  · simp [hgenerated]
  · have hother : c.1 ∉ (written files).map Prod.fst := by
      intro hmem
      obtain ⟨c', hc', hname⟩ := List.mem_map.mp hmem
      obtain ⟨file, content, -, rfl⟩ := mem_written hc'
      exact hgenerated (hname ▸ file.name_generated)
    simp [hgenerated, hother]

theorem listing_savedTo : listing [] (savedTo root files) = listing [] root := by
  rw [listing, kept_savedTo, listing]

/-- Below the root nothing is new. -/
theorem dirAt_savedTo {depth : ℕ} {path : List Byte} {children : Children}
    (h : DirAt (savedTo root files) depth path children) :
    (depth = 0 ∧ path = [] ∧ children = savedTo root files) ∨ DirAt root depth path children := by
  induction h with
  | root => exact .inl ⟨rfl, rfl, rfl⟩
  | child parent mem ih =>
      rcases ih with ⟨rfl, rfl, rfl⟩ | hdir
      · rw [kept_savedTo] at mem
        exact .inr (.child .root mem)
      · exact .inr (.child hdir mem)

theorem nodup_written : ((written files).map Prod.fst).Nodup := by
  rw [written, List.map_filterMap]
  refine List.Nodup.filterMap ?_ (by decide)
  intro file file' name hname hname'
  obtain ⟨c, hc, rfl⟩ := Option.map_eq_some_iff.mp hname
  obtain ⟨c', hc', hsame⟩ := Option.map_eq_some_iff.mp hname'
  obtain ⟨content, -, rfl⟩ := Option.map_eq_some_iff.mp hc
  obtain ⟨content', -, rfl⟩ := Option.map_eq_some_iff.mp hc'
  exact Artifact.name_inj hsame.symm

theorem wellFormed_savedTo (h : WellFormed root)
    (hfiles : ∀ file content, files file = some content → content.length < 2 ^ 64) :
    WellFormed (savedTo root files) := by
  have hmem : ∀ c ∈ savedTo root files, c ∈ root ∨
      ∃ file content, files file = some content ∧ c = (file.name, .regular content) := by
    intro c hc
    rcases List.mem_append.mp hc with hc | hc
    · exact .inl (List.mem_of_mem_filter hc)
    · exact .inr (mem_written hc)
  constructor
  · rw [savedTo, List.map_append]
    refine List.nodup_append.mpr ⟨h.nodup.sublist (List.filter_sublist.map _), nodup_written, ?_⟩
    rintro name hname name' hname' rfl
    obtain ⟨c, hc, rfl⟩ := List.mem_map.mp hname
    exact of_decide_eq_true (List.mem_filter.mp hc).2 hname'
  · intro c hc
    rcases hmem c hc with hc | ⟨file, content, -, rfl⟩
    · exact h.ne_nil c hc
    · exact file.name_ne_nil
  · intro c hc
    rcases hmem c hc with hc | ⟨file, content, -, rfl⟩
    · exact h.no_slash c hc
    · exact file.name_no_slash
  · intro c hc content' hcontent
    rcases hmem c hc with hc | ⟨file, content, hfile, rfl⟩
    · exact h.size_lt c hc content' hcontent
    · cases hcontent
      exact hfiles file _ hfile

theorem within_savedTo (h : Within root)
    (hfiles : ∀ file content, files file = some content → content.length < 2 ^ 64) :
    Within (savedTo root files) := by
  constructor
  · intro depth path children hdir
    rcases dirAt_savedTo hdir with ⟨-, -, rfl⟩ | hdir
    · exact wellFormed_savedTo (h.wellFormed .root) hfiles
    · exact h.wellFormed hdir
  · intro depth path children hdir
    rcases dirAt_savedTo hdir with ⟨rfl, -, -⟩ | hdir
    · decide
    · exact h.depth_lt hdir
  · intro depth path children hdir
    rcases dirAt_savedTo hdir with ⟨-, -, rfl⟩ | hdir
    · rw [kept_savedTo]
      exact h.count_le .root
    · exact h.count_le hdir
  · intro depth path children hdir
    rcases dirAt_savedTo hdir with ⟨-, rfl, rfl⟩ | hdir
    · rw [kept_savedTo]
      exact h.path_le .root
    · exact h.path_le hdir

end Saved

/-- A front of a file of a snapshot is not longer than the file. -/
theorem Stored.length_lt {snapshot : Snapshot} {gDigest : List Byte} {run : CustodyRun}
    (h : Stored m snapshot gDigest run) (file : Artifact) (content : List Byte)
    (hfile : run.files file = some content) : content.length < 2 ^ 64 := by
  obtain ⟨gDigest', hdigest, hlength⟩ :=
    exists_digestMake (sealOf snapshot) (archive (sealOf snapshot))
  obtain rfl := Except.ok.inj (hdigest.symm.trans h.digest)
  have hbytes : (fileBytes snapshot gDigest' file).length ≤ 500 := by
    cases file with
    | bin => exact (length_sealOf snapshot).trans_le (by decide)
    | zip => exact ((length_archive _).trans (congrArg (· + 124) (length_sealOf snapshot))).le
    | digest => exact hlength.trans_le (by decide)
  exact ((h.front file content hfile).length_le.trans hbytes).trans_lt (by decide)

/-- The files a run has written into the tree it has sealed make no difference: at the
same temperatures a later run, on the tree with whatever was written, seals the same
snapshot, up to its times. -/
theorem entry_again (m m' : Machine) {root : Children} (hwithin : Within root)
    (hA : m.scanA.root = some root) (hB : m.scanB.root = some root)
    (hkA : m.scanA.kernel.Serves root) (hkB : m.scanB.kernel.Serves root)
    {run : CustodyRun} (hrun : m.entry = .ok run)
    (hA' : m'.scanA.root = some (savedTo root run.files))
    (hB' : m'.scanB.root = some (savedTo root run.files))
    (hkA' : m'.scanA.kernel.Serves (savedTo root run.files))
    (hkB' : m'.scanB.kernel.Serves (savedTo root run.files)) (hw : m'.hwStamp = m.hwStamp)
    (hbefore : m'.before = m.before) (hafter : m'.after = m.after) (haccepted : m.accepted) :
    ∃ run' snapshot snapshot' gDigest gDigest', m'.entry = .ok run' ∧
      Stored m snapshot gDigest run ∧
      Stored m' snapshot' gDigest' run' ∧
      snapshot' = { snapshot with
        benchmarkANs := nowNs (m'.clock 1) - nowNs (m'.clock 0)
        benchmarkBNs := nowNs (m'.clock 2) - nowNs (m'.clock 1) } := by
  obtain ⟨digest, hdigest, hentry⟩ := entry_eq_of_serves hwithin hA hB hkA hkB
  obtain ⟨run₁, gDigest, hstore, hstored⟩ := store_spec m (m.snapshot (listing [] root) digest)
  rw [if_pos haccepted, hstore, hrun] at hentry
  obtain rfl := Except.ok.inj hentry
  have hwithin' := within_savedTo hwithin hstored.length_lt
  obtain ⟨digest', hdigest', hentry'⟩ := entry_eq_of_serves hwithin' hA' hB' hkA' hkB'
  rw [listing_savedTo] at hdigest' hentry'
  have hcontext : m'.context () = m.context () := by
    rw [Machine.context, Machine.context, hw, hbefore]
  have haccepted' : m'.accepted = true := by
    rw [Machine.accepted, hcontext, hafter]
    exact haccepted
  have hstream : m'.stream (listing [] root) = m.stream (listing [] root) := by
    rw [Machine.stream, Machine.stream, hbefore, hafter]
  rw [hstream] at hdigest'
  obtain rfl := Except.ok.inj (hdigest.symm.trans hdigest')
  have hscanned : m'.scanned (listing [] root) digest = m.scanned (listing [] root) digest := by
    rw [Machine.scanned, Machine.scanned, hcontext, hafter]
  obtain ⟨run', gDigest', hstore', hstored'⟩ := store_spec m' (m'.snapshot (listing [] root) digest)
  rw [if_pos haccepted', hstore'] at hentry'
  refine ⟨run', _, _, gDigest, gDigest', hentry', hstored, hstored', ?_⟩
  rw [Machine.snapshot, hscanned]
  rfl

/-- A directory in which the three files are left, and sealed again. -/
theorem entry_again_one :
    ∃ run run', (flatMachine oneFile).entry = .ok run ∧ run.code = .ok ∧
      (flatMachine (savedTo oneFile run.files)).entry = .ok run' ∧ run'.code = .ok ∧
      ∃ snapshot snapshot', run.files .bin = some (sealOf snapshot) ∧
        run'.files .bin = some (sealOf snapshot') ∧ snapshot'.sha256 = snapshot.sha256 := by
  obtain ⟨run, hentry, -⟩ := entry_oneFile
  have hflat : Flat (savedTo oneFile run.files) := by
    intro c hc
    rcases List.mem_append.mp hc with hc | hc
    · exact flat_oneFile c (List.mem_of_mem_filter hc)
    · obtain ⟨file, content, -, rfl⟩ := mem_written hc
      exact ⟨content, rfl⟩
  have hdot : ∀ c ∈ savedTo oneFile run.files, isDot c.1.bytes = false := by
    intro c hc
    rcases List.mem_append.mp hc with hc | hc
    · rw [List.mem_singleton.mp (List.mem_of_mem_filter hc)]
      decide
    · obtain ⟨file, content, -, rfl⟩ := mem_written hc
      cases file <;> rfl
  have hserves : (flatKernel (savedTo oneFile run.files)).Serves (savedTo oneFile run.files) :=
    serves_flat hflat hdot
  obtain ⟨run', snapshot, snapshot', gDigest, gDigest', hentry', hstored, hstored', hsame⟩ :=
    entry_again (flatMachine oneFile) (flatMachine (savedTo oneFile run.files)) within_oneFile
      rfl rfl serves_oneFile serves_oneFile hentry rfl rfl hserves hserves rfl rfl rfl rfl
  have hok := hstored.reliable (reliable_flatMachine _)
  have hok' := hstored'.reliable (reliable_flatMachine _)
  exact ⟨run, run', hentry, hok, hentry', hok', snapshot, snapshot', hstored.complete.mp hok .bin,
    hstored'.complete.mp hok' .bin, hsame ▸ rfl⟩

end Blake3.Fc16.Adapter
