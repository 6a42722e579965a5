import Blake3.Lib.NamedTree
import Blake3.Lib.Process
import Blake3.Pai.Digest
import Blake3.Pai.Manifest
import Mathlib.Data.List.Sort

/-!
`pai scan`, `scan.c`: a directory tree is walked, every file is hashed, and the
lines for the files are printed and hashed on the way. A scan that does not
return runs out of fuel. The walk is the one of a tree of names.
-/

namespace Blake3.Pai

/-! ### The file system -/

/-- What `st_mode` says. -/
inductive Kind where
  | directory
  | regular
  | other
  deriving DecidableEq, Repr

structure Stat where
  kind : Kind
  size : Int64

/-- What `readdir` returns of a directory, in its order: each name once. -/
structure Listing where
  names : List Str
  nodup : names.Nodup
  ne_nil : ∀ n ∈ names, n ≠ []
  no_slash : ∀ n ∈ names, slash ∉ n

/-- The answers of the calls that a scan makes. Nothing that it scans changes meanwhile. -/
structure FileSystem where
  /-- The first `opendir` of the base, which is closed again. -/
  opens : Str → Bool
  opendir : Str → Option Listing
  /-- `stat` if links are followed, and `lstat`. -/
  stat : Bool → Str → Option Stat
  /-- What is read from a file that can be opened and read to its end. -/
  read : Str → Option (List Byte)
  /-- Files are no longer than an `off_t` says. -/
  read_lt : ∀ path content, read path = some content → content.length < 2 ^ 63
  mkdirP : Str → Bool
  /-- `fopen` for writing. -/
  create : Str → Bool

/-! ### Options -/

/-- `PAI_MAX_ENTRIES` -/
def paiMaxEntries : ℕ := 200000

/-- `pai_scan_opts` -/
structure ScanOpts where
  baseDir : Option Str
  outDir : Option Str
  includeHidden : Bool
  followSymlinks : Bool
  /-- Less than zero for unlimited, as `maxSize`. -/
  maxDepth : Int32
  maxSize : Int64
  hashAlgo : Option Str
  excludes : List (Option Str)

/-! ### One directory -/

/-- `cmp_entry` by `strcmp`: the order of bytes. -/
def nameLe (a b : Str) : Bool := !decide (b < a)

def sortNames (names : List Str) : List Str := names.mergeSort nameLe

/-- What a scan has written and hashed so far. -/
structure Sinks where
  mf : List Byte
  mctx : ManifestDigest
  /-- The paths that were given to `hash_file_for_algo`. -/
  hashed : List Str

variable (P : Platform) (fs : FileSystem) (opt : ScanOpts) (base : Str)

/-- The loop over `readdir`; there are no entries if the limit is hit. -/
def collect (dirpath : Str) : List Str → List Str → Option (List Str)
  | kept, [] => some kept
  | kept, name :: names =>
      if name = [dot] ∨ name = [dot, dot] then collect dirpath kept names
      else if !opt.includeHidden && isHiddenName name then collect dirpath kept names
      else if paiMaxEntries ≤ kept.length then none
      else if isExcluded opt.excludes base (joinPath paiMaxPath dirpath name) then
        collect dirpath kept names
      else collect dirpath (kept ++ [name]) names

/-- `manifest_line_update`: the line is printed to an array and read from there. -/
def manifestLineUpdate (mctx : ManifestDigest) (e : Entry) : Result ManifestDigest :=
  let buf := snprintf (paiMaxPath + 128) (line e) ++ [0]
  if (line e).length ≤ buf.length then manifestDigestUpdate P (buf.take (line e).length) mctx
  else .error .outOfBounds

/-- A file of the right size: hash it and write its line. -/
def addFile (s : Sinks) (full : Str) (size : Int64) : Result Sinks := do
  let s := { s with hashed := s.hashed ++ [full] }
  match ← hashFileForAlgo P opt.hashAlgo (fs.read full) with
  | none => return s
  | some h =>
      let e : Entry := ⟨relPath base full, size, h⟩
      let mctx ← manifestLineUpdate P s.mctx e
      return { s with mf := s.mf ++ line e, mctx := mctx }

/-- The body of the loop over the entries, where `below` scans a directory. -/
def visit (below : Str → ℕ → Sinks → Process Fault (ℤ × Sinks)) (dirpath : Str) (depth : ℕ)
    (s : Sinks) (name : Str) : Process Fault Sinks :=
  let full := joinPath paiMaxPath dirpath name
  if isExcluded opt.excludes base full then pure s
  else
    match fs.stat opt.followSymlinks full with
    | none => pure s
    | some st =>
        match st.kind with
        | .directory => do
            let (_, s) ← below full (depth + 1) s
            return s
        | .regular =>
            if 0 ≤ opt.maxSize ∧ opt.maxSize < st.size then pure s
            else Process.ofExcept (addFile P fs opt base s full st.size)
        | .other => pure s

/-- `scan_dir_rec` -/
def scanDirRec : ℕ → Str → ℕ → Sinks → Process Fault (ℤ × Sinks)
  | 0, _, _, _ => Process.never
  | fuel + 1, dirpath, depth, s =>
      if 0 ≤ opt.maxDepth ∧ opt.maxDepth.toInt < depth then pure (0, s)
      else if isExcluded opt.excludes base dirpath then pure (0, s)
      else
        match fs.opendir dirpath with
        | none => pure (-1, s)
        | some listing =>
            match collect opt base dirpath [] listing.names with
            | none => pure (-1, s)
            | some entries => do
                let s ← (sortNames entries).foldlM
                  (visit P fs opt base (scanDirRec fuel) dirpath depth) s
                return (0, s)

/-! ### The scan -/

def manifestName : Str :=
  [0x6d, 0x61, 0x6e, 0x69, 0x66, 0x65, 0x73, 0x74, 0x2e, 0x74, 0x73, 0x76]

def linearRootName : Str :=
  [0x6c, 0x69, 0x6e, 0x65, 0x61, 0x72, 0x5f, 0x6d, 0x61, 0x6e, 0x69, 0x66, 0x65, 0x73, 0x74, 0x5f,
    0x72, 0x6f, 0x6f, 0x74, 0x2e, 0x74, 0x78, 0x74]

def merkleRootName : Str :=
  [0x6d, 0x65, 0x72, 0x6b, 0x6c, 0x65, 0x5f, 0x72, 0x6f, 0x6f, 0x74, 0x2e, 0x74, 0x78, 0x74]

/-- `"# hash=%s\n"`. -/
def header (algo : Option Str) : List Byte :=
  [0x23, 0x20, 0x68, 0x61, 0x73, 0x68, 0x3d] ++ algo.getD sha256Name ++ [newline]

/-- What `write_root_file` prints. -/
def rootLine (digest : CVBytes) : List Byte := digestHex32 digest ++ [newline]

/-- What a run leaves: the value that it returns, the files that it wrote, one after the
other, and the paths that it hashed. -/
structure Outcome where
  code : ℤ
  files : List (Str × List Byte)
  hashed : List Str

/-- `pai_scan_run` -/
def paiScanRun (fuel : ℕ) : Process Fault Outcome :=
  match opt.baseDir, opt.outDir with
  | some base, some out =>
      if !fs.opens base then pure ⟨3, [], []⟩
      else if !fs.mkdirP out then pure ⟨4, [], []⟩
      else if ¬(opt.hashAlgo = none ∨ opt.hashAlgo = some sha256Name ∨
          opt.hashAlgo = some blake3Name) then pure ⟨5, [], []⟩
      else
        let manifestPath := joinPath paiMaxPath out manifestName
        let linearRootPath := joinPath paiMaxPath out linearRootName
        let merklePath := joinPath paiMaxPath out merkleRootName
        if !fs.create manifestPath then pure ⟨1, [], []⟩
        else do
          let (rc, s) ← scanDirRec P fs opt base fuel base 0
            ⟨header opt.hashAlgo, manifestDigestInit P opt.hashAlgo, []⟩
          let root ← Process.ofExcept (manifestDigestFinal s.mctx)
          let files := [(manifestPath, s.mf)]
          if !fs.create linearRootPath then return ⟨1, files, s.hashed⟩
          let files := files ++ [(linearRootPath, rootLine root)]
          if !fs.create merklePath then return ⟨1, files, s.hashed⟩
          let files := files ++ [(merklePath, rootLine root)]
          return ⟨if rc = 0 then 0 else 2, files, s.hashed⟩
  | _, _ => pure ⟨1, [], []⟩

/-! ### The walk -/

/-- What becomes of a name: nothing, a directory to scan, or a file to hash, which is
listed if it can be read. -/
def itemOf (dirpath name : Str) : Option (Str × Option (Option Entry)) :=
  let full := joinPath paiMaxPath dirpath name
  if isExcluded opt.excludes base full then none
  else
    match fs.stat opt.followSymlinks full with
    | none => none
    | some st =>
        match st.kind with
        | .directory => some (name, none)
        | .regular =>
            if 0 ≤ opt.maxSize ∧ opt.maxSize < st.size then none
            else some (name, some ((fs.read full).map fun content =>
              ⟨relPath base full, st.size, digestOf opt.hashAlgo content⟩))
        | .other => none

/-- The entries of a directory, or the value that is returned instead. -/
def entriesOf (chain : Chain) : Except ℤ (List Str) :=
  if 0 ≤ opt.maxDepth ∧ opt.maxDepth.toInt < chain.length then .error 0
  else if isExcluded opt.excludes base (nodeOf base chain) then .error 0
  else
    match fs.opendir (nodeOf base chain) with
    | none => .error (-1)
    | some listing =>
        match collect opt base (nodeOf base chain) [] listing.names with
        | none => .error (-1)
        | some entries => .ok (sortNames entries)

/-- The tree that a scan walks. -/
def items (chain : Chain) : List (Str × Option (Option Entry)) :=
  match entriesOf fs opt base chain with
  | .error _ => []
  | .ok names => names.filterMap (itemOf fs opt base (nodeOf base chain))

/-- The value that the scan of a directory returns. -/
def returned (chain : Chain) : ℤ :=
  match entriesOf fs opt base chain with
  | .error rc => rc
  | .ok _ => 0

abbrev Leaves := List (Chain × Option Entry)

/-- The entries of the manifest. -/
def listedBy (leaves : Leaves) : List Entry := leaves.filterMap Prod.snd

/-- What a walk adds to what is written and hashed. -/
structure Added (s s' : Sinks) (m : List Byte) (leaves : Leaves) : Prop where
  mf : s'.mf = s.mf ++ manifest (listedBy leaves)
  hashed : s'.hashed = s.hashed ++ leaves.map fun leaf => nodeOf base leaf.1
  fed : Fed opt.hashAlgo s'.mctx (m ++ manifest (listedBy leaves))

/-! ### Lines -/

theorem length_digits_le {n : ℕ} (h : n < 10 ^ 19) : (digits n).length ≤ 19 := by
  rw [digits, List.length_map]
  exact (Nat.length_toDigits_le_iff (by decide) (by decide)).mpr h

theorem length_line_le {e : Entry} (h : e.path.length < paiMaxPath) : (line e).length ≤ 4182 := by
  have hdecimal : (decimal e.size).length ≤ 20 := by
    have hlow := e.size.le_toInt
    have hhigh := e.size.toInt_lt
    have hdigits := length_digits_le (n := e.size.toInt.natAbs) (by omega)
    rw [decimal]
    split
    · rw [List.length_cons]
      omega
    · omega
  have hhex : (digestHex32 e.digest).length = 64 := by
    rw [digestHex32, Codec.length_flatMap (k := 2) (fun _ => rfl), Vector.length_toList]
  have hpath : e.path.length ≤ 4095 := Nat.le_of_lt_succ h
  simp only [line, List.length_append, List.length_cons, List.length_nil, hhex]
  omega

theorem length_relPath_lt {full : Str} (h : full.length < paiMaxPath) :
    (relPath base full).length < paiMaxPath := by
  have hdrop : (full.drop base.length).length ≤ full.length := by
    rw [List.length_drop]
    omega
  unfold relPath
  split
  · exact h
  · split
    · split
      · decide
      · next c rest hcons =>
          rw [hcons, List.length_cons] at hdrop
          split
          · omega
          · exact h
    · exact h

variable {P fs opt base}

/-- The array for a line is large enough. -/
theorem manifestLineUpdate_eq {mctx : ManifestDigest} {e : Entry}
    (h : e.path.length < paiMaxPath) :
    manifestLineUpdate P mctx e = manifestDigestUpdate P (line e) mctx := by
  have hlen := length_line_le h
  have hwhole : snprintf (paiMaxPath + 128) (line e) = line e :=
    List.take_of_length_le (le_trans hlen (by decide))
  rw [manifestLineUpdate, hwhole, if_pos (by rw [List.length_append]; omega), List.take_left]

theorem addFile_eq {s : Sinks} {m : List Byte} {dirpath name : Str} {size : Int64}
    (h : Fed opt.hashAlgo s.mctx m) (chain : Chain) (hchain : dirpath = nodeOf base chain)
    {e : Option Entry}
    (he : e = (fs.read (joinPath paiMaxPath dirpath name)).map fun content =>
      ⟨relPath base (joinPath paiMaxPath dirpath name), size, digestOf opt.hashAlgo content⟩)
    (hlen : (m ++ manifest (listedBy [(chain ++ [name], e)])).length < 2 ^ 64) :
    ∃ s', addFile P fs opt base s (joinPath paiMaxPath dirpath name) size = .ok s' ∧
      Added opt base s s' m [(chain ++ [name], e)] := by
  have hnode : nodeOf base (chain ++ [name]) = joinPath paiMaxPath dirpath name := by
    rw [nodeOf_concat, hchain]
  rw [addFile]
  cases hread : fs.read (joinPath paiMaxPath dirpath name) with
  | none =>
      rw [hread] at he
      subst he
      refine ⟨_, rfl, ?_, ?_, ?_⟩
      · simp [listedBy, manifest]
      · simp [hnode]
      · simpa [listedBy, manifest] using h
  | some content =>
      rw [hread] at he
      subst he
      have hpath := length_relPath_lt base (length_joinPath_lt dirpath name)
      have hmanifest (e : Entry) : manifest (listedBy [(chain ++ [name], some e)]) = line e := by
        simp [listedBy, manifest]
      rw [Option.map_some, hmanifest] at hlen
      obtain ⟨d, hupdate, hfed⟩ := h.update (P := P)
        (lt_of_le_of_lt (length_line_le hpath) (by decide)) hlen
      rw [hashFileForAlgo_eq (fs.read_lt _ _ hread), Result.ok_bind]
      dsimp only
      rw [manifestLineUpdate_eq hpath, hupdate, Result.ok_bind]
      refine ⟨_, rfl, ?_, ?_, ?_⟩
      · rw [Option.map_some, hmanifest]
      · simp [hnode]
      · rwa [Option.map_some, hmanifest]

/-! ### The scan is the walk -/

@[simp] theorem listedBy_append (l l' : Leaves) : listedBy (l ++ l') = listedBy l ++ listedBy l' :=
  List.filterMap_append

@[simp] theorem manifest_append (es es' : List Entry) :
    manifest (es ++ es') = manifest es ++ manifest es' :=
  List.flatMap_append

theorem added_nil {s : Sinks} {m : List Byte} (h : Fed opt.hashAlgo s.mctx m) :
    Added opt base s s m [] where
  mf := (List.append_nil _).symm
  hashed := (List.append_nil _).symm
  fed := by rwa [listedBy, List.filterMap_nil, manifest, List.flatMap_nil, List.append_nil]

theorem Added.append {s s' s'' : Sinks} {m : List Byte} {leaves leaves' : Leaves}
    (h : Added opt base s s' m leaves)
    (h' : Added opt base s' s'' (m ++ manifest (listedBy leaves)) leaves') :
    Added opt base s s'' m (leaves ++ leaves') where
  mf := by rw [h'.mf, h.mf, listedBy_append, manifest_append, List.append_assoc]
  hashed := by rw [h'.hashed, h.hashed, List.map_append, List.append_assoc]
  fed := by
    rw [listedBy_append, manifest_append, ← List.append_assoc]
    exact h'.fed

/-- What `below` returns for a directory is what the walk finds below it. -/
def Agrees (fs : FileSystem) (opt : ScanOpts) (base : Str)
    (below : Str → ℕ → Sinks → Process Fault (ℤ × Sinks))
    (walked : Chain → Option Leaves) : Prop :=
  ∀ (chain : Chain) (leaves : Leaves), walked chain = some leaves → ∀ (s : Sinks) (m : List Byte),
    Fed opt.hashAlgo s.mctx m → (m ++ manifest (listedBy leaves)).length < 2 ^ 64 →
    ∃ s', below (nodeOf base chain) chain.length s = pure (returned fs opt base chain, s') ∧
      Added opt base s s' m leaves

variable (P fs opt base) in
/-- What one turn of the loop does. -/
theorem visit_cases (below : Str → ℕ → Sinks → Process Fault (ℤ × Sinks)) (dirpath : Str)
    (depth : ℕ) (s : Sinks) (name : Str) :
    (itemOf fs opt base dirpath name = none ∧
        visit P fs opt base below dirpath depth s name = pure s) ∨
      (itemOf fs opt base dirpath name = some (name, none) ∧
        visit P fs opt base below dirpath depth s name =
          below (joinPath paiMaxPath dirpath name) (depth + 1) s >>= fun r => pure r.2) ∨
      ∃ size e, itemOf fs opt base dirpath name = some (name, some e) ∧
        e = (fs.read (joinPath paiMaxPath dirpath name)).map (fun content =>
          ⟨relPath base (joinPath paiMaxPath dirpath name), size,
            digestOf opt.hashAlgo content⟩) ∧
        visit P fs opt base below dirpath depth s name =
          Process.ofExcept (addFile P fs opt base s (joinPath paiMaxPath dirpath name) size) := by
  simp only [itemOf, visit]
  split
  · exact .inl ⟨rfl, rfl⟩
  · cases fs.stat opt.followSymlinks (joinPath paiMaxPath dirpath name) with
    | none => exact .inl ⟨rfl, rfl⟩
    | some st =>
        obtain ⟨kind, size⟩ := st
        cases kind with
        | directory => exact .inr (.inl ⟨rfl, rfl⟩)
        | other => exact .inl ⟨rfl, rfl⟩
        | regular =>
            dsimp only
            split
            · exact .inl ⟨rfl, rfl⟩
            · exact .inr (.inr ⟨size, _, rfl, rfl, rfl⟩)

/-- The loop over the entries goes through the items. -/
theorem visits_eq {below : Str → ℕ → Sinks → Process Fault (ℤ × Sinks)}
    {walked : Chain → Option Leaves} (hbelow : Agrees fs opt base below walked) (chain : Chain)
    (names : List Str) {leaves : Leaves}
    (h : NamedTree.gather walked chain
      (names.filterMap (itemOf fs opt base (nodeOf base chain))) = some leaves)
    (s : Sinks) (m : List Byte) (hfed : Fed opt.hashAlgo s.mctx m)
    (hlen : (m ++ manifest (listedBy leaves)).length < 2 ^ 64) :
    ∃ s', names.foldlM (visit P fs opt base below (nodeOf base chain) chain.length) s = pure s' ∧
      Added opt base s s' m leaves := by
  induction names generalizing leaves s m with
  | nil =>
      cases h
      exact ⟨s, rfl, added_nil hfed⟩
  | cons name names ih =>
      -- the leaves of one turn and those of the others
      have hturn {here rest : Leaves} (hrest : NamedTree.gather walked chain
          (names.filterMap (itemOf fs opt base (nodeOf base chain))) = some rest)
          (hleaves : leaves = here ++ rest)
          (hvisit : (m ++ manifest (listedBy here)).length < 2 ^ 64 →
            ∃ s', visit P fs opt base below (nodeOf base chain) chain.length s name = pure s' ∧
              Added opt base s s' m here) :
          ∃ s', (name :: names).foldlM
              (visit P fs opt base below (nodeOf base chain) chain.length) s = pure s' ∧
            Added opt base s s' m leaves := by
        subst hleaves
        rw [listedBy_append, manifest_append, ← List.append_assoc] at hlen
        obtain ⟨s₁, hfirst, hadded⟩ := hvisit (by rw [List.length_append] at hlen; omega)
        obtain ⟨s₂, hothers, hadded'⟩ := ih hrest s₁ _ hadded.fed hlen
        exact ⟨s₂, by rw [List.foldlM_cons, hfirst, pure_bind, hothers], hadded.append hadded'⟩
      rw [List.filterMap_cons] at h
      rcases visit_cases P fs opt base below (nodeOf base chain) chain.length s name with
        ⟨hitem, hvisit⟩ | ⟨hitem, hvisit⟩ | ⟨size, e, hitem, he, hvisit⟩
      · rw [hitem] at h
        exact @hturn [] _ h rfl fun _ => ⟨s, hvisit, added_nil hfed⟩
      · rw [hitem] at h
        obtain ⟨here, hhere, h⟩ := Option.bind_eq_some_iff.mp h
        obtain ⟨rest, hrest, h⟩ := Option.bind_eq_some_iff.mp h
        cases h
        refine hturn hrest rfl fun hbound => ?_
        obtain ⟨s', hscan, hadded⟩ := hbelow _ _ hhere s m hfed hbound
        refine ⟨s', ?_, hadded⟩
        rw [nodeOf_concat, List.length_append, List.length_singleton] at hscan
        rw [hvisit, hscan, pure_bind]
      · rw [hitem] at h
        obtain ⟨rest, hrest, h⟩ := Option.bind_eq_some_iff.mp h
        cases h
        refine @hturn [(chain ++ [name], e)] _ hrest rfl fun hbound => ?_
        obtain ⟨s', hadd, hadded⟩ := addFile_eq (P := P) hfed chain rfl he hbound
        exact ⟨s', by rw [hvisit, hadd, Process.ofExcept_ok], hadded⟩

/-- A directory that is scanned is gone through, or a value is returned at once. -/
theorem scanDirRec_succ (fuel : ℕ) (chain : Chain) (s : Sinks) :
    scanDirRec P fs opt base (fuel + 1) (nodeOf base chain) chain.length s =
      match entriesOf fs opt base chain with
      | .error rc => pure (rc, s)
      | .ok names => do
          let s ← names.foldlM
            (visit P fs opt base (scanDirRec P fs opt base fuel) (nodeOf base chain)
              chain.length) s
          return (0, s) := by
  rw [scanDirRec, entriesOf]
  split
  · rfl
  · split
    · rfl
    · cases fs.opendir (nodeOf base chain) with
      | none => rfl
      | some listing =>
          dsimp only
          cases collect opt base (nodeOf base chain) [] listing.names with
          | none => rfl
          | some entries => rfl

/-- The scan of a directory adds what the walk finds. -/
theorem scanDirRec_eq (fuel : ℕ) :
    Agrees fs opt base (scanDirRec P fs opt base fuel)
      (NamedTree.walk (items fs opt base) fuel) := by
  induction fuel with
  | zero =>
      intro chain leaves h
      cases h
  | succ fuel ih =>
      intro chain leaves h s m hfed hlen
      rw [NamedTree.walk, items] at h
      rw [scanDirRec_succ, returned]
      cases hentries : entriesOf fs opt base chain with
      | error rc =>
          rw [hentries] at h
          cases h
          exact ⟨s, rfl, added_nil hfed⟩
      | ok names =>
          rw [hentries] at h
          obtain ⟨s', hloop, hadded⟩ := visits_eq (P := P) ih chain names h s m hfed hlen
          refine ⟨s', ?_, hadded⟩
          dsimp only
          rw [hloop, pure_bind]

/-! ### The whole run -/

/-- The lines of the manifest. -/
def linesOf (leaves : Leaves) : List Byte := manifest (listedBy leaves)

/-- What a run leaves that finds `leaves`. -/
def outcomeOf (fs : FileSystem) (opt : ScanOpts) (base out : Str) (leaves : Leaves) : Outcome :=
  let manifestPath := joinPath paiMaxPath out manifestName
  let linearRootPath := joinPath paiMaxPath out linearRootName
  let merklePath := joinPath paiMaxPath out merkleRootName
  let root := digestOf opt.hashAlgo (linesOf leaves)
  let files := [(manifestPath, header opt.hashAlgo ++ linesOf leaves)]
  let hashed := leaves.map fun leaf => nodeOf base leaf.1
  if !fs.opens base then ⟨3, [], []⟩
  else if !fs.mkdirP out then ⟨4, [], []⟩
  else if ¬(opt.hashAlgo = none ∨ opt.hashAlgo = some sha256Name ∨
      opt.hashAlgo = some blake3Name) then ⟨5, [], []⟩
  else if !fs.create manifestPath then ⟨1, [], []⟩
  else if !fs.create linearRootPath then ⟨1, files, hashed⟩
  else if !fs.create merklePath then
    ⟨1, files ++ [(linearRootPath, rootLine root)], hashed⟩
  else
    ⟨if returned fs opt base [] = 0 then 0 else 2,
      files ++ [(linearRootPath, rootLine root)] ++ [(merklePath, rootLine root)], hashed⟩

theorem paiScanRun_eq {out : Str} (hbase : opt.baseDir = some base) (hout : opt.outDir = some out)
    {fuel : ℕ} {leaves : Leaves}
    (hwalk : NamedTree.walk (items fs opt base) fuel [] = some leaves)
    (hlen : (linesOf leaves).length < 2 ^ 64) :
    paiScanRun P fs opt fuel = pure (outcomeOf fs opt base out leaves) := by
  obtain ⟨s, hscan, hadded⟩ := scanDirRec_eq (P := P) fuel [] leaves hwalk
    ⟨header opt.hashAlgo, manifestDigestInit P opt.hashAlgo, []⟩ [] (fed_init opt.hashAlgo) hlen
  have hfinal : manifestDigestFinal s.mctx = .ok (digestOf opt.hashAlgo (linesOf leaves)) :=
    hadded.fed.final
  have hhashed : s.hashed = leaves.map fun leaf => nodeOf base leaf.1 := hadded.hashed
  simp only [nodeOf_nil, List.length_nil] at hscan
  unfold paiScanRun outcomeOf
  rw [hbase, hout]
  dsimp only
  split
  · rfl
  · split
    · rfl
    · split
      · rfl
      · split
        · rfl
        · rw [hscan, pure_bind]
          dsimp only
          rw [hfinal, Process.ofExcept_ok, pure_bind, hadded.mf, hhashed]
          split
          · rfl
          · split
            · rfl
            · rfl

/-! ### Runs that return -/

/-- What is written and hashed for the leaves that are found. -/
structure Wrote (base : Str) (s s' : Sinks) (leaves : Leaves) : Prop where
  mf : s'.mf = s.mf ++ linesOf leaves
  hashed : s'.hashed = s.hashed ++ leaves.map fun leaf => nodeOf base leaf.1

theorem wrote_nil (s : Sinks) : Wrote base s s [] :=
  ⟨(List.append_nil _).symm, (List.append_nil _).symm⟩

theorem Wrote.append {s s' s'' : Sinks} {leaves leaves' : Leaves} (h : Wrote base s s' leaves)
    (h' : Wrote base s' s'' leaves') : Wrote base s s'' (leaves ++ leaves') where
  mf := by
    have hlines : linesOf (leaves ++ leaves') = linesOf leaves ++ linesOf leaves' := by
      simp [linesOf]
    rw [h'.mf, h.mf, hlines, List.append_assoc]
  hashed := by rw [h'.hashed, h.hashed, List.map_append, List.append_assoc]

theorem addFile_wrote {s s' : Sinks} {full : Str} {size : Int64}
    (h : addFile P fs opt base s full size = .ok s') {chain : Chain}
    (hchain : nodeOf base chain = full) :
    Wrote base s s' [(chain, (fs.read full).map fun content =>
      ⟨relPath base full, size, digestOf opt.hashAlgo content⟩)] := by
  rw [addFile] at h
  cases hread : fs.read full with
  | none =>
      rw [hread] at h
      cases h
      exact ⟨by simp [linesOf, listedBy, manifest], by simp [hchain]⟩
  | some content =>
      rw [hread, hashFileForAlgo_eq (fs.read_lt _ _ hread), Result.ok_bind] at h
      obtain ⟨mctx, -, h⟩ := Result.bind_eq_ok.mp h
      cases h
      exact ⟨by simp [linesOf, listedBy, manifest], by simp [hchain]⟩

/-- What `below` has written for a directory when it returns is what the walk finds. -/
def Writes (base : Str) (below : Str → ℕ → Sinks → Process Fault (ℤ × Sinks))
    (walked : Chain → Option Leaves) : Prop :=
  ∀ (chain : Chain) (s : Sinks) (r : ℤ × Sinks),
    below (nodeOf base chain) chain.length s = pure r →
    ∃ leaves, walked chain = some leaves ∧ Wrote base s r.2 leaves

theorem visits_writes {below : Str → ℕ → Sinks → Process Fault (ℤ × Sinks)}
    {walked : Chain → Option Leaves} (hbelow : Writes base below walked) (chain : Chain)
    (names : List Str) {s s' : Sinks}
    (h : names.foldlM (visit P fs opt base below (nodeOf base chain) chain.length) s = pure s') :
    ∃ leaves, NamedTree.gather walked chain
        (names.filterMap (itemOf fs opt base (nodeOf base chain))) = some leaves ∧
      Wrote base s s' leaves := by
  induction names generalizing s with
  | nil =>
      cases Process.pure_inj h
      exact ⟨[], rfl, wrote_nil _⟩
  | cons name names ih =>
      rw [List.foldlM_cons] at h
      obtain ⟨s₁, hvisit, hrest⟩ := Process.bind_eq_pure.mp h
      obtain ⟨rest, hgather, hwrote⟩ := ih hrest
      rcases visit_cases P fs opt base below (nodeOf base chain) chain.length s name with
        ⟨hitem, hturn⟩ | ⟨hitem, hturn⟩ | ⟨size, e, hitem, he, hturn⟩
      · rw [hturn] at hvisit
        cases Process.pure_inj hvisit
        exact ⟨rest, by rw [List.filterMap_cons, hitem, hgather], hwrote⟩
      · rw [hturn] at hvisit
        obtain ⟨r, hscan, hr⟩ := Process.bind_eq_pure.mp hvisit
        cases Process.pure_inj hr
        have hlength : (chain ++ [name]).length = chain.length + 1 := by simp
        rw [← nodeOf_concat, ← hlength] at hscan
        obtain ⟨here, hwalked, hhere⟩ := hbelow _ _ _ hscan
        refine ⟨here ++ rest, ?_, hhere.append hwrote⟩
        rw [List.filterMap_cons, hitem, NamedTree.gather, hwalked, hgather]
        rfl
      · rw [hturn] at hvisit
        have hadd := addFile_wrote (Process.ofExcept_eq_pure.mp hvisit)
          (nodeOf_concat base chain name)
        rw [← he] at hadd
        refine ⟨(chain ++ [name], e) :: rest, ?_, hadd.append hwrote⟩
        rw [List.filterMap_cons, hitem, NamedTree.gather, hgather]
        rfl

theorem scanDirRec_writes (fuel : ℕ) :
    Writes base (scanDirRec P fs opt base fuel) (NamedTree.walk (items fs opt base) fuel) := by
  induction fuel with
  | zero =>
      intro chain s r h
      exact absurd h Process.never_ne_pure
  | succ fuel ih =>
      intro chain s r h
      rw [scanDirRec_succ] at h
      rw [NamedTree.walk, items]
      cases hentries : entriesOf fs opt base chain with
      | error rc =>
          rw [hentries] at h
          cases Process.pure_inj h
          exact ⟨[], rfl, wrote_nil s⟩
      | ok names =>
          rw [hentries] at h
          obtain ⟨s', hloop, hr⟩ := Process.bind_eq_pure.mp h
          cases Process.pure_inj hr
          exact visits_writes ih chain names hloop

/-- A run that returns has ended early, or has written and hashed what the walk finds. -/
theorem paiScanRun_writes {out : Str} (hbase : opt.baseDir = some base)
    (hout : opt.outDir = some out) {fuel : ℕ} {outcome : Outcome}
    (h : paiScanRun P fs opt fuel = pure outcome) :
    outcome.code ≠ 0 ∧ outcome.hashed = [] ∨
      ∃ leaves rest, NamedTree.walk (items fs opt base) fuel [] = some leaves ∧
        outcome.files = (joinPath paiMaxPath out manifestName,
          header opt.hashAlgo ++ linesOf leaves) :: rest ∧
        outcome.hashed = leaves.map fun leaf => nodeOf base leaf.1 := by
  unfold paiScanRun at h
  rw [hbase, hout] at h
  dsimp only at h
  have hearly {code : ℤ} (hcode : code ≠ 0)
      (h : (pure ⟨code, [], []⟩ : Process Fault Outcome) = pure outcome) :
      outcome.code ≠ 0 ∧ outcome.hashed = [] := by
    cases Process.pure_inj h
    exact ⟨hcode, rfl⟩
  split at h
  · exact .inl (hearly (by decide) h)
  · split at h
    · exact .inl (hearly (by decide) h)
    · split at h
      · exact .inl (hearly (by decide) h)
      · split at h
        · exact .inl (hearly (by decide) h)
        · obtain ⟨⟨rc, s⟩, hscan, h⟩ := Process.bind_eq_pure.mp h
          obtain ⟨root, -, h⟩ := Process.bind_eq_pure.mp h
          obtain ⟨leaves, hwalk, hmf, hhashed⟩ := scanDirRec_writes fuel [] _ _ hscan
          dsimp only at hmf hhashed h
          rw [hmf, hhashed] at h
          split at h
          · cases Process.pure_inj h
            exact .inr ⟨leaves, _, hwalk, rfl, rfl⟩
          · split at h
            · cases Process.pure_inj h
              exact .inr ⟨leaves, _, hwalk, rfl, rfl⟩
            · cases Process.pure_inj h
              exact .inr ⟨leaves, _, hwalk, rfl, rfl⟩

end Blake3.Pai
