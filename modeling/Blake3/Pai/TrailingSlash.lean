import Blake3.Pai.Coverage

/-!
A base that is written with a slash at its end. `join_path` adds no second slash, while
`rel_path` looks for one right behind the base, so that it takes nothing off the paths
below.
-/

namespace Blake3.Pai

/-! ### Paths -/

section Paths

variable {base : Str} {chain : Chain}

/-- The base with a slash at its end. -/
def slashed (base : Str) : Str := base ++ [slash]

theorem length_slashed (base : Str) : (slashed base).length = base.length + 1 := by
  simp [slashed]

theorem getLast_slashed (base : Str) : (slashed base).getLast? = some slash := by simp [slashed]

/-- Both spellings make the same path of a node below. -/
theorem nodeOf_slashed (hbase : base ≠ []) (hlast : base.getLast? ≠ some slash) (hne : chain ≠ []) :
    nodeOf (slashed base) chain = nodeOf base chain := by
  obtain ⟨n, rest, rfl⟩ := List.exists_cons_of_ne_nil hne
  have hjoined : joined (slashed base) n = joined base n := by
    rw [joined, if_neg (by simp [slashed]), if_pos (getLast_slashed base), joined, if_neg hbase,
      if_neg hlast, slashed, List.append_assoc, List.singleton_append]
  rw [nodeOf, nodeOf, List.foldl_cons, List.foldl_cons, joinPath, joinPath, hjoined]

theorem relPath_self (hbase : base ≠ []) : relPath base base = [dot] := by
  rw [relPath, if_neg hbase, if_pos (List.isPrefixOf_iff_prefix.mpr (List.prefix_refl base)),
    List.drop_length]

/-- A path that is shorter than the base is left as it is. -/
theorem relPath_of_lt {full : Str} (h : full.length < base.length) : relPath base full = full := by
  have hpre : base.isPrefixOf full = false := by
    rw [Bool.eq_false_iff, ne_eq, List.isPrefixOf_iff_prefix]
    intro hprefix
    exact absurd hprefix.length_le (by omega)
  rw [relPath, hpre]
  split <;> rfl

/-- A base that leaves no room is all there is of the path of a node. -/
theorem nodeOf_eq_take_base (hne : chain ≠ []) (h : paiMaxPath ≤ base.length + 1) :
    nodeOf base chain = base.take (paiMaxPath - 1) := by
  have hpre : base <+: pathOf base chain := by
    rw [pathOf]
    clear hne h
    induction chain using List.reverseRecOn with
    | nil => exact List.prefix_refl base
    | append_singleton chain n ih =>
        rw [List.foldl_append, List.foldl_cons, List.foldl_nil, joined_eq]
        exact ih.trans (List.prefix_append _ _)
  obtain ⟨rest, hrest⟩ := hpre
  rw [nodeOf_eq_take hne, ← hrest, List.take_append_of_le_length (by omega)]

/-- Where there is no room for a name, both spellings leave the path as it is. -/
theorem relPath_slashed_of_long (hne : chain ≠ []) (hlong : paiMaxPath ≤ base.length) :
    relPath (slashed base) (nodeOf base chain) = relPath base (nodeOf base chain) := by
  have hmax : paiMaxPath = 4096 := rfl
  have hlength := length_slashed base
  have hnode : (nodeOf base chain).length < base.length := by
    rw [nodeOf_eq_take_base hne (by omega), List.length_take]
    omega
  rw [relPath_of_lt hnode, relPath_of_lt (by omega)]

/-- The relative path is the same only if nothing is left of the names. -/
theorem relPath_slashed_iff (hbase : base ≠ []) (hlast : base.getLast? ≠ some slash)
    (hne : chain ≠ []) (hplain : ∀ n ∈ chain, Plain n) :
    relPath (slashed base) (nodeOf base chain) = relPath base (nodeOf base chain) ↔
      paiMaxPath ≤ base.length := by
  have hmax : paiMaxPath = 4096 := rfl
  have hlength := length_slashed base
  by_cases hlong : paiMaxPath ≤ base.length
  · exact iff_of_true (relPath_slashed_of_long hne hlong) hlong
  refine iff_of_false ?_ hlong
  by_cases hfull : paiMaxPath ≤ base.length + 1
  · -- the path is that of the base
    have hnode : nodeOf base chain = base := by
      rw [nodeOf_eq_take_base hne hfull, List.take_of_length_le (by omega)]
    rw [hnode, relPath_self hbase, relPath_of_lt (by omega)]
    intro heq
    rw [heq, List.length_singleton] at hfull
    omega
  have hseparator : separator base = [slash] := if_neg (by simp [hbase, hlast])
  obtain ⟨rest, hrest⟩ : ∃ rest, rest = (pathOf [] chain).take
      (paiMaxPath - 1 - base.length - (separator base).length) := ⟨_, rfl⟩
  have hnode : nodeOf base chain = base ++ (separator base ++ rest) := by
    rw [hrest]
    exact nodeOf_eq_append hne hplain (by rw [hseparator, List.length_singleton]; omega)
  have hnode' : nodeOf base chain = slashed base ++ (separator (slashed base) ++ rest) := by
    rw [hnode, hseparator, separator, if_pos (.inr (getLast_slashed base)), slashed]
    simp
  have hhead : rest.head? ≠ some slash := by
    rw [hrest]
    exact head_take_pathOf_nil hne hplain _
  by_cases hnone : rest = []
  · -- only the slash is left
    have hnames : nodeOf base chain = slashed base := by
      rw [hnode, hseparator, hnone]
      rfl
    have hpre : base.isPrefixOf (slashed base) = true :=
      List.isPrefixOf_iff_prefix.mpr (List.prefix_append base [slash])
    have hdrop : (slashed base).drop base.length = [slash] := List.drop_left
    have hempty : relPath base (slashed base) = [] := by
      rw [relPath, if_neg hbase, if_pos hpre, hdrop]
      exact if_pos rfl
    rw [hnames, relPath_self (by simp [slashed]), hempty]
    exact List.cons_ne_nil _ _
  · -- both see the same path, but only one of them cuts off the base
    have hshort : relPath base (nodeOf base chain) = rest := by
      rw [hnode, relPath_append base hnone hhead, if_neg hlast]
    have hwhole : relPath (slashed base) (nodeOf base chain) = slashed base ++ rest := by
      rw [hnode', relPath_append _ hnone hhead, if_pos (getLast_slashed base)]
    rw [hshort, hwhole]
    intro heq
    have hlengths := congrArg List.length heq
    rw [List.length_append] at hlengths
    omega

end Paths

/-! ### The files that are listed -/

section

variable (fs : FileSystem) (opt : ScanOpts) (base : Str)

/-- A name that a scan looks at in a directory, by the paths that `join_path` makes. -/
structure Enters (chain : Chain) (name : Str) : Prop where
  depth : ¬(0 ≤ opt.maxDepth ∧ opt.maxDepth.toInt < chain.length)
  above : isExcluded opt.excludes base (nodeOf base chain) = false
  opened : ∃ listing, fs.opendir (nodeOf base chain) = some listing ∧ name ∈ listing.names ∧
    Room opt base (nodeOf base chain) 0 listing.names
  entry : isEntry name = true
  visible : opt.includeHidden = true ∨ isHiddenName name = false
  included : isExcluded opt.excludes base (nodeOf base (chain ++ [name])) = false

/-- The directories that a scan goes through. -/
inductive Comes : Chain → Prop where
  | base : Comes []
  | step {chain : Chain} {name : Str} {st : Stat} (h : Comes chain)
      (henters : Enters fs opt base chain name)
      (hstat : fs.stat opt.followSymlinks (nodeOf base (chain ++ [name])) = some st)
      (hkind : st.kind = .directory) : Comes (chain ++ [name])

/-- A regular file that is listed: it is not too large and can be read. -/
structure Lists (chain : Chain) (name : Str) : Prop where
  comes : Comes fs opt base chain
  enters : Enters fs opt base chain name
  regular : ∃ size, fs.stat opt.followSymlinks (nodeOf base (chain ++ [name])) =
    some ⟨.regular, size⟩ ∧ ¬(0 ≤ opt.maxSize ∧ opt.maxSize < size)
  readable : ∃ content, fs.read (nodeOf base (chain ++ [name])) = some content

end

variable {fs : FileSystem} {opt : ScanOpts} {base : Str} {fuel : ℕ} {leaves leaves' : Leaves}

theorem enters_iff {chain : Chain} {name : Str} :
    Enters fs opt base chain name ↔
      ∃ entries, entriesOf fs opt base chain = .ok entries ∧ name ∈ entries := by
  simp only [entriesOf_eq_ok]
  constructor
  · intro h
    obtain ⟨listing, hopen, hname, hroom⟩ := h.opened
    refine ⟨_, ⟨h.depth, h.above, listing, hopen, hroom, rfl⟩, ?_⟩
    refine (sortNames_perm _).mem_iff.mpr (List.mem_filter.mpr ⟨hname, ?_⟩)
    have hincluded := h.included
    rw [nodeOf_concat] at hincluded
    simp only [keeps, Bool.and_eq_true, Bool.or_eq_true, Bool.not_eq_true']
    exact ⟨⟨h.entry, h.visible⟩, hincluded⟩
  · rintro ⟨_, ⟨hdepth, habove, listing, hopen, hroom, rfl⟩, hname⟩
    obtain ⟨hlisted, hkeeps⟩ := List.mem_filter.mp ((sortNames_perm _).mem_iff.mp hname)
    simp only [keeps, Bool.and_eq_true, Bool.or_eq_true, Bool.not_eq_true'] at hkeeps
    refine ⟨hdepth, habove, ⟨listing, hopen, hlisted, hroom⟩, hkeeps.1.1, hkeeps.1.2, ?_⟩
    rw [nodeOf_concat]
    exact hkeeps.2

theorem comes_iff {chain : Chain} : Comes fs opt base chain ↔ Reached fs opt base chain := by
  constructor
  · intro h
    induction h with
    | base => exact .root
    | @step chain name st h henters hstat hkind ih =>
        obtain ⟨entries, hentries, hname⟩ := enters_iff.mp henters
        have hincluded := henters.included
        rw [nodeOf_concat] at hstat hincluded
        exact .step ih (mem_items_iff.mpr ⟨entries, hentries, hname,
          itemOf_eq_directory.mpr ⟨hincluded, st, hstat, hkind⟩⟩)
  · intro h
    induction h with
    | root => exact .base
    | @step chain name h hitem ih =>
        obtain ⟨entries, hentries, hname, hdirectory⟩ := mem_items_iff.mp hitem
        obtain ⟨-, st, hstat, hkind⟩ := itemOf_eq_directory.mp hdirectory
        rw [← nodeOf_concat] at hstat
        exact .step ih (enters_iff.mpr ⟨entries, hentries, hname⟩) hstat hkind

/-- The walk finds the files that are listed. -/
theorem lists_iff (hwalk : NamedTree.walk (items fs opt base) fuel [] = some leaves)
    {chain : Chain} {name : Str} :
    Lists fs opt base chain name ↔ ∃ e, (chain ++ [name], some e) ∈ leaves := by
  simp only [NamedTree.mem_walk hwalk]
  constructor
  · intro h
    obtain ⟨entries, hentries, hname⟩ := enters_iff.mp h.enters
    obtain ⟨size, hstat, hsmall⟩ := h.regular
    obtain ⟨content, hread⟩ := h.readable
    have hincluded := h.enters.included
    rw [nodeOf_concat] at hstat hread hincluded
    exact ⟨_, chain, name, comes_iff.mp h.comes, mem_items_iff.mpr ⟨entries, hentries, hname,
      itemOf_eq_file.mpr ⟨hincluded, size, content, hstat, hsmall, hread, rfl⟩⟩, rfl⟩
  · rintro ⟨e, r, k, hr, hk, heq⟩
    obtain ⟨rfl, hname⟩ := List.append_inj' heq rfl
    cases hname
    obtain ⟨entries, hentries, hname, hfile⟩ := mem_items_iff.mp hk
    obtain ⟨-, size, content, hstat, hsmall, hread, -⟩ := itemOf_eq_file.mp hfile
    rw [← nodeOf_concat] at hstat hread
    exact ⟨comes_iff.mpr hr, enters_iff.mpr ⟨entries, hentries, hname⟩, ⟨size, hstat, hsmall⟩,
      content, hread⟩

/-- The files that are listed, in the order of the manifest. -/
def listedFiles (leaves : Leaves) : List (Chain × Entry) :=
  leaves.filterMap fun leaf => leaf.2.map fun e => (leaf.1, e)

theorem mem_listedFiles {chain : Chain} {e : Entry} :
    (chain, e) ∈ listedFiles leaves ↔ (chain, some e) ∈ leaves := by
  rw [listedFiles, List.mem_filterMap]
  constructor
  · rintro ⟨⟨q, o⟩, hmem, heq⟩
    obtain ⟨e', rfl, hpair⟩ := Option.map_eq_some_iff.mp heq
    cases hpair
    exact hmem
  · intro hmem
    exact ⟨_, hmem, rfl⟩

theorem listedBy_eq (leaves : Leaves) : listedBy leaves = (listedFiles leaves).map Prod.snd := by
  rw [listedBy, listedFiles, List.map_filterMap]
  congr 1
  funext leaf
  cases leaf.2 <;> rfl

theorem listedFiles_eq_nil_iff
    (hwalk : NamedTree.walk (items fs opt base) fuel [] = some leaves) :
    listedFiles leaves = [] ↔ ∀ chain name, ¬Lists fs opt base chain name := by
  simp only [lists_iff hwalk, ← mem_listedFiles]
  rw [List.eq_nil_iff_forall_not_mem]
  constructor
  · rintro hnone chain name ⟨e, he⟩
    exact hnone _ he
  · rintro hnone ⟨chain, e⟩ he
    obtain ⟨hne, -⟩ := leaf_plain hwalk (mem_listedFiles.mp he)
    obtain ⟨above, name, rfl⟩ := List.eq_nil_or_concat' chain |>.resolve_left hne
    exact hnone above name ⟨e, he⟩

/-! ### Both spellings -/

theorem collect_congr {base' d d' : Str}
    (h : ∀ n, isExcluded opt.excludes base' (joinPath paiMaxPath d' n) =
      isExcluded opt.excludes base (joinPath paiMaxPath d n)) (kept names : List Str) :
    collect opt base' d' kept names = collect opt base d kept names := by
  induction names generalizing kept with
  | nil => rfl
  | cons n names ih => rw [collect, collect, h n, ih, ih]

/-- Where there is no room for a name, both spellings scan alike below the base. -/
theorem items_slashed (hbase : base ≠ []) (hlast : base.getLast? ≠ some slash)
    (hlong : paiMaxPath ≤ base.length) (hdir : fs.opendir (slashed base) = fs.opendir base)
    (hroot : isExcluded opt.excludes (slashed base) (slashed base) =
      isExcluded opt.excludes base base) (chain : Chain) :
    items fs opt (slashed base) chain = items fs opt base chain := by
  have hnode (n : Str) : joinPath paiMaxPath (nodeOf (slashed base) chain) n =
      joinPath paiMaxPath (nodeOf base chain) n := by
    rw [← nodeOf_concat, ← nodeOf_concat, nodeOf_slashed hbase hlast (by simp)]
  have hrel (n : Str) : relPath (slashed base) (joinPath paiMaxPath (nodeOf base chain) n) =
      relPath base (joinPath paiMaxPath (nodeOf base chain) n) := by
    rw [← nodeOf_concat]
    exact relPath_slashed_of_long (by simp) hlong
  have hexcluded (n : Str) :
      isExcluded opt.excludes (slashed base) (joinPath paiMaxPath (nodeOf base chain) n) =
        isExcluded opt.excludes base (joinPath paiMaxPath (nodeOf base chain) n) := by
    rw [isExcluded, isExcluded, hrel]
  have habove : isExcluded opt.excludes (slashed base) (nodeOf (slashed base) chain) =
      isExcluded opt.excludes base (nodeOf base chain) := by
    by_cases hne : chain = []
    · rw [hne]
      exact hroot
    · rw [nodeOf_slashed hbase hlast hne, isExcluded, isExcluded, relPath_slashed_of_long hne hlong]
  have hopen : fs.opendir (nodeOf (slashed base) chain) = fs.opendir (nodeOf base chain) := by
    by_cases hne : chain = []
    · rw [hne]
      exact hdir
    · rw [nodeOf_slashed hbase hlast hne]
  have hcollect (names : List Str) :
      collect opt (slashed base) (nodeOf (slashed base) chain) [] names =
        collect opt base (nodeOf base chain) [] names :=
    collect_congr (fun n => by rw [hnode, hexcluded]) [] names
  have hentries : entriesOf fs opt (slashed base) chain = entriesOf fs opt base chain := by
    rw [entriesOf, entriesOf, habove, hopen]
    simp only [hcollect]
  have hitem : itemOf fs opt (slashed base) (nodeOf (slashed base) chain) =
      itemOf fs opt base (nodeOf base chain) := by
    funext n
    rw [itemOf, itemOf, hnode, hexcluded, hrel]
  rw [items, items, hentries, hitem]

/-- The options with a base and an output directory. -/
def optsFrom (opt : ScanOpts) (base out : Str) : ScanOpts :=
  { opt with baseDir := some base, outDir := some out }

theorem items_optsFrom (out base' : Str) :
    items fs (optsFrom opt base out) base' = items fs opt base' := by
  have hcollect (d : Str) (kept names : List Str) :
      collect (optsFrom opt base out) base' d kept names = collect opt base' d kept names := by
    induction names generalizing kept with
    | nil => rfl
    | cons n names ih =>
        rw [collect, collect, ih, ih]
        rfl
  funext chain
  rw [items, items, entriesOf, entriesOf]
  simp only [hcollect]
  rfl

/-- A run from a base, with what it finds and what it leaves. -/
structure Scans (P : Platform) (fs : FileSystem) (opt : ScanOpts) (base out : Str)
    (leaves : Leaves) (outcome : Outcome) : Prop where
  returns : ∃ fuel, NamedTree.walk (items fs opt base) fuel [] = some leaves ∧
    paiScanRun P fs (optsFrom opt base out) fuel = pure outcome
  lines : (linesOf leaves).length < 2 ^ 64

theorem scans_of_walk (P : Platform)
    (hwalk : NamedTree.walk (items fs opt base) fuel [] = some leaves) (out : Str)
    (hlen : (linesOf leaves).length < 2 ^ 64) :
    Scans P fs opt base out leaves (outcomeOf fs (optsFrom opt base out) base out leaves) where
  returns := ⟨fuel, hwalk, paiScanRun_eq rfl rfl (by rw [items_optsFrom]; exact hwalk) hlen⟩
  lines := hlen

theorem Scans.outcome_eq {P : Platform} {out : Str} {outcome : Outcome}
    (h : Scans P fs opt base out leaves outcome) :
    outcome = outcomeOf fs (optsFrom opt base out) base out leaves := by
  obtain ⟨fuel, hwalk, hrun⟩ := h.returns
  rw [paiScanRun_eq rfl rfl (by rw [items_optsFrom]; exact hwalk) h.lines] at hrun
  exact (Process.pure_inj hrun).symm

/-! ### What is written -/

/-- A run gets as far as its manifest. -/
def Begins (fs : FileSystem) (opt : ScanOpts) (base out : Str) : Prop :=
  fs.opens base = true ∧ fs.mkdirP out = true ∧
    (opt.hashAlgo = none ∨ opt.hashAlgo = some sha256Name ∨ opt.hashAlgo = some blake3Name) ∧
    fs.create (joinPath paiMaxPath out manifestName) = true

/-- A run that does not leaves nothing. -/
theorem files_ne_nil_iff {out : Str} :
    (outcomeOf fs opt base out leaves).files ≠ [] ↔ Begins fs opt base out := by
  simp only [outcomeOf, Begins, apply_ite Outcome.files]
  by_cases hopens : fs.opens base = true
  · by_cases hmkdir : fs.mkdirP out = true
    · by_cases halgo : opt.hashAlgo = none ∨ opt.hashAlgo = some sha256Name ∨
          opt.hashAlgo = some blake3Name
      · by_cases hmanifest : fs.create (joinPath paiMaxPath out manifestName) = true
        · rw [hopens, hmkdir, if_neg (not_not.mpr halgo), hmanifest]
          split_ifs <;> simp_all
        · simp [hopens, hmkdir, halgo, hmanifest]
      · simp [hopens, hmkdir, halgo]
    · simp [hopens, hmkdir]
  · simp [hopens]

/-- The same lines make the same files. -/
theorem files_outcomeOf_congr {opt' : ScanOpts} {base' out : Str} {leaves' : Leaves}
    (halgo : opt'.hashAlgo = opt.hashAlgo) (hopens : fs.opens base' = fs.opens base)
    (hlines : linesOf leaves' = linesOf leaves) :
    (outcomeOf fs opt' base' out leaves').files = (outcomeOf fs opt base out leaves).files := by
  simp only [outcomeOf, apply_ite Outcome.files, halgo, hopens, hlines]

/-- A base that is excluded has no files. -/
theorem not_excluded_of_mem (hwalk : NamedTree.walk (items fs opt base) fuel [] = some leaves)
    {leaf : Chain × Option Entry} (h : leaf ∈ leaves) :
    isExcluded opt.excludes base base = false := by
  cases fuel with
  | zero => cases hwalk
  | succ fuel =>
      rw [Bool.eq_false_iff]
      intro hexcluded
      have hentries : entriesOf fs opt base [] = .error 0 := by
        rw [entriesOf, nodeOf_nil, if_pos hexcluded, ite_self]
      rw [NamedTree.walk, items, hentries] at hwalk
      cases hwalk
      exact List.not_mem_nil h

/-- With a slash at its end the base gives the same files with the same relative paths, and
the same manifest and roots, only where no manifest is written, where no file is listed at
all, or where the base leaves no room for a name. -/
theorem paiScanRun_slashed_iff {P : Platform} {out : Str} {outcome outcome' : Outcome}
    (hbase : base ≠ []) (hlast : base.getLast? ≠ some slash)
    (hopens : fs.opens (slashed base) = fs.opens base)
    (hdir : fs.opendir (slashed base) = fs.opendir base)
    (hrun : Scans P fs opt base out leaves outcome)
    (hrun' : Scans P fs opt (slashed base) out leaves' outcome') :
    (outcome.files ≠ [] ∨ outcome'.files ≠ [] →
      listedFiles leaves' = listedFiles leaves ∧ outcome'.files = outcome.files) ↔
    ¬Begins fs opt base out ∨
      (∀ chain name, ¬Lists fs opt base chain name ∧ ¬Lists fs opt (slashed base) chain name) ∨
      (paiMaxPath ≤ base.length ∧ isExcluded opt.excludes (slashed base) (slashed base) =
        isExcluded opt.excludes base base) := by
  obtain ⟨fuel, hwalk, -⟩ := hrun.returns
  obtain ⟨fuel', hwalk', -⟩ := hrun'.returns
  have hbegins : outcome.files ≠ [] ↔ Begins fs opt base out := by
    rw [hrun.outcome_eq]
    exact files_ne_nil_iff
  have hbegins' : outcome'.files ≠ [] ↔ Begins fs opt base out := by
    rw [hrun'.outcome_eq, files_ne_nil_iff, Begins, hopens]
    rfl
  have hfiles (hlines : linesOf leaves' = linesOf leaves) : outcome'.files = outcome.files := by
    rw [hrun.outcome_eq, hrun'.outcome_eq]
    exact files_outcomeOf_congr rfl hopens hlines
  rw [hbegins, hbegins', or_self, ← imp_iff_not_or]
  refine imp_congr_right fun _ => ⟨?_, ?_⟩
  · rintro ⟨hsame, -⟩
    by_cases hnone : listedFiles leaves = []
    · rw [hnone] at hsame
      exact .inl fun chain name => ⟨(listedFiles_eq_nil_iff hwalk).mp hnone chain name,
        (listedFiles_eq_nil_iff hwalk').mp hsame chain name⟩
    · -- a file that both spellings list under one path
      obtain ⟨⟨chain, e⟩, hfile⟩ := List.exists_mem_of_ne_nil _ hnone
      have hleaf := mem_listedFiles.mp hfile
      have hleaf' := mem_listedFiles.mp (hsame ▸ hfile)
      obtain ⟨hne, hplain⟩ := leaf_plain hwalk hleaf
      have hpath := (path_of_leaf hwalk' hleaf').symm.trans (path_of_leaf hwalk hleaf)
      rw [nodeOf_slashed hbase hlast hne, relPath_slashed_iff hbase hlast hne hplain] at hpath
      refine .inr ⟨hpath, ?_⟩
      rw [not_excluded_of_mem hwalk hleaf, not_excluded_of_mem hwalk' hleaf']
  · rintro (hnone | ⟨hlong, hroot⟩)
    · have hempty := (listedFiles_eq_nil_iff hwalk).mpr fun chain name => (hnone chain name).1
      have hempty' := (listedFiles_eq_nil_iff hwalk').mpr fun chain name => (hnone chain name).2
      refine ⟨hempty'.trans hempty.symm, hfiles ?_⟩
      rw [linesOf, linesOf, listedBy_eq, listedBy_eq, hempty, hempty']
    · rw [funext (items_slashed hbase hlast hlong hdir hroot)] at hwalk'
      obtain rfl := NamedTree.walk_unique hwalk hwalk'
      exact ⟨rfl, hfiles rfl⟩

/-! ### One file -/

/-- Every directory holds a file `f`. -/
def oneFile : FileSystem where
  opens := fun _ => true
  opendir := fun _ => some oneName
  stat := fun _ _ => some ⟨.regular, 0⟩
  read := fun _ => some []
  read_lt := empty_lt
  mkdirP := fun _ => true
  create := fun _ => true

/-- The entry of the file. -/
def oneEntry (base : Str) : Entry :=
  ⟨relPath base (joinPath paiMaxPath base [0x66]), 0, digestOf plainOpts.hashAlgo []⟩

theorem walk_oneFile (base : Str) :
    NamedTree.walk (items oneFile plainOpts base) 1 [] =
      some [([[0x66]], some (oneEntry base))] := by
  have hkeeps : oneName.names.filter (keeps plainOpts base (nodeOf base [])) = [[0x66]] := by
    rfl
  have hentries : entriesOf oneFile plainOpts base [] = .ok [[0x66]] := by
    refine entriesOf_eq_ok.mpr
      ⟨by decide, rfl, oneName, rfl, room_of_length_le (by decide), ?_⟩
    rw [hkeeps]
    exact (List.mergeSort_singleton _).symm
  have hitems : items oneFile plainOpts base [] = [([0x66], some (some (oneEntry base)))] := by
    rw [items, hentries]
    rfl
  rw [NamedTree.walk, hitems]
  rfl

/-- The run from a base on these directories. -/
def oneOutcome (base : Str) : Outcome :=
  outcomeOf oneFile (optsFrom plainOpts base [0x6f]) base [0x6f] [([[0x66]], some (oneEntry base))]

theorem scans_oneFile (base : Str) :
    Scans hosted oneFile plainOpts base [0x6f] [([[0x66]], some (oneEntry base))]
      (oneOutcome base) := by
  refine scans_of_walk hosted (walk_oneFile base) [0x6f] (length_linesOf_one ?_)
  exact length_relPath_lt base (length_joinPath_lt base [0x66])

/-- The file is listed as `f` and as `p/f`. -/
theorem scans_slashed_differ :
    ∃ leaves leaves' outcome outcome',
      Scans hosted oneFile plainOpts [0x70] [0x6f] leaves outcome ∧
      Scans hosted oneFile plainOpts (slashed [0x70]) [0x6f] leaves' outcome' ∧
      outcome.files ≠ [] ∧ outcome'.files ≠ [] ∧
      (listedFiles leaves).map (fun file => file.2.path) = [[0x66]] ∧
      (listedFiles leaves').map (fun file => file.2.path) = [[0x70, slash, 0x66]] ∧
      ¬listedFiles leaves' = listedFiles leaves := by
  refine ⟨_, _, _, _, scans_oneFile [0x70], scans_oneFile (slashed [0x70]),
    List.cons_ne_nil _ _, List.cons_ne_nil _ _, rfl, rfl, ?_⟩
  intro hsame
  have hpaths : [[0x70, slash, 0x66]] = [[0x66]] :=
    congrArg (List.map fun file : Chain × Entry => file.2.path) hsame
  exact absurd hpaths (by decide)

theorem paiScanRun_slashed_iff_one :
    ((oneOutcome [0x70]).files ≠ [] ∨ (oneOutcome (slashed [0x70])).files ≠ [] →
      listedFiles [([[0x66]], some (oneEntry (slashed [0x70])))] =
          listedFiles [([[0x66]], some (oneEntry [0x70]))] ∧
        (oneOutcome (slashed [0x70])).files = (oneOutcome [0x70]).files) ↔
    ¬Begins oneFile plainOpts [0x70] [0x6f] ∨
      (∀ chain name, ¬Lists oneFile plainOpts [0x70] chain name ∧
        ¬Lists oneFile plainOpts (slashed [0x70]) chain name) ∨
      (paiMaxPath ≤ [0x70].length ∧
        isExcluded plainOpts.excludes (slashed [0x70]) (slashed [0x70]) =
          isExcluded plainOpts.excludes [0x70] [0x70]) :=
  paiScanRun_slashed_iff (List.cons_ne_nil _ _) (by decide) rfl rfl (scans_oneFile [0x70])
    (scans_oneFile (slashed [0x70]))

end Blake3.Pai
