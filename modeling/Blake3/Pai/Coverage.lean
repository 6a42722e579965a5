import Blake3.Pai.Order

/-!
What a scan lists. Where a call fails, the scan goes on without what it did not get,
and only a failure in the base changes the value that it returns: so the manifest
holds the files that are eligible and that could be got at, each of them once.
-/

namespace Blake3.Pai

/-! ### The tree and the answers -/

/-- A tree, and the answers that the calls give on it: where they do not fail, they
tell what is there, and `readdir` may end early. -/
structure Answers (tree fs : FileSystem) : Prop where
  opendir : ∀ path listing, fs.opendir path = some listing →
    ∃ whole, tree.opendir path = some whole ∧ listing.names <+: whole.names
  stat : ∀ follow path st, fs.stat follow path = some st → tree.stat follow path = some st
  read : ∀ path content, fs.read path = some content → tree.read path = some content

variable (P : Platform) (fs tree : FileSystem) (opt : ScanOpts) (base : Str)

/-- A name that the options let a scan look at, in a directory. -/
structure Shown (chain : Chain) (name : Str) : Prop where
  depth : ¬(0 ≤ opt.maxDepth ∧ opt.maxDepth.toInt < chain.length)
  above : isExcluded opt.excludes base (pathOf base chain) = false
  listed : ∃ listing, tree.opendir (pathOf base chain) = some listing ∧ name ∈ listing.names
  entry : isEntry name = true
  visible : opt.includeHidden = true ∨ isHiddenName name = false
  included : isExcluded opt.excludes base (pathOf base (chain ++ [name])) = false

/-- The directories that the options let a scan come to. -/
inductive Within : Chain → Prop where
  | base : Within []
  | step {chain : Chain} {name : Str} {st : Stat} (h : Within chain)
      (hshown : Shown tree opt base chain name)
      (hstat : tree.stat opt.followSymlinks (pathOf base (chain ++ [name])) = some st)
      (hkind : st.kind = .directory) : Within (chain ++ [name])

/-- A regular file that the options let a scan list. -/
structure Eligible (chain : Chain) (name : Str) (size : Int64) : Prop where
  within : Within tree opt base chain
  shown : Shown tree opt base chain name
  stat : tree.stat opt.followSymlinks (pathOf base (chain ++ [name])) = some ⟨.regular, size⟩
  small : ¬(0 ≤ opt.maxSize ∧ opt.maxSize < size)

/-- A directory could be opened and read as far as a name, and the name looked up. -/
structure Passes (chain : Chain) (name : Str) : Prop where
  opened : ∃ listing, fs.opendir (pathOf base chain) = some listing ∧ name ∈ listing.names ∧
    Room opt base (pathOf base chain) 0 listing.names
  found : fs.stat opt.followSymlinks (pathOf base (chain ++ [name])) ≠ none

/-- A file could be got at from the base and read. -/
structure Got (chain : Chain) (content : List Byte) : Prop where
  passes : ∀ above name below, chain = above ++ name :: below → Passes fs opt base above name
  read : fs.read (pathOf base chain) = some content

variable {P fs tree opt base}

/-! ### What is reached -/

theorem Shown.plain {chain : Chain} {name : Str} (h : Shown tree opt base chain name) :
    Plain name := by
  obtain ⟨listing, -, hname⟩ := h.listed
  obtain ⟨hdot, hdots⟩ : name ≠ [dot] ∧ name ≠ [dot, dot] := by simpa [isEntry] using h.entry
  exact ⟨listing.ne_nil _ hname, listing.no_slash _ hname, hdot, hdots⟩

theorem within_concat {chain : Chain} {name : Str} :
    Within tree opt base (chain ++ [name]) ↔ Within tree opt base chain ∧
      Shown tree opt base chain name ∧
      ∃ st, tree.stat opt.followSymlinks (pathOf base (chain ++ [name])) = some st ∧
        st.kind = .directory := by
  constructor
  · intro h
    generalize hr : chain ++ [name] = r at h
    cases h with
    | base => simp at hr
    | step h hshown hstat hkind =>
        obtain ⟨rfl, hname⟩ := List.append_inj' hr rfl
        cases hname
        exact ⟨h, hshown, _, hstat, hkind⟩
  · rintro ⟨h, hshown, st, hstat, hkind⟩
    exact .step h hshown hstat hkind

theorem nodeOf_fits {chain : Chain} {name : Str} (hplain : ∀ n ∈ chain ++ [name], n ≠ [])
    (hfit : (pathOf base (chain ++ [name])).length < paiMaxPath) :
    nodeOf base chain = pathOf base chain ∧
      joinPath paiMaxPath (pathOf base chain) name = pathOf base (chain ++ [name]) := by
  rw [pathOf_concat] at hfit ⊢
  have hlt := length_lt_joined (pathOf base chain) (hplain name (by simp))
  exact ⟨nodeOf_eq (fun n hn => hplain n (by simp [hn])) (by omega), joinPath_of_lt hfit⟩

/-- A directory is read as far as a name, as the options and the answers say. -/
theorem mem_entriesOf_iff (hans : Answers tree fs) {chain : Chain} {name : Str}
    (hplain : ∀ n ∈ chain ++ [name], n ≠ [])
    (hfit : (pathOf base (chain ++ [name])).length < paiMaxPath) :
    (∃ entries, entriesOf fs opt base chain = .ok entries ∧ name ∈ entries) ∧
        fs.stat opt.followSymlinks (pathOf base (chain ++ [name])) ≠ none ↔
      Shown tree opt base chain name ∧ Passes fs opt base chain name := by
  obtain ⟨habove, hnode⟩ := nodeOf_fits hplain hfit
  simp only [entriesOf_eq_ok, habove]
  constructor
  · rintro ⟨⟨_, ⟨hdepth, hex, listing, hopen, hroom, rfl⟩, hname⟩, hstat⟩
    obtain ⟨hlisted, hkeeps⟩ := List.mem_filter.mp ((sortNames_perm _).mem_iff.mp hname)
    simp only [keeps, hnode, Bool.and_eq_true, Bool.or_eq_true, Bool.not_eq_true'] at hkeeps
    obtain ⟨⟨hentry, hvisible⟩, hincluded⟩ := hkeeps
    obtain ⟨whole, hwhole, hpre⟩ := hans.opendir _ _ hopen
    exact ⟨⟨hdepth, hex, ⟨whole, hwhole, hpre.subset hlisted⟩, hentry, hvisible, hincluded⟩,
      ⟨listing, hopen, hlisted, hroom⟩, hstat⟩
  · rintro ⟨hshown, ⟨listing, hopen, hlisted, hroom⟩, hstat⟩
    refine ⟨⟨_, ⟨hshown.depth, hshown.above, listing, hopen, hroom, rfl⟩, ?_⟩, hstat⟩
    refine (sortNames_perm _).mem_iff.mpr (List.mem_filter.mpr ⟨hlisted, ?_⟩)
    simp only [keeps, hnode, Bool.and_eq_true, Bool.or_eq_true, Bool.not_eq_true']
    exact ⟨⟨hshown.entry, hshown.visible⟩, hshown.included⟩

theorem mem_items_directory (hans : Answers tree fs) {chain : Chain} {name : Str}
    (hplain : ∀ n ∈ chain ++ [name], n ≠ [])
    (hfit : (pathOf base (chain ++ [name])).length < paiMaxPath) :
    (name, none) ∈ items fs opt base chain ↔
      (Shown tree opt base chain name ∧ Passes fs opt base chain name) ∧
        ∃ st, tree.stat opt.followSymlinks (pathOf base (chain ++ [name])) = some st ∧
          st.kind = .directory := by
  obtain ⟨habove, hnode⟩ := nodeOf_fits hplain hfit
  rw [mem_items_iff, ← mem_entriesOf_iff hans hplain hfit]
  simp only [habove, itemOf_eq_directory, hnode]
  constructor
  · rintro ⟨entries, hentries, hname, -, st, hstat, hkind⟩
    exact ⟨⟨⟨entries, hentries, hname⟩, Option.ne_none_iff_exists'.mpr ⟨st, hstat⟩⟩, st,
      hans.stat _ _ _ hstat, hkind⟩
  · rintro ⟨h, st, hstat, hkind⟩
    obtain ⟨st', hfound⟩ := Option.ne_none_iff_exists'.mp h.2
    cases hstat.symm.trans (hans.stat _ _ _ hfound)
    obtain ⟨entries, hentries, hname⟩ := h.1
    have hshown := ((mem_entriesOf_iff hans hplain hfit).mp h).1
    exact ⟨entries, hentries, hname, hshown.included, st, hfound, hkind⟩

theorem mem_items_file (hans : Answers tree fs) {chain : Chain} {name : Str} {e : Entry}
    (hplain : ∀ n ∈ chain ++ [name], n ≠ [])
    (hfit : (pathOf base (chain ++ [name])).length < paiMaxPath) :
    (name, some (some e)) ∈ items fs opt base chain ↔
      (Shown tree opt base chain name ∧ Passes fs opt base chain name) ∧
        ∃ size content,
          tree.stat opt.followSymlinks (pathOf base (chain ++ [name])) = some ⟨.regular, size⟩ ∧
          ¬(0 ≤ opt.maxSize ∧ opt.maxSize < size) ∧
          fs.read (pathOf base (chain ++ [name])) = some content ∧
          e = ⟨relPath base (pathOf base (chain ++ [name])), size,
            digestOf opt.hashAlgo content⟩ := by
  obtain ⟨habove, hnode⟩ := nodeOf_fits hplain hfit
  rw [mem_items_iff, ← mem_entriesOf_iff hans hplain hfit]
  simp only [habove, itemOf_eq_file, hnode]
  constructor
  · rintro ⟨entries, hentries, hname, -, size, content, hstat, h⟩
    exact ⟨⟨⟨entries, hentries, hname⟩, Option.ne_none_iff_exists'.mpr ⟨_, hstat⟩⟩, size, content,
      hans.stat _ _ _ hstat, h⟩
  · rintro ⟨h, size, content, hstat, hfile⟩
    obtain ⟨st, hfound⟩ := Option.ne_none_iff_exists'.mp h.2
    cases hstat.symm.trans (hans.stat _ _ _ hfound)
    obtain ⟨entries, hentries, hname⟩ := h.1
    have hshown := ((mem_entriesOf_iff hans hplain hfit).mp h).1
    exact ⟨entries, hentries, hname, hshown.included, size, content, hfound, hfile⟩

/-- All directories on the way to a node are passed. -/
theorem passes_concat {chain : Chain} {name : Str} :
    (∀ above n below, chain ++ [name] = above ++ n :: below → Passes fs opt base above n) ↔
      (∀ above n below, chain = above ++ n :: below → Passes fs opt base above n) ∧
        Passes fs opt base chain name := by
  constructor
  · intro h
    refine ⟨fun above n below hchain => h above n (below ++ [name]) ?_, h chain name [] rfl⟩
    rw [hchain, List.append_assoc, List.cons_append]
  · rintro ⟨habove, hlast⟩ above n below hchain
    rcases List.eq_nil_or_concat' below with rfl | ⟨below, m, rfl⟩
    · obtain ⟨rfl, hname⟩ := List.append_inj' hchain rfl
      cases hname
      exact hlast
    · rw [← List.cons_append, ← List.append_assoc] at hchain
      exact habove above n below (List.append_inj' hchain rfl).1

/-- The directories that are scanned. -/
theorem reached_iff (hans : Answers tree fs) {chain : Chain} (hplain : ∀ n ∈ chain, n ≠ [])
    (hfit : chain ≠ [] → (pathOf base chain).length < paiMaxPath) :
    Reached fs opt base chain ↔ Within tree opt base chain ∧
      ∀ above n below, chain = above ++ n :: below → Passes fs opt base above n := by
  induction chain using List.reverseRecOn with
  | nil => exact iff_of_true .root ⟨.base, fun above n below h => by simp at h⟩
  | append_singleton chain name ih =>
      have hlen : (pathOf base (chain ++ [name])).length < paiMaxPath := hfit (by simp)
      have hshort : (pathOf base chain).length < paiMaxPath := by
        have hlt := length_lt_joined (pathOf base chain) (hplain name (by simp))
        rw [pathOf_concat] at hlen
        omega
      have habove := ih (fun n hn => hplain n (by simp [hn])) fun _ => hshort
      rw [Reached, NamedTree.branch_concat, passes_concat, mem_items_directory hans hplain hlen,
        ← Reached, habove, within_concat]
      tauto

/-- What the walk finds with a path that fits is what is eligible and could be got at. -/
theorem mem_leaves_iff (hans : Answers tree fs) {fuel : ℕ} {leaves : Leaves}
    (hwalk : NamedTree.walk (items fs opt base) fuel [] = some leaves) {chain : Chain} {name : Str}
    (hplain : ∀ n ∈ chain ++ [name], n ≠ [])
    (hfit : (pathOf base (chain ++ [name])).length < paiMaxPath) {e : Entry} :
    (chain ++ [name], some e) ∈ leaves ↔
      ∃ size content, Eligible tree opt base chain name size ∧
        Got fs opt base (chain ++ [name]) content ∧
        e = ⟨relPath base (pathOf base (chain ++ [name])), size,
          digestOf opt.hashAlgo content⟩ := by
  have habove : (pathOf base chain).length < paiMaxPath := by
    have hlt := length_lt_joined (pathOf base chain) (hplain name (by simp))
    rw [pathOf_concat] at hfit
    omega
  have hreached : Reached fs opt base chain ↔ _ :=
    reached_iff hans (fun n hn => hplain n (by simp [hn])) fun _ => habove
  rw [NamedTree.mem_walk hwalk]
  constructor
  · rintro ⟨r, k, hr, hk, heq⟩
    obtain ⟨rfl, hname⟩ := List.append_inj' heq rfl
    cases hname
    obtain ⟨hwithin, hpasses⟩ := hreached.mp hr
    obtain ⟨⟨hshown, hpass⟩, size, content, hstat, hsmall, hread, he⟩ :=
      (mem_items_file hans hplain hfit).mp hk
    exact ⟨size, content, ⟨hwithin, hshown, hstat, hsmall⟩,
      ⟨passes_concat.mpr ⟨hpasses, hpass⟩, hread⟩, he⟩
  · rintro ⟨size, content, heligible, hgot, he⟩
    obtain ⟨hpasses, hpass⟩ := passes_concat.mp hgot.passes
    exact ⟨chain, name, hreached.mpr ⟨heligible.within, hpasses⟩,
      (mem_items_file hans hplain hfit).mpr ⟨⟨heligible.shown, hpass⟩, size, content,
        heligible.stat, heligible.small, hgot.read, he⟩, rfl⟩

/-! ### Each file once -/

theorem nodup_items (chain : Chain) : ((items fs opt base chain).map Prod.fst).Nodup := by
  rw [items]
  cases hentries : entriesOf fs opt base chain with
  | error rc => exact List.nodup_nil
  | ok names =>
      obtain ⟨-, -, listing, -, -, rfl⟩ := entriesOf_eq_ok.mp hentries
      dsimp only
      rw [List.map_filterMap]
      refine List.Nodup.filterMap (fun n n' m hn hn' => ?_)
        ((sortNames_perm _).nodup_iff.mpr (listing.nodup.filter _))
      obtain ⟨i, hi, rfl⟩ := Option.map_eq_some_iff.mp hn
      obtain ⟨i', hi', heq⟩ := Option.map_eq_some_iff.mp hn'
      rw [← itemOf_name hi, ← itemOf_name hi', heq]

/-- The entry of a leaf has its path. -/
theorem path_of_leaf {fuel : ℕ} {leaves : Leaves}
    (hwalk : NamedTree.walk (items fs opt base) fuel [] = some leaves) {q : Chain} {e : Entry}
    (h : (q, some e) ∈ leaves) : e.path = relPath base (nodeOf base q) := by
  obtain ⟨r, k, hr, hk, rfl⟩ := (NamedTree.mem_walk hwalk).mp h
  obtain ⟨-, -, -, hitem⟩ := mem_items_iff.mp hk
  obtain ⟨-, size, content, -, -, -, rfl⟩ := itemOf_eq_file.mp hitem
  rw [nodeOf_concat]

theorem filter_listedBy_eq_nil {leaves : Leaves} {chain : Chain} {path : Str}
    (hpath : ∀ q e, (q, some e) ∈ leaves → e.path = path → q = chain)
    (h : ∀ e, (chain, some e) ∉ leaves) :
    (listedBy leaves).filter (fun e => e.path = path) = [] := by
  refine List.filter_eq_nil_iff.mpr fun e he => ?_
  obtain ⟨⟨q, e'⟩, hmem, rfl⟩ := List.mem_filterMap.mp he
  intro heq
  obtain rfl := hpath q e hmem (of_decide_eq_true heq)
  exact h e hmem

/-- A path is listed once if it is that of one leaf. -/
theorem filter_listedBy_eq {leaves : Leaves} (hnodup : (leaves.map Prod.fst).Nodup)
    {chain : Chain} {e : Entry} (h : (chain, some e) ∈ leaves)
    (hpath : ∀ q e', (q, some e') ∈ leaves → e'.path = e.path → q = chain) :
    (listedBy leaves).filter (fun e' => e'.path = e.path) = [e] := by
  obtain ⟨pre, post, rfl⟩ := List.append_of_mem h
  rw [List.map_append, List.map_cons] at hnodup
  have hother := (List.nodup_middle.mp hnodup).notMem
  rw [← List.map_append] at hother
  have hrest (part : Leaves) (hpart : ∀ leaf ∈ part, leaf ∈ pre ++ post) :
      (listedBy part).filter (fun e' => e'.path = e.path) = [] := by
    refine filter_listedBy_eq_nil (fun q e' hmem heq => hpath q e' ?_ heq) fun e' hmem =>
      hother (List.mem_map.mpr ⟨_, hpart _ hmem, rfl⟩)
    have hin := hpart _ hmem
    simp only [List.mem_append, List.mem_cons] at hin ⊢
    tauto
  rw [← List.singleton_append, listedBy_append, listedBy_append, List.filter_append,
    List.filter_append, hrest pre (fun _ => List.mem_append_left _),
    hrest post (fun _ => List.mem_append_right _)]
  simp [listedBy]

theorem Within.plain {chain : Chain} (h : Within tree opt base chain) :
    ∀ n ∈ chain, Plain n := by
  induction h with
  | base => exact fun n hn => absurd hn List.not_mem_nil
  | step _ hshown _ _ ih => exact plain_concat.mpr ⟨ih, hshown.plain⟩

/-- The manifest of a scan that returns 0 lists a file with a path that fits and has a byte
to spare once if the file is eligible and could be got at, and not at all otherwise. -/
theorem paiScanRun_lists (hans : Answers tree fs) {out : Str} (hbase : opt.baseDir = some base)
    (hout : opt.outDir = some out) {fuel : ℕ} {outcome : Outcome}
    (h : paiScanRun P fs opt fuel = pure outcome) (hcode : outcome.code = 0) :
    ∃ entries rest,
      outcome.files =
        (joinPath paiMaxPath out manifestName, header opt.hashAlgo ++ manifest entries) :: rest ∧
      ∀ chain name, (pathOf base (chain ++ [name])).length + 1 < paiMaxPath →
        (∀ size content, Eligible tree opt base chain name size →
          Got fs opt base (chain ++ [name]) content →
          entries.filter (fun e => e.path = relPath base (pathOf base (chain ++ [name]))) =
            [⟨relPath base (pathOf base (chain ++ [name])), size,
              digestOf opt.hashAlgo content⟩]) ∧
        ((∀ n ∈ chain ++ [name], Plain n) →
          (¬∃ size content, Eligible tree opt base chain name size ∧
            Got fs opt base (chain ++ [name]) content) →
          entries.filter
            (fun e => e.path = relPath base (pathOf base (chain ++ [name]))) = []) := by
  obtain ⟨leaves, rest, hwalk, hfiles, -⟩ :=
    (paiScanRun_writes hbase hout h).resolve_left fun hearly => hearly.1 hcode
  refine ⟨listedBy leaves, rest, hfiles, fun chain name hshort => ?_⟩
  have hunique (hplain : ∀ n ∈ chain ++ [name], Plain n) (q : Chain) (e : Entry)
      (hmem : (q, some e) ∈ leaves)
      (hpath : e.path = relPath base (pathOf base (chain ++ [name]))) : q = chain ++ [name] := by
    obtain ⟨hne, hq⟩ := leaf_plain hwalk hmem
    rw [path_of_leaf hwalk hmem] at hpath
    exact relPath_nodeOf_inj hplain hq (by simp) hne hshort hpath
  constructor
  · intro size content heligible hgot
    have hplain : ∀ n ∈ chain ++ [name], Plain n :=
      plain_concat.mpr ⟨heligible.within.plain, heligible.shown.plain⟩
    have hmem := (mem_leaves_iff hans hwalk (fun n hn => (hplain n hn).ne_nil)
      (by omega)).mpr ⟨size, content, heligible, hgot, rfl⟩
    exact filter_listedBy_eq (NamedTree.nodup_walk nodup_items hwalk).1 hmem (hunique hplain)
  · intro hplain hnone
    refine filter_listedBy_eq_nil (hunique hplain) fun e hmem => ?_
    obtain ⟨size, content, heligible, hgot, -⟩ := (mem_leaves_iff hans hwalk
      (fun n hn => (hplain n hn).ne_nil) (by omega)).mp hmem
    exact hnone ⟨size, content, heligible, hgot⟩

/-! ### Files that are left out -/

/-- A name `f`. -/
def oneName : Listing where
  names := [[0x66]]
  nodup := by decide
  ne_nil := by decide
  no_slash := by decide

/-- A name `d`, and a name `f`. -/
def branchNames : Listing where
  names := [[0x64], [0x66]]
  nodup := by decide
  ne_nil := by decide
  no_slash := by decide

/-- A base `a` with a file `f` and a directory `d`, which holds another file `f`; it may be
that `d` cannot be opened. -/
def branchFiles (opened : Bool) : FileSystem where
  opens := fun _ => true
  opendir := fun path =>
    if path = [0x61] then some branchNames
    else if opened then some oneName else none
  stat := fun _ path =>
    some (if path = [0x61, slash, 0x64] then ⟨.directory, 0⟩ else ⟨.regular, 0⟩)
  read := fun _ => some []
  read_lt := empty_lt
  mkdirP := fun _ => true
  create := fun _ => true

theorem answers_branchFiles : Answers (branchFiles true) (branchFiles false) where
  opendir := by
    intro path listing h
    refine ⟨listing, ?_, List.prefix_refl _⟩
    simp only [branchFiles] at h ⊢
    split at h
    · next hbase => rwa [if_pos hbase]
    · cases h
  stat := fun _ _ _ h => h
  read := fun _ _ h => h

theorem entriesOf_branchFiles :
    entriesOf (branchFiles false) plainOpts [0x61] [] = .ok [[0x64], [0x66]] := by
  refine entriesOf_eq_ok.mpr ⟨by decide, by decide, branchNames, rfl,
    room_of_length_le (by decide), ?_⟩
  rw [show branchNames.names.filter (keeps plainOpts [0x61] (nodeOf [0x61] [])) =
    [[0x64], [0x66]] by decide]
  exact (List.mergeSort_of_pairwise (by decide)).symm

theorem walk_branchFiles :
    NamedTree.walk (items (branchFiles false) plainOpts [0x61]) 2 [] =
      some [([[0x66]], some (emptyLine [0x66]))] := by
  have htop : items (branchFiles false) plainOpts [0x61] [] =
      [([0x64], none), ([0x66], some (some (emptyLine [0x66])))] := by
    rw [items, entriesOf_branchFiles]
    rfl
  have hbelow : items (branchFiles false) plainOpts [0x61] [[0x64]] = [] := by
    rfl
  rw [NamedTree.walk, htop, NamedTree.gather, NamedTree.walk, List.nil_append, hbelow]
  rfl

theorem eligible_branchFiles :
    Eligible (branchFiles true) plainOpts [0x61] [[0x64]] [0x66] 0 where
  within := @Within.step _ _ _ [] _ _ .base
    ⟨by decide, by decide, ⟨branchNames, rfl, by decide⟩, by decide, by decide, by decide⟩ rfl rfl
  shown := ⟨by decide, by decide, ⟨oneName, rfl, by decide⟩, by decide, by decide, by decide⟩
  stat := rfl
  small := by decide

theorem eligible_branchFiles_base :
    Eligible (branchFiles true) plainOpts [0x61] [] [0x66] 0 where
  within := .base
  shown := ⟨by decide, by decide, ⟨branchNames, rfl, by decide⟩, by decide, by decide, by decide⟩
  stat := rfl
  small := by decide

theorem got_branchFiles_base : Got (branchFiles false) plainOpts [0x61] [[0x66]] [] where
  passes := by
    intro above name below h
    obtain ⟨rfl, rfl, rfl⟩ : above = [] ∧ name = [0x66] ∧ below = [] := by
      cases above with
      | nil =>
          cases h
          exact ⟨rfl, rfl, rfl⟩
      | cons n above => simp at h
    exact ⟨⟨branchNames, rfl, by decide, room_of_length_le (by decide)⟩, Option.some_ne_none _⟩
  read := rfl

/-- A directory that is not opened gives nothing. -/
theorem not_got_branchFiles {content : List Byte} :
    ¬Got (branchFiles false) plainOpts [0x61] [[0x64], [0x66]] content := by
  intro h
  obtain ⟨listing, hopen, -⟩ := (h.passes [[0x64]] [0x66] [] rfl).opened
  cases hopen

/-- A base of 4093 bytes: a name of one byte fits behind it, and of longer ones the first
byte is left. -/
def longBase : Str := (List.replicate 2046 [dot, slash]).flatten ++ [dot]

/-- Two names of which the one is left of the other. -/
def cutNames : Listing where
  names := [[0x61], [0x61, 0x62]]
  nodup := by decide
  ne_nil := by decide
  no_slash := by decide

def cutFiles : FileSystem where
  opens := fun _ => true
  opendir := fun _ => some cutNames
  stat := fun _ _ => some ⟨.regular, 0⟩
  read := fun _ => some []
  read_lt := empty_lt
  mkdirP := fun _ => true
  create := fun _ => true

theorem length_longBase : longBase.length = 4093 := by
  rw [longBase, List.length_append, List.length_flatten, List.map_replicate,
    List.sum_replicate_nat]
  rfl

theorem joined_longBase (n : Str) : joined longBase n = longBase ++ slash :: n := by
  have hlast : longBase.getLast? ≠ some slash := by
    rw [longBase, List.getLast?_append_of_ne_nil _ (List.cons_ne_nil _ _)]
    decide
  have hne : longBase ≠ [] := List.ne_nil_of_length_pos (by rw [length_longBase]; decide)
  rw [joined, if_neg hne, if_neg hlast]

theorem joinPath_longBase (n : Str) :
    joinPath paiMaxPath longBase n = longBase ++ slash :: n.take 1 := by
  have hlen : paiMaxPath - 1 = longBase.length + 2 := by rw [length_longBase]; rfl
  rw [joinPath, snprintf, joined_longBase, hlen, List.take_length_add_append]
  rfl

theorem relPath_longBase (n : Str) : relPath longBase (longBase ++ slash :: n) = n := by
  have hne : longBase ≠ [] := List.ne_nil_of_length_pos (by rw [length_longBase]; decide)
  rw [relPath, if_neg hne, if_pos (List.isPrefixOf_iff_prefix.mpr (List.prefix_append _ _)),
    List.drop_left]
  exact if_pos rfl

def cutOpts : ScanOpts := { plainOpts with baseDir := some longBase }

theorem itemOf_cutFiles (n : Str) :
    itemOf cutFiles cutOpts longBase longBase n =
      some (n, some (some ⟨n.take 1, 0, digestOf (some blake3Name) []⟩)) := by
  rw [itemOf, joinPath_longBase, relPath_longBase]
  rfl

theorem entriesOf_cutFiles : entriesOf cutFiles cutOpts longBase [] = .ok cutNames.names := by
  refine entriesOf_eq_ok.mpr ⟨by decide, rfl, cutNames, rfl, room_of_length_le (by decide), ?_⟩
  have hkeeps : cutNames.names.filter (keeps cutOpts longBase (nodeOf longBase [])) =
      cutNames.names := rfl
  rw [hkeeps]
  exact (List.mergeSort_of_pairwise (by decide)).symm

theorem walk_cutFiles :
    NamedTree.walk (items cutFiles cutOpts longBase) 1 [] =
      some [([[0x61]], some ⟨[0x61], 0, digestOf (some blake3Name) []⟩),
        ([[0x61, 0x62]], some ⟨[0x61], 0, digestOf (some blake3Name) []⟩)] := by
  rw [NamedTree.walk, items, entriesOf_cutFiles]
  dsimp only
  rw [nodeOf_nil, cutNames, List.filterMap_cons, itemOf_cutFiles]
  dsimp only
  rw [List.filterMap_cons, itemOf_cutFiles]
  rfl

theorem eligible_cutFiles {n : Str} (h : n ∈ cutNames.names) :
    Eligible cutFiles cutOpts longBase [] n 0 where
  within := .base
  shown := by
    have hentry : ∀ m ∈ cutNames.names, isEntry m = true := by decide
    have hvisible : ∀ m ∈ cutNames.names, isHiddenName m = false := by decide
    exact ⟨by decide, rfl, ⟨cutNames, rfl, h⟩, hentry n h, .inr (hvisible n h), rfl⟩
  stat := rfl
  small := by decide

/-- One line is not too long. -/
theorem length_linesOf_one {chain : Chain} {e : Entry} (h : e.path.length < paiMaxPath) :
    (linesOf [(chain, some e)]).length < 2 ^ 64 := by
  have hline := length_line_le h
  simp only [linesOf, listedBy, manifest, List.filterMap_cons, List.filterMap_nil,
    List.flatMap_cons, List.flatMap_nil, List.append_nil]
  omega

theorem run_branchFiles :
    paiScanRun hosted (branchFiles false) plainOpts 2 =
        pure (outcomeOf (branchFiles false) plainOpts [0x61] [0x62]
          [([[0x66]], some (emptyLine [0x66]))]) ∧
      (outcomeOf (branchFiles false) plainOpts [0x61] [0x62]
        [([[0x66]], some (emptyLine [0x66]))]).code = 0 := by
  refine ⟨paiScanRun_eq rfl rfl walk_branchFiles (length_linesOf_one (by decide)), ?_⟩
  have hreturned : returned (branchFiles false) plainOpts [0x61] [] = 0 := by
    rw [returned, entriesOf_branchFiles]
  rw [outcomeOf, hreturned]
  rfl

/-- The file `f` is listed, and `d/f` is not. -/
theorem paiScanRun_lists_branch :
    ∃ outcome entries rest, paiScanRun hosted (branchFiles false) plainOpts 2 = pure outcome ∧
      outcome.files = (joinPath paiMaxPath [0x62] manifestName,
        header (some blake3Name) ++ manifest entries) :: rest ∧
      entries.filter (fun e => e.path = [0x66]) = [emptyLine [0x66]] ∧
      entries.filter (fun e => e.path = [0x64, slash, 0x66]) = [] := by
  obtain ⟨entries, rest, hfiles, hlists⟩ :=
    paiScanRun_lists answers_branchFiles rfl rfl run_branchFiles.1 run_branchFiles.2
  refine ⟨_, entries, rest, run_branchFiles.1, hfiles, ?_, ?_⟩
  · exact (hlists [] [0x66] (by decide)).1 0 [] eligible_branchFiles_base got_branchFiles_base
  · exact (hlists [[0x64]] [0x66] (by decide)).2
      (plain_concat.mpr ⟨eligible_branchFiles.within.plain, eligible_branchFiles.shown.plain⟩)
      fun ⟨_, _, _, hgot⟩ => not_got_branchFiles hgot

/-- A file in a directory that is not opened is left out; of two files whose paths are
the same up to the cut the one is listed twice and the other is not. -/
theorem paiScanRun_omits :
    (∃ outcome rest,
      paiScanRun hosted (branchFiles false) plainOpts 2 = pure outcome ∧ outcome.code = 0 ∧
      outcome.files = (joinPath paiMaxPath [0x62] manifestName,
        header (some blake3Name) ++ manifest [emptyLine [0x66]]) :: rest ∧
      Answers (branchFiles true) (branchFiles false) ∧
      Eligible (branchFiles true) plainOpts [0x61] [[0x64]] [0x66] 0) ∧
    ∃ outcome rest digest,
      paiScanRun hosted cutFiles cutOpts 1 = pure outcome ∧ outcome.code = 0 ∧
      outcome.files = (joinPath paiMaxPath [0x62] manifestName, header (some blake3Name) ++
        manifest [⟨[0x61], 0, digest⟩, ⟨[0x61], 0, digest⟩]) :: rest ∧
      ∀ n ∈ [[0x61], [0x61, 0x62]], Eligible cutFiles cutOpts longBase [] n 0 := by
  constructor
  · exact ⟨_, _, run_branchFiles.1, run_branchFiles.2, rfl, answers_branchFiles,
      eligible_branchFiles⟩
  · have hlines (digest : CVBytes) :
        (manifest [⟨[0x61], 0, digest⟩, ⟨[0x61], 0, digest⟩]).length < 2 ^ 64 := by
      have hline := length_line_le (e := ⟨[0x61], 0, digest⟩) (show 1 < paiMaxPath by decide)
      simp only [manifest, List.flatMap_cons, List.flatMap_nil, List.length_append,
        List.length_nil]
      omega
    refine ⟨_, _, digestOf (some blake3Name) [],
      paiScanRun_eq rfl rfl walk_cutFiles (hlines _), ?_, rfl, fun n hn => eligible_cutFiles hn⟩
    have hreturned : returned cutFiles cutOpts longBase [] = 0 := by
      rw [returned, entriesOf_cutFiles]
    rw [outcomeOf, hreturned]
    rfl

end Blake3.Pai
