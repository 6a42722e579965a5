import Blake3.Pai.Scan

/-!
The order in which `readdir` returns names does not matter to a scan: the entries of
a directory are sorted before they are gone through, and no name is dropped for the
order as long as no directory is too large.
-/

namespace Blake3.Pai

/-! ### Sorting -/

theorem nameLe_iff {a b : Str} : nameLe a b = true ↔ a ≤ b := by
  rw [nameLe, Bool.not_eq_true', decide_eq_false_iff_not]
  exact List.not_lt

theorem sortNames_perm (names : List Str) : (sortNames names).Perm names := List.mergeSort_perm _ _

theorem pairwise_sortNames (names : List Str) : (sortNames names).Pairwise (· ≤ ·) := by
  have hsorted := @List.pairwise_mergeSort _ nameLe
    (fun a b c hab hbc => nameLe_iff.mpr (List.le_trans (nameLe_iff.mp hab) (nameLe_iff.mp hbc)))
    (fun a b => by
      rw [Bool.or_eq_true, nameLe_iff, nameLe_iff]
      exact List.le_total a b) names
  exact hsorted.imp nameLe_iff.mp

/-- The order that the names come in is lost. -/
theorem sortNames_congr {l l' : List Str} (h : l.Perm l') : sortNames l = sortNames l' :=
  ((sortNames_perm l).trans (h.trans (sortNames_perm l').symm)).eq_of_pairwise
    (fun _ _ _ _ => List.le_antisymm) (pairwise_sortNames l) (pairwise_sortNames l')

/-! ### Directories of the right size -/

section

variable (fs : FileSystem) (opt : ScanOpts) (base : Str)

/-- A name that is not the directory itself or its parent. -/
def isEntry (n : Str) : Bool := n ≠ [dot] && n ≠ [dot, dot]

/-- The names of a directory that are sorted. -/
def keeps (dirpath n : Str) : Bool :=
  isEntry n && (opt.includeHidden || !isHiddenName n) &&
    !isExcluded opt.excludes base (joinPath paiMaxPath dirpath n)

/-- Behind `k` names that are kept there is room for every other one that is looked at;
without that the entries of the directory are given up. -/
def Room (dirpath : Str) (k : ℕ) (names : List Str) : Prop :=
  ∀ above name below, names = above ++ name :: below → isEntry name = true →
    (opt.includeHidden = true ∨ isHiddenName name = false) →
    k + (above.filter (keeps opt base dirpath)).length < paiMaxEntries

/-- The directories that a scan comes to. -/
abbrev Reached (chain : Chain) : Prop := NamedTree.Branch (items fs opt base) [] chain

/-- Every directory that is read has at most `PAI_MAX_ENTRIES` entries. -/
def Small : Prop :=
  ∀ chain listing, Reached fs opt base chain → fs.opendir (nodeOf base chain) = some listing →
    (listing.names.filter isEntry).length ≤ paiMaxEntries

/-- Every path that is joined fits `PAI_MAX_PATH`. -/
def Fits : Prop :=
  ∀ chain listing, Reached fs opt base chain → fs.opendir (nodeOf base chain) = some listing →
    ∀ n ∈ listing.names, isEntry n = true → (joined (nodeOf base chain) n).length < paiMaxPath

end

variable {fs fs' : FileSystem} {opt : ScanOpts} {base : Str}

theorem room_cons {dirpath : Str} {k : ℕ} {n : Str} {names : List Str} :
    Room opt base dirpath k (n :: names) ↔
      (isEntry n = true → (opt.includeHidden = true ∨ isHiddenName n = false) →
        k < paiMaxEntries) ∧
      Room opt base dirpath (k + ([n].filter (keeps opt base dirpath)).length) names := by
  constructor
  · intro h
    refine ⟨h [] n names rfl, fun above name below hnames hentry hvisible => ?_⟩
    have hlt := h (n :: above) name below (by rw [hnames, List.cons_append]) hentry hvisible
    rwa [← List.singleton_append, List.filter_append, List.length_append, ← Nat.add_assoc] at hlt
  · rintro ⟨hfirst, hrest⟩ above name below hnames hentry hvisible
    cases above with
    | nil =>
        cases hnames
        exact hfirst hentry hvisible
    | cons m above =>
        cases hnames
        have hlt := hrest above name below rfl hentry hvisible
        rwa [← List.singleton_append, List.filter_append, List.length_append, ← Nat.add_assoc]

/-- The entries are collected if and only if there is room for them. -/
theorem collect_eq_some {dirpath : Str} {kept names entries : List Str} :
    collect opt base dirpath kept names = some entries ↔
      Room opt base dirpath kept.length names ∧
        entries = kept ++ names.filter (keeps opt base dirpath) := by
  induction names generalizing kept with
  | nil =>
      rw [collect, List.filter_nil, List.append_nil, Option.some_inj]
      exact ⟨fun h => ⟨fun above _ _ hnames => by simp at hnames, h.symm⟩, fun h => h.2.symm⟩
  | cons n names ih =>
      -- a name that is passed over changes nothing
      have hskip (hkeeps : keeps opt base dirpath n ≠ true)
          (hroom : isEntry n = true → (opt.includeHidden = true ∨ isHiddenName n = false) →
            kept.length < paiMaxEntries) :
          collect opt base dirpath kept names = some entries ↔
            Room opt base dirpath kept.length (n :: names) ∧
              entries = kept ++ (n :: names).filter (keeps opt base dirpath) := by
        rw [ih, room_cons, List.filter_cons_of_neg hkeeps, List.filter_cons_of_neg hkeeps]
        exact ⟨fun h => ⟨⟨hroom, h.1⟩, h.2⟩, fun h => ⟨h.1.2, h.2⟩⟩
      rw [collect]
      split_ifs with hdots hhidden hfull hex
      · have hentry : isEntry n = false := by
          rcases hdots with rfl | rfl <;> rfl
        exact hskip (by simp [keeps, hentry]) fun h => by rw [hentry] at h; cases h
      · obtain ⟨hi, hh⟩ : opt.includeHidden = false ∧ isHiddenName n = true := by
          simpa using hhidden
        exact hskip (by simp [keeps, hi, hh]) fun _ h => by simp [hi, hh] at h
      · have hentry : isEntry n = true := by simpa [isEntry] using hdots
        have hvisible : opt.includeHidden = true ∨ isHiddenName n = false := by
          simpa [← Bool.not_eq_true, imp_iff_not_or] using hhidden
        refine iff_of_false (by simp) fun h => ?_
        have hlt := (room_cons.mp h.1).1 hentry hvisible
        omega
      · exact hskip (by simp [keeps, hex]) fun _ _ => by omega
      · have hkeeps : keeps opt base dirpath n = true := by
          have hentry : isEntry n = true := by simpa [isEntry] using hdots
          have hvisible : opt.includeHidden = true ∨ isHiddenName n = false := by
            simpa [← Bool.not_eq_true, imp_iff_not_or] using hhidden
          simpa [keeps, hentry, hex] using hvisible
        rw [ih, room_cons, List.filter_cons_of_pos hkeeps, List.filter_cons_of_pos hkeeps,
          List.length_append, List.append_assoc]
        exact ⟨fun h => ⟨⟨fun _ _ => by omega, h.1⟩, h.2⟩, fun h => ⟨h.1.2, h.2⟩⟩

theorem room_of_length_le {dirpath : Str} {names : List Str}
    (h : (names.filter isEntry).length ≤ paiMaxEntries) : Room opt base dirpath 0 names := by
  rintro above name below rfl hentry -
  have hle : (above.filter (keeps opt base dirpath)).length ≤ (above.filter isEntry).length := by
    refine (List.monotone_filter_right above fun n hn => ?_).length_le
    simp only [keeps, Bool.and_eq_true] at hn
    exact hn.1.1
  rw [List.filter_append, List.filter_cons_of_pos hentry, List.length_append, List.length_cons] at h
  omega

/-- The entries of a directory, if it is read. -/
theorem entriesOf_eq_ok {chain : Chain} {entries : List Str} :
    entriesOf fs opt base chain = .ok entries ↔
      ¬(0 ≤ opt.maxDepth ∧ opt.maxDepth.toInt < chain.length) ∧
        isExcluded opt.excludes base (nodeOf base chain) = false ∧
        ∃ listing, fs.opendir (nodeOf base chain) = some listing ∧
          Room opt base (nodeOf base chain) 0 listing.names ∧
          entries = sortNames (listing.names.filter (keeps opt base (nodeOf base chain))) := by
  rw [entriesOf]
  split
  · next hdepth => exact iff_of_false (by simp) fun h => h.1 hdepth
  · next hdepth =>
      split
      · next hex =>
          refine iff_of_false (by simp) fun h => ?_
          rw [hex] at h
          cases h.2.1
      · next hex =>
          rw [Bool.not_eq_true] at hex
          cases fs.opendir (nodeOf base chain) with
          | none => simp
          | some listing =>
              dsimp only
              cases hcollect : collect opt base (nodeOf base chain) [] listing.names with
              | none =>
                  refine iff_of_false (by simp) ?_
                  rintro ⟨-, -, _, ⟨⟩, hroom, -⟩
                  rw [collect_eq_some.mpr ⟨hroom, rfl⟩] at hcollect
                  cases hcollect
              | some kept =>
                  obtain ⟨hroom, rfl⟩ := collect_eq_some.mp hcollect
                  rw [Except.ok.injEq, List.nil_append]
                  constructor
                  · rintro rfl
                    exact ⟨hdepth, hex, listing, rfl, hroom, rfl⟩
                  · rintro ⟨-, -, _, ⟨⟩, -, rfl⟩
                    rfl

/-! ### The same tree -/

/-- Two file systems that differ in the order in which names are returned. -/
structure SameTree (fs fs' : FileSystem) : Prop where
  opens : fs'.opens = fs.opens
  opendir : ∀ path, Option.Rel (fun l l' => l'.names.Perm l.names) (fs.opendir path)
    (fs'.opendir path)
  stat : fs'.stat = fs.stat
  read : fs'.read = fs.read
  mkdirP : fs'.mkdirP = fs.mkdirP
  create : fs'.create = fs.create

theorem SameTree.entriesOf_eq (h : SameTree fs fs') (hsmall : Small fs opt base) {chain : Chain}
    (hchain : Reached fs opt base chain) :
    entriesOf fs' opt base chain = entriesOf fs opt base chain := by
  rw [entriesOf, entriesOf]
  split
  · rfl
  · split
    · rfl
    · have hrel := h.opendir (nodeOf base chain)
      cases hopen : fs.opendir (nodeOf base chain) with
      | none =>
          rw [hopen] at hrel
          cases hopen' : fs'.opendir (nodeOf base chain) with
          | none => rfl
          | some listing' => rw [hopen'] at hrel; cases hrel
      | some listing =>
          rw [hopen] at hrel
          cases hopen' : fs'.opendir (nodeOf base chain) with
          | none => rw [hopen'] at hrel; cases hrel
          | some listing' =>
              rw [hopen'] at hrel
              obtain ⟨hperm⟩ : Option.Rel _ _ _ := hrel
              have hle := hsmall chain listing hchain hopen
              have hle' : (listing'.names.filter isEntry).length ≤ paiMaxEntries := by
                rwa [(hperm.filter isEntry).length_eq]
              dsimp only
              rw [collect_eq_some.mpr ⟨room_of_length_le hle', rfl⟩,
                collect_eq_some.mpr ⟨room_of_length_le hle, rfl⟩]
              exact congrArg Except.ok (sortNames_congr ((hperm.filter _).append_left []))

theorem SameTree.items_eq (h : SameTree fs fs') (hsmall : Small fs opt base) {chain : Chain}
    (hchain : Reached fs opt base chain) : items fs' opt base chain = items fs opt base chain := by
  have hitem : itemOf fs' opt base = itemOf fs opt base := by
    funext dirpath name
    rw [itemOf, itemOf, h.stat, h.read]
  rw [items, items, h.entriesOf_eq hsmall hchain, hitem]

/-! ### The walk ends -/

theorem itemOf_name {dirpath n : Str} {i : Str × Option (Option Entry)}
    (h : itemOf fs opt base dirpath n = some i) : i.1 = n := by
  rw [itemOf] at h
  split at h
  · cases h
  · cases hstat : fs.stat opt.followSymlinks (joinPath paiMaxPath dirpath n) with
    | none => rw [hstat] at h; cases h
    | some st =>
        obtain ⟨kind, size⟩ := st
        rw [hstat] at h
        cases kind with
        | directory => cases h; rfl
        | other => cases h
        | regular =>
            dsimp only at h
            split at h
            · cases h
            · cases h
              rfl

theorem itemOf_eq_directory {dirpath name : Str} :
    itemOf fs opt base dirpath name = some (name, none) ↔
      isExcluded opt.excludes base (joinPath paiMaxPath dirpath name) = false ∧
        ∃ st, fs.stat opt.followSymlinks (joinPath paiMaxPath dirpath name) = some st ∧
          st.kind = .directory := by
  rw [itemOf]
  by_cases hex : isExcluded opt.excludes base (joinPath paiMaxPath dirpath name) = true
  · simp [hex]
  · rw [if_neg hex]
    rw [Bool.not_eq_true] at hex
    cases fs.stat opt.followSymlinks (joinPath paiMaxPath dirpath name) with
    | none => simp
    | some st =>
        obtain ⟨kind, size⟩ := st
        cases kind <;> simp [hex]

theorem itemOf_eq_file {dirpath name : Str} {e : Entry} :
    itemOf fs opt base dirpath name = some (name, some (some e)) ↔
      isExcluded opt.excludes base (joinPath paiMaxPath dirpath name) = false ∧
        ∃ size content,
          fs.stat opt.followSymlinks (joinPath paiMaxPath dirpath name) = some ⟨.regular, size⟩ ∧
          ¬(0 ≤ opt.maxSize ∧ opt.maxSize < size) ∧
          fs.read (joinPath paiMaxPath dirpath name) = some content ∧
          e = ⟨relPath base (joinPath paiMaxPath dirpath name), size,
            digestOf opt.hashAlgo content⟩ := by
  rw [itemOf]
  by_cases hex : isExcluded opt.excludes base (joinPath paiMaxPath dirpath name) = true
  · simp [hex]
  · rw [if_neg hex]
    rw [Bool.not_eq_true] at hex
    cases fs.stat opt.followSymlinks (joinPath paiMaxPath dirpath name) with
    | none => simp
    | some st =>
        obtain ⟨kind, size⟩ := st
        cases kind with
        | directory => simp
        | other => simp
        | regular =>
            dsimp only
            split
            · next hbig =>
                refine iff_of_false (by simp) ?_
                rintro ⟨-, _, _, ⟨⟩, hsmall, -⟩
                exact hsmall hbig
            · next hsmall =>
                rw [Option.some_inj, Prod.mk.injEq, Option.some_inj, Option.map_eq_some_iff]
                constructor
                · rintro ⟨-, content, hread, rfl⟩
                  exact ⟨hex, size, content, rfl, hsmall, hread, rfl⟩
                · rintro ⟨-, _, content, ⟨⟩, -, hread, rfl⟩
                  exact ⟨rfl, content, hread, rfl⟩

/-- An item is an entry of a directory that is read. -/
theorem mem_items_iff {chain : Chain} {n : Str} {e : Option (Option Entry)} :
    (n, e) ∈ items fs opt base chain ↔
      ∃ entries, entriesOf fs opt base chain = .ok entries ∧ n ∈ entries ∧
        itemOf fs opt base (nodeOf base chain) n = some (n, e) := by
  rw [items]
  cases entriesOf fs opt base chain with
  | error rc => simp
  | ok entries =>
      dsimp only
      rw [List.mem_filterMap]
      constructor
      · rintro ⟨m, hm, hitem⟩
        obtain rfl : n = m := itemOf_name hitem
        exact ⟨entries, rfl, hm, hitem⟩
      · rintro ⟨entries', hentries, hn, hitem⟩
        cases hentries
        exact ⟨n, hn, hitem⟩

theorem name_of_mem_items {chain : Chain} {n : Str} {e : Option (Option Entry)}
    (h : (n, e) ∈ items fs opt base chain) :
    ∃ listing, fs.opendir (nodeOf base chain) = some listing ∧ n ∈ listing.names ∧
      isEntry n = true := by
  obtain ⟨entries, hentries, hn, -⟩ := mem_items_iff.mp h
  obtain ⟨-, -, listing, hopen, -, rfl⟩ := entriesOf_eq_ok.mp hentries
  obtain ⟨hnames, hkeeps⟩ := List.mem_filter.mp ((sortNames_perm _).mem_iff.mp hn)
  simp only [keeps, Bool.and_eq_true] at hkeeps
  exact ⟨listing, hopen, hnames, hkeeps.1.1⟩

theorem plain_of_mem_items {chain : Chain} {n : Str} {e : Option (Option Entry)}
    (h : (n, e) ∈ items fs opt base chain) : Plain n := by
  obtain ⟨listing, -, hn, hentry⟩ := name_of_mem_items h
  obtain ⟨hdot, hdots⟩ : n ≠ [dot] ∧ n ≠ [dot, dot] := by simpa [isEntry] using hentry
  exact ⟨listing.ne_nil n hn, listing.no_slash n hn, hdot, hdots⟩

theorem Reached.plain {chain : Chain} (h : Reached fs opt base chain) : ∀ n ∈ chain, Plain n := by
  induction h with
  | root => exact fun n hn => absurd hn List.not_mem_nil
  | step _ hk ih => exact plain_concat.mpr ⟨ih, plain_of_mem_items hk⟩

theorem leaf_plain {fuel : ℕ} {leaves : Leaves}
    (hwalk : NamedTree.walk (items fs opt base) fuel [] = some leaves) {q : Chain}
    {e : Option Entry} (h : (q, e) ∈ leaves) : q ≠ [] ∧ ∀ n ∈ q, Plain n := by
  obtain ⟨r, k, hr, hk, rfl⟩ := (NamedTree.mem_walk hwalk).mp h
  exact ⟨by simp, plain_concat.mpr ⟨Reached.plain hr, plain_of_mem_items hk⟩⟩

/-- Nothing is cut off. -/
theorem Fits.nodeOf_eq (hfits : Fits fs opt base) {chain : Chain} (h : Reached fs opt base chain) :
    nodeOf base chain = pathOf base chain ∧
      (chain ≠ [] → (pathOf base chain).length < paiMaxPath) := by
  induction h with
  | root => exact ⟨rfl, fun h => absurd rfl h⟩
  | @step chain n h hn ih =>
      obtain ⟨listing, hopen, hmem, hentry⟩ := name_of_mem_items hn
      have hlt := hfits chain listing h hopen n hmem hentry
      rw [nodeOf_concat, pathOf_concat, ← ih.1, joinPath_of_lt hlt]
      exact ⟨rfl, fun _ => hlt⟩

/-- The scan ends where all paths fit. -/
theorem Fits.walk_total (hfits : Fits fs opt base) {fuel : ℕ} (hfuel : paiMaxPath ≤ fuel) :
    ∃ leaves, NamedTree.walk (items fs opt base) fuel [] = some leaves := by
  refine NamedTree.walk_total fun chain hchain => ?_
  rw [List.length_nil, Nat.zero_add]
  by_cases hne : chain = []
  · rw [hne, List.length_nil]
    exact lt_of_lt_of_le (by decide) hfuel
  · have hlen := @length_chain_le base chain fun n hn => (Reached.plain hchain n hn).ne_nil
    have hlt := (hfits.nodeOf_eq hchain).2 hne
    omega

/-! ### The manifest and its root -/

/-- Nothing fails that a run needs for its files. -/
structure Writable (fs : FileSystem) (opt : ScanOpts) (base out : Str) : Prop where
  opens : fs.opens base = true
  mkdirP : fs.mkdirP out = true
  algo : opt.hashAlgo = none ∨ opt.hashAlgo = some sha256Name ∨ opt.hashAlgo = some blake3Name
  create : ∀ name ∈ [manifestName, linearRootName, merkleRootName],
    fs.create (joinPath paiMaxPath out name) = true

/-- A run is not given up where nothing of that fails, and only there. -/
theorem code_outcomeOf {out : Str} {leaves : Leaves} :
    Writable fs opt base out ↔ (outcomeOf fs opt base out leaves).code = 0 ∨
      (outcomeOf fs opt base out leaves).code = 2 := by
  constructor
  · intro h
    obtain ⟨hmanifest, hlinear, hmerkle⟩ : fs.create (joinPath paiMaxPath out manifestName) = true ∧
        fs.create (joinPath paiMaxPath out linearRootName) = true ∧
        fs.create (joinPath paiMaxPath out merkleRootName) = true := by
      simpa using h.create
    unfold outcomeOf
    dsimp only
    rw [h.opens, h.mkdirP, if_neg (not_not.mpr h.algo), hmanifest, hlinear, hmerkle]
    simp only [Bool.not_true, Bool.false_eq_true, if_false]
    split_ifs
    · exact .inl rfl
    · exact .inr rfl
  · intro hcode
    unfold outcomeOf at hcode
    dsimp only at hcode
    split_ifs at hcode with hopens hmkdir halgo hmanifest hlinear hmerkle hrc
    all_goals first
      | rcases hcode with hcode | hcode <;> cases hcode <;> done
      | exact ⟨by simpa using hopens, by simpa using hmkdir, halgo, by simp_all⟩

/-- A run that is not given up has written the manifest and both roots. -/
theorem files_outcomeOf {out : Str} {leaves : Leaves}
    (hcode : (outcomeOf fs opt base out leaves).code = 0 ∨
      (outcomeOf fs opt base out leaves).code = 2) :
    (outcomeOf fs opt base out leaves).files =
      [(joinPath paiMaxPath out manifestName, header opt.hashAlgo ++ linesOf leaves),
        (joinPath paiMaxPath out linearRootName, rootLine (digestOf opt.hashAlgo (linesOf leaves))),
        (joinPath paiMaxPath out merkleRootName,
          rootLine (digestOf opt.hashAlgo (linesOf leaves)))] := by
  unfold outcomeOf at hcode ⊢
  dsimp only at hcode ⊢
  split_ifs at hcode ⊢ <;> first | rfl | (rcases hcode with hcode | hcode <;> cases hcode)

variable (P P' : Platform)

/-- The files that a run writes do not depend on the order in which names are returned,
nor on the platform; the root is the digest of the lines below the header. Where nothing
fails that a run needs for its files, all of them are written. -/
theorem paiScanRun_order (hsame : SameTree fs fs') {out : Str} (hbase : opt.baseDir = some base)
    (hout : opt.outDir = some out) (hsmall : Small fs opt base) (hfits : Fits fs opt base)
    {fuel : ℕ} (hfuel : paiMaxPath ≤ fuel) :
    ∃ leaves, NamedTree.walk (items fs opt base) fuel [] = some leaves ∧
      ((linesOf leaves).length < 2 ^ 63 →
        ∃ outcome root, paiScanRun P fs opt fuel = pure outcome ∧
          paiScanRun P' fs' opt fuel = pure outcome ∧
          (Writable fs opt base out ↔ outcome.code = 0 ∨ outcome.code = 2) ∧
          (outcome.code = 0 ∨ outcome.code = 2 → outcome.files =
            [(joinPath paiMaxPath out manifestName, header opt.hashAlgo ++ linesOf leaves),
              (joinPath paiMaxPath out linearRootName, rootLine root),
              (joinPath paiMaxPath out merkleRootName, rootLine root)]) ∧
          (opt.hashAlgo = some blake3Name →
            root.toList = streamBytes compress (rootNode compress iv 0 (linesOf leaves)) 0 32) ∧
          (opt.hashAlgo ≠ some blake3Name → (linesOf leaves).length < 2 ^ 61 →
            root.toList = Sha256.hash (linesOf leaves))) := by
  obtain ⟨leaves, hwalk⟩ := hfits.walk_total hfuel
  have hwalk' : NamedTree.walk (items fs' opt base) fuel [] = some leaves := by
    rw [NamedTree.walk_congr fun chain hchain => hsame.items_eq hsmall hchain, hwalk]
  have houtcome : outcomeOf fs' opt base out leaves = outcomeOf fs opt base out leaves := by
    unfold outcomeOf returned
    rw [hsame.opens, hsame.mkdirP, hsame.create, hsame.entriesOf_eq hsmall .root]
  refine ⟨leaves, hwalk, fun hlen => ⟨outcomeOf fs opt base out leaves,
    digestOf opt.hashAlgo (linesOf leaves), ?_, ?_, code_outcomeOf, fun hcode => ?_,
    fun halgo => ?_, fun halgo hlen => ?_⟩⟩
  · exact paiScanRun_eq hbase hout hwalk (by omega)
  · rw [paiScanRun_eq hbase hout hwalk' (by omega), houtcome]
  · exact files_outcomeOf hcode
  · rw [halgo]
    exact digestOf_blake3 _
  · exact digestOf_sha256 _ (decide_eq_false halgo) hlen

def hosted : Platform := ⟨64, .inr rfl, Simd.portable, Vector.replicate 64 0⟩

/-- Two files `a` and `b`, listed in either order. -/
def twoNames (swap : Bool) : Listing where
  names := if swap then [[0x62], [0x61]] else [[0x61], [0x62]]
  nodup := by cases swap <;> decide
  ne_nil := by cases swap <;> decide
  no_slash := by cases swap <;> decide

theorem empty_lt : ∀ (path : Str) (content : List Byte),
    (fun _ => some [] : Str → Option (List Byte)) path = some content →
      content.length < 2 ^ 63 := by
  rintro path content ⟨⟩
  decide

def twoFiles (swap : Bool) : FileSystem where
  opens := fun _ => true
  opendir := fun _ => some (twoNames swap)
  stat := fun _ _ => some ⟨.regular, 0⟩
  read := fun _ => some []
  read_lt := empty_lt
  mkdirP := fun _ => true
  create := fun _ => true

/-- `--base a --out b` with no names left out. -/
def plainOpts : ScanOpts where
  baseDir := some [0x61]
  outDir := some [0x62]
  includeHidden := false
  followSymlinks := false
  maxDepth := -1
  maxSize := -1
  hashAlgo := some blake3Name
  excludes := []

theorem sameTree_twoFiles : SameTree (twoFiles false) (twoFiles true) :=
  ⟨rfl, fun _ => .some (List.Perm.swap _ _ _), rfl, rfl, rfl, rfl⟩

theorem reached_twoFiles {swap : Bool} {chain : Chain}
    (h : Reached (twoFiles swap) plainOpts [0x61] chain) : chain = [] := by
  cases h with
  | root => rfl
  | step _ hk =>
      obtain ⟨entries, -, -, hitem⟩ := mem_items_iff.mp hk
      simp [itemOf, twoFiles, plainOpts, isExcluded] at hitem

theorem entriesOf_twoFiles :
    entriesOf (twoFiles false) plainOpts [0x61] [] = .ok [[0x61], [0x62]] := by
  refine entriesOf_eq_ok.mpr ⟨by decide, rfl, twoNames false, rfl, ?_, ?_⟩
  · exact room_of_length_le (by decide)
  · have hkeeps : (twoNames false).names.filter (keeps plainOpts [0x61] (nodeOf [0x61] [])) =
        [[0x61], [0x62]] := rfl
    rw [hkeeps]
    exact (List.mergeSort_of_pairwise (by decide)).symm

/-- The line for an empty file. -/
def emptyLine (name : Str) : Entry := ⟨name, 0, digestOf (some blake3Name) []⟩

theorem walk_twoFiles :
    NamedTree.walk (items (twoFiles false) plainOpts [0x61]) paiMaxPath [] =
      some [([[0x61]], some (emptyLine [0x61])), ([[0x62]], some (emptyLine [0x62]))] := by
  rw [paiMaxPath, NamedTree.walk, items, entriesOf_twoFiles]
  rfl

theorem writable_twoFiles : Writable (twoFiles false) plainOpts [0x61] [0x62] :=
  ⟨rfl, rfl, .inr (.inr rfl), fun _ _ => rfl⟩

theorem linesOf_twoFiles :
    linesOf [([[0x61]], some (emptyLine [0x61])), ([[0x62]], some (emptyLine [0x62]))] =
      line (emptyLine [0x61]) ++ line (emptyLine [0x62]) := by
  simp [linesOf, listedBy, manifest]

theorem length_linesOf_twoFiles :
    (linesOf [([[0x61]], some (emptyLine [0x61])), ([[0x62]], some (emptyLine [0x62]))]).length <
      2 ^ 63 := by
  have hone : ∀ name : Str, name.length < paiMaxPath → (line (emptyLine name)).length ≤ 4182 :=
    fun name hname => length_line_le hname
  have ha := hone [0x61] (by decide)
  have hb := hone [0x62] (by decide)
  rw [linesOf_twoFiles, List.length_append]
  omega

theorem paiScanRun_order_two :
    ∃ outcome root, paiScanRun hosted (twoFiles false) plainOpts paiMaxPath = pure outcome ∧
      paiScanRun hosted (twoFiles true) plainOpts paiMaxPath = pure outcome ∧
      outcome.files =
        [(joinPath paiMaxPath [0x62] manifestName, header (some blake3Name) ++
          (line (emptyLine [0x61]) ++ line (emptyLine [0x62]))),
          (joinPath paiMaxPath [0x62] linearRootName, rootLine root),
          (joinPath paiMaxPath [0x62] merkleRootName, rootLine root)] ∧
      root.toList = streamBytes compress (rootNode compress iv 0
        (line (emptyLine [0x61]) ++ line (emptyLine [0x62]))) 0 32 := by
  obtain ⟨leaves, hwalk, hrun⟩ := paiScanRun_order hosted hosted sameTree_twoFiles
    (show plainOpts.baseDir = some [0x61] from rfl) (show plainOpts.outDir = some [0x62] from rfl)
    (fun chain listing hchain hopen => by
      cases hopen
      decide)
    (fun chain listing hchain hopen n hn _ => by
      have hall : ∀ n ∈ (twoNames false).names, (joined [0x61] n).length < paiMaxPath := by decide
      cases hopen
      rw [reached_twoFiles hchain]
      exact hall n hn)
    le_rfl
  obtain rfl := Option.some.inj (walk_twoFiles.symm.trans hwalk)
  obtain ⟨outcome, root, hfirst, hsecond, hcode, hfiles, hroot, -⟩ := hrun length_linesOf_twoFiles
  rw [linesOf_twoFiles] at hfiles hroot
  exact ⟨outcome, root, hfirst, hsecond, hfiles (hcode.mp writable_twoFiles), hroot rfl⟩

end Blake3.Pai
