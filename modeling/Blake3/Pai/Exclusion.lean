import Blake3.Pai.Order
import Blake3.Pai.Places

/-!
`pai scan` on the command line, `pai_cmd_scan`, which excludes the output directory by
the string that it is given by. That string is meant for the working directory, and is
compared with paths that are joined from the base.
-/

namespace Blake3.Pai

/-! ### The command line -/

def baseArg : Str := [0x2d, 0x2d, 0x62, 0x61, 0x73, 0x65]
def outArg : Str := [0x2d, 0x2d, 0x6f, 0x75, 0x74]
def hiddenArg : Str := [0x2d, 0x2d, 0x68, 0x69, 0x64, 0x64, 0x65, 0x6e]
def followArg : Str := [0x2d, 0x2d, 0x66, 0x6f, 0x6c, 0x6c, 0x6f, 0x77]
def maxDepthArg : Str := [0x2d, 0x2d, 0x6d, 0x61, 0x78, 0x2d, 0x64, 0x65, 0x70, 0x74, 0x68]
def maxSizeArg : Str := [0x2d, 0x2d, 0x6d, 0x61, 0x78, 0x2d, 0x73, 0x69, 0x7a, 0x65]
def hashArg : Str := [0x2d, 0x2d, 0x68, 0x61, 0x73, 0x68]
def excludeArg : Str := [0x2d, 0x2d, 0x65, 0x78, 0x63, 0x6c, 0x75, 0x64, 0x65]

def isSpace (c : Byte) : Bool := c = 0x20 || 0x09 ≤ c && c ≤ 0x0d
def isDigit (c : Byte) : Bool := 0x30 ≤ c && c ≤ 0x39

/-- `strtoll` in base ten: blanks, a sign, and digits up to the bounds of the type. -/
def strtoll (s : Str) : ℤ :=
  let s := s.dropWhile isSpace
  let magnitude (s : Str) : ℤ :=
    (s.takeWhile isDigit).foldl (fun n c => 10 * n + (c - 0x30).toNat) 0
  let n := match s with
    | 0x2d :: s => -magnitude s
    | 0x2b :: s => magnitude s
    | s => magnitude s
  max (-2 ^ 63) (min n (2 ^ 63 - 1))

def atoll (s : Str) : Int64 := Int64.ofInt (strtoll s)

def atoi (s : Str) : Int32 := Int32.ofInt (strtoll s)

/-- `ex_list` has 64 places. -/
def exListSize : ℕ := 64

/-- An argument that takes the next one as its value. -/
def valueArg (opt : ScanOpts) (arg value : Str) : Option ScanOpts :=
  if arg = baseArg then some { opt with baseDir := some value }
  else if arg = outArg then some { opt with outDir := some value }
  else if arg = maxDepthArg then some { opt with maxDepth := atoi value }
  else if arg = maxSizeArg then some { opt with maxSize := atoll value }
  else if arg = hashArg then some { opt with hashAlgo := some value }
  else if arg = excludeArg then
    if opt.excludes.length < exListSize then
      some { opt with excludes := opt.excludes ++ [some value] }
    else some opt
  else none

def flagArg (opt : ScanOpts) (arg : Str) : ScanOpts :=
  if arg = hiddenArg then { opt with includeHidden := true }
  else if arg = followArg then { opt with followSymlinks := true }
  else opt

/-- The loop over the arguments; what is not known is passed over. -/
def scanArgs (opt : ScanOpts) : List Str → ScanOpts
  | [] => opt
  | [arg] => flagArg opt arg
  | arg :: value :: rest =>
      match valueArg opt arg value with
      | some opt => scanArgs opt rest
      | none => scanArgs (flagArg opt arg) (value :: rest)

/-- The options before the loop. -/
def initialOpts : ScanOpts where
  baseDir := none
  outDir := none
  includeHidden := false
  followSymlinks := false
  maxDepth := -1
  maxSize := -1
  hashAlgo := some sha256Name
  excludes := []

/-- The options that the arguments behind `pai scan` ask for. -/
def scanOpts (argv : List Str) : ScanOpts := scanArgs initialOpts (argv.drop 2)

def excludeOut (opt : ScanOpts) (out : Str) : ScanOpts :=
  { opt with excludes := opt.excludes ++ [some out] }

/-- `pai_cmd_scan`; the output directory takes one more place of `ex_list`. -/
def paiCmdScan (P : Platform) (fs : FileSystem) (argv : List Str) (fuel : ℕ) :
    Process Fault Outcome :=
  let opt := scanOpts argv
  match opt.baseDir, opt.outDir with
  | some _, some out =>
      if opt.excludes.length < exListSize then
        paiScanRun P fs (excludeOut opt out) fuel
      else Process.fault .outOfBounds
  | _, _ => pure ⟨1, [], []⟩

/-- No scan with this base and output directory hashes a file below the latter. -/
def HidesOut (cwd : Chain) (base out : Str) : Prop :=
  ∀ (P : Platform) (fs : FileSystem) (argv : List Str) (fuel : ℕ) (outcome : Outcome),
    (scanOpts argv).baseDir = some base → (scanOpts argv).outDir = some out →
    paiCmdScan P fs argv fuel = pure outcome →
    ∀ path ∈ outcome.hashed, ¬Under (resolve cwd path) (resolve cwd out)

/-! ### What a string excludes -/

theorem pathEqOrPrefix_iff {p q : Str} :
    pathEqOrPrefix p q = true ↔ p = q ∨ ∃ rest, q = p ++ slash :: rest := by
  rw [pathEqOrPrefix, Bool.or_eq_true, decide_eq_true_eq, Bool.and_eq_true,
    List.isPrefixOf_iff_prefix, decide_eq_true_eq]
  refine or_congr_right ⟨?_, ?_⟩
  · rintro ⟨⟨rest, rfl⟩, hslash⟩
    rw [List.getElem?_append_right le_rfl, Nat.sub_self] at hslash
    obtain ⟨rest, rfl⟩ : ∃ rest', rest = slash :: rest' := by
      cases rest with
      | nil => cases hslash
      | cons c rest => cases hslash; exact ⟨rest, rfl⟩
    exact ⟨rest, rfl⟩
  · rintro ⟨rest, rfl⟩
    exact ⟨List.prefix_append _ _, by simp⟩

theorem pathEqOrPrefix_append {p q : Str} (n : Str) (h : pathEqOrPrefix p q = true) :
    pathEqOrPrefix p (q ++ slash :: n) = true := by
  rw [pathEqOrPrefix_iff] at h ⊢
  rcases h with rfl | ⟨rest, rfl⟩
  · exact .inr ⟨n, rfl⟩
  · exact .inr ⟨rest ++ slash :: n, by simp⟩

theorem pathEqOrPrefix_of_append {p q n : Str} (hn : slash ∉ n)
    (h : pathEqOrPrefix p (q ++ slash :: n) = true) :
    p = q ++ slash :: n ∨ pathEqOrPrefix p q = true := by
  rw [pathEqOrPrefix_iff] at h ⊢
  refine h.imp_right ?_
  rintro ⟨rest, hrest⟩
  rcases List.append_eq_append_iff.mp hrest with ⟨more, rfl, hmore⟩ | ⟨more, rfl, hmore⟩
  · cases more with
    | nil => exact .inl (List.append_nil q)
    | cons c more =>
        obtain ⟨-, rfl⟩ := List.cons.inj hmore
        exact absurd (by simp) hn
  · cases more with
    | nil => exact .inl (List.append_nil p).symm
    | cons c more =>
        obtain ⟨rfl, -⟩ := List.cons.inj hmore
        exact .inr ⟨more, rfl⟩

/-- What `is_excluded` compares a string with. -/
def compared (out base full : Str) : Str :=
  if out.head? = some slash then full else relPath base full

theorem isExcluded_singleton {out base full : Str} :
    isExcluded [some out] base full = true ↔
      out ≠ [] ∧ pathEqOrPrefix out (compared out base full) = true := by
  cases out with
  | nil => simp [isExcluded]
  | cons c out =>
      simp only [isExcluded, compared, List.any_cons, List.any_nil, Bool.or_false, List.head?_cons,
        Option.some_inj, ne_eq, reduceCtorEq, not_false_eq_true, true_and]
      split <;> rfl

/-- Below the base the string of a node is that of its directory and its name. -/
theorem compared_concat (out base : Str) {chain : Chain} {n : Str} (hne : chain ≠ [])
    (hplain : ∀ m ∈ chain ++ [n], Plain m) :
    compared out base (pathOf base (chain ++ [n])) =
      compared out base (pathOf base chain) ++ slash :: n := by
  have hfront : ∀ m ∈ chain, Plain m := fun m hm => hplain m (by simp [hm])
  rw [compared, compared]
  split
  · exact pathOf_below hne hfront n
  · rw [relPath_pathOf (by simp) hplain, relPath_pathOf hne hfront]
    split
    · exact pathOf_below hne hfront n
    · exact pathOf_below hne hfront n

/-- What is excluded, is excluded with all that is below it. -/
theorem excluded_concat {out base : Str} {chain : Chain} {n : Str} (hne : chain ≠ [])
    (hplain : ∀ m ∈ chain ++ [n], Plain m)
    (h : isExcluded [some out] base (pathOf base chain) = true) :
    isExcluded [some out] base (pathOf base (chain ++ [n])) = true := by
  rw [isExcluded_singleton] at h ⊢
  rw [compared_concat out base hne hplain]
  exact ⟨h.1, pathEqOrPrefix_append n h.2⟩

theorem excluded_append {out base : Str} {chain below : Chain} (hne : chain ≠ [])
    (hplain : ∀ m ∈ chain ++ below, Plain m)
    (h : isExcluded [some out] base (pathOf base chain) = true) :
    isExcluded [some out] base (pathOf base (chain ++ below)) = true := by
  induction below using List.reverseRecOn with
  | nil => rwa [List.append_nil]
  | append_singleton below n ih =>
      rw [← List.append_assoc] at hplain ⊢
      exact excluded_concat (by simp [hne]) hplain
        (ih fun m hm => hplain m (List.mem_append_left _ hm))

theorem plain_a : Plain [0x61] := ⟨by decide, by decide, by decide, by decide⟩

theorem plain_singleton_a : ∀ n ∈ [[0x61]], Plain n := List.forall_mem_singleton.mpr plain_a

/-- Behind a directory that is not excluded one name at most is. -/
theorem exists_not_excluded {out base : Str} {chain : Chain} (hne : chain ≠ [])
    (hplain : ∀ m ∈ chain, Plain m)
    (h : isExcluded [some out] base (pathOf base chain) = false) :
    ∃ x : Byte, Plain [x] ∧
      isExcluded [some out] base (pathOf base (chain ++ [[x]])) = false := by
  have hname (x : Byte) (hx : Plain [x])
      (hex : isExcluded [some out] base (pathOf base (chain ++ [[x]])) = true) :
      out = compared out base (pathOf base chain) ++ slash :: [x] := by
    rw [isExcluded_singleton, compared_concat out base hne (plain_concat.mpr ⟨hplain, hx⟩)] at hex
    refine (pathEqOrPrefix_of_append hx.no_slash hex.2).resolve_right fun hdir => ?_
    rw [isExcluded_singleton.mpr ⟨hex.1, hdir⟩] at h
    cases h
  have hb : Plain [0x62] := ⟨by decide, by decide, by decide, by decide⟩
  by_contra hall
  push Not at hall
  have heq := (hname _ plain_a (by simpa using hall _ plain_a)).symm.trans
    (hname _ hb (by simpa using hall _ hb))
  simp at heq

/-! ### Scans that come to the output directory -/

variable {P : Platform} {fs : FileSystem} {opt : ScanOpts} {cwd chain : Chain} {base out : Str}

theorem reached_not_excluded (h : Reached fs opt base chain) {entries : List Str}
    (hentries : entriesOf fs opt base chain = .ok entries) :
    ∀ above, above <+: chain → isExcluded opt.excludes base (nodeOf base above) = false := by
  induction h generalizing entries with
  | root =>
      intro above habove
      rw [List.prefix_nil.mp habove]
      exact (entriesOf_eq_ok.mp hentries).2.1
  | step _ hk ih =>
      intro above habove
      obtain ⟨entries', hentries', -⟩ := mem_items_iff.mp hk
      rcases List.prefix_concat_iff.mp habove with rfl | habove
      · exact (entriesOf_eq_ok.mp hentries).2.1
      · exact ih hentries' above habove

theorem itemOf_included {dirpath name : Str} {i : Str × Option (Option Entry)}
    (h : itemOf fs opt base dirpath name = some i) :
    isExcluded opt.excludes base (joinPath paiMaxPath dirpath name) = false := by
  by_contra hex
  rw [Bool.not_eq_false] at hex
  rw [itemOf, if_pos hex] at h
  cases h

/-- No part of the way to a file that is hashed is excluded. -/
theorem leaf_not_excluded {fuel : ℕ} {leaves : Leaves}
    (hwalk : NamedTree.walk (items fs opt base) fuel [] = some leaves) {q : Chain}
    {e : Option Entry} (h : (q, e) ∈ leaves) :
    ∀ above, above <+: q → isExcluded opt.excludes base (nodeOf base above) = false := by
  obtain ⟨r, k, hr, hk, rfl⟩ := (NamedTree.mem_walk hwalk).mp h
  obtain ⟨entries, hentries, -, hitem⟩ := mem_items_iff.mp hk
  intro above habove
  rcases List.prefix_concat_iff.mp habove with rfl | habove
  · rw [nodeOf_concat]
    exact itemOf_included hitem
  · exact reached_not_excluded hr hentries above habove

/-- Behind a base that takes all the room every node has the same path. -/
theorem nodeOf_eq_of_long {chain' : Chain} (hne : chain ≠ []) (hplain : ∀ n ∈ chain, Plain n)
    (hne' : chain' ≠ []) (hplain' : ∀ n ∈ chain', Plain n)
    (hbase : ¬base.length + (separator base).length < paiMaxPath) :
    nodeOf base chain = nodeOf base chain' := by
  have hlen : paiMaxPath - 1 ≤ (base ++ separator base).length := by
    rw [List.length_append]
    omega
  rw [nodeOf_eq_take hne, nodeOf_eq_take hne', pathOf_eq hne hplain, pathOf_eq hne' hplain',
    ← List.append_assoc, ← List.append_assoc, List.take_append_of_le_length hlen,
    List.take_append_of_le_length hlen]

/-- A path below the output directory has room for it and for a byte behind it. -/
theorem Under.room {names : Chain} (hinside : resolve cwd out = resolve cwd base ++ chain)
    (hchain : chain ≠ []) (hne : names ≠ []) (hplain : ∀ n ∈ names, Plain n)
    (hbase : base.length + (separator base).length < paiMaxPath)
    (h : Under (resolve cwd (nodeOf base names)) (resolve cwd out)) :
    chain <+: names ∧ (pathOf base chain).length + 2 < paiMaxPath := by
  obtain ⟨rest, hrest, hplace⟩ := h
  rw [nodeOf_eq_append hne hplain hbase,
    resolve_append cwd base (head_take_pathOf_nil hne hplain _), hinside,
    List.append_assoc] at hplace
  obtain ⟨hpre, hroom⟩ := under_of_take hchain hne hplain hrest hplace
  refine ⟨hpre, ?_⟩
  rw [pathOf_eq hchain fun n hn => hplain n (hpre.subset hn), List.length_append,
    List.length_append]
  omega

theorem paiCmdScan_eq {argv : List Str} {fuel : ℕ} {outcome : Outcome}
    (hbase : (scanOpts argv).baseDir = some base) (hout : (scanOpts argv).outDir = some out)
    (h : paiCmdScan P fs argv fuel = pure outcome) :
    paiScanRun P fs (excludeOut (scanOpts argv) out) fuel = pure outcome := by
  rw [paiCmdScan] at h
  simp only [hbase, hout] at h
  split at h
  · exact h
  · exact absurd h Process.fault_ne_pure

/-- Where OUTDIR is excluded or there is no room below it, nothing below it is hashed. -/
theorem hidesOut_of_excluded (hcwd : ∀ n ∈ cwd, Plain n)
    (hinside : resolve cwd out = resolve cwd base ++ chain) (hchain : chain ≠ [])
    (h : isExcluded [some out] base base = true ∨
      isExcluded [some out] base (nodeOf base chain) = true ∨
      ¬Under (resolve cwd (nodeOf base (chain ++ [[0x61]]))) (resolve cwd out)) :
    HidesOut cwd base out := by
  intro P fs argv fuel outcome hbase hout hrun path hpath hunder
  have hplain : ∀ n ∈ chain, Plain n := fun n hn =>
    plain_resolve hcwd out n (by rw [hinside]; exact List.mem_append_right _ hn)
  have hbase' : (excludeOut (scanOpts argv) out).baseDir = some base := hbase
  rcases paiScanRun_writes hbase' hout (paiCmdScan_eq hbase hout hrun) with
    ⟨-, hnone⟩ | ⟨leaves, -, hwalk, -, hhashed⟩
  · rw [hnone] at hpath
    cases hpath
  · rw [hhashed] at hpath
    obtain ⟨⟨q, e⟩, hleaf, rfl⟩ := List.mem_map.mp hpath
    obtain ⟨hq, hqplain⟩ := leaf_plain hwalk hleaf
    have hincluded (above : Chain) (habove : above <+: q) :
        isExcluded [some out] base (nodeOf base above) ≠ true := by
      have hnot := leaf_not_excluded hwalk hleaf above habove
      simp only [excludeOut, isExcluded, List.any_append, Bool.or_eq_false_iff] at hnot
      exact Bool.eq_false_iff.mp hnot.2
    have hfile : ∀ n ∈ chain ++ [[0x61]], Plain n := plain_concat.mpr ⟨hplain, plain_a⟩
    have h' := h.resolve_left (hincluded [] List.nil_prefix)
    by_cases hroomy : base.length + (separator base).length < paiMaxPath
    · obtain ⟨hpre, hroom⟩ := hunder.room hinside hchain hq hqplain hroomy
      refine h'.resolve_left (hincluded chain hpre) ⟨[[0x61]], by simp, ?_⟩
      have hlen : (pathOf base (chain ++ [[0x61]])).length < paiMaxPath := by
        rw [pathOf_below hchain hplain, List.length_append, List.length_cons, List.length_singleton]
        omega
      rw [nodeOf_eq (fun n hn => (hfile n hn).ne_nil) hlen,
        resolve_pathOf cwd base (by simp) hfile, hinside, List.append_assoc]
    · have hout := hincluded q (List.prefix_refl q)
      rw [← nodeOf_eq_of_long hchain hplain hq hqplain hroomy] at hout
      refine h'.resolve_left hout ?_
      rwa [nodeOf_eq_of_long (by simp) hfile hq hqplain hroomy]

/-! ### A way to a file -/

/-- A directory that holds one name. -/
def single (n : Str) : Option Listing :=
  if h : n ≠ [] ∧ slash ∉ n then
    some ⟨[n], List.nodup_singleton n, List.forall_mem_singleton.mpr h.1,
      List.forall_mem_singleton.mpr h.2⟩
  else none

/-- The directories on the way from `top` along `chain`. -/
def openAlong (top : Str) : Chain → Str → Option Listing
  | [], _ => none
  | n :: chain, path => if path = top then single n else openAlong (joined top n) chain path

theorem openAlong_pathOf {above below : Chain} {n : Str} (habove : ∀ m ∈ above, m ≠ []) :
    openAlong base (above ++ n :: below) (pathOf base above) = single n := by
  induction above generalizing base with
  | nil => exact if_pos rfl
  | cons m above ih =>
      have hm := length_lt_joined base (habove m (by simp))
      have hlen := @length_chain_le (joined base m) above fun o ho => habove o (by simp [ho])
      have hne : pathOf base (m :: above) ≠ base := by
        intro heq
        have hlength := congrArg List.length heq
        rw [pathOf, List.foldl_cons, ← pathOf] at hlength
        omega
      rw [List.cons_append, openAlong, if_neg hne]
      exact ih fun o ho => habove o (by simp [ho])

/-- Directories along `chain`, and a file `name` in the last one. -/
def alongFiles (base : Str) (chain : Chain) (name : Str) : FileSystem where
  opens := fun _ => true
  opendir := openAlong base (chain ++ [name])
  stat := fun _ path =>
    some (if path = nodeOf base (chain ++ [name]) then ⟨.regular, 0⟩ else ⟨.directory, 0⟩)
  read := fun _ => some []
  read_lt := empty_lt
  mkdirP := fun _ => true
  create := fun _ => true

/-- `pai scan --base BASE --out OUTDIR --hidden` -/
def alongArgs (base out : Str) : List Str := [[], [], baseArg, base, outArg, out, hiddenArg]

def alongOpts (base out : Str) : ScanOpts where
  baseDir := some base
  outDir := some out
  includeHidden := true
  followSymlinks := false
  maxDepth := -1
  maxSize := -1
  hashAlgo := some sha256Name
  excludes := []

/-- A way that is not excluded. -/
structure Open (base out : Str) (chain : Chain) (name : Str) : Prop where
  plain : ∀ n ∈ chain ++ [name], Plain n
  fits : ∀ above, above <+: chain → nodeOf base above = pathOf base above
  file : ∀ above, above <+: chain → above ≠ [] →
    nodeOf base above ≠ nodeOf base (chain ++ [name])
  included : ∀ above, above <+: chain ++ [name] →
    isExcluded [some out] base (nodeOf base above) = false

theorem prefix_of_split {name n : Str} {above below : Chain}
    (h : chain ++ [name] = above ++ n :: below) : above <+: chain := by
  refine List.prefix_of_prefix_length_le (h ▸ List.prefix_append above (n :: below))
    (List.prefix_append chain [name]) ?_
  have hlength := congrArg List.length h
  simp only [List.length_append, List.length_cons, List.length_nil] at hlength
  omega

theorem Open.entriesOf_eq {name : Str} (h : Open base out chain name) {above below : Chain}
    {n : Str} (habove : chain ++ [name] = above ++ n :: below) :
    entriesOf (alongFiles base chain name) (excludeOut (alongOpts base out) out) base above =
      .ok [n] := by
  have hpre := prefix_of_split habove
  have hn : Plain n := h.plain n (by rw [habove]; simp)
  have hopen : openAlong base (chain ++ [name]) (nodeOf base above) = single n := by
    rw [h.fits above hpre, habove]
    exact openAlong_pathOf fun m hm => (h.plain m (by rw [habove]; simp [hm])).ne_nil
  have hsingle : single n = some ⟨[n], List.nodup_singleton n,
      List.forall_mem_singleton.mpr hn.ne_nil, List.forall_mem_singleton.mpr hn.no_slash⟩ :=
    dif_pos ⟨hn.ne_nil, hn.no_slash⟩
  refine entriesOf_eq_ok.mpr ⟨by simp [excludeOut, alongOpts],
    h.included above (hpre.trans (List.prefix_append _ _)), _, hopen.trans hsingle,
    room_of_length_le ((List.length_filter_le _ _).trans (show 1 ≤ paiMaxEntries by decide)), ?_⟩
  have hkeeps : keeps (excludeOut (alongOpts base out) out) base (nodeOf base above) n = true := by
    have hincluded := h.included (above ++ [n]) (habove ▸ ⟨below, by simp⟩)
    rw [nodeOf_concat] at hincluded
    have hentry : isEntry n = true := by simp [isEntry, hn.ne_dot, hn.ne_dot_dot]
    simp only [keeps, hentry, Bool.true_and, Bool.and_eq_true, Bool.not_eq_true']
    exact ⟨rfl, hincluded⟩
  rw [List.filter_cons_of_pos hkeeps, List.filter_nil, sortNames, List.mergeSort_singleton]

theorem Open.items_chain {name : Str} (h : Open base out chain name) {above below : Chain} {n : Str}
    (habove : chain = above ++ n :: below) :
    items (alongFiles base chain name) (excludeOut (alongOpts base out) out) base above =
      [(n, none)] := by
  have hpre : above ++ [n] <+: chain := ⟨below, by rw [habove]; simp⟩
  have hincluded := h.included _ (hpre.trans (List.prefix_append _ _))
  have hfile := h.file _ hpre (by simp)
  rw [nodeOf_concat] at hincluded hfile
  have hentries := h.entriesOf_eq
    (show chain ++ [name] = above ++ n :: (below ++ [name]) by rw [habove]; simp)
  have hitem : itemOf (alongFiles base chain name) (excludeOut (alongOpts base out) out) base
      (nodeOf base above) n = some (n, none) :=
    itemOf_eq_directory.mpr ⟨hincluded, ⟨.directory, 0⟩, congrArg some (if_neg hfile), rfl⟩
  rw [items, hentries]
  simp [hitem]

theorem Open.items_leaf {name : Str} (h : Open base out chain name) :
    ∃ e : Entry, e.path.length < paiMaxPath ∧
      items (alongFiles base chain name) (excludeOut (alongOpts base out) out) base chain =
        [(name, some (some e))] := by
  have hincluded := h.included _ (List.prefix_refl _)
  have hentries := h.entriesOf_eq (rfl : chain ++ [name] = chain ++ name :: [])
  have hfile := (nodeOf_concat base chain name).symm
  rw [nodeOf_concat] at hincluded
  have hitem : itemOf (alongFiles base chain name) (excludeOut (alongOpts base out) out) base
      (nodeOf base chain) name = some (name, some (some
        ⟨relPath base (joinPath paiMaxPath (nodeOf base chain) name), 0,
          digestOf (some sha256Name) []⟩)) :=
    itemOf_eq_file.mpr ⟨hincluded, 0, [], congrArg some (if_pos hfile),
      by simp [excludeOut, alongOpts], rfl, rfl⟩
  refine ⟨⟨relPath base (joinPath paiMaxPath (nodeOf base chain) name), 0,
    digestOf (some sha256Name) []⟩, length_relPath_lt base (length_joinPath_lt _ _), ?_⟩
  rw [items, hentries]
  simp [hitem]

/-- A scan comes along the way and hashes the file. -/
theorem Open.run {name : Str} (h : Open base out chain name) :
    ∃ outcome, paiCmdScan P (alongFiles base chain name) (alongArgs base out)
        (chain.length + 1) = pure outcome ∧
      nodeOf base (chain ++ [name]) ∈ outcome.hashed := by
  obtain ⟨e, hpath, hleaf⟩ := h.items_leaf
  have hwalk := NamedTree.walk_chain (p := [])
    (fun above n below habove => h.items_chain habove) hleaf
  have hlines : (linesOf [(chain ++ [name], some e)]).length < 2 ^ 64 := by
    have hline := length_line_le hpath
    simp only [linesOf, listedBy, manifest, List.filterMap_cons, List.filterMap_nil,
      List.flatMap_cons, List.flatMap_nil, List.append_nil]
    omega
  have hbase : (excludeOut (alongOpts base out) out).baseDir = some base := rfl
  refine ⟨_, paiScanRun_eq hbase rfl hwalk hlines, ?_⟩
  exact List.mem_singleton_self _

/-- Where the way is not excluded and there is room, a file below OUTDIR is hashed. -/
theorem excluded_of_hidesOut (hcwd : ∀ n ∈ cwd, Plain n)
    (hinside : resolve cwd out = resolve cwd base ++ chain) (hchain : chain ≠ [])
    (h : HidesOut cwd base out) :
    isExcluded [some out] base base = true ∨
      isExcluded [some out] base (nodeOf base chain) = true ∨
      ¬Under (resolve cwd (nodeOf base (chain ++ [[0x61]]))) (resolve cwd out) := by
  have hplain : ∀ n ∈ chain, Plain n := fun n hn =>
    plain_resolve hcwd out n (by rw [hinside]; exact List.mem_append_right _ hn)
  have hfile (x : Str) (hx : Plain x) : ∀ n ∈ chain ++ [x], Plain n :=
    plain_concat.mpr ⟨hplain, hx⟩
  by_contra hnot
  simp only [not_or, Bool.not_eq_true, not_not] at hnot
  obtain ⟨hbase, hdir, hunder⟩ := hnot
  -- a way that is open leads to a file that is hashed
  have hopen {along : Chain} {name : Str} (hopen : Open base out along name)
      (hbelow : Under (resolve cwd (nodeOf base (along ++ [name]))) (resolve cwd out)) : False := by
    obtain ⟨outcome, hrun, hhashed⟩ := hopen.run (P := hosted)
    exact h _ _ _ _ _ rfl rfl hrun _ hhashed hbelow
  by_cases hroomy : base.length + (separator base).length < paiMaxPath
  · obtain ⟨-, hroom⟩ := hunder.room hinside hchain (by simp) (hfile _ plain_a) hroomy
    have hfits (above : Chain) (habove : above <+: chain) :
        nodeOf base above = pathOf base above ∧
          (pathOf base above).length ≤ (pathOf base chain).length := by
      obtain ⟨below, rfl⟩ := habove
      have hle := @length_pathOf_append base above below fun n hn =>
        (hplain n (by simp [hn])).ne_nil
      exact ⟨nodeOf_eq (fun n hn => (hplain n (by simp [hn])).ne_nil) (by omega), by omega⟩
    rw [(hfits chain (List.prefix_refl _)).1] at hdir
    obtain ⟨x, hx, hincluded⟩ := exists_not_excluded hchain hplain hdir
    have hlen : (pathOf base (chain ++ [[x]])).length = (pathOf base chain).length + 2 := by
      rw [pathOf_below hchain hplain, List.length_append, List.length_cons, List.length_singleton]
    have hnode : nodeOf base (chain ++ [[x]]) = pathOf base (chain ++ [[x]]) :=
      nodeOf_eq (fun n hn => (hfile _ hx n hn).ne_nil) (by omega)
    refine hopen ⟨hfile _ hx, fun above habove => (hfits above habove).1,
      fun above habove _ heq => ?_,
      fun above habove => ?_⟩ ⟨[[x]], by simp, ?_⟩
    · have hle := (hfits above habove).2
      rw [(hfits above habove).1, hnode] at heq
      rw [heq] at hle
      omega
    · rcases List.prefix_concat_iff.mp habove with rfl | habove
      · rwa [hnode]
      · by_cases hnil : above = []
        · rwa [hnil, nodeOf_nil]
        · obtain ⟨below, rfl⟩ := habove
          rw [(hfits above (List.prefix_append _ _)).1]
          by_contra hex
          rw [excluded_append hnil hplain (by simpa using hex)] at hdir
          cases hdir
    · rw [hnode, resolve_pathOf cwd base (by simp) (hfile _ hx), hinside, List.append_assoc]
  · have halone := plain_singleton_a
    have hsame : nodeOf base [[0x61]] = nodeOf base (chain ++ [[0x61]]) :=
      nodeOf_eq_of_long (by simp) halone (by simp) (hfile _ plain_a) hroomy
    refine @hopen [] [0x61] ⟨halone, fun above habove => ?_, fun above habove hne => ?_,
      fun above habove => ?_⟩ ?_
    · rw [List.prefix_nil.mp habove]
      rfl
    · exact absurd (List.prefix_nil.mp habove) hne
    · rcases List.prefix_concat_iff.mp habove with rfl | habove
      · rwa [List.nil_append, nodeOf_eq_of_long (by simp) halone hchain hplain hroomy]
      · rwa [List.prefix_nil.mp habove, nodeOf_nil]
    · rwa [List.nil_append, hsame]

/-- A scan never hashes a file below its output directory if and only if the string of
that directory excludes the base or the directory as the scan comes to it, or the path of
a file in it does not fit. -/
theorem hidesOut_iff (hcwd : ∀ n ∈ cwd, Plain n)
    (hinside : resolve cwd out = resolve cwd base ++ chain) (hchain : chain ≠ []) :
    HidesOut cwd base out ↔
      isExcluded [some out] base base = true ∨
        isExcluded [some out] base (nodeOf base chain) = true ∨
        ¬Under (resolve cwd (nodeOf base (chain ++ [[0x61]]))) (resolve cwd out) :=
  ⟨excluded_of_hidesOut hcwd hinside hchain, hidesOut_of_excluded hcwd hinside hchain⟩

/-- `--base /p --out /p/o`: absolute paths, spelled alike. -/
theorem hidesOut_absolute : HidesOut [[0x61]] [0x2f, 0x70] [0x2f, 0x70, 0x2f, 0x6f] :=
  (hidesOut_iff plain_singleton_a (show _ = _ ++ [[0x6f]] by decide) (by decide)).mpr
    (.inr (.inl (by decide)))

/-- `--base p --out p/o` in a working directory `/a`: the paths below `p` are compared
with `p/o` without the `p/` that they start with. -/
theorem not_hidesOut_relative : ¬HidesOut [[0x61]] [0x70] [0x70, 0x2f, 0x6f] := by
  intro h
  rcases excluded_of_hidesOut plain_singleton_a (show _ = _ ++ [[0x6f]] by decide)
    (by decide) h with hbase | hdir | hroom
  · exact absurd hbase (by decide)
  · exact absurd hdir (by decide)
  · exact hroom ⟨[[0x61]], by decide, by decide⟩

end Blake3.Pai
