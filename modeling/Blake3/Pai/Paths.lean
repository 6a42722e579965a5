import Blake3.Words
import Mathlib.Data.List.Infix
import Mathlib.Data.List.Nodup

/-!
The paths of `scan.c`. They are strings that are joined, cut off where they do not
fit an array, and compared byte by byte. Where nothing is cut off, the path of a
node says by which names it is reached from the base.
-/

namespace Blake3.Pai

/-- A string, without the byte that ends it. -/
abbrev Str := List Byte

def slash : Byte := 0x2f
def dot : Byte := 0x2e

/-- `PAI_MAX_PATH` -/
def paiMaxPath : ℕ := 4096

/-- What `snprintf` leaves of a string in an array of `cap` bytes. -/
def snprintf (cap : ℕ) (s : Str) : Str := s.take (cap - 1)

/-- What `join_path` prints. -/
def joined (a b : Str) : Str :=
  if a = [] then b
  else if a.getLast? = some slash then a ++ b
  else a ++ slash :: b

/-- `join_path` -/
def joinPath (cap : ℕ) (a b : Str) : Str := snprintf cap (joined a b)

/-- `rel_path` -/
def relPath (base full : Str) : Str :=
  if base = [] then full
  else if base.isPrefixOf full then
    match full.drop base.length with
    | [] => [dot]
    | c :: rest => if c = slash then rest else full
  else full

/-- `path_eq_or_prefix` -/
def pathEqOrPrefix (p q : Str) : Bool :=
  p = q || p.isPrefixOf q && q[p.length]? = some slash

/-- `is_excluded`; an entry of the list may be null. -/
def isExcluded (excludes : List (Option Str)) (base full : Str) : Bool :=
  let rp := relPath base full
  excludes.any fun
    | none => false
    | some [] => false
    | some (c :: ex) =>
        if c = slash then pathEqOrPrefix (c :: ex) full else pathEqOrPrefix (c :: ex) rp

/-- `is_hidden_name` -/
def isHiddenName (n : Str) : Bool := n.head? = some dot && n ≠ [dot] && n ≠ [dot, dot]

/-- A name in a directory other than `.` and `..`. -/
structure Plain (n : Str) : Prop where
  ne_nil : n ≠ []
  no_slash : slash ∉ n
  ne_dot : n ≠ [dot]
  ne_dot_dot : n ≠ [dot, dot]

theorem plain_concat {names : List Str} {n : Str} :
    (∀ m ∈ names ++ [n], Plain m) ↔ (∀ m ∈ names, Plain m) ∧ Plain n := by
  rw [List.forall_mem_append, List.forall_mem_singleton]

/-- The names from the base down to a node. -/
abbrev Chain := List Str

/-- The path of a node, if nothing is cut off. -/
def pathOf (base : Str) (chain : Chain) : Str := chain.foldl joined base

/-- The path of a node as the scan has it. -/
def nodeOf (base : Str) (chain : Chain) : Str := chain.foldl (joinPath paiMaxPath) base

/-! ### Joining -/

/-- What stands between a path and a name. -/
def separator (a : Str) : Str := if a = [] ∨ a.getLast? = some slash then [] else [slash]

theorem joined_eq (a b : Str) : joined a b = a ++ (separator a ++ b) := by
  unfold joined separator
  split
  · next h => simp [h]
  · next h =>
      split
      · next hlast => simp [hlast]
      · next hlast => simp [h, hlast]

theorem length_lt_joined (a : Str) {b : Str} (hb : b ≠ []) : a.length < (joined a b).length := by
  have hpos := List.length_pos_of_ne_nil hb
  rw [joined_eq, List.length_append, List.length_append]
  omega

@[simp] theorem pathOf_nil (base : Str) : pathOf base [] = base := rfl

@[simp] theorem nodeOf_nil (base : Str) : nodeOf base [] = base := rfl

@[simp] theorem pathOf_concat (base : Str) (chain : Chain) (n : Str) :
    pathOf base (chain ++ [n]) = joined (pathOf base chain) n := by
  simp [pathOf]

@[simp] theorem nodeOf_concat (base : Str) (chain : Chain) (n : Str) :
    nodeOf base (chain ++ [n]) = joinPath paiMaxPath (nodeOf base chain) n := by
  simp [nodeOf]

theorem joinPath_of_lt {a b : Str} (h : (joined a b).length < paiMaxPath) :
    joinPath paiMaxPath a b = joined a b :=
  List.take_of_length_le (by omega)

theorem length_joinPath_lt (a b : Str) : (joinPath paiMaxPath a b).length < paiMaxPath := by
  rw [joinPath, snprintf, List.length_take]
  have : 0 < paiMaxPath := by decide
  omega

/-- Nothing is cut off on the way to a path that fits. -/
theorem nodeOf_eq {base : Str} {chain : Chain} (hplain : ∀ n ∈ chain, n ≠ [])
    (h : (pathOf base chain).length < paiMaxPath) : nodeOf base chain = pathOf base chain := by
  induction chain using List.reverseRecOn with
  | nil => rfl
  | append_singleton chain n ih =>
      rw [pathOf_concat] at h
      have hlt := length_lt_joined (pathOf base chain) (hplain n (by simp))
      rw [nodeOf_concat, ih (fun m hm => hplain m (by simp [hm])) (by omega), pathOf_concat,
        joinPath_of_lt h]

/-- Of a path that does not fit the first bytes are kept. -/
theorem nodeOf_eq_take {base : Str} {chain : Chain} (hne : chain ≠ []) :
    nodeOf base chain = (pathOf base chain).take (paiMaxPath - 1) := by
  induction chain using List.reverseRecOn with
  | nil => exact absurd rfl hne
  | append_singleton chain n ih =>
      rw [nodeOf_concat, pathOf_concat, joinPath, snprintf]
      by_cases hchain : chain = []
      · rw [hchain, nodeOf_nil, pathOf_nil]
      · rw [ih hchain]
        by_cases hfit : (pathOf base chain).length ≤ paiMaxPath - 1
        · rw [List.take_of_length_le hfit]
        · have hlen : ((pathOf base chain).take (paiMaxPath - 1)).length = paiMaxPath - 1 :=
            List.length_take_of_le (by omega)
          rw [joined_eq, List.take_left' hlen, joined_eq,
            List.take_append_of_le_length (by omega)]

theorem length_chain_le {base : Str} {chain : Chain} (hplain : ∀ n ∈ chain, n ≠ []) :
    base.length + chain.length ≤ (pathOf base chain).length := by
  induction chain using List.reverseRecOn with
  | nil => simp
  | append_singleton chain n ih =>
      have hlt := length_lt_joined (pathOf base chain) (hplain n (by simp))
      have hle := ih fun m hm => hplain m (by simp [hm])
      rw [pathOf_concat, List.length_append, List.length_singleton]
      omega

theorem length_pathOf_append {base : Str} {above below : Chain} (hplain : ∀ n ∈ below, n ≠ []) :
    (pathOf base above).length + below.length ≤ (pathOf base (above ++ below)).length := by
  rw [pathOf, pathOf, List.foldl_append]
  exact length_chain_le hplain

/-! ### Names in a path -/

/-- The names with slashes between them, with no base. -/
theorem last_pathOf_nil {chain : Chain} (hne : chain ≠ []) (hplain : ∀ n ∈ chain, Plain n) :
    pathOf [] chain ≠ [] ∧ (pathOf [] chain).getLast? ≠ some slash ∧
      (pathOf [] chain).head? ≠ some slash := by
  induction chain using List.reverseRecOn with
  | nil => exact absurd rfl hne
  | append_singleton chain n ih =>
      have hn := hplain n (by simp)
      have hlast :
          (pathOf [] chain ++ (separator (pathOf [] chain) ++ n)).getLast? ≠ some slash := by
        intro hlast
        rw [← List.append_assoc, List.getLast?_append_of_ne_nil _ hn.ne_nil] at hlast
        exact hn.no_slash (List.mem_of_getLast? hlast)
      rw [pathOf_concat, joined_eq]
      refine ⟨by simp [hn.ne_nil], hlast, ?_⟩
      by_cases hchain : chain = []
      · subst hchain
        intro hhead
        exact hn.no_slash (List.mem_of_head? (by simpa [separator] using hhead))
      · obtain ⟨hpath, -, hhead⟩ := ih hchain fun m hm => hplain m (by simp [hm])
        rwa [List.head?_append_of_ne_nil _ hpath]

theorem pathOf_nil_concat {chain : Chain} (hne : chain ≠ []) (hplain : ∀ n ∈ chain, Plain n)
    (n : Str) : pathOf [] (chain ++ [n]) = pathOf [] chain ++ slash :: n := by
  obtain ⟨hpath, hlast, -⟩ := last_pathOf_nil hne hplain
  rw [pathOf_concat, joined, if_neg hpath, if_neg hlast]

/-- A path is the base and the names. -/
theorem pathOf_eq {base : Str} {chain : Chain} (hne : chain ≠ []) (hplain : ∀ n ∈ chain, Plain n) :
    pathOf base chain = base ++ (separator base ++ pathOf [] chain) := by
  induction chain using List.reverseRecOn with
  | nil => exact absurd rfl hne
  | append_singleton chain n ih =>
      by_cases hchain : chain = []
      · subst hchain
        rw [pathOf_concat, pathOf_nil, joined_eq]
        rfl
      · have hpre : ∀ m ∈ chain, Plain m := fun m hm => hplain m (by simp [hm])
        obtain ⟨hpath, hlast, -⟩ := last_pathOf_nil hchain hpre
        have hlast' : (base ++ (separator base ++ pathOf [] chain)).getLast? ≠ some slash := by
          rwa [← List.append_assoc, List.getLast?_append_of_ne_nil _ hpath]
        rw [pathOf_concat, ih hchain hpre, joined, if_neg (by simp [hpath]), if_neg hlast',
          pathOf_nil_concat hchain hpre]
        simp

/-- The path of a node that is cut off, behind a base that is not. -/
theorem nodeOf_eq_append {base : Str} {chain : Chain} (hne : chain ≠ [])
    (hplain : ∀ n ∈ chain, Plain n)
    (hbase : base.length + (separator base).length < paiMaxPath) :
    nodeOf base chain = base ++ (separator base ++ (pathOf [] chain).take
      (paiMaxPath - 1 - base.length - (separator base).length)) := by
  have hlen : paiMaxPath - 1 = base.length + ((separator base).length +
      (paiMaxPath - 1 - base.length - (separator base).length)) := by omega
  rw [nodeOf_eq_take hne, pathOf_eq hne hplain]
  conv_lhs => rw [hlen]
  rw [List.take_length_add_append, List.take_length_add_append]

theorem head_take_pathOf_nil {chain : Chain} (hne : chain ≠ []) (hplain : ∀ n ∈ chain, Plain n)
    (k : ℕ) : ((pathOf [] chain).take k).head? ≠ some slash := by
  obtain ⟨-, -, hhead⟩ := last_pathOf_nil hne hplain
  rw [List.head?_take]
  split
  · simp
  · exact hhead

/-- Below the base a name stands behind a slash. -/
theorem pathOf_below {base : Str} {chain : Chain} (hne : chain ≠ []) (hplain : ∀ n ∈ chain, Plain n)
    (n : Str) : pathOf base (chain ++ [n]) = pathOf base chain ++ slash :: n := by
  obtain ⟨hpath, hlast, -⟩ := last_pathOf_nil hne hplain
  have hne' : pathOf base chain ≠ [] := by
    rw [pathOf_eq hne hplain]
    simp [hpath]
  have hlast' : (pathOf base chain).getLast? ≠ some slash := by
    rwa [pathOf_eq hne hplain, ← List.append_assoc, List.getLast?_append_of_ne_nil _ hpath]
  rw [pathOf_concat, joined, if_neg hne', if_neg hlast']

/-- The names can be read off a path. -/
theorem splitOn_joined {chain : Chain} (hplain : ∀ n ∈ chain, Plain n) {n : Str}
    (hn : slash ∉ n) : (joined (pathOf [] chain) n).splitOn slash = chain ++ [n] := by
  induction chain using List.reverseRecOn generalizing n with
  | nil =>
      rw [pathOf_nil, joined, if_pos rfl, List.splitOn_eq_singleton hn]
      rfl
  | append_singleton chain m ih =>
      obtain ⟨hpath, hlast, -⟩ := last_pathOf_nil (by simp) hplain
      rw [joined, if_neg hpath, if_neg hlast, List.splitOn_append_cons_self, pathOf_concat,
        ih (fun k hk => hplain k (by simp [hk])) (hplain m (by simp)).no_slash,
        List.splitOn_eq_singleton hn]

theorem splitOn_pathOf_nil {chain : Chain} (hne : chain ≠ []) (hplain : ∀ n ∈ chain, Plain n) :
    (pathOf [] chain).splitOn slash = chain := by
  obtain ⟨above, n, rfl⟩ := List.eq_nil_or_concat' chain |>.resolve_left hne
  obtain ⟨habove, hn⟩ := plain_concat.mp hplain
  rw [pathOf_concat, splitOn_joined habove hn.no_slash]

theorem pathOf_nil_inj {c d : Chain} (hc : ∀ n ∈ c, Plain n) (hd : ∀ n ∈ d, Plain n)
    (hcne : c ≠ []) (hdne : d ≠ []) (h : pathOf [] c = pathOf [] d) : c = d := by
  rw [← splitOn_pathOf_nil hcne hc, h, splitOn_pathOf_nil hdne hd]

/-- What `rel_path` leaves: with a base that ends in a slash nothing is taken off. -/
theorem relPath_append (base : Str) {rest : Str} (hne : rest ≠ [])
    (hhead : rest.head? ≠ some slash) :
    relPath base (base ++ (separator base ++ rest)) =
      if base.getLast? = some slash then base ++ rest else rest := by
  by_cases hbase : base = []
  · simp [relPath, separator, hbase]
  · have hpre : base.isPrefixOf (base ++ (separator base ++ rest)) = true :=
      List.isPrefixOf_iff_prefix.mpr (List.prefix_append _ _)
    rw [relPath, if_neg hbase, if_pos hpre, List.drop_left]
    by_cases hlast : base.getLast? = some slash
    · rw [if_pos hlast, separator, if_pos (.inr hlast), List.nil_append]
      obtain ⟨c, tail, hcons⟩ := List.exists_cons_of_ne_nil hne
      rw [hcons] at hhead ⊢
      exact if_neg fun hc => hhead (by rw [hc]; rfl)
    · rw [if_neg hlast, separator, if_neg (by simp [hbase, hlast])]
      exact if_pos rfl

/-- The path that is listed. -/
theorem relPath_pathOf {base : Str} {chain : Chain} (hne : chain ≠ [])
    (hplain : ∀ n ∈ chain, Plain n) :
    relPath base (pathOf base chain) =
      if base.getLast? = some slash then pathOf base chain else pathOf [] chain := by
  obtain ⟨hpath, -, hhead⟩ := last_pathOf_nil hne hplain
  rw [pathOf_eq hne hplain, relPath_append base hpath hhead]
  split
  · next hlast => rw [separator, if_pos (.inr hlast), List.nil_append]
  · rfl

/-- A path with a byte to spare is listed for one node only, even if others are cut off. -/
theorem relPath_nodeOf_inj {base : Str} {c d : Chain} (hc : ∀ n ∈ c, Plain n)
    (hd : ∀ n ∈ d, Plain n) (hcne : c ≠ []) (hdne : d ≠ [])
    (hshort : (pathOf base c).length + 1 < paiMaxPath)
    (h : relPath base (nodeOf base d) = relPath base (pathOf base c)) : d = c := by
  obtain ⟨hcpath, -, hchead⟩ := last_pathOf_nil hcne hc
  obtain ⟨hdpath, -, -⟩ := last_pathOf_nil hdne hd
  have hlen : (pathOf base c).length =
      base.length + ((separator base).length + (pathOf [] c).length) := by
    rw [pathOf_eq hcne hc, List.length_append, List.length_append]
  have hcpos := List.length_pos_of_ne_nil hcpath
  -- the names of `d` are cut off after `k` bytes
  have hcut := nodeOf_eq_append hdne hd (show base.length + (separator base).length < paiMaxPath by
    omega)
  generalize hk : paiMaxPath - 1 - base.length - (separator base).length = k at hcut
  have hkpos : k ≠ 0 := by omega
  have hhead := head_take_pathOf_nil hdne hd k
  have hnames : (pathOf [] d).take k = pathOf [] c := by
    rw [hcut, pathOf_eq hcne hc, relPath_append base (by simp [hkpos, hdpath]) hhead,
      relPath_append base hcpath hchead] at h
    split at h
    · exact List.append_cancel_left h
    · exact h
  have hwhole : (pathOf [] d).length ≤ k := by
    have hlength := congrArg List.length hnames
    rw [List.length_take] at hlength
    omega
  rw [List.take_of_length_le hwhole] at hnames
  exact pathOf_nil_inj hd hc hdne hcne hnames

end Blake3.Pai
