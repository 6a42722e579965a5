import Blake3.Pai.Paths

/-!
The places that path strings name. A string is taken apart at its slashes and
followed from the root or from the working directory, in a tree without links. A path
that is cut off names a place on the way, or beside it.
-/

namespace Blake3.Pai

/-- One name is followed. -/
def enter (place : Chain) (name : Str) : Chain :=
  if name = [] ∨ name = [dot] then place
  else if name = [dot, dot] then place.dropLast
  else place ++ [name]

/-- The names from the root down to what a string names. -/
def resolve (cwd : Chain) (s : Str) : Chain :=
  (s.splitOn slash).foldl enter (if s.head? = some slash then [] else cwd)

/-- A place below another one. -/
def Under (place above : Chain) : Prop := ∃ rest, rest ≠ [] ∧ place = above ++ rest

/-! ### Names -/

theorem enter_plain {place : Chain} {n : Str} (h : Plain n) : enter place n = place ++ [n] := by
  rw [enter, if_neg (by simp [h.ne_nil, h.ne_dot]), if_neg h.ne_dot_dot]

theorem enters_plain {place chain : Chain} (h : ∀ n ∈ chain, Plain n) :
    chain.foldl enter place = place ++ chain := by
  induction chain generalizing place with
  | nil => simp
  | cons n chain ih =>
      rw [List.foldl_cons, enter_plain (h n (by simp)), ih fun m hm => h m (by simp [hm]),
        List.append_assoc, List.singleton_append]

/-- What is followed is a place of plain names. -/
theorem plain_enters {place names : Chain} (hplace : ∀ n ∈ place, Plain n)
    (hnames : ∀ n ∈ names, slash ∉ n) : ∀ n ∈ names.foldl enter place, Plain n := by
  induction names generalizing place with
  | nil => exact hplace
  | cons m names ih =>
      refine ih ?_ fun n hn => hnames n (by simp [hn])
      rw [enter]
      split
      · exact hplace
      · next hdot =>
          split
          · exact fun n hn => hplace n (List.mem_of_mem_dropLast hn)
          · next hdots =>
              rw [not_or] at hdot
              exact plain_concat.mpr ⟨hplace, hdot.1, hnames m (by simp), hdot.2, hdots⟩

theorem not_mem_of_mem_splitOn {s n : Str} (h : n ∈ s.splitOn slash) : slash ∉ n := by
  induction s generalizing n with
  | nil =>
      rw [List.splitOn_nil, List.mem_singleton] at h
      simp [h]
  | cons c s ih =>
      rw [List.splitOn_cons_eq_if_modifyHead] at h
      obtain ⟨first, rest, hsplit⟩ := List.exists_cons_of_ne_nil (List.splitOn_ne_nil slash s)
      rw [hsplit] at h ih
      split at h
      · rcases List.mem_cons.mp h with rfl | h
        · simp
        · exact ih h
      · next hc =>
          rw [List.modifyHead_cons] at h
          rcases List.mem_cons.mp h with rfl | h
          · have hfirst := ih List.mem_cons_self
            simp only [beq_iff_eq] at hc
            simp [hfirst, Ne.symm hc]
          · exact ih (List.mem_cons_of_mem _ h)

theorem plain_resolve {cwd : Chain} (hcwd : ∀ n ∈ cwd, Plain n) (s : Str) :
    ∀ n ∈ resolve cwd s, Plain n := by
  refine plain_enters ?_ fun n => not_mem_of_mem_splitOn
  split
  · exact fun n hn => absurd hn List.not_mem_nil
  · exact hcwd

/-! ### Joined paths -/

/-- Behind a base the names are followed from where it is. -/
theorem resolve_append (cwd : Chain) (base : Str) {rest : Str} (h : rest.head? ≠ some slash) :
    resolve cwd (base ++ (separator base ++ rest)) =
      (rest.splitOn slash).foldl enter (resolve cwd base) := by
  have hempty (place : Chain) : enter place [] = place := if_pos (.inl rfl)
  by_cases hbase : base = []
  · simp [resolve, separator, hbase, h, hempty]
  · rw [resolve, resolve, List.head?_append_of_ne_nil _ hbase]
    by_cases hlast : base.getLast? = some slash
    · have hsep : separator base = [] := if_pos (.inr hlast)
      obtain ⟨front, rfl⟩ := List.getLast?_eq_some_iff.mp hlast
      rw [hsep, List.nil_append, List.append_assoc, List.singleton_append,
        List.splitOn_append_cons_self, List.splitOn_append_cons_self, List.splitOn_nil,
        List.foldl_append, List.foldl_append, List.foldl_cons, List.foldl_nil, hempty]
    · have hsep : separator base = [slash] := if_neg (by simp [hbase, hlast])
      rw [hsep, List.singleton_append, List.splitOn_append_cons_self, List.foldl_append]

theorem resolve_pathOf (cwd : Chain) (base : Str) {chain : Chain} (hne : chain ≠ [])
    (hplain : ∀ n ∈ chain, Plain n) :
    resolve cwd (pathOf base chain) = resolve cwd base ++ chain := by
  obtain ⟨-, -, hhead⟩ := last_pathOf_nil hne hplain
  rw [pathOf_eq hne hplain, resolve_append cwd base hhead, splitOn_pathOf_nil hne hplain,
    enters_plain hplain]

/-! ### Paths that are cut off -/

/-- Of the names the first ones are left, and a part of the next one. -/
theorem take_pathOf_nil {chain : Chain} (hne : chain ≠ []) (hplain : ∀ n ∈ chain, Plain n)
    (k : ℕ) : ∃ above n below cut, chain = above ++ n :: below ∧ cut <+: n ∧
      (pathOf [] chain).take k = joined (pathOf [] above) cut := by
  induction chain using List.reverseRecOn with
  | nil => exact absurd rfl hne
  | append_singleton chain n ih =>
      by_cases hchain : chain = []
      · refine ⟨[], n, [], n.take k, by simp [hchain], List.take_prefix _ _, ?_⟩
        simp [hchain, joined, pathOf]
      · have hfront : ∀ m ∈ chain, Plain m := fun m hm => hplain m (by simp [hm])
        rw [pathOf_nil_concat hchain hfront]
        by_cases hk : k ≤ (pathOf [] chain).length
        · obtain ⟨above, m, below, cut, rfl, hcut, htake⟩ := ih hchain hfront
          refine ⟨above, m, below ++ [n], cut, by simp, hcut, ?_⟩
          rw [List.take_append_of_le_length hk, htake]
        · obtain ⟨i, rfl⟩ : ∃ i, k = (pathOf [] chain).length + (i + 1) :=
            ⟨k - (pathOf [] chain).length - 1, by omega⟩
          obtain ⟨hpath, hlast, -⟩ := last_pathOf_nil hchain hfront
          refine ⟨chain, n, [], n.take i, rfl, List.take_prefix _ _, ?_⟩
          rw [List.take_length_add_append, List.take_succ_cons, joined, if_neg hpath,
            if_neg hlast]

theorem length_joined_pathOf_nil {chain : Chain} (hne : chain ≠ [])
    (hplain : ∀ n ∈ chain, Plain n) (n : Str) :
    (joined (pathOf [] chain) n).length = (pathOf [] chain).length + (n.length + 1) := by
  obtain ⟨hpath, hlast, -⟩ := last_pathOf_nil hne hplain
  rw [joined, if_neg hpath, if_neg hlast, List.length_append, List.length_cons]

/-- A path that names a place below the one of `chain`, cut off or not, has gone through
all its names and has a byte of another one. -/
theorem under_of_take {place chain names rest : Chain} (hchain : chain ≠ [])
    (hne : names ≠ []) (hplain : ∀ n ∈ names, Plain n) (hrest : rest ≠ []) {k : ℕ}
    (h : (((pathOf [] names).take k).splitOn slash).foldl enter place =
      place ++ (chain ++ rest)) :
    chain <+: names ∧ (pathOf [] chain).length + 2 ≤ k := by
  obtain ⟨above, n, below, cut, rfl, hcut, htake⟩ := take_pathOf_nil hne hplain k
  have habove : ∀ m ∈ above, Plain m := fun m hm => hplain m (by simp [hm])
  have hslash : slash ∉ cut := fun hmem => (hplain n (by simp)).no_slash (hcut.subset hmem)
  have hlen : (joined (pathOf [] above) cut).length ≤ k := by
    rw [← htake]
    exact List.length_take_le _ _
  rw [htake, splitOn_joined habove hslash, List.foldl_append, enters_plain habove,
    List.foldl_cons, List.foldl_nil] at h
  -- one more name takes two more bytes
  have hmore {m : Str} {others : Chain} (heq : above = chain ++ m :: others) :
      chain <+: above ++ n :: below ∧ (pathOf [] chain).length + 2 ≤ k := by
    have hpath : pathOf [] above = pathOf (joined (pathOf [] chain) m) others := by
      rw [heq, pathOf, pathOf, pathOf, List.foldl_append, List.foldl_cons]
    have hne' : ∀ o ∈ others, o ≠ [] := fun o ho => (habove o (by simp [heq, ho])).ne_nil
    have hothers := @length_chain_le (joined (pathOf [] chain) m) others hne'
    rw [length_joined_pathOf_nil hchain (fun o ho => habove o (by simp [heq, ho]))] at hothers
    have hm := List.length_pos_of_ne_nil (habove m (by simp [heq])).ne_nil
    rw [joined_eq, List.length_append, hpath] at hlen
    refine ⟨⟨m :: others ++ n :: below, by rw [heq]; simp⟩, by omega⟩
  rw [enter] at h
  split at h
  · obtain ⟨m, others, rfl⟩ := List.exists_cons_of_ne_nil hrest
    exact hmore (List.append_cancel_left h)
  · next hdot =>
      split at h
      · rcases List.eq_nil_or_concat' above with rfl | ⟨front, last, rfl⟩
        · have hlength := congrArg List.length h
          simp only [List.append_nil, List.length_dropLast, List.length_append] at hlength
          have hpos := List.length_pos_of_ne_nil hrest
          omega
        · obtain ⟨m, others, rfl⟩ := List.exists_cons_of_ne_nil hrest
          rw [← List.append_assoc, List.dropLast_concat] at h
          refine @hmore m (others ++ [last]) ?_
          rw [List.append_cancel_left h]
          simp
      · obtain ⟨front, m, rfl⟩ := List.eq_nil_or_concat' rest |>.resolve_left hrest
        rw [List.append_assoc, ← List.append_assoc chain] at h
        obtain ⟨hfront, hlast⟩ := List.append_inj' (List.append_cancel_left h) rfl
        cases front with
        | cons m' others => exact hmore hfront
        | nil =>
            rw [List.append_nil] at hfront
            have hcutpos := List.length_pos_of_ne_nil fun hnil => hdot (.inl hnil)
            rw [hfront, length_joined_pathOf_nil hchain
              fun o ho => habove o (by rwa [hfront])] at hlen
            exact ⟨⟨n :: below, by rw [hfront]⟩, by omega⟩

end Blake3.Pai
