import Blake3.Fc16.Adapter
import Blake3.Fc16.Log

/-!
What a scan is to emit: the entries of a tree, depth first, the names of each
directory in the order of their bytes. A tree has limits to keep, and a kernel
serves it.
-/

namespace Blake3.Fc16.Adapter

theorem CString.ext_bytes {cap : ℕ} {a b : CString cap} (h : a.bytes = b.bytes) : a = b := by
  cases a
  cases b
  cases h
  rfl

/-- The files that a snapshot is written to. -/
def generatedNames : List (List Byte) := [custodyBin, custodyZip, custodyDigest]

/-- The children that are not left out. -/
def kept (children : Children) : Children :=
  children.filter fun c => c.1.bytes ∉ generatedNames

def byName (children : Children) : Children :=
  children.mergeSort fun a b => a.1.bytes ≤ b.1.bytes

theorem mem_byName {children : Children} {c : CString maxName × Node} :
    c ∈ byName children ↔ c ∈ children := List.mem_mergeSort

theorem sizeOf_child {children : Children} {c : CString maxName × Node}
    (h : c ∈ byName (kept children)) : sizeOf c.2 < sizeOf (Node.directory children) := by
  have hlt := List.sizeOf_lt_of_mem (List.mem_of_mem_filter (mem_byName.mp h))
  have hpair : sizeOf c = 1 + sizeOf c.1 + sizeOf c.2 := by
    cases c
    rfl
  have hnode := Node.directory.sizeOf_spec children
  omega

/-- The entries of what is at a path. -/
def Node.entries (path : List Byte) : Node → List Entry
  | .regular content =>
      [{ path := path, size := UInt64.ofNat content.length, kind := 1, data := content }]
  | .directory children =>
      { path := path, size := 0, kind := 2, data := [] } ::
        (byName (kept children)).attach.flatMap fun c => c.1.2.entries (join path c.1.1.bytes)
  | .symlink => [{ path := path, size := 0, kind := 3, data := [] }]
  | .other => []
termination_by node => sizeOf node
decreasing_by exact sizeOf_child c.2

/-- The entries of what is in a directory. -/
def listing (path : List Byte) (children : Children) : List Entry :=
  (byName (kept children)).flatMap fun c => c.2.entries (join path c.1.bytes)

theorem Node.entries_directory (path : List Byte) (children : Children) :
    Node.entries path (.directory children) =
      { path := path, size := 0, kind := 2, data := [] } :: listing path children := by
  rw [Node.entries, listing]
  conv_rhs => rw [← List.attach_map_subtype_val (byName (kept children)), List.flatMap_map]

/-! ### Trees within the limits -/

/-- The directories of a tree, with their depth and their path. -/
inductive DirAt (root : Children) : ℕ → List Byte → Children → Prop where
  | root : DirAt root 0 [] root
  | child {depth : ℕ} {path : List Byte} {children sub : Children} {name : CString maxName}
      (parent : DirAt root depth path children) (mem : (name, .directory sub) ∈ kept children) :
      DirAt root (depth + 1) (join path name.bytes) sub

/-- Names as a file system has them: none is empty or has a slash, and no two in a directory are
the same. Sizes are those of files. -/
structure WellFormed (children : Children) : Prop where
  nodup : (children.map Prod.fst).Nodup
  ne_nil : ∀ c ∈ children, c.1.bytes ≠ []
  no_slash : ∀ c ∈ children, 0x2f ∉ c.1.bytes
  size_lt : ∀ c ∈ children, ∀ content, c.2 = .regular content → content.length < 2 ^ 64

/-- A tree that stays within the limits of the scan. -/
structure Within (root : Children) : Prop where
  wellFormed : ∀ {depth path children}, DirAt root depth path children → WellFormed children
  depth_lt : ∀ {depth path children}, DirAt root depth path children → depth < maxDepth
  count_le : ∀ {depth path children}, DirAt root depth path children →
    (kept children).length ≤ maxEntries
  path_le : ∀ {depth path children}, DirAt root depth path children → ∀ c ∈ kept children,
    path.length + c.1.bytes.length + 2 ≤ maxPath

/-! ### Every node once -/

/-- The entry of a node itself. -/
def Node.entry (path : List Byte) : Node → Option Entry
  | .regular content =>
      some { path := path, size := UInt64.ofNat content.length, kind := 1, data := content }
  | .directory _ => some { path := path, size := 0, kind := 2, data := [] }
  | .symlink => some { path := path, size := 0, kind := 3, data := [] }
  | .other => none

/-- What is in the directories of a tree and not left out. -/
def NodeAt (root : Children) (path : List Byte) (node : Node) : Prop :=
  ∃ depth directory children name, DirAt root depth directory children ∧
    (name, node) ∈ kept children ∧ path = join directory name.bytes

theorem mem_listing {path : List Byte} {children : Children} {e : Entry} :
    e ∈ listing path children ↔
      ∃ c ∈ kept children, e ∈ c.2.entries (join path c.1.bytes) := by
  simp only [listing, List.mem_flatMap, mem_byName]

theorem mem_entries {path : List Byte} {node : Node} {e : Entry} :
    e ∈ node.entries path ↔ node.entry path = some e ∨
      ∃ children, node = .directory children ∧ e ∈ listing path children := by
  cases node with
  | regular content => simp [Node.entries, Node.entry, eq_comm]
  | directory children => simp [Node.entries_directory, Node.entry, eq_comm]
  | symlink => simp [Node.entries, Node.entry, eq_comm]
  | other => simp [Node.entries, Node.entry]

theorem path_of_entry {path : List Byte} {node : Node} {e : Entry} (h : node.entry path = some e) :
    e.path = path := by
  cases node with
  | regular content => exact congrArg Entry.path (Option.some.inj h).symm
  | directory children => exact congrArg Entry.path (Option.some.inj h).symm
  | symlink => exact congrArg Entry.path (Option.some.inj h).symm
  | other => cases h

/-- Induction on the subdirectories. -/
theorem Children.induction {motive : Children → Prop}
    (step : ∀ children, (∀ name sub, (name, .directory sub) ∈ kept children → motive sub) →
      motive children) (children : Children) : motive children := by
  obtain ⟨n, hn⟩ : ∃ n, sizeOf children < n := ⟨_, Nat.lt_succ_self _⟩
  induction n generalizing children with
  | zero => exact absurd hn (Nat.not_lt_zero _)
  | succ n ih =>
      refine step children fun name sub hsub => ih sub ?_
      have hlt := sizeOf_child (mem_byName.mpr hsub)
      rw [Node.directory.sizeOf_spec, Node.directory.sizeOf_spec] at hlt
      omega

theorem exists_nodeAt {root : Children} {e : Entry} (children : Children) :
    ∀ {depth path}, DirAt root depth path children → e ∈ listing path children →
      ∃ path node, NodeAt root path node ∧ node.entry path = some e := by
  induction children using Children.induction with
  | step children ih =>
      intro depth path hdir he
      obtain ⟨⟨name, node⟩, hc, he⟩ := mem_listing.mp he
      rcases mem_entries.mp he with hown | ⟨sub, rfl, he⟩
      · exact ⟨_, node, ⟨depth, path, children, name, hdir, hc, rfl⟩, hown⟩
      · exact ih name sub hc (hdir.child hc) he

/-- The entries of a tree are those of its nodes. -/
theorem mem_listing_root {root : Children} {e : Entry} :
    e ∈ listing [] root ↔ ∃ path node, NodeAt root path node ∧ node.entry path = some e := by
  refine ⟨exists_nodeAt root .root, ?_⟩
  rintro ⟨path, node, ⟨depth, directory, children, name, hdir, hc, rfl⟩, hown⟩
  have he : e ∈ listing directory children :=
    mem_listing.mpr ⟨_, hc, mem_entries.mpr (.inl hown)⟩
  clear hc hown
  induction hdir with
  | root => exact he
  | child parent mem ih =>
      exact ih (mem_listing.mpr ⟨_, mem, mem_entries.mpr (.inr ⟨_, rfl, he⟩)⟩)

/-- What can follow a path: nothing, or a slash. -/
def Trailing (rest : List Byte) : Prop := rest = [] ∨ ∃ rest', rest = 0x2f :: rest'

theorem join_of_ne_nil {path name : List Byte} (h : path ≠ []) :
    join path name = path ++ 0x2f :: name := if_neg h

theorem join_ne_nil {path name : List Byte} (h : name ≠ []) : join path name ≠ [] := by
  rw [join]
  split
  · exact h
  · simp

theorem join_append {path name rest : List Byte} :
    join path name ++ rest = join path (name ++ rest) := by
  rw [join, join]
  split
  · rfl
  · rw [List.append_assoc, List.cons_append]

theorem join_inj {path name name' : List Byte} (h : join path name = join path name') :
    name = name' := by
  rw [join, join] at h
  split at h
  · exact h
  · exact List.cons.inj (List.append_cancel_left h) |>.2

/-- Names without a slash are told apart by what follows them. -/
theorem eq_of_trailing {name name' rest rest' : List Byte} (hname : 0x2f ∉ name)
    (hname' : 0x2f ∉ name')
    (hrest : Trailing rest) (hrest' : Trailing rest') (h : name ++ rest = name' ++ rest') :
    name = name' := by
  have htake : ∀ {n r : List Byte}, 0x2f ∉ n → Trailing r → (n ++ r).takeWhile (· ≠ 0x2f) = n := by
    intro n r hn hr
    have hall : ∀ b ∈ n, (decide (b ≠ 0x2f)) = true := by
      intro b hb
      rw [decide_eq_true_eq]
      rintro rfl
      exact hn hb
    rw [List.takeWhile_append_of_pos hall]
    rcases hr with rfl | ⟨r', rfl⟩
    · simp
    · simp
  rw [← htake hname hrest, h, htake hname' hrest']

variable {root : Children}
  (hwf : ∀ {depth path children}, DirAt root depth path children → WellFormed children)

include hwf

theorem trailing_of_mem (children : Children) :
    ∀ {depth path}, DirAt root depth path children → ∀ c ∈ kept children,
      ∀ e ∈ c.2.entries (join path c.1.bytes),
        ∃ rest, e.path = join path c.1.bytes ++ rest ∧ Trailing rest := by
  induction children using Children.induction with
  | step children ih =>
      rintro depth path hdir ⟨name, node⟩ hc e he
      have hne : join path name.bytes ≠ [] :=
        join_ne_nil ((hwf hdir).ne_nil _ (List.mem_of_mem_filter hc))
      rcases mem_entries.mp he with hown | ⟨sub, rfl, he⟩
      · exact ⟨[], (List.append_nil _).symm ▸ path_of_entry hown, .inl rfl⟩
      · obtain ⟨c', hc', he⟩ := mem_listing.mp he
        obtain ⟨rest, hrest, -⟩ := ih name sub hc (hdir.child hc) c' hc' e he
        rw [join_of_ne_nil hne, List.append_assoc] at hrest
        exact ⟨_, hrest, .inr ⟨_, rfl⟩⟩

/-- No two entries of a tree have the same path. -/
theorem nodup_listing (children : Children) :
    ∀ {depth path}, DirAt root depth path children →
      ((listing path children).map Entry.path).Nodup := by
  induction children using Children.induction with
  | step children ih =>
      intro depth path hdir
      have htrailing : ∀ c ∈ byName (kept children), ∀ p ∈ (c.2.entries (join path c.1.bytes)).map
          Entry.path, ∃ rest, p = join path c.1.bytes ++ rest ∧ Trailing rest := by
        intro c hc p hp
        obtain ⟨e, he, rfl⟩ := List.mem_map.mp hp
        exact trailing_of_mem hwf children hdir c (mem_byName.mp hc) e he
      have hmem : ∀ c ∈ byName (kept children), c ∈ children :=
        fun c hc => List.mem_of_mem_filter (mem_byName.mp hc)
      rw [listing, List.map_flatMap, List.nodup_flatMap]
      constructor
      · rintro ⟨name, node⟩ hc
        cases node with
        | regular content => simp [Node.entries]
        | symlink => simp [Node.entries]
        | other => simp [Node.entries]
        | directory sub =>
            have hsub := hdir.child (mem_byName.mp hc)
            rw [Node.entries_directory, List.map_cons, List.nodup_cons]
            refine ⟨fun hp => ?_, ih name sub (mem_byName.mp hc) hsub⟩
            obtain ⟨e, he, hpath⟩ := List.mem_map.mp hp
            obtain ⟨c', hc', he⟩ := mem_listing.mp he
            obtain ⟨rest, hrest, -⟩ := trailing_of_mem hwf sub hsub c' hc' e he
            have hne : join path name.bytes ≠ [] := join_ne_nil ((hwf hdir).ne_nil _ (hmem _ hc))
            rw [hpath, join_of_ne_nil hne, List.append_assoc] at hrest
            cases List.self_eq_append_right.mp hrest
      · have hnodup : ((byName (kept children)).map Prod.fst).Nodup := by
          refine ((List.mergeSort_perm _ _).map Prod.fst).nodup_iff.mpr ?_
          exact (hwf hdir).nodup.sublist (List.filter_sublist.map _)
        refine (List.pairwise_map.mp hnodup).imp_of_mem fun {c c'} hc hc' hne p hp hp' => hne ?_
        obtain ⟨rest, rfl, hrest⟩ := htrailing c hc p hp
        obtain ⟨rest', hjoin, hrest'⟩ := htrailing c' hc' _ hp'
        rw [join_append, join_append] at hjoin
        exact CString.ext_bytes (eq_of_trailing ((hwf hdir).no_slash c (hmem c hc))
          ((hwf hdir).no_slash c' (hmem c' hc')) hrest hrest' (join_inj hjoin))

/-! ### Kernels -/

/-- What `statx` says of a node. -/
def Node.HasMode (size : UInt64) (type : UInt16) : Node → Prop
  | .regular content => type = sIfreg ∧ size = UInt64.ofNat content.length
  | .directory _ => type = sIfdir
  | .symlink => type = sIflnk
  | .other => type ≠ sIfreg ∧ type ≠ sIfdir ∧ type ≠ sIflnk

/-- What a record says of a node, where `statx` does not work. -/
def Node.HasType (type : Byte) : Node → Prop
  | .regular _ => type = 8
  | .directory _ => type = 4
  | .symlink => type = 10
  | .other => False

/-- A directory is returned whole, in any order and in any batches that fit into
the buffer, and the type of each entry can be told. -/
structure Kernel.ServesDir (k : Kernel) (path : List Byte) (children : Children) : Prop where
  names : (((k.getdents path).flatten.map Dirent.name).filter fun n => !isDot n.bytes).Perm
    (children.map Prod.fst)
  ends : k.getdentsFails path = false
  batch_ne : ∀ batch ∈ k.getdents path, batch ≠ []
  batch_le : ∀ batch ∈ k.getdents path, (batch.flatMap Dirent.bytes).length ≤ ioBytes
  mode : ∀ c ∈ children, ∀ mode size, k.statx (join path c.1.bytes) = some (mode, size) →
    c.2.HasMode size (mode &&& sIfmt)
  type : ∀ c ∈ children, k.statx (join path c.1.bytes) = none →
    ∀ d ∈ (k.getdents path).flatten, d.name = c.1 → c.2.HasType d.type

/-- A kernel that serves a tree. -/
def Kernel.Serves (k : Kernel) (root : Children) : Prop :=
  ∀ {depth path children}, DirAt root depth path children → k.ServesDir path children

end Blake3.Fc16.Adapter
