import Blake3.Fc16.Directory
import Blake3.Fc16.Snapshot
import Blake3.Lib.Keyed

/-!
A scan emits the entries of the tree, whatever the kernel does. The buffer and
the tables that are reused across the recursion are framed: a directory leaves
those of its parents as they were.
-/

namespace Blake3.Fc16.Adapter

open ShortReads

/-! ### Emitting -/

/-- `R` says which log the core that is emitted to stands for. -/
def Obeys {M : Type} (emit : M → Call → Result (Status × M)) (R : Log → M → Prop) : Prop :=
  ∀ {log m} call, R log m → ¬log.Closes call →
    ∃ m', emit m call = .ok ((log.next call).1, m') ∧ R (log.next call).2 m'

theorem obeys_log : Obeys (fun log call => .ok (Log.next log call)) Eq := by
  rintro log m call rfl -
  exact ⟨_, rfl, rfl⟩

theorem obeys_keeps {σ : Type} {H : Hash σ} {Ready : σ → Prop} (hH : H.Lawful Ready)
    (c₀ : Context σ) : Obeys (step H) (Keeps H Ready c₀) :=
  fun _ h hcloses => keeps_step hH h hcloses

section Scan

variable {M : Type} {emit : M → Call → Result (Status × M)} {R : Log → M → Prop}
  (hobeys : Obeys emit R) {closed : List Entry} {m : M}

include hobeys

theorem Obeys.begins (path : CString maxPath) (size : UInt64) (kind : Word)
    (hpath : path.bytes ≠ [])
    (hm : R { closed := closed, opened := none } m) :
    ∃ m', emit m (.entryBegin (pathSpan path) size kind) = .ok (.ok, m') ∧
      R { closed := closed, opened := some ⟨path.bytes, size, kind, []⟩ } m' := by
  have hlen : (pathSpan path).len ≠ 0 := mt List.length_eq_zero_iff.mp hpath
  have hnext :
      Log.next { closed := closed, opened := none } (.entryBegin (pathSpan path) size kind) =
      (.ok, { closed := closed, opened := some ⟨path.bytes, size, kind, []⟩ }) := if_neg hlen
  have h := hobeys (.entryBegin (pathSpan path) size kind) hm fun h => h
  rwa [hnext] at h

theorem Obeys.receives {e : Entry} (io : Vector Byte 16384) (n : ℕ)
    (hfit : e.data.length + (io.toList.take n).length ≤ e.size.toNat)
    (hm : R { closed := closed, opened := some e } m) :
    ∃ m', emit m (.entryData (ioSpan io n)) = .ok (.ok, m') ∧
      R { closed := closed, opened := some (e.append (io.toList.take n)) } m' := by
  have hsize := e.size.toNat_lt
  have hlt : ¬e.size < UInt64.ofNat e.data.length + UInt64.ofNat (io.toList.take n).length := by
    rw [← UInt64.ofNat_add, UInt64.lt_iff_toNat_lt, toNat_ofNat64 (by omega)]
    omega
  have hnext : Log.next { closed := closed, opened := some e } (.entryData (ioSpan io n)) =
      (.ok, { closed := closed, opened := some (e.append (io.toList.take n)) }) := if_neg hlt
  have h := hobeys (.entryData (ioSpan io n)) hm fun h => h
  rwa [hnext] at h

theorem Obeys.ends {e : Entry} (hsize : e.size = UInt64.ofNat e.data.length)
    (hm : R { closed := closed, opened := some e } m) :
    ∃ m', emit m .entryEnd = .ok (.ok, m') ∧
      R { closed := closed ++ [e], opened := none } m' := by
  have hnext : Log.next { closed := closed, opened := some e } .entryEnd =
      (.ok, { closed := closed ++ [e], opened := none }) := if_neg (not_not.mpr hsize.symm)
  have h := hobeys .entryEnd hm fun h => h
  rwa [hnext] at h

theorem scanEmpty_eq (path : CString maxPath) (kind : Word) (hpath : path.bytes ≠ [])
    (hm : R { closed := closed, opened := none } m) :
    ∃ m', scanEmpty emit path kind m = .ok (.ok, m') ∧
      R { closed := closed ++ [⟨path.bytes, 0, kind, []⟩], opened := none } m' := by
  obtain ⟨m₁, hbegin, hm₁⟩ := hobeys.begins path 0 kind hpath hm
  obtain ⟨m₂, hend, hm₂⟩ := hobeys.ends rfl hm₁
  refine ⟨m₂, ?_, hm₂⟩
  rw [scanEmpty, hbegin, Result.ok_bind]
  exact hend

/-! ### Files -/

omit hobeys in
theorem countLoop_eq {fd : Source Byte} (h : fd.Reliable) (io : Vector Byte 16384)
    (total : UInt64) :
    ∃ io', countLoop fd io total = (io', .ok (total + UInt64.ofNat fd.rest.length)) := by
  induction h using Source.Reliable.induction (show 0 < ioBytes by decide)
    generalizing io total with
  | nil fd fd' h hread hrest =>
      refine ⟨io, ?_⟩
      rw [countLoop]
      split
      · next hnone => cases hread.symm.trans hnone
      · rw [hrest]
        exact congrArg (fun t => (io, Except.ok t)) (UInt64.add_zero total).symm
      · next hcons => cases hread.symm.trans hcons
  | cons fd fd' b got h h' hread hrest hle ih =>
      rw [countLoop]
      split
      · next hnone => cases hread.symm.trans hnone
      · next hnil => cases hread.symm.trans hnil
      · next hcons =>
          cases hread.symm.trans hcons
          obtain ⟨io', hio'⟩ := ih (ioWrite io (b :: got)) (total + UInt64.ofNat (got.length + 1))
          refine ⟨io', hio'.trans ?_⟩
          rw [hrest, List.length_append, List.length_cons, UInt64.ofNat_add (got.length + 1),
            UInt64.add_assoc]

/-- What is left of a file is received. -/
theorem readLoop_eq {fd : Source Byte} (h : fd.Reliable) (io : Vector Byte 16384) (seen : UInt64)
    {e : Entry} (hfit : e.data.length + fd.rest.length ≤ e.size.toNat)
    (hm : R { closed := closed, opened := some e } m) :
    ∃ io' m', readLoop emit fd io seen m =
        .ok (.ok (seen + UInt64.ofNat fd.rest.length), io', m') ∧
      R { closed := closed, opened := some (e.append fd.rest) } m' := by
  induction h using Source.Reliable.induction (show 0 < ioBytes by decide)
    generalizing io seen e m with
  | nil fd fd' h hread hrest =>
      refine ⟨io, m, ?_, ?_⟩
      · rw [readLoop]
        split
        · next hnone => cases hread.symm.trans hnone
        · rw [hrest]
          exact congrArg (fun t => Except.ok (Except.ok t, io, m)) (UInt64.add_zero seen).symm
        · next hcons => cases hread.symm.trans hcons
      · rw [hrest, Entry.append, List.append_nil]
        exact hm
  | cons fd fd' b got h h' hread hrest hle ih =>
      have htake := take_ioWrite io (show (b :: got).length ≤ ioBytes from hle)
      rw [List.length_cons] at htake
      rw [hrest, List.length_append, List.length_cons] at hfit
      obtain ⟨m₁, hdata, hm₁⟩ := hobeys.receives (ioWrite io (b :: got)) (got.length + 1)
        (by rw [htake, List.length_cons]; omega) hm
      rw [htake] at hm₁
      have hfit' : (e.append (b :: got)).data.length + fd'.rest.length ≤ e.size.toNat := by
        rw [Entry.append, List.length_append, List.length_cons]
        omega
      obtain ⟨io', m', hloop, hm'⟩ :=
        ih (ioWrite io (b :: got)) (seen + UInt64.ofNat (got.length + 1))
        hfit' hm₁
      refine ⟨io', m', ?_, ?_⟩
      · rw [readLoop]
        split
        · next hnone => cases hread.symm.trans hnone
        · next hnil => cases hread.symm.trans hnil
        · next hcons =>
            cases hread.symm.trans hcons
            simp only [hdata, Result.ok_bind]
            rw [if_neg (by decide), hloop, hrest, List.length_append, List.length_cons,
              UInt64.ofNat_add (got.length + 1), UInt64.add_assoc]
      · rw [hrest]
        rw [Entry.append, Entry.append, List.append_assoc] at hm'
        exact hm'

theorem scanFile_eq {k : Kernel} {fd : DirFd} {name : CString maxName} {content : List Byte}
    {sizes : ℕ → ℕ} (hopen : fd.openFile name k true = some (.inReads content sizes))
    (hlength : content.length < 2 ^ 64) (path : CString maxPath) (hpath : path.bytes ≠ [])
    (g : Globals) (hm : R { closed := closed, opened := none } m) :
    ∃ m' io', scanFile emit k fd name path (UInt64.ofNat content.length) m g =
        .ok (.ok, m', { g with io := io' }) ∧
      R { closed := closed ++ [⟨path.bytes, UInt64.ofNat content.length, 1, content⟩]
          opened := none } m' := by
  obtain ⟨m₁, hbegin, hm₁⟩ := hobeys.begins path (UInt64.ofNat content.length) 1 hpath hm
  have hfit : content.length ≤ (UInt64.ofNat content.length).toNat :=
    Nat.le_of_eq (toNat_ofNat64 hlength).symm
  obtain ⟨io', m₂, hloop, hm₂⟩ := readLoop_eq hobeys (Source.reliable_inReads content sizes) g.io 0
    (by rw [List.length_nil, Nat.zero_add]; exact hfit) hm₁
  obtain ⟨m₃, hend, hm₃⟩ := hobeys.ends rfl hm₂
  have hseen :
      UInt64.ofNat (Source.inReads content sizes).rest.length = UInt64.ofNat content.length :=
    rfl
  refine ⟨m₃, io', ?_, hm₃⟩
  rw [scanFile, hopen]
  simp only [hbegin, Result.ok_bind]
  rw [if_neg (by decide), hloop, UInt64.zero_add]
  simp only [Result.ok_bind]
  rw [if_neg (not_not.mpr hseen), hend]
  rfl

end Scan

/-! ### What the kernel says of a child -/

section Served

variable {k : Kernel} {path : List Byte} {children : Children} {c : CString maxName × Node}

theorem child_eq (hwf : WellFormed children) (hc : c ∈ children) :
    DirFd.child { path := path, children := children } c.1 = some c.2 :=
  congrArg (Option.map Prod.snd) (Keyed.lookup_of_mem hwf.nodup hc)

theorem typeOf_eq (hk : k.ServesDir path children) (hwf : WellFormed children) (hc : c ∈ children)
    {item : ScanEntry} (hname : item.name = c.1)
    (hitem : ∃ d ∈ (k.getdents path).flatten, d.name = item.name ∧ d.type = item.type)
    (io : Vector Byte 16384) :
    ∃ io' type size, typeOf k { path := path, children := children } item io =
      (io', .ok (type, size)) ∧ c.2.HasMode size type := by
  rw [typeOf, hname]
  rcases hstatx : k.statx (join path c.1.bytes) with _ | ⟨mode, size⟩
  · obtain ⟨d, hd, hdname, hdtype⟩ := hitem
    have htype := hk.type c hc hstatx d hd (hdname.trans hname)
    rw [hdtype] at htype
    dsimp only
    cases hnode : c.2 with
    | regular content =>
        rw [hnode] at htype
        have hopen : DirFd.openFile { path := path, children := children } c.1 k false =
            some (.inReads content (k.reads (join path c.1.bytes) false)) := by
          rw [DirFd.openFile, child_eq hwf hc, hnode]
        obtain ⟨io', hcount⟩ := countLoop_eq (Source.reliable_inReads content
          (k.reads (join path c.1.bytes) false)) io 0
        refine ⟨io', sIfreg, UInt64.ofNat content.length, ?_, rfl, rfl⟩
        have hregular : item.type = 8 := htype
        rw [hregular, if_neg (by decide), if_pos rfl, countFile, hopen]
        simp only [hcount, UInt64.zero_add]
        rfl
    | directory sub =>
        rw [hnode] at htype
        exact ⟨io, sIfdir, 0, if_pos htype, rfl⟩
    | symlink =>
        rw [hnode] at htype
        have hsymlink : item.type = 10 := htype
        refine ⟨io, sIflnk, 0, ?_, rfl⟩
        rw [hsymlink]
        rfl
    | other =>
        rw [hnode] at htype
        cases htype
  · exact ⟨io, _, size, rfl, hk.mode c hc mode size hstatx⟩

end Served

/-! ### Frames -/

/-- The first `n` tables and the first `p` paths are as they were. -/
structure Globals.Framed (n p : ℕ) (g g' : Globals) : Prop where
  entries : ∀ d < n, g'.entries d = g.entries d
  paths : ∀ d < p, g'.paths d = g.paths d

namespace Globals.Framed

variable {n p : ℕ} {g g₁ g₂ : Globals}

theorem refl (n p : ℕ) (g : Globals) : g.Framed n p g := ⟨fun _ _ => rfl, fun _ _ => rfl⟩

theorem trans (h : g.Framed n p g₁) (h' : g₁.Framed n p g₂) : g.Framed n p g₂ where
  entries := fun d hd => (h'.entries d hd).trans (h.entries d hd)
  paths := fun d hd => (h'.paths d hd).trans (h.paths d hd)

theorem mono {n' p' : ℕ} (h : g.Framed n p g₁) (hn : n' ≤ n) (hp : p' ≤ p) : g.Framed n' p' g₁ where
  entries := fun d hd => h.entries d (Nat.lt_of_lt_of_le hd hn)
  paths := fun d hd => h.paths d (Nat.lt_of_lt_of_le hd hp)

theorem directoryOf_eq (h : g.Framed n p g₁) {depth : ℕ} (hdepth : depth < p) :
    directoryOf g₁ depth = directoryOf g depth := by
  rw [directoryOf, directoryOf, h.paths depth hdepth]

end Globals.Framed

theorem makePath_eq {directory : CString maxPath} {name : CString maxName}
    (h : directory.bytes.length + name.bytes.length + 2 ≤ maxPath) :
    ∃ path, makePath directory name = some path ∧ path.bytes = join directory.bytes name.bytes := by
  rw [makePath, dif_neg (Nat.not_lt_of_le h)]
  exact ⟨_, rfl, rfl⟩

/-! ### Directories -/

section Directories

variable {M : Type} {emit : M → Call → Result (Status × M)} {R : Log → M → Prop} {k : Kernel}
  {root : Children}

/-- A scan of the directories at a depth emits what is in them. -/
def ScansAt (R : Log → M → Prop) (root : Children) (depth : ℕ)
    (scan : DirFd → M → Globals → Result (Status × M × Globals)) : Prop :=
  ∀ ⦃path children closed m g⦄, DirAt root depth path children →
    R { closed := closed, opened := none } m → (directoryOf g depth).bytes = path →
      ∃ m' g', scan { path := path, children := children } m g = .ok (.ok, m', g') ∧
        R { closed := closed ++ listing path children, opened := none } m' ∧
        g.Framed depth (depth + 1) g'

variable (hobeys : Obeys emit R) (hwithin : Within root) (hserves : k.Serves root)

include hobeys hwithin hserves

theorem scanItem_eq {scanChild : DirFd → M → Globals → Result (Status × M × Globals)} {depth : ℕ}
    (hchild : ScansAt R root (depth + 1) scanChild) {path : List Byte} {children : Children}
    (hdir : DirAt root depth path children) {c : CString maxName × Node} (hc : c ∈ kept children)
    {item : ScanEntry} (hname : item.name = c.1)
    (hitem : ∃ d ∈ (k.getdents path).flatten, d.name = item.name ∧ d.type = item.type)
    {g : Globals} (hpath : (directoryOf g depth).bytes = path) {closed : List Entry} {m : M}
    (hm : R { closed := closed, opened := none } m) :
    ∃ m' g', scanItem emit k scanChild { path := path, children := children } depth item m g =
        .ok (.ok, m', g') ∧
      R { closed := closed ++ c.2.entries (join path c.1.bytes), opened := none } m' ∧
      g.Framed (depth + 1) (depth + 1) g' := by
  have hwf := hwithin.wellFormed hdir
  have hmem : c ∈ children := List.mem_of_mem_filter hc
  have hfits : (directoryOf g depth).bytes.length + c.1.bytes.length + 2 ≤ maxPath := by
    rw [hpath]
    exact hwithin.path_le hdir c hc
  obtain ⟨p, hmake, hp⟩ := makePath_eq hfits
  rw [hpath] at hp
  have hne : p.bytes ≠ [] := hp ▸ join_ne_nil (hwf.ne_nil c hmem)
  obtain ⟨io, type, size, htype, hmode⟩ := typeOf_eq (hserves hdir) hwf hmem hname hitem g.io
  have hframed : ∀ io : Vector Byte 16384, g.Framed (depth + 1) (depth + 1)
      { io := io, entries := g.entries, paths := Function.update g.paths (depth + 1) p } := by
    intro io
    refine ⟨fun _ _ => rfl, fun d hd => ?_⟩
    exact Function.update_of_ne (Nat.ne_of_lt hd) p g.paths
  rw [scanItem, hname, hmake]
  simp only [htype, Function.update_self]
  cases hnode : c.2 with
  | regular content =>
      rw [hnode] at hmode
      obtain ⟨rfl, rfl⟩ := hmode
      have hopen : DirFd.openFile { path := path, children := children } c.1 k true =
          some (.inReads content (k.reads (join path c.1.bytes) true)) := by
        rw [DirFd.openFile, child_eq hwf hmem, hnode]
      obtain ⟨m', io', hfile, hm'⟩ :=
        scanFile_eq hobeys hopen (hwf.size_lt c hmem content hnode) p hne
        { io := io, entries := g.entries, paths := Function.update g.paths (depth + 1) p } hm
      refine ⟨m', _, ?_, ?_, hframed io'⟩
      · rw [if_neg (by decide), if_pos rfl]
        exact hfile
      · rw [Node.entries, ← hp]
        exact hm'
  | directory sub =>
      rw [hnode] at hmode
      obtain rfl : type = sIfdir := hmode
      have hopen : DirFd.openDir { path := path, children := children } c.1 =
          some { path := join path c.1.bytes, children := sub } := by
        rw [DirFd.openDir, child_eq hwf hmem, hnode]
      have hsub : DirAt root (depth + 1) (join path c.1.bytes) sub := by
        refine hdir.child ?_
        rw [← hnode]
        exact hc
      -- an entry for the directory itself, then all that it holds
      obtain ⟨m₁, hempty, hm₁⟩ := scanEmpty_eq hobeys p 2 hne hm
      have hdirectory : (directoryOf
          { io := io, entries := g.entries, paths := Function.update g.paths (depth + 1) p }
          (depth + 1)).bytes = join path c.1.bytes := by
        rw [directoryOf, if_neg (Nat.succ_ne_zero depth), ← hp]
        exact congrArg CString.bytes (Function.update_self ..)
      obtain ⟨m', g', hscan, hm', hg'⟩ := hchild hsub hm₁ hdirectory
      refine ⟨m', g', ?_, ?_, (hframed io).trans (hg'.mono (Nat.le_refl _) (Nat.le_succ _))⟩
      · rw [if_pos rfl, hempty, Result.ok_bind]
        dsimp only
        rw [if_neg (by decide), hopen]
        exact hscan
      · rw [Node.entries_directory, ← hp, List.append_cons]
        rw [← hp] at hm'
        exact hm'
  | symlink =>
      rw [hnode] at hmode
      obtain rfl : type = sIflnk := hmode
      obtain ⟨m', hempty, hm'⟩ := scanEmpty_eq hobeys p 3 hne hm
      refine ⟨m', _, ?_, ?_, hframed io⟩
      · rw [if_neg (by decide), if_neg (by decide), if_pos rfl, hempty]
        rfl
      · rw [Node.entries, ← hp]
        exact hm'
  | other =>
      rw [hnode] at hmode
      -- a device, a socket or a pipe leaves no entry
      obtain ⟨hregular, hdirectory, hsymlink⟩ := hmode
      refine ⟨m, _, ?_, ?_, hframed io⟩
      · rw [if_neg hdirectory, if_neg hregular, if_neg hsymlink]
        rfl
      · rw [Node.entries, List.append_nil]
        exact hm

theorem scanItems_eq {scanChild : DirFd → M → Globals → Result (Status × M × Globals)} {depth : ℕ}
    (hchild : ScansAt R root (depth + 1) scanChild) {path : List Byte} {children : Children}
    (hdir : DirAt root depth path children) {items rest : List ScanEntry} {cs : Children}
    (hnames : items.map ScanEntry.name = cs.map Prod.fst) (hcs : ∀ c ∈ cs, c ∈ kept children)
    (hitems : ∀ item ∈ items,
      ∃ d ∈ (k.getdents path).flatten, d.name = item.name ∧ d.type = item.type)
    {i : ℕ} {g : Globals} (htable : (g.entries depth).toList.drop i = items ++ rest)
    (hpath : (directoryOf g depth).bytes = path) {closed : List Entry} {m : M}
    (hm : R { closed := closed, opened := none } m) :
    ∃ m' g',
      scanItems emit k scanChild { path := path, children := children } depth items.length i m g =
        .ok (.ok, m', g') ∧
      R { closed := closed ++ cs.flatMap fun c => c.2.entries (join path c.1.bytes),
          opened := none } m' ∧
      g.Framed (depth + 1) (depth + 1) g' := by
  induction items generalizing cs i g closed m with
  | nil =>
      obtain rfl := List.map_eq_nil_iff.mp hnames.symm
      exact ⟨m, g, rfl, (List.append_nil _).symm ▸ hm, .refl _ _ g⟩
  | cons item items ih =>
      obtain ⟨c, cs', rfl, hname, hnames'⟩ := List.map_eq_cons_iff.mp hnames.symm
      have hget : (g.entries depth).toList[i]? = some item := by
        rw [← Nat.add_zero i, ← List.getElem?_drop, htable]
        rfl
      obtain ⟨m₁, g₁, hitem, hm₁, hg₁⟩ := scanItem_eq hobeys hwithin hserves hchild hdir
        (hcs c List.mem_cons_self) hname.symm (hitems item List.mem_cons_self) hpath hm
      have htable₁ : (g₁.entries depth).toList.drop (i + 1) = items ++ rest := by
        rw [hg₁.entries depth (Nat.lt_succ_self _), ← List.drop_drop, htable]
        rfl
      obtain ⟨m', g', hloop, hm', hg'⟩ :=
        ih hnames'.symm (fun c hc => hcs c (List.mem_cons_of_mem _ hc))
        (fun item hitem => hitems item (List.mem_cons_of_mem _ hitem)) htable₁
        (by rw [hg₁.directoryOf_eq (Nat.lt_succ_self _), hpath]) hm₁
      refine ⟨m', g', ?_, ?_, hg₁.trans hg'⟩
      · rw [List.length_cons, scanItems, hget]
        simp only [hitem, Result.ok_bind]
        rw [if_neg (by decide), hloop]
      · rw [List.flatMap_cons, ← List.append_assoc]
        exact hm'

theorem scansAt_scanDir (depth : ℕ) :
    ScansAt R root depth fun fd m g => scanDir emit k fd depth m g := by
  obtain ⟨n, hn⟩ : ∃ n, maxDepth - depth = n := ⟨_, rfl⟩
  induction n generalizing depth with
  | zero =>
      intro path children closed m g hdir
      have hlt := hwithin.depth_lt hdir
      omega
  | succ n ih =>
      intro path children closed m g hdir hm hpath
      have hchild := ih (depth + 1) (by omega)
      obtain ⟨io, table, items, rest, htake, hsort, hnames, hitems⟩ := exists_table (hserves hdir)
        (hwithin.count_le hdir) g.io (g.entries depth)
      obtain ⟨g₁, hg₁⟩ : ∃ g₁ : Globals, g₁ = { g with
          io := io
          entries := Function.update g.entries depth (sortEntries table items.length) } := ⟨_, rfl⟩
      have htable : (g₁.entries depth).toList.drop 0 = items ++ rest := by
        rw [List.drop_zero, ← hsort, hg₁]
        exact congrArg Vector.toList (Function.update_self ..)
      have hframed : g.Framed depth (depth + 1) g₁ := by
        rw [hg₁]
        refine ⟨fun d hd => ?_, fun _ _ => rfl⟩
        exact Function.update_of_ne (Nat.ne_of_lt hd) _ g.entries
      have hpath₁ : (directoryOf g₁ depth).bytes = path := by
        rw [hframed.directoryOf_eq (Nat.lt_succ_self _), hpath]
      obtain ⟨m', g', hscan, hm', hg'⟩ := scanItems_eq hobeys hwithin hserves hchild hdir hnames
        (fun c hc => mem_byName.mp hc) hitems htable hpath₁ hm
      refine ⟨m', g', ?_, hm', hframed.trans (hg'.mono (Nat.le_succ _) (Nat.le_refl _))⟩
      have hdepth : ¬maxDepth ≤ depth := by omega
      change scanDir emit k { path := path, children := children } depth m g = .ok (.ok, m', g')
      rw [scanDir, if_neg hdepth]
      simp only [htake, ← hg₁]
      exact hscan

theorem snapshotRoot_eq (g : Globals) {m : M} (hm : R .empty m) :
    ∃ m' g', snapshotRoot emit k root m g = .ok (.ok, m', g') ∧
      R { closed := listing [] root, opened := none } m' := by
  obtain ⟨m', g', hscan, hm', -⟩ := scansAt_scanDir hobeys hwithin hserves 0 .root hm
    (g := { g with paths := Function.update g.paths 0 (.empty (by decide)) }) rfl
  exact ⟨m', g', hscan, hm'⟩

end Directories

/-- Of a tree within the limits every kernel that serves it makes the same
entries and the same snapshot: each node that is not left out once, with all of its data. -/
theorem snapshotRoot_of_serves {root : Children} (hwithin : Within root) (hw : UInt64)
    (tb limit delta ta : Word) :
    ((listing [] root).map Entry.path).Nodup ∧
    (∀ e, e ∈ listing [] root ↔ ∃ path node, NodeAt root path node ∧ node.entry path = some e) ∧
    ∃ (c₀ : Context Sha256Ctx) (status : Status) (snapshot : Snapshot),
      init sha256 hw tb limit delta = .ok c₀ ∧
      ∀ (k : Kernel) (g : Globals), k.Serves root →
        (∃ g', snapshotRoot (fun log call => .ok (Log.next log call)) k root .empty g =
          .ok (.ok, { closed := listing [] root, opened := none }, g')) ∧
        ∃ c c' g', snapshotRoot (step sha256) k root c₀ g = .ok (.ok, c, g') ∧
          finalize sha256 c ta true = .ok (status, c', some snapshot) := by
  refine ⟨nodup_listing hwithin.wellFormed root .root, fun _ => mem_listing_root, ?_⟩
  obtain ⟨c₀, status, digest, -, hinit, hkeeps, hsnapshot⟩ :=
    exists_snapshot lawful_sha256 (listing [] root) hw tb limit delta ta
  refine ⟨c₀, status, Log.snapshot { closed := listing [] root, opened := none } c₀ ta digest,
    hinit, fun k g hserves => ⟨?_, ?_⟩⟩
  · obtain ⟨log', g', hscan, rfl⟩ := snapshotRoot_eq obeys_log hwithin hserves g rfl
    exact ⟨g', hscan⟩
  · obtain ⟨c, g', hscan, hc⟩ :=
      snapshotRoot_eq (obeys_keeps lawful_sha256 c₀) hwithin hserves g hkeeps
    obtain ⟨c', hfinalize⟩ := hsnapshot c hc
    exact ⟨c, c', g', hscan, hfinalize⟩

/-! ### A small tree -/

def oneName : CString maxName := ⟨[0x61], by simp, by decide⟩

namespace Sample

theorem nul_free_custodyBin : ∀ c ∈ custodyBin, c ≠ 0 := by simp [custodyBin]
theorem length_custodyBin : custodyBin.length < maxName := by decide

def generated : CString maxName := ⟨custodyBin, nul_free_custodyBin, length_custodyBin⟩
def b : CString maxName := ⟨[0x62], by simp, by decide⟩
def dot : CString maxName := ⟨[0x2e], by simp, by decide⟩

def sub : Children := [(oneName, .regular [3])]

/-- A generated file, a file and a directory with a file. -/
def root : Children := [(oneName, .regular [1, 2]), (generated, .regular []), (b, .directory sub)]

/-- The root comes in two batches; of one file the size is known beforehand. -/
def kernel : Kernel where
  getdents := fun path =>
    if path = [] then [[⟨1, 1, 4, b, [0]⟩, ⟨2, 2, 4, dot, []⟩, ⟨3, 3, 8, oneName, []⟩],
      [⟨4, 4, 8, generated, []⟩]]
    else [[⟨5, 1, 0, oneName, []⟩]]
  getdentsFails := fun _ => false
  statx := fun path => if path = [0x62, 0x2f, 0x61] then some (0x81a4, 1) else none
  reads := fun _ _ _ => 0

theorem kept_root : kept root = [(oneName, .regular [1, 2]), (b, .directory sub)] := by
  simp [kept, root, generatedNames, generated, oneName, b, custodyBin, custodyZip, custodyDigest]

theorem kept_sub : kept sub = [(oneName, .regular [3])] := by
  simp [kept, sub, generatedNames, oneName, custodyBin, custodyZip, custodyDigest]

theorem dirAt_root {depth : ℕ} {path : List Byte} {children : Children}
    (h : DirAt root depth path children) :
    (depth = 0 ∧ path = [] ∧ children = root) ∨ depth = 1 ∧ path = [0x62] ∧ children = sub := by
  induction h with
  | root => exact .inl ⟨rfl, rfl, rfl⟩
  | child parent mem ih =>
      rcases ih with ⟨rfl, rfl, rfl⟩ | ⟨rfl, rfl, rfl⟩
      · rw [kept_root] at mem
        simp only [List.mem_cons, Prod.mk.injEq, Node.directory.injEq, reduceCtorEq, and_false,
          List.not_mem_nil, or_false, false_or] at mem
        obtain ⟨rfl, hsub⟩ := mem
        exact .inr ⟨rfl, rfl, hsub⟩
      · rw [kept_sub] at mem
        simp at mem

theorem within_root : Within root := by
  constructor
  · intro depth path children h
    rcases dirAt_root h with ⟨-, -, rfl⟩ | ⟨-, -, rfl⟩
    · constructor <;> simp [root, generated, oneName, b, custodyBin]
    · constructor <;> simp [sub, oneName]
  · intro depth path children h
    rcases dirAt_root h with ⟨rfl, -, -⟩ | ⟨rfl, -, -⟩ <;> decide
  · intro depth path children h
    rcases dirAt_root h with ⟨-, -, rfl⟩ | ⟨-, -, rfl⟩
    · rw [kept_root]
      decide
    · rw [kept_sub]
      decide
  · intro depth path children h c hc
    rcases dirAt_root h with ⟨-, rfl, rfl⟩ | ⟨-, rfl, rfl⟩
    · rw [kept_root] at hc
      rcases List.mem_pair.mp hc with rfl | rfl <;> decide
    · rw [kept_sub, List.mem_singleton] at hc
      rw [hc]
      decide

theorem serves_root : kernel.Serves root := by
  intro depth path children h
  rcases dirAt_root h with ⟨rfl, rfl, rfl⟩ | ⟨rfl, rfl, rfl⟩
  · constructor
    · simp [kernel, root, isDot, generated, oneName, b, dot, custodyBin]
      exact .trans (.swap _ _ _) (.cons _ (.swap _ _ _))
    · rfl
    · simp [kernel]
    · simp [kernel, Dirent.bytes, putU64, generated, oneName, b, dot, custodyBin, ioBytes]
    · simp [kernel, root, join, generated, oneName, b, custodyBin]
    · simp [kernel, root, Node.HasType, generated, oneName, b, dot, custodyBin]
  · constructor
    · simp [kernel, sub, isDot, oneName]
    · rfl
    · simp [kernel]
    · simp [kernel, Dirent.bytes, putU64, oneName, ioBytes]
    · simp only [sub, List.mem_singleton, kernel, oneName]
      rintro c rfl mode size hstatx
      obtain ⟨rfl, rfl⟩ := Prod.mk.inj (Option.some.inj hstatx).symm
      exact ⟨by decide, rfl⟩
    · simp [kernel, sub, join, oneName]

/-- The generated file is left out; a directory comes before what it holds. -/
theorem map_path_listing :
    (listing [] root).map Entry.path = [[0x61], [0x62], [0x62, 0x2f, 0x61]] := by
  have hroot : byName (kept root) = [(oneName, .regular [1, 2]), (b, .directory sub)] := by
    rw [kept_root]
    have hle : decide (oneName.bytes ≤ b.bytes) = true := by decide
    exact List.mergeSort_of_pairwise (by simpa using hle)
  have hsub : byName (kept sub) = [(oneName, .regular [3])] := by
    rw [kept_sub]
    exact List.mergeSort_singleton _
  rw [listing, hroot]
  simp only [List.flatMap_cons, List.flatMap_nil, Node.entries_directory, listing, hsub]
  simp [Node.entries, join, oneName, b]

end Sample

/-- A generated file, a file and a directory with a file, the kernel returning the
root in two batches and the sizes of what it can. -/
theorem snapshotRoot_of_serves_file :
    ∃ (root : Children) (k : Kernel), root.length = 3 ∧ k.Serves root ∧
      ((listing [] root).map Entry.path) = [[0x61], [0x62], [0x62, 0x2f, 0x61]] ∧
      ∃ (c₀ : Context Sha256Ctx) (status : Status) (snapshot : Snapshot),
        ∀ g, ∃ c c' g', snapshotRoot (step sha256) k root c₀ g = .ok (.ok, c, g') ∧
          finalize sha256 c 0 true = .ok (status, c', some snapshot) := by
  obtain ⟨-, -, c₀, status, snapshot, -, hall⟩ :=
    snapshotRoot_of_serves Sample.within_root 0 0 0 0 0
  exact ⟨Sample.root, Sample.kernel, rfl, Sample.serves_root, Sample.map_path_listing, c₀, status,
    snapshot, fun g => (hall Sample.kernel g Sample.serves_root).2⟩

end Blake3.Fc16.Adapter
