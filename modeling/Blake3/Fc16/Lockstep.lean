import Blake3.Fc16.Scan
import Blake3.Fc16.Transcript

/-!
A scan whose kernel does as it pleases: no tree need be served, records and
sizes can be anything. The core and the log it stands for go through the same
scan in lock step, nothing outside an array is touched, and a scan that ends
well leaves no entry open.
-/

namespace Blake3.Fc16.Adapter

open ShortReads

/-- A core that only logs. -/
def logEmit (log : Log) (call : Call) : Result (Status × Log) := .ok (log.next call)

/-- The files in a tree. -/
inductive FileIn : Children → List Byte → Prop where
  | here {children : Children} {name : CString maxName} {content : List Byte}
      (mem : (name, .regular content) ∈ children) : FileIn children content
  | inside {children sub : Children} {name : CString maxName} {content : List Byte}
      (mem : (name, .directory sub) ∈ children) (file : FileIn sub content) :
      FileIn children content

/-- No file has `2 ^ 64` bytes. -/
def Small (children : Children) : Prop :=
  ∀ content, FileIn children content → content.length < 2 ^ 64

/-- What the calls of a scan keep of a log. -/
structure Tracked (log : Log) : Prop where
  checked : log.Checked
  data : ∀ e ∈ log.entries, e.data.length < 2 ^ 64

theorem tracked_empty : Tracked .empty where
  checked := Log.checked_empty
  data := fun _ he => by cases he

theorem mem_of_child {fd : DirFd} {name : CString maxName} {node : Node}
    (h : fd.child name = some node) : ∃ name', (name', node) ∈ fd.children := by
  obtain ⟨c, hfind, rfl⟩ := Option.map_eq_some_iff.mp h
  exact ⟨c.1, List.mem_of_find?_eq_some hfind⟩

theorem Small.openFile {fd : DirFd} (h : Small fd.children) {name : CString maxName} {k : Kernel}
    {again : Bool} {file : Source Byte} (hopen : fd.openFile name k again = some file) :
    file.rest.length < 2 ^ 64 := by
  rw [DirFd.openFile] at hopen
  split at hopen
  · next content hchild =>
      obtain ⟨name', hmem⟩ := mem_of_child hchild
      cases hopen
      exact h content (.here hmem)
  · cases hopen

theorem Small.openDir {fd child : DirFd} (h : Small fd.children) {name : CString maxName}
    (hopen : fd.openDir name = some child) : Small child.children := by
  rw [DirFd.openDir] at hopen
  split at hopen
  · next children hchild =>
      obtain ⟨name', hmem⟩ := mem_of_child hchild
      cases hopen
      exact fun content hfile => h content (.inside hmem hfile)
  · cases hopen

/-! ### Calls -/

section Calls

variable {log : Log}

/-- A call that begins an entry: on success there is a new entry, without data. -/
theorem next_begin (log : Log) (path : Span 32) (size : UInt64) (kind : Word) :
    (log.next (.entryBegin path size kind)).2 =
      if (log.next (.entryBegin path size kind)).1 = .ok
      then { log with opened := some ⟨path.bytes, size, kind, []⟩ } else log := by
  have hnext : (log.next (.entryBegin path size kind)).2 = log.record
      (.entryBegin path size kind, (log.next (.entryBegin path size kind)).1) :=
    Log.next_eq_record fun h => h
  rw [hnext]
  generalize (log.next (.entryBegin path size kind)).1 = status
  cases status <;> rfl

theorem next_data (log : Log) (data : Span 64) :
    (log.next (.entryData data)).2 =
      if (log.next (.entryData data)).1 = .ok
      then { log with opened := log.opened.map (·.append data.bytes) } else log := by
  have hnext : (log.next (.entryData data)).2 =
      log.record (.entryData data, (log.next (.entryData data)).1) :=
    Log.next_eq_record fun h => h
  rw [hnext]
  generalize (log.next (.entryData data)).1 = status
  cases status <;> rfl

theorem next_end (log : Log) :
    (log.next .entryEnd).2 =
      if (log.next .entryEnd).1 = .ok
      then { closed := log.closed ++ log.opened.toList, opened := none } else log := by
  have hnext : (log.next .entryEnd).2 = log.record (.entryEnd, (log.next .entryEnd).1) :=
    Log.next_eq_record fun h => h
  rw [hnext]
  generalize (log.next .entryEnd).1 = status
  cases status <;> rfl

theorem opened_of_end (h : (log.next .entryEnd).1 = .ok) :
    (log.next .entryEnd).2.opened = none := by
  rw [next_end, if_pos h]

theorem Tracked.begins (h : Tracked log) (path : Span 32) (size : UInt64) (kind : Word) :
    Tracked (log.next (.entryBegin path size kind)).2 := by
  refine ⟨h.checked.next _, ?_⟩
  rw [next_begin]
  split
  · next hok =>
      rw [Log.entries_of_some rfl]
      intro e he
      rcases List.mem_append.mp he with he | he
      · exact h.data e (List.mem_append_left _ he)
      · rw [List.mem_singleton.mp he]
        exact Nat.two_pow_pos 64
  · exact h.data

theorem Tracked.receives (h : Tracked log) {e : Entry} (hopened : log.opened = some e)
    (data : Span 64) (hfit : e.data.length + data.bytes.length < 2 ^ 64) :
    Tracked (log.next (.entryData data)).2 := by
  refine ⟨h.checked.next _, ?_⟩
  rw [next_data]
  split
  · rw [hopened, Log.entries_of_some rfl]
    intro e' he'
    rcases List.mem_append.mp he' with he' | he'
    · exact h.data e' (List.mem_append_left _ he')
    · rw [List.mem_singleton.mp he']
      exact List.length_append.trans_lt hfit
  · exact h.data

theorem Tracked.ends (h : Tracked log) : Tracked (log.next .entryEnd).2 := by
  refine ⟨h.checked.next _, ?_⟩
  rw [next_end]
  split
  · rw [Log.entries_of_none rfl]
    exact h.data
  · exact h.data

end Calls

/-! ### Reading -/

section Reading

variable {M : Type} (emit : M → Call → Result (Status × M)) {fd fd' : Source Byte}
  (io : Vector Byte 16384) (seen : UInt64) (m : M)

theorem readLoop_failed (h : fd.read ioBytes = (none, fd')) :
    readLoop emit fd io seen m = .ok (.error .errState, io, m) := by
  rw [readLoop]
  split
  · rfl
  · next hnil => cases h.symm.trans hnil
  · next hcons => cases h.symm.trans hcons

theorem readLoop_end (h : fd.read ioBytes = (some [], fd')) :
    readLoop emit fd io seen m = .ok (.ok seen, io, m) := by
  rw [readLoop]
  split
  · next hnone => cases h.symm.trans hnone
  · rfl
  · next hcons => cases h.symm.trans hcons

theorem readLoop_read {b : Byte} {got : List Byte} (h : fd.read ioBytes = (some (b :: got), fd')) :
    readLoop emit fd io seen m =
      (emit m (.entryData (ioSpan (ioWrite io (b :: got)) (got.length + 1))) >>= fun (rc, m) =>
        if rc ≠ .ok then pure (.error rc, ioWrite io (b :: got), m)
        else
          readLoop emit fd' (ioWrite io (b :: got)) (seen + UInt64.ofNat (got.length + 1)) m) := by
  rw [readLoop]
  split
  · next hnone => cases h.symm.trans hnone
  · next hnil => cases h.symm.trans hnil
  · next hcons =>
      cases h.symm.trans hcons
      rfl

/-- What a read delivers is taken off what is left. -/
theorem rest_of_read {b : Byte} {got : List Byte} (h : fd.read ioBytes = (some (b :: got), fd')) :
    fd.rest.length = got.length + 1 + fd'.rest.length := by
  rw [Source.read] at h
  split at h
  · cases congrArg Prod.fst h
  · rw [Prod.mk.injEq, Option.some.injEq] at h
    obtain ⟨htake, rfl⟩ := h
    have hlength := congrArg List.length htake
    rw [List.length_take, List.length_cons] at hlength
    rw [List.length_drop]
    omega

theorem length_ioSpan_le (io : Vector Byte 16384) (n : ℕ) : (ioSpan io n).bytes.length ≤ n := by
  have hbytes : (ioSpan io n).bytes = io.toList.take n := rfl
  rw [hbytes, List.length_take]
  exact Nat.min_le_left _ _

end Reading

/-! ### Tables -/

theorem takeRecords_le (io : List Byte) (n off : ℕ) (table : Table) {count : ℕ}
    (h : count ≤ maxEntries) : (takeRecords io n off table count).2.2 ≤ maxEntries := by
  fun_induction takeRecords io n off table count with
  | case1 off table count hlt hshort => exact h
  | case2 off table count hlt hlong hkept hfull => exact h
  | case3 off table count hlt hlong hkept hroom ih => exact ih (Nat.lt_of_not_le hroom)
  | case4 off table count hlt hlong hskipped ih => exact ih h
  | case5 off table count hend => exact h

theorem takeBatches_le (fails : Bool) (batches : List (List Dirent)) (io : Vector Byte 16384)
    (table : Table) {count : ℕ} (h : count ≤ maxEntries) :
    (takeBatches fails batches io table count).2.2.2 ≤ maxEntries := by
  induction batches generalizing io table count with
  | nil => exact h
  | cons batch batches ih =>
      rw [takeBatches]
      split
      · exact h
      · have hle := takeRecords_le (ioWrite io (batch.flatMap Dirent.bytes)).toList
          (batch.flatMap Dirent.bytes).length 0 table h
        split
        · next htake =>
            rw [htake] at hle
            exact ih _ _ hle
        · next htake =>
            rw [htake] at hle
            exact hle

/-! ### Lock step -/

section Simulation

/-- Two runs of a scan, one on the core and one on the log: they return the same
status and leave the same memory, and the core stands for the log. -/
def Together {M : Type} (R : Log → M → Prop) (run : Result (Status × M × Globals))
    (logged : Result (Status × Log × Globals)) : Prop :=
  ∃ status m log g, run = .ok (status, m, g) ∧ logged = .ok (status, log, g) ∧ R log m ∧
    Tracked log ∧ (status = .ok → log.opened = none)

variable {M : Type} {emit : M → Call → Result (Status × M)} {R : Log → M → Prop}
  (hobeys : Obeys emit R)

include hobeys

theorem readLoop_together {fd : Source Byte} (io : Vector Byte 16384) (seen : UInt64) {log : Log}
    {m : M} {e : Entry} (hm : R log m) (hlog : Tracked log) (hopened : log.opened = some e)
    (hfit : e.data.length + fd.rest.length < 2 ^ 64) :
    ∃ r io' m' log', readLoop emit fd io seen m = .ok (r, io', m') ∧
      readLoop logEmit fd io seen log = .ok (r, io', log') ∧ R log' m' ∧ Tracked log' ∧
      r ≠ .error .ok := by
  obtain ⟨n, hn⟩ : ∃ n, fd.rest.length < n := ⟨_, Nat.lt_succ_self _⟩
  induction n generalizing fd io seen log m e with
  | zero => exact absurd hn (Nat.not_lt_zero _)
  | succ n ih =>
      rcases hread : fd.read ioBytes with ⟨_ | _ | ⟨b, got⟩, fd'⟩
      · exact ⟨_, io, m, log, readLoop_failed emit io seen m hread,
          readLoop_failed logEmit io seen log hread, hm, hlog, by simp⟩
      · exact ⟨_, io, m, log, readLoop_end emit io seen m hread,
          readLoop_end logEmit io seen log hread, hm, hlog, by simp⟩
      · have hrest := rest_of_read hread
        generalize hspan : ioSpan (ioWrite io (b :: got)) (got.length + 1) = span
        have hspanLength : span.bytes.length ≤ got.length + 1 := hspan ▸ length_ioSpan_le _ _
        have hlog₁ := hlog.receives hopened span (by omega)
        obtain ⟨m₁, hemit, hm₁⟩ := hobeys (.entryData span) hm fun h => h
        rw [readLoop_read emit io seen m hread, readLoop_read logEmit io seen log hread, hspan,
          hemit, logEmit]
        simp only [Result.ok_bind]
        by_cases hok : (log.next (.entryData span)).1 = .ok
        · have hnext := next_data log span
          rw [if_pos hok, hopened] at hnext
          rw [if_neg (not_not.mpr hok), if_neg (not_not.mpr hok)]
          refine ih _ _ hm₁ hlog₁ (congrArg Log.opened hnext) ?_ (by omega)
          change (e.data ++ span.bytes).length + fd'.rest.length < 2 ^ 64
          rw [List.length_append]
          omega
        · rw [if_pos hok, if_pos hok]
          exact ⟨_, _, _, _, rfl, rfl, hm₁, hlog₁, by simpa using hok⟩

theorem scanEmpty_together (path : CString maxPath) (kind : Word) {log : Log} {m : M} (hm : R log m)
    (hlog : Tracked log) :
    ∃ status m' log', scanEmpty emit path kind m = .ok (status, m') ∧
      scanEmpty logEmit path kind log = .ok (status, log') ∧ R log' m' ∧ Tracked log' ∧
      (status = .ok → log'.opened = none) := by
  have hlog₁ := hlog.begins (pathSpan path) 0 kind
  have hnext := next_begin log (pathSpan path) 0 kind
  obtain ⟨m₁, hbegin, hm₁⟩ := hobeys (.entryBegin (pathSpan path) 0 kind) hm fun h => h
  rw [scanEmpty, scanEmpty, hbegin, logEmit]
  simp only [Result.ok_bind]
  generalize log.next (.entryBegin (pathSpan path) 0 kind) = begun at hnext hlog₁ hm₁
  obtain ⟨status, log₁⟩ := begun
  by_cases hok : status = .ok
  · obtain ⟨m₂, hend, hm₂⟩ := hobeys .entryEnd hm₁ fun h => h
    rw [if_neg (not_not.mpr hok), if_neg (not_not.mpr hok), hend]
    exact ⟨_, m₂, _, rfl, rfl, hm₂, hlog₁.ends, opened_of_end⟩
  · rw [if_pos hok, if_pos hok]
    exact ⟨status, m₁, log₁, rfl, rfl, hm₁, hlog₁, fun h => absurd h hok⟩

theorem scanFile_together {k : Kernel} {fd : DirFd} (hsmall : Small fd.children)
    (name : CString maxName) (path : CString maxPath) (size : UInt64) (g : Globals) {log : Log}
    {m : M} (hm : R log m) (hlog : Tracked log) (hopened : log.opened = none) :
    Together R (scanFile emit k fd name path size m g)
      (scanFile logEmit k fd name path size log g) := by
  rw [scanFile, scanFile]
  rcases hopen : fd.openFile name k true with _ | file
  · exact ⟨.errState, m, log, g, rfl, rfl, hm, hlog, fun _ => hopened⟩
  · have hlog₁ := hlog.begins (pathSpan path) size 1
    have hnext := next_begin log (pathSpan path) size 1
    obtain ⟨m₁, hbegin, hm₁⟩ := hobeys (.entryBegin (pathSpan path) size 1) hm fun h => h
    simp only [hbegin, logEmit, Result.ok_bind]
    generalize log.next (.entryBegin (pathSpan path) size 1) = begun at hnext hlog₁ hm₁
    obtain ⟨status, log₁⟩ := begun
    by_cases hok : status = .ok
    · dsimp only at hnext hok hlog₁ hm₁ ⊢
      rw [if_pos hok] at hnext
      have hfit := hsmall.openFile hopen
      obtain ⟨r, io, m₂, log₂, hread, hread', hm₂, hlog₂, hr⟩ :=
        readLoop_together hobeys g.io 0 hm₁ hlog₁ (congrArg Log.opened hnext)
          (by rw [List.length_nil, Nat.zero_add]; exact hfit)
      rw [if_neg (not_not.mpr hok), if_neg (not_not.mpr hok), hread, hread']
      simp only [Result.ok_bind]
      rcases r with status' | seen
      · exact ⟨status', m₂, log₂, _, rfl, rfl, hm₂, hlog₂, fun h => absurd (h ▸ rfl) hr⟩
      · by_cases hseen : seen = size
        · obtain ⟨m₃, hend, hm₃⟩ := hobeys .entryEnd hm₂ fun h => h
          simp only [hseen, ne_eq, not_true_eq_false, if_false, hend, Result.ok_bind]
          exact ⟨_, m₃, _, _, rfl, rfl, hm₃, hlog₂.ends, opened_of_end⟩
        · simp only [ne_eq, hseen, not_false_eq_true, if_true]
          exact ⟨.errSize, m₂, log₂, _, rfl, rfl, hm₂, hlog₂, fun h => by cases h⟩
    · dsimp only at hok ⊢
      rw [if_pos hok, if_pos hok]
      exact ⟨status, m₁, log₁, g, rfl, rfl, hm₁, hlog₁, fun h => absurd h hok⟩

omit hobeys in
/-- The same for what scans one directory further down. -/
def ScansTogether (R : Log → M → Prop) (scan : DirFd → M → Globals → Result (Status × M × Globals))
    (scan' : DirFd → Log → Globals → Result (Status × Log × Globals)) : Prop :=
  ∀ ⦃fd log m⦄ g, Small fd.children → R log m → Tracked log → log.opened = none →
    Together R (scan fd m g) (scan' fd log g)

variable {scan : DirFd → M → Globals → Result (Status × M × Globals)}
  {scan' : DirFd → Log → Globals → Result (Status × Log × Globals)}
  (hscan : ScansTogether R scan scan') {k : Kernel} {fd : DirFd} (hsmall : Small fd.children)

include hscan hsmall

theorem scanItem_together (depth : ℕ) (item : ScanEntry) (g : Globals) {log : Log} {m : M}
    (hm : R log m) (hlog : Tracked log) (hopened : log.opened = none) :
    Together R (scanItem emit k scan fd depth item m g)
      (scanItem logEmit k scan' fd depth item log g) := by
  rw [scanItem, scanItem]
  rcases makePath (directoryOf g depth) item.name with _ | path
  · exact ⟨.errCapacity, m, log, g, rfl, rfl, hm, hlog, fun _ => hopened⟩
  dsimp only
  rcases typeOf k fd item g.io with ⟨io, status | ⟨type, size⟩⟩
  · exact ⟨status, m, log, _, rfl, rfl, hm, hlog, fun _ => hopened⟩
  dsimp only
  generalize Function.update g.paths (depth + 1) path (depth + 1) = path'
  generalize ({
    io := io
    entries := g.entries
    paths := Function.update g.paths (depth + 1) path } : Globals) = g₁
  split_ifs with hdirectory hregular hlink
  · obtain ⟨status, m₁, log₁, hempty, hempty', hm₁, hlog₁, hopened₁⟩ :=
      scanEmpty_together hobeys path' 2 hm hlog
    rw [hempty, hempty']
    simp only [Result.ok_bind]
    by_cases hok : status = .ok
    · rw [if_neg (not_not.mpr hok), if_neg (not_not.mpr hok)]
      rcases hopen : fd.openDir item.name with _ | child
      · exact ⟨.errState, m₁, log₁, g₁, rfl, rfl, hm₁, hlog₁, fun h => by cases h⟩
      · exact hscan g₁ (hsmall.openDir hopen) hm₁ hlog₁ (hopened₁ hok)
    · rw [if_pos hok, if_pos hok]
      exact ⟨status, m₁, log₁, g₁, rfl, rfl, hm₁, hlog₁, hopened₁⟩
  · exact scanFile_together hobeys hsmall item.name path' size g₁ hm hlog hopened
  · obtain ⟨status, m₁, log₁, hempty, hempty', hm₁, hlog₁, hopened₁⟩ :=
      scanEmpty_together hobeys path' 3 hm hlog
    rw [hempty, hempty']
    exact ⟨status, m₁, log₁, g₁, rfl, rfl, hm₁, hlog₁, hopened₁⟩
  · exact ⟨.ok, m, log, g₁, rfl, rfl, hm, hlog, fun _ => hopened⟩

theorem scanItems_together (depth : ℕ) {n i : ℕ} (hfits : i + n ≤ maxEntries) (g : Globals)
    {log : Log} {m : M} (hm : R log m) (hlog : Tracked log) (hopened : log.opened = none) :
    Together R (scanItems emit k scan fd depth n i m g)
      (scanItems logEmit k scan' fd depth n i log g) := by
  induction n generalizing i g log m with
  | zero => exact ⟨.ok, m, log, g, rfl, rfl, hm, hlog, fun _ => hopened⟩
  | succ n ih =>
      rw [scanItems, scanItems]
      rcases hitem : (g.entries depth).toList[i]? with _ | item
      · rw [List.getElem?_eq_none_iff, Vector.length_toList] at hitem
        change i + (n + 1) ≤ 128 at hfits
        omega
      dsimp only
      obtain ⟨status, m₁, log₁, g₁, hrun, hrun', hm₁, hlog₁, hopened₁⟩ :=
        scanItem_together hobeys hscan hsmall depth item g hm hlog hopened
      rw [hrun, hrun']
      simp only [Result.ok_bind]
      by_cases hok : status = .ok
      · rw [if_neg (not_not.mpr hok), if_neg (not_not.mpr hok)]
        exact ih (by omega) g₁ hm₁ hlog₁ (hopened₁ hok)
      · rw [if_pos hok, if_pos hok]
        exact ⟨status, m₁, log₁, g₁, rfl, rfl, hm₁, hlog₁, hopened₁⟩

omit hscan hsmall in
theorem scanDir_together (k : Kernel) (depth : ℕ) :
    ScansTogether R (fun fd m g => scanDir emit k fd depth m g)
      (fun fd log g => scanDir logEmit k fd depth log g) := by
  obtain ⟨n, hn⟩ : ∃ n, maxDepth - depth = n := ⟨_, rfl⟩
  induction n generalizing depth with
  | zero =>
      intro fd log m g hsmall hm hlog hopened
      dsimp only
      rw [scanDir, if_pos (by omega), scanDir, if_pos (by omega)]
      exact ⟨.errCapacity, m, log, g, rfl, rfl, hm, hlog, fun h => by cases h⟩
  | succ n ih =>
      intro fd log m g hsmall hm hlog hopened
      have hle := takeBatches_le (k.getdentsFails fd.path) (k.getdents fd.path) g.io
        (g.entries depth) (Nat.zero_le maxEntries)
      dsimp only
      rw [scanDir, if_neg (by omega), scanDir, if_neg (by omega)]
      rcases htake : takeBatches (k.getdentsFails fd.path) (k.getdents fd.path) g.io
          (g.entries depth) 0 with ⟨status, io, table, count⟩
      rw [htake] at hle
      cases status with
      | ok =>
          exact scanItems_together hobeys (ih (depth + 1) (by omega)) hsmall depth
            ((Nat.zero_add count).trans_le hle) _ hm hlog hopened
      | _ => exact ⟨_, m, log, _, rfl, rfl, hm, hlog, fun _ => hopened⟩

omit hscan hsmall in
/-- Whatever the kernel does. -/
theorem snapshotRoot_together (k : Kernel) {root : Children} (hsmall : Small root) (g : Globals)
    {m : M} (hm : R .empty m) :
    Together R (snapshotRoot emit k root m g) (snapshotRoot logEmit k root .empty g) :=
  scanDir_together hobeys k 0 _ hsmall hm tracked_empty rfl

end Simulation

end Blake3.Fc16.Adapter
