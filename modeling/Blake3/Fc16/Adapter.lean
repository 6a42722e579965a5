import Blake3.Fc16.Core
import Blake3.Lib.InPlaceSort
import Blake3.Lib.ShortReads
import Mathlib.Data.List.TakeWhile
import Mathlib.Logic.Function.Basic

/-!
The scan of a directory tree, `rmr_fc16_termux_adapter.c`. The kernel serves a
tree that does not change: it returns directories in batches of records and
files in reads, as it pleases. The core that the entries are given to is a
parameter.
-/

namespace Blake3.Fc16.Adapter

open ShortReads

def maxDepth : ℕ := 8
def maxEntries : ℕ := 128
def maxName : ℕ := 256
def maxPath : ℕ := 768
def ioBytes : ℕ := 16384

def sIfmt : UInt16 := 0o170000
def sIfreg : UInt16 := 0o100000
def sIfdir : UInt16 := 0o040000
def sIflnk : UInt16 := 0o120000

/-- A string in an array of `cap` bytes. -/
structure CString (cap : ℕ) where
  bytes : List Byte
  nul_free : ∀ b ∈ bytes, b ≠ 0
  length_lt : bytes.length < cap
  deriving DecidableEq

def CString.empty {cap : ℕ} (h : 0 < cap) : CString cap where
  bytes := []
  nul_free := fun _ h => absurd h List.not_mem_nil
  length_lt := h

/-! ### Trees -/

inductive Node where
  | regular (content : List Byte)
  | directory (children : List (CString maxName × Node))
  | symlink
  | other

abbrev Children := List (CString maxName × Node)

/-- The path of a name in a directory, relative to the root. -/
def join (directory name : List Byte) : List Byte :=
  if directory = [] then name else directory ++ 0x2f :: name

/-! ### The kernel -/

/-- A record of `getdents64`, the padding being what follows the name. -/
structure Dirent where
  ino : UInt64
  off : UInt64
  type : Byte
  name : CString maxName
  pad : List Byte

namespace Dirent

def reclen (d : Dirent) : ℕ := 19 + d.name.bytes.length + 1 + d.pad.length

def bytes (d : Dirent) : List Byte :=
  putU64 d.ino ++ putU64 d.off ++ [UInt8.ofNat d.reclen, UInt8.ofNat (d.reclen / 256), d.type] ++
    d.name.bytes ++ 0 :: d.pad

end Dirent

/-- What the kernel does that a tree does not say: the batches of a directory and whether
the call behind them fails, the mode and the size that `statx` gives if it works, and the sizes
of the reads of a file when it is opened for the first and for the second time. -/
structure Kernel where
  getdents : List Byte → List (List Dirent)
  getdentsFails : List Byte → Bool
  statx : List Byte → Option (UInt16 × UInt64)
  reads : List Byte → Bool → ℕ → ℕ

/-- An open directory. -/
structure DirFd where
  path : List Byte
  children : Children

namespace DirFd

variable (fd : DirFd) (name : CString maxName)

def child : Option Node := (fd.children.find? fun c => c.1 = name).map Prod.snd

/-- `openat` of a regular file. -/
def openFile (k : Kernel) (again : Bool) : Option (Source Byte) :=
  match fd.child name with
  | some (.regular content) => some (.inReads content (k.reads (join fd.path name.bytes) again))
  | _ => none

/-- `openat` of a directory. -/
def openDir : Option DirFd :=
  match fd.child name with
  | some (.directory children) => some { path := join fd.path name.bytes, children := children }
  | _ => none

end DirFd

/-! ### Static memory -/

structure ScanEntry where
  type : Byte
  name : CString maxName

abbrev Table := Vector ScanEntry 128

structure Globals where
  io : Vector Byte 16384
  entries : ℕ → Table
  paths : ℕ → CString maxPath

/-- What the kernel stores at the beginning of the buffer. -/
def ioWrite (io : Vector Byte 16384) (bytes : List Byte) : Vector Byte 16384 :=
  Vector.ofFn fun i => bytes.getD i.val (io.get i)

/-! ### Strings -/

/-- The difference of the first bytes that differ; a string ends in zero. -/
def scmp : List Byte → List Byte → ℤ
  | [], [] => 0
  | [], b :: _ => 0 - b.toNat
  | a :: _, [] => a.toNat
  | a :: as, b :: bs => if a = b then scmp as bs else (a.toNat : ℤ) - b.toNat

def isDot (n : List Byte) : Bool := n = [0x2e] ∨ n = [0x2e, 0x2e]

/-- `custody16.bin` -/
def custodyBin : List Byte :=
  [0x63, 0x75, 0x73, 0x74, 0x6f, 0x64, 0x79, 0x31, 0x36, 0x2e, 0x62, 0x69, 0x6e]

/-- `custody16.zip` -/
def custodyZip : List Byte :=
  [0x63, 0x75, 0x73, 0x74, 0x6f, 0x64, 0x79, 0x31, 0x36, 0x2e, 0x7a, 0x69, 0x70]

/-- `custody16.digest` -/
def custodyDigest : List Byte :=
  [0x63, 0x75, 0x73, 0x74, 0x6f, 0x64, 0x79, 0x31, 0x36, 0x2e, 0x64, 0x69, 0x67, 0x65, 0x73, 0x74]

def isGenerated (n : List Byte) : Bool :=
  scmp n custodyBin = 0 ∨ scmp n custodyZip = 0 ∨ scmp n custodyDigest = 0

/-- `scopy` into a name; what follows a zero is not copied. -/
def scopy (s : List Byte) : CString maxName where
  bytes := (s.takeWhile (· ≠ 0)).take (maxName - 1)
  nul_free := fun b hb => by simpa using List.mem_takeWhile_imp (List.mem_of_mem_take hb)
  length_lt := by
    rw [List.length_take]
    exact (Nat.min_le_left _ _).trans_lt (by decide)

/-- `make_path`, `none` if the path is too long. -/
def makePath (directory : CString maxPath) (name : CString maxName) : Option (CString maxPath) :=
  if h : maxPath < directory.bytes.length + name.bytes.length + 2 then none
  else some {
    bytes := join directory.bytes name.bytes
    nul_free := by
      intro b hb
      rw [join] at hb
      split at hb
      · exact name.nul_free b hb
      · rcases List.mem_append.mp hb with hb | hb
        · exact directory.nul_free b hb
        · rcases List.mem_cons.mp hb with rfl | hb
          · decide
          · exact name.nul_free b hb
    length_lt := by
      rw [join]
      split
      · omega
      · rw [List.length_append, List.length_cons]
        omega }

def sortEntries (e : Table) (n : ℕ) : Table :=
  ⟨(InPlaceSort.sort (fun a b => 0 < scmp a.name.bytes b.name.bytes) e.toList n).toArray, by
    rw [List.size_toArray, InPlaceSort.length_sort, Vector.length_toList]⟩

/-! ### Directories -/

/-- The length of the record at `off`. -/
def reclenAt (io : List Byte) (off : ℕ) : ℕ :=
  (io.getD (off + 16) 0).toNat + 256 * (io.getD (off + 17) 0).toNat

/-- The name in the record at `off`, up to its zero. -/
def nameAt (io : List Byte) (off : ℕ) : List Byte := (io.drop (off + 19)).takeWhile (· ≠ 0)

/-- The records of one batch of `n` bytes: the table and the number of its entries. -/
def takeRecords (io : List Byte) (n off : ℕ) (table : Table) (count : ℕ) : Status × Table × ℕ :=
  if off < n then
    if reclenAt io off < 20 then (.errIntegrity, table, count)
    else if ¬isDot (nameAt io off) ∧ ¬isGenerated (nameAt io off) then
      if maxEntries ≤ count then (.errCapacity, table, count)
      else
        takeRecords io n (off + reclenAt io off)
          (table.setIfInBounds count
            { type := io.getD (off + 18) 0, name := scopy (nameAt io off) })
          (count + 1)
    else takeRecords io n (off + reclenAt io off) table count
  else (.ok, table, count)
termination_by n - off

/-- The loop over the batches of a directory, `fails` saying how the call behind
the last of them ends. -/
def takeBatches (fails : Bool) : List (List Dirent) → Vector Byte 16384 → Table → ℕ →
    Status × Vector Byte 16384 × Table × ℕ
  | [], io, table, count => (if fails then .errState else .ok, io, table, count)
  | batch :: batches, io, table, count =>
      let bytes := batch.flatMap Dirent.bytes
      let io := ioWrite io bytes
      if bytes = [] then (.ok, io, table, count)
      else
        match takeRecords io.toList bytes.length 0 table count with
        | (.ok, table, count) => takeBatches fails batches io table count
        | (status, table, count) => (status, io, table, count)

/-! ### Files -/

/-- A read that delivers something leaves less. -/
theorem length_rest_read {s s' : Source Byte} {len : ℕ} {b : Byte} {got : List Byte}
    (h : s.read len = (some (b :: got), s')) : s'.rest.length < s.rest.length := by
  rw [Source.read] at h
  split at h
  · cases congrArg Prod.fst h
  · rw [Prod.mk.injEq, Option.some.injEq] at h
    obtain ⟨htake, rfl⟩ := h
    have hlength := congrArg List.length htake
    rw [List.length_take, List.length_cons] at hlength
    rw [List.length_drop]
    omega

/-- The loop of `count_file`. -/
def countLoop (fd : Source Byte) (io : Vector Byte 16384) (total : UInt64) :
    Vector Byte 16384 × Except Status UInt64 :=
  match _h : fd.read ioBytes with
  | (none, _) => (io, .error .errState)
  | (some [], _) => (io, .ok total)
  | (some (b :: got), fd) =>
      countLoop fd (ioWrite io (b :: got)) (total + UInt64.ofNat (got.length + 1))
termination_by fd.rest.length
decreasing_by exact length_rest_read _h

def countFile (k : Kernel) (fd : DirFd) (name : CString maxName) (io : Vector Byte 16384) :
    Vector Byte 16384 × Except Status UInt64 :=
  match fd.openFile name k false with
  | none => (io, .error .errState)
  | some file => countLoop file io 0

/-- The type of an entry and its size: what `statx` says, or else what the directory says. -/
def typeOf (k : Kernel) (fd : DirFd) (item : ScanEntry) (io : Vector Byte 16384) :
    Vector Byte 16384 × Except Status (UInt16 × UInt64) :=
  match k.statx (join fd.path item.name.bytes) with
  | some (mode, size) => (io, .ok (mode &&& sIfmt, size))
  | none =>
      if item.type = 4 then (io, .ok (sIfdir, 0))
      else if item.type = 8 then
        match countFile k fd item.name io with
        | (io, .error status) => (io, .error status)
        | (io, .ok size) => (io, .ok (sIfreg, size))
      else if item.type = 10 then (io, .ok (sIflnk, 0))
      else (io, .error .errState)

def pathSpan (path : CString maxPath) : Span 32 :=
  .of path.bytes (path.length_lt.trans (by decide))

theorem length_take_io (io : Vector Byte 16384) (n : ℕ) : (io.toList.take n).length < 2 ^ 64 := by
  rw [List.length_take, Vector.length_toList]
  exact (Nat.min_le_right _ _).trans_lt (by decide)

/-- The first `n` bytes of the buffer. -/
def ioSpan (io : Vector Byte 16384) (n : ℕ) : Span 64 :=
  .of (io.toList.take n) (length_take_io io n)

section Scan

variable {M : Type} (emit : M → Call → Result (Status × M)) (k : Kernel)

/-- The loop of `scan_file`: the number of bytes seen at its end. -/
def readLoop (fd : Source Byte) (io : Vector Byte 16384) (seen : UInt64) (m : M) :
    Result (Except Status UInt64 × Vector Byte 16384 × M) :=
  match _h : fd.read ioBytes with
  | (none, _) => .ok (.error .errState, io, m)
  | (some [], _) => .ok (.ok seen, io, m)
  | (some (b :: got), fd) => do
      let io := ioWrite io (b :: got)
      let (rc, m) ← emit m (.entryData (ioSpan io (got.length + 1)))
      if rc ≠ .ok then pure (.error rc, io, m)
      else readLoop fd io (seen + UInt64.ofNat (got.length + 1)) m
termination_by fd.rest.length
decreasing_by exact length_rest_read _h

def scanFile (fd : DirFd) (name : CString maxName) (path : CString maxPath) (size : UInt64) (m : M)
    (g : Globals) : Result (Status × M × Globals) :=
  match fd.openFile name k true with
  | none => .ok (.errState, m, g)
  | some file => do
      let (rc, m) ← emit m (.entryBegin (pathSpan path) size 1)
      if rc ≠ .ok then pure (rc, m, g)
      else do
        let (seen, io, m) ← readLoop emit file g.io 0 m
        let g := { g with io := io }
        match seen with
        | .error status => pure (status, m, g)
        | .ok seen =>
            if seen ≠ size then pure (.errSize, m, g)
            else do
              let (rc, m) ← emit m .entryEnd
              pure (rc, m, g)

/-- An entry without data. -/
def scanEmpty (path : CString maxPath) (kind : Word) (m : M) : Result (Status × M) := do
  let (rc, m) ← emit m (.entryBegin (pathSpan path) 0 kind)
  if rc ≠ .ok then pure (rc, m)
  else emit m .entryEnd

/-- The string `prefix` points to: that of the caller's path, or an empty constant. -/
def directoryOf (g : Globals) (depth : ℕ) : CString maxPath :=
  if depth = 0 then .empty (by decide) else g.paths depth

/-- Entry `i` of a directory, `scanChild` scanning one directory further down. -/
def scanItem (scanChild : DirFd → M → Globals → Result (Status × M × Globals)) (fd : DirFd)
    (depth : ℕ) (item : ScanEntry) (m : M) (g : Globals) : Result (Status × M × Globals) :=
  match makePath (directoryOf g depth) item.name with
  | none => .ok (.errCapacity, m, g)
  | some path =>
      let g := { g with paths := Function.update g.paths (depth + 1) path }
      match typeOf k fd item g.io with
      | (io, .error status) => .ok (status, m, { g with io := io })
      | (io, .ok (type, size)) =>
          let g := { g with io := io }
          if type = sIfdir then do
            let (rc, m) ← scanEmpty emit (g.paths (depth + 1)) 2 m
            if rc ≠ .ok then pure (rc, m, g)
            else
              match fd.openDir item.name with
              | none => pure (.errState, m, g)
              | some child => scanChild child m g
          else if type = sIfreg then scanFile emit k fd item.name (g.paths (depth + 1)) size m g
          else if type = sIflnk then do
            let (rc, m) ← scanEmpty emit (g.paths (depth + 1)) 3 m
            pure (rc, m, g)
          else pure (.ok, m, g)

/-- The entries of the table of a directory from `i` on, `n` of them. -/
def scanItems (scanChild : DirFd → M → Globals → Result (Status × M × Globals)) (fd : DirFd)
    (depth : ℕ) : ℕ → ℕ → M → Globals → Result (Status × M × Globals)
  | 0, _, m, g => .ok (.ok, m, g)
  | n + 1, i, m, g =>
      match (g.entries depth).toList[i]? with
      | none => .error .outOfBounds
      | some item => do
          let (rc, m, g) ← scanItem emit k scanChild fd depth item m g
          if rc ≠ .ok then pure (rc, m, g)
          else scanItems scanChild fd depth n (i + 1) m g

def scanDir (fd : DirFd) (depth : ℕ) (m : M) (g : Globals) : Result (Status × M × Globals) :=
  if maxDepth ≤ depth then .ok (.errCapacity, m, g)
  else
    match takeBatches (k.getdentsFails fd.path) (k.getdents fd.path) g.io (g.entries depth) 0 with
    | (.ok, io, table, count) =>
        let g := { g with
          io := io
          entries := Function.update g.entries depth (sortEntries table count) }
        scanItems emit k (fun child => scanDir child (depth + 1)) fd depth count 0 m g
    | (status, io, table, _) =>
        .ok (status, m, { g with io := io, entries := Function.update g.entries depth table })
termination_by maxDepth - depth

/-- `snapshot_root` of the tree with these children. -/
def snapshotRoot (root : Children) (m : M) (g : Globals) : Result (Status × M × Globals) :=
  scanDir emit k { path := [], children := root } 0 m
    { g with paths := Function.update g.paths 0 (.empty (by decide)) }

end Scan

end Blake3.Fc16.Adapter
