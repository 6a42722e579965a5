import Blake3.Fc16.Lanes

/-!
A context as its callers see it: a log of the entries it has read, which says
what the next call returns.
-/

namespace Blake3.Fc16

/-- An entry with the data it has received so far. -/
structure Entry where
  path : List Byte
  size : UInt64
  kind : Word
  data : List Byte

namespace Entry

def header (e : Entry) : List Byte := entryMeta e.path.length e.size e.kind

def base (e : Entry) : Byte := (pathCrc e.path &&& 15).toUInt8

def trailer (e : Entry) : List Byte :=
  [0x45, 0x4e, 0x44, 0x52] ++ putU32 (pathCrc e.path) ++
    putU32 (crc32cFinish (crc32cUpdate 0xffffffff e.data)) ++
    putU64 (UInt64.ofNat e.data.length) ++ putU32 e.base.toUInt32

/-- What the hash is fed while the entry is open, and when it is closed. -/
def written (e : Entry) : List Byte := e.header ++ e.path ++ e.data

def record (e : Entry) : List Byte := e.written ++ e.trailer

/-- What of it the root checksum is fed. -/
def metaRecord (e : Entry) : List Byte := e.header ++ e.path ++ e.trailer

def append (e : Entry) (bytes : List Byte) : Entry := { e with data := e.data ++ bytes }

/-- What the lanes receive of an entry. -/
def feed (lanes : Lanes) (e : Entry) : Lanes :=
  feedTail e.base (lanes.modify (Fin.ofNat 16 e.base.toNat) (Lane.feedPath e.header e.path))
    0 e.data

end Entry

structure Log where
  closed : List Entry
  opened : Option Entry

namespace Log

def empty : Log := { closed := [], opened := none }

def entries (log : Log) : List Entry := log.closed ++ log.opened.toList

def stream (log : Log) : List Byte :=
  (log.closed.map Entry.record).flatten ++ (log.opened.toList.map Entry.written).flatten

def metaStream (log : Log) : List Byte :=
  (log.closed.map Entry.metaRecord).flatten ++
    (log.opened.toList.map fun e => e.header ++ e.path).flatten

def dataLength (log : Log) : ℕ := (log.entries.map fun e => e.data.length).sum

def lanes (log : Log) (lanes : Lanes) : Lanes := log.entries.foldl Entry.feed lanes

/-- Whether a call finalizes. -/
def Closes (log : Log) : Call → Prop
  | .finalize _ out => out = true ∧ log.opened = none
  | _ => False

/-- Whether a call opens an entry. -/
def Opens (log : Log) : Call → Prop
  | .entryBegin path _ _ => path.data ≠ none ∧ path.len ≠ 0 ∧ log.opened = none
  | _ => False

def next (log : Log) : Call → Status × Log
  | .entryBegin path size kind =>
      match path.data, log.opened with
      | none, _ => (.errArgument, log)
      | some bytes, opened =>
          if path.len = 0 then (.errArgument, log)
          else if opened.isSome then (.errState, log)
          else (.ok, { log with opened := some ⟨bytes, size, kind, []⟩ })
  | .entryData data =>
      if data.data = none ∧ data.len ≠ 0 then (.errArgument, log)
      else
        match log.opened with
        | none => (.errState, log)
        | some e =>
            if e.size < UInt64.ofNat e.data.length + UInt64.ofNat data.len then (.errSize, log)
            else (.ok, { log with opened := some (e.append data.bytes) })
  | .entryEnd =>
      match log.opened with
      | none => (.errState, log)
      | some e =>
          if UInt64.ofNat e.data.length ≠ e.size then (.errSize, log)
          else (.ok, { closed := log.closed ++ [e], opened := none })
  | .finalize _ out =>
      if ¬out then (.errArgument, log)
      else if log.opened.isSome then (.errState, log)
      else (.ok, log)

def run (log : Log) : List Call → List Status × Log
  | [] => ([], log)
  | call :: calls =>
      let rest := run (log.next call).2 calls
      ((log.next call).1 :: rest.1, rest.2)

/-- No call of a sequence finalizes. -/
def Unfinalized (log : Log) : List Call → Prop
  | [] => True
  | call :: calls => ¬log.Closes call ∧ Unfinalized (log.next call).2 calls

theorem Closes.eq_finalize {log : Log} {call : Call} (h : log.Closes call) :
    log.opened = none ∧ ∃ ta, call = .finalize ta true := by
  cases call with
  | entryBegin path size kind => exact h.elim
  | entryData data => exact h.elim
  | entryEnd => exact h.elim
  | finalize ta out =>
      obtain ⟨rfl, hopened⟩ := h
      exact ⟨hopened, ta, rfl⟩

theorem run_append (log : Log) (xs ys : List Call) :
    log.run (xs ++ ys) =
      ((log.run xs).1 ++ ((log.run xs).2.run ys).1, ((log.run xs).2.run ys).2) := by
  induction xs generalizing log with
  | nil => rfl
  | cons x xs ih =>
      rw [List.cons_append, run, run, ih]
      rfl

theorem unfinalized_append (log : Log) (xs ys : List Call) :
    log.Unfinalized (xs ++ ys) ↔ log.Unfinalized xs ∧ (log.run xs).2.Unfinalized ys := by
  induction xs generalizing log with
  | nil => exact (true_and _).symm ▸ Iff.rfl
  | cons x xs ih =>
      rw [List.cons_append, Unfinalized, Unfinalized, ih, and_assoc]
      rfl

/-! ### Streams -/

variable {log : Log} {e : Entry}

theorem stream_of_none (h : log.opened = none) :
    log.stream = (log.closed.map Entry.record).flatten := by
  rw [stream, h]
  exact List.append_nil _

theorem stream_of_some (h : log.opened = some e) :
    log.stream = (log.closed.map Entry.record).flatten ++ e.written := by
  rw [stream, h]
  simp

theorem metaStream_of_none (h : log.opened = none) :
    log.metaStream = (log.closed.map Entry.metaRecord).flatten := by
  rw [metaStream, h]
  exact List.append_nil _

theorem metaStream_of_some (h : log.opened = some e) :
    log.metaStream = (log.closed.map Entry.metaRecord).flatten ++ (e.header ++ e.path) := by
  rw [metaStream, h]
  simp

theorem entries_of_none (h : log.opened = none) : log.entries = log.closed := by
  rw [entries, h]
  exact List.append_nil _

theorem entries_of_some (h : log.opened = some e) : log.entries = log.closed ++ [e] := by
  rw [entries, h]
  rfl

theorem lanes_of_some (h : log.opened = some e) (lanes : Lanes) :
    log.lanes lanes = e.feed (log.closed.foldl Entry.feed lanes) := by
  rw [Log.lanes, entries_of_some h, List.foldl_append]
  rfl

theorem dataLength_of_some (h : log.opened = some e) :
    log.dataLength = (log.closed.map fun e => e.data.length).sum + e.data.length := by
  rw [dataLength, entries_of_some h, List.map_append, List.sum_append]
  rfl

end Log

end Blake3.Fc16
