import Blake3.Fc16.Session
import Mathlib.Algebra.Order.BigOperators.Group.List

/-!
A snapshot does not depend on the pieces in which the data of the entries
arrives, and its lanes are those of the positions of the bytes.
-/

namespace Blake3.Fc16

/-- The calls that read entries one after the other, their data in any pieces. -/
inductive Splits : List Entry → List Call → Prop where
  | nil : Splits [] []
  | cons {e : Entry} {entries : List Entry} {path : Span 32} {pieces : List (Span 64)}
      {calls : List Call} (hpath : path.data = some e.path)
      (hpieces : ∀ piece ∈ pieces, ¬(piece.data = none ∧ piece.len ≠ 0))
      (hdata : (pieces.map Span.bytes).flatten = e.data) (h : Splits entries calls) :
      Splits (e :: entries)
        (.entryBegin path e.size e.kind :: (pieces.map .entryData ++ .entryEnd :: calls))

theorem Splits.of_pieces {e : Entry} {entries : List Entry} {calls : List Call} (path : Span 32)
    (pieces : List (Span 64)) (hpath : path.data = some e.path)
    (hpieces : ∀ piece ∈ pieces, ¬(piece.data = none ∧ piece.len ≠ 0))
    (hdata : (pieces.map Span.bytes).flatten = e.data) (h : Splits entries calls) :
    Splits (e :: entries)
      (.entryBegin path e.size e.kind :: (pieces.map .entryData ++ .entryEnd :: calls)) :=
  .cons hpath hpieces hdata h

/-- An entry that can be read: it has a path, and its size is the one declared. -/
def Entry.Complete (e : Entry) : Prop := e.path ≠ [] ∧ e.size = UInt64.ofNat e.data.length

namespace Log

/-- Pieces of the data of an entry, as long as they fit. -/
theorem run_pieces {pieces : List (Span 64)}
    (hpieces : ∀ piece ∈ pieces, ¬(piece.data = none ∧ piece.len ≠ 0)) (log : Log) {e : Entry}
    (hopened : log.opened = some e)
    (hfit : e.data.length + (pieces.map Span.bytes).flatten.length ≤ e.size.toNat) :
    log.run (pieces.map .entryData) = (List.replicate pieces.length .ok,
        { log with opened := some (e.append (pieces.map Span.bytes).flatten) }) ∧
      log.Unfinalized (pieces.map .entryData) := by
  induction pieces generalizing log e with
  | nil =>
      refine ⟨?_, trivial⟩
      rw [List.map_nil, List.map_nil, List.flatten_nil, Entry.append, List.append_nil, ← hopened]
      rfl
  | cons piece pieces ih =>
      have hnull := hpieces piece List.mem_cons_self
      have hsize := e.size.toNat_lt
      rw [List.map_cons, List.flatten_cons, List.length_append] at hfit
      have hnext : log.next (.entryData piece) =
          (.ok, { log with opened := some (e.append piece.bytes) }) := by
        have hlt : ¬e.size < UInt64.ofNat e.data.length + UInt64.ofNat piece.len := by
          rw [← length_bytes hnull, ← UInt64.ofNat_add, UInt64.lt_iff_toNat_lt,
            toNat_ofNat64 (by omega)]
          omega
        rw [next, if_neg hnull, hopened]
        exact if_neg hlt
      obtain ⟨hrun, hunfinalized⟩ := ih (fun p hp => hpieces p (List.mem_cons_of_mem _ hp))
        { log with opened := some (e.append piece.bytes) } rfl
        (by
          rw [Entry.append, List.length_append]
          exact (Nat.add_assoc _ _ _).trans_le hfit)
      refine ⟨?_, fun h => h, ?_⟩
      · rw [List.map_cons, run, hnext]
        simp only [hrun]
        rw [List.length_cons, List.replicate_succ, List.map_cons, List.flatten_cons, Entry.append,
          Entry.append, Entry.append, List.append_assoc]
      · rw [hnext]
        exact hunfinalized

theorem run_splits {entries : List Entry} {calls : List Call} (h : Splits entries calls)
    (hcomplete : ∀ e ∈ entries, e.Complete) (hlength : ∀ e ∈ entries, e.data.length < 2 ^ 64)
    (log : Log) (hopened : log.opened = none) :
    log.run calls = (List.replicate calls.length .ok,
        { closed := log.closed ++ entries, opened := none }) ∧ log.Unfinalized calls := by
  induction h generalizing log with
  | nil =>
      refine ⟨?_, trivial⟩
      rw [List.append_nil, ← hopened]
      rfl
  | @cons e entries path pieces calls hpath hpieces hdata hsplits ih =>
      obtain ⟨hne, hsize⟩ := hcomplete e List.mem_cons_self
      have hlt := hlength e List.mem_cons_self
      have hlen : path.len ≠ 0 := by
        rw [← path.len_eq _ hpath]
        exact fun h => hne (List.length_eq_zero_iff.mp h)
      have hbegin : log.next (.entryBegin path e.size e.kind) =
          (.ok, { log with opened := some ⟨e.path, e.size, e.kind, []⟩ }) := by
        rw [next, hpath, hopened]
        exact if_neg hlen
      obtain ⟨hpiecesRun, hpiecesUnfinalized⟩ := run_pieces hpieces
        { log with opened := some ⟨e.path, e.size, e.kind, []⟩ } rfl
        (by
          rw [hdata, hsize, toNat_ofNat64 hlt]
          exact (Nat.zero_add _).le)
      rw [hdata] at hpiecesRun
      have hentry : Entry.append ⟨e.path, e.size, e.kind, []⟩ e.data = e := rfl
      rw [hentry] at hpiecesRun
      have hend : Log.next { log with opened := some e } .entryEnd =
          (.ok, { closed := log.closed ++ [e], opened := none }) := if_neg (not_not.mpr hsize.symm)
      obtain ⟨hrest, hrestUnfinalized⟩ := ih
        (fun e he => hcomplete e (List.mem_cons_of_mem _ he))
        (fun e he => hlength e (List.mem_cons_of_mem _ he))
        { closed := log.closed ++ [e], opened := none } rfl
      constructor
      · rw [run, hbegin]
        simp only [run_append, hpiecesRun]
        rw [run, hend]
        simp only [hrest]
        simp [List.replicate_succ, List.replicate_add]
      · refine ⟨fun h => h, ?_⟩
        rw [hbegin, unfinalized_append]
        refine ⟨hpiecesUnfinalized, ?_⟩
        rw [hpiecesRun]
        refine ⟨fun h => h, ?_⟩
        rw [hend]
        exact hrestUnfinalized

end Log

/-! ### Lanes of entries -/

/-- The bytes of an entry that belong to a lane, with their positions. -/
def Entry.inLane (e : Entry) (L : Fin 16) : List Item :=
  e.data.zipIdx.filter fun item => ((pathCrc e.path).toNat + item.2 / 16) % 16 = L.val

/-- Whether the path of an entry goes to a lane. -/
def Entry.StartsIn (e : Entry) (L : Fin 16) : Prop := (pathCrc e.path).toNat % 16 = L.val

instance (e : Entry) (L : Fin 16) : Decidable (e.StartsIn L) :=
  inferInstanceAs (Decidable ((pathCrc e.path).toNat % 16 = L.val))

/-- The bytes that a lane receives. -/
def laneStream (entries : List Entry) (L : Fin 16) : List Byte :=
  entries.flatMap fun e =>
    (if e.StartsIn L then e.header ++ e.path else []) ++ (e.inLane L).map Prod.fst

/-- The words that the fold of a lane is made of. -/
def laneWords (entries : List Entry) (L : Fin 16) : List Word :=
  entries.flatMap fun e =>
    (if e.StartsIn L then [pathCrc e.path] else []) ++ (e.inLane L).map Item.shifted

/-- How many bytes of data a lane receives. -/
def laneLength (entries : List Entry) (L : Fin 16) : ℕ :=
  (entries.map fun e => (e.inLane L).length).sum

theorem toNat_base (e : Entry) : e.base.toNat = (pathCrc e.path).toNat % 16 := by
  have hand : (pathCrc e.path &&& 15).toNat = (pathCrc e.path).toNat % 16 := by
    rw [UInt32.toNat_and]
    exact Nat.and_two_pow_sub_one_eq_mod _ 4
  rw [Entry.base, UInt32.toNat_toUInt8, hand]
  omega

theorem laneItems_eq (e : Entry) (L : Fin 16) : laneItems e.base L 0 e.data = e.inLane L := by
  rw [laneItems, Entry.inLane]
  congr 1
  funext item
  rw [toNat_base, decide_eq_decide, Fin.ext_iff, Fin.val_ofNat, Nat.mod_add_mod]

theorem startsIn_iff (e : Entry) (L : Fin 16) :
    Fin.ofNat 16 e.base.toNat = L ↔ e.StartsIn L := by
  rw [Fin.ext_iff, Fin.val_ofNat, toNat_base, Nat.mod_mod]
  exact Iff.rfl

theorem get_feed (lanes : Lanes) (e : Entry) (L : Fin 16) :
    (e.feed lanes).get L = Lane.feedItems (e.inLane L)
      (if e.StartsIn L then Lane.feedPath e.header e.path (lanes.get L) else lanes.get L) := by
  have hget := get_feedTail e.base
    (lanes.modify (Fin.ofNat 16 e.base.toNat) (Lane.feedPath e.header e.path)) 0 e.data L
  rw [laneItems_eq, Lanes.get_modify] at hget
  refine hget.trans (congrArg _ ?_)
  by_cases h : e.StartsIn L
  · have hL := (startsIn_iff e L).mpr h
    rw [if_pos hL, if_pos h, hL]
  · rw [if_neg (mt (startsIn_iff e L).mp h), if_neg h]

/-- What the lanes hold after some entries. -/
theorem get_foldl_feed (entries : List Entry) (lanes : Lanes) (L : Fin 16) :
    ((entries.foldl Entry.feed lanes).get L).crcState =
        crc32cUpdate (lanes.get L).crcState (laneStream entries L) ∧
      ((entries.foldl Entry.feed lanes).get L).xorFold =
        (laneWords entries L).foldl (· ^^^ ·) (lanes.get L).xorFold ∧
      ((entries.foldl Entry.feed lanes).get L).bytes =
        (lanes.get L).bytes + UInt64.ofNat (laneLength entries L) := by
  induction entries generalizing lanes with
  | nil => exact ⟨rfl, rfl, (UInt64.add_zero _).symm⟩
  | cons e entries ih =>
      obtain ⟨hcrc, hxor, hbytes⟩ := ih (e.feed lanes)
      rw [List.foldl_cons, hcrc, hxor, hbytes, get_feed, Lane.crcState_feedItems,
        Lane.xorFold_feedItems, Lane.bytes_feedItems, laneStream, laneStream, laneWords, laneWords,
        laneLength, laneLength, List.flatMap_cons, List.flatMap_cons, List.map_cons, List.sum_cons,
        crc32cUpdate_append, crc32cUpdate_append, List.foldl_append, List.foldl_append,
        UInt64.ofNat_add, UInt64.add_assoc]
      by_cases h : e.StartsIn L
      · rw [if_pos h, if_pos h, if_pos h, crc32cUpdate_append]
        exact ⟨rfl, rfl, rfl⟩
      · rw [if_neg h, if_neg h, if_neg h]
        exact ⟨rfl, rfl, rfl⟩

/-- Every element is counted for one index. -/
theorem sum_length_filter {α : Type} (f : α → Fin 16) (xs : List α) :
    ((List.finRange 16).map fun L => (xs.filter fun x => f x = L).length).sum = xs.length := by
  induction xs with
  | nil => simp
  | cons x xs ih =>
      have hone :
          ∀ i : Fin 16, ((List.finRange 16).map fun L => if i = L then 1 else 0).sum = 1 := by
        decide
      have hcons : ∀ L, ((x :: xs).filter fun y => f y = L).length =
          (if f x = L then 1 else 0) + (xs.filter fun y => f y = L).length := by
        intro L
        rw [List.filter_cons]
        by_cases h : f x = L
        · simp [h, Nat.add_comm]
        · simp [h]
      simp only [hcons]
      rw [List.sum_map_add, hone, ih, List.length_cons, Nat.add_comm]

theorem sum_laneLength (entries : List Entry) :
    ((List.finRange 16).map (laneLength entries)).sum =
      (entries.map fun e => e.data.length).sum := by
  induction entries with
  | nil => decide
  | cons e entries ih =>
      have hcons : laneLength (e :: entries) = fun L =>
          (e.inLane L).length + laneLength entries L := rfl
      have hlane : ((List.finRange 16).map fun L => (e.inLane L).length).sum = e.data.length := by
        have hsum := sum_length_filter
          (fun item : Item => Fin.ofNat 16 ((pathCrc e.path).toNat + item.2 / 16)) e.data.zipIdx
        simp only [Fin.ext_iff, Fin.val_ofNat, List.length_zipIdx] at hsum
        exact hsum
      rw [hcons, List.sum_map_add, hlane, ih, List.map_cons, List.sum_cons]

/-! ### Snapshots of entries -/

/-- All contexts that stand for the same entries have the same snapshot. -/
theorem exists_snapshot {σ : Type} {H : Hash σ} {Ready : σ → Prop} (hH : H.Lawful Ready)
    (entries : List Entry) (hw : UInt64) (tb limit delta ta : Word) :
    ∃ (c₀ : Context σ) (status : Status) (digest : Vector Byte 32),
      c₀.lane =
        Vector.replicate 16 { crcState := 0xffffffff, xorFold := 0, bytes := 0, blocks16 := 0 } ∧
      init H hw tb limit delta = .ok c₀ ∧ Keeps H Ready c₀ .empty c₀ ∧
      ∀ c, Keeps H Ready c₀ { closed := entries, opened := none } c →
        ∃ c', finalize H c ta true = .ok (status, c',
          some (Log.snapshot { closed := entries, opened := none } c₀ ta digest)) := by
  obtain ⟨s, htag, hready⟩ := hH.update H.init tag hH.init
  let log : Log := { closed := entries, opened := none }
  let c₀ : Context σ := .initial hw tb limit delta s
  obtain ⟨s₁, hs₁, hready₁⟩ := hH.update s (log.stream ++ log.finalMeta tb ta) hready
  obtain ⟨⟨s₂, digest⟩, hfinal⟩ := hH.final s₁ hready₁
  refine ⟨c₀, if thermalAccepted c₀ ta then .ok else .errThermal, digest, rfl, init_eq htag,
    keeps_initial hH hw tb limit delta hready, fun c hc => ?_⟩
  obtain ⟨s₁', s₂', digest', c', hs₁', -, hfinal', -, -, hfinalize⟩ := finalize_eq hH hc rfl ta
  obtain rfl := Except.ok.inj (hs₁'.symm.trans hs₁)
  obtain ⟨rfl, rfl⟩ := Prod.mk.inj (Except.ok.inj (hfinal'.symm.trans hfinal))
  exact ⟨c', hfinalize⟩

/-- The snapshot of complete entries, whatever their pieces. -/
theorem finalize_run_splits {σ : Type} {H : Hash σ} {Ready : σ → Prop} (hH : H.Lawful Ready)
    {entries : List Entry} (hcomplete : ∀ e ∈ entries, e.Complete)
    (hlength : ∀ e ∈ entries, e.data.length < 2 ^ 64) (hw : UInt64) (tb limit delta ta : Word) :
    ∃ (c₀ : Context σ) (status : Status) (digest : Vector Byte 32),
      c₀.lane =
        Vector.replicate 16 { crcState := 0xffffffff, xorFold := 0, bytes := 0, blocks16 := 0 } ∧
      init H hw tb limit delta = .ok c₀ ∧
      ∀ calls, Splits entries calls →
        ∃ c c', run H c₀ calls = .ok (List.replicate calls.length .ok, c) ∧
        finalize H c ta true = .ok (status, c',
          some (Log.snapshot { closed := entries, opened := none } c₀ ta digest)) := by
  obtain ⟨c₀, status, digest, hlane, hinit, hkeeps, hsnapshot⟩ :=
    exists_snapshot hH entries hw tb limit delta ta
  refine ⟨c₀, status, digest, hlane, hinit, fun calls hsplits => ?_⟩
  obtain ⟨hlog, hunfinalized⟩ := Log.run_splits hsplits hcomplete hlength .empty rfl
  obtain ⟨c, hrun, hc⟩ := keeps_run hH hkeeps hunfinalized
  rw [hlog] at hrun hc
  obtain ⟨c', hfinalize⟩ := hsnapshot c hc
  exact ⟨c, c', hrun, hfinalize⟩

/-- Whatever the pieces in which the data of the entries arrives, the snapshot
is the same; its lanes are those of the positions of the bytes. A call that is
rejected leaves the context as it was. -/
theorem finalize_of_splits (entries : List Entry) (hcomplete : ∀ e ∈ entries, e.Complete)
    (htotal : (entries.map fun e => e.data.length).sum < 2 ^ 63) (hw : UInt64)
    (tb limit delta ta : Word) :
    (∃ (c₀ : Context Sha256Ctx) (status : Status) (snapshot : Snapshot),
      init sha256 hw tb limit delta = .ok c₀ ∧
      (∀ calls, Splits entries calls →
        ∃ c c', run sha256 c₀ calls = .ok (List.replicate calls.length .ok, c) ∧
          finalize sha256 c ta true = .ok (status, c', some snapshot)) ∧
      (∀ L : Fin 16,
        snapshot.laneCrc32c.get L = crc32cFinish (crc32cUpdate 0xffffffff (laneStream entries L)) ∧
        (snapshot.laneBytes.get L).toNat = laneLength entries L ∧
        snapshot.laneXorFold.get L = (laneWords entries L).foldl (· ^^^ ·) 0) ∧
      ((List.finRange 16).map fun L => (snapshot.laneBytes.get L).toNat).sum =
        snapshot.totalBytes.toNat ∧
      snapshot.totalBytes.toNat = (entries.map fun e => e.data.length).sum) ∧
    ∀ (c c' : Context Sha256Ctx) (call : Call) (status : Status),
      step sha256 c call = .ok (status, c') →
      status = .errState ∨ status = .errSize ∨ status = .errArgument → c' = c := by
  refine ⟨?_, fun c c' call status hstep hstatus => step_rejected hstep hstatus⟩
  have hle : ∀ e ∈ entries, e.data.length ≤ (entries.map fun e => e.data.length).sum :=
    fun e he => List.le_sum_of_mem (List.mem_map_of_mem he)
  obtain ⟨c₀, status, digest, hlane, hinit, hsplits⟩ := finalize_run_splits lawful_sha256 hcomplete
    (fun e he => by have := hle e he; omega) hw tb limit delta ta
  have hlanes := get_foldl_feed entries c₀.lane
  have hget : ∀ L : Fin 16, c₀.lane.get L =
      { crcState := 0xffffffff, xorFold := 0, bytes := 0, blocks16 := 0 } := by
    intro L
    rw [hlane]
    exact Vector.getElem_replicate ..
  have hlog : Log.lanes { closed := entries, opened := none } c₀.lane =
      entries.foldl Entry.feed c₀.lane := by
    rw [Log.lanes, Log.entries_of_none rfl]
  -- no lane receives more than all of the data, so its counter does not wrap
  have hlaneLength : ∀ L, laneLength entries L < 2 ^ 64 := by
    intro L
    have hsum := sum_laneLength entries
    have hmem : laneLength entries L ≤ ((List.finRange 16).map (laneLength entries)).sum :=
      List.le_sum_of_mem (List.mem_map_of_mem (List.mem_finRange L))
    omega
  have hbytes :
      ∀ L, ((Log.snapshot { closed := entries, opened := none } c₀ ta digest).laneBytes.get
      L).toNat = laneLength entries L := by
    intro L
    rw [Log.snapshot, hlog, Lanes.get_map, (hlanes L).2.2, hget, UInt64.zero_add,
      toNat_ofNat64 (hlaneLength L)]
  have htotalBytes :
      (Log.snapshot { closed := entries, opened := none } c₀ ta digest).totalBytes.toNat =
      (entries.map fun e => e.data.length).sum := by
    rw [Log.snapshot, Log.dataLength, Log.entries_of_none rfl]
    exact toNat_ofNat64 (htotal.trans (by decide))
  refine ⟨c₀, status, _, hinit, hsplits, fun L => ⟨?_, hbytes L, ?_⟩, ?_, htotalBytes⟩
  · rw [Log.snapshot, hlog, Lanes.get_map, (hlanes L).1, hget]
  · rw [Log.snapshot, hlog, Lanes.get_map, (hlanes L).2.1, hget]
  · simp only [hbytes]
    exact (sum_laneLength entries).trans htotalBytes.symm

/-- Two ways of reading a file of forty bytes and a directory: in one piece, and in
pieces that end inside of the blocks of sixteen lanes. -/
theorem finalize_of_splits_two :
    ∃ (c₀ : Context Sha256Ctx) (status : Status) (snapshot : Snapshot) (calls calls' : List Call),
      calls.length = 5 ∧ calls'.length = 8 ∧ snapshot.totalBytes.toNat = 40 ∧
      (∃ c c', run sha256 c₀ calls = .ok (List.replicate 5 .ok, c) ∧
        finalize sha256 c 0 true = .ok (status, c', some snapshot)) ∧
      (∃ c c', run sha256 c₀ calls' = .ok (List.replicate 8 .ok, c) ∧
        finalize sha256 c 0 true = .ok (status, c', some snapshot)) := by
  have h := (finalize_of_splits [⟨[0x61], 40, 1, List.replicate 40 7⟩, ⟨[0x62], 0, 2, []⟩]
    (by simp [Entry.Complete]) (by decide) 0 0 0 0 0).1
  obtain ⟨c₀, status, snapshot, -, hsplits, -, -, htotal⟩ := h
  have hdirectory : Splits [⟨[0x62], 0, 2, []⟩]
      [.entryBegin (.of [0x62] (by decide)) 0 2, .entryEnd] :=
    .of_pieces (.of [0x62] (by decide)) [] rfl (by simp) rfl .nil
  exact ⟨c₀, status, snapshot, _, _, rfl, rfl, htotal,
    hsplits _ (.of_pieces (.of [0x61] (by decide)) [.of (List.replicate 40 7) (by decide)] rfl
      (by simp [Span.of]) rfl hdirectory),
    hsplits _ (.of_pieces (.of [0x61] (by decide))
      [.of [7] (by decide), .of (List.replicate 20 7) (by decide), .of [] (by decide),
        .of (List.replicate 19 7) (by decide)] rfl
      (by simp [Span.of]) rfl hdirectory)⟩

end Blake3.Fc16
