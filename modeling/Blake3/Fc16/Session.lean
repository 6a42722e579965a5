import Blake3.Fc16.Log

/-!
Until it is finalized a context stands for a log of entries. The log decides
what a call returns, and all that a snapshot shows of the context follows from
the log.
-/

namespace Blake3.Fc16

/-! ### Hashes -/

/-- What is used of a hash: updates add up, and go on from every state that is
reached by them. -/
structure Hash.Lawful {σ : Type} (H : Hash σ) (Ready : σ → Prop) : Prop where
  init : Ready H.init
  update : ∀ s p, Ready s → ∃ s', H.update s p = .ok s' ∧ Ready s'
  nil : ∀ s, H.update s [] = .ok s
  append : ∀ s s' p q, H.update s p = .ok s' → H.update s (p ++ q) = H.update s' q
  final : ∀ s, Ready s → ∃ r, H.final s = .ok r

theorem lawful_sha256 : sha256.Lawful fun c => c.bufferLen < 64 where
  init := by decide
  update := fun _ p h => Sha256Ctx.update_of_lt p h
  nil := by
    intro s
    exact congrArg (fun n => Except.ok { s with bitLen := n }) (UInt64.add_zero s.bitLen)
  append := fun _ _ _ q h => Sha256Ctx.update_append q h
  final := by
    intro s h
    obtain ⟨c, digest, hfinal, -⟩ := Sha256Ctx.final_of_lt h
    exact ⟨_, hfinal⟩

theorem lawful_recorder : recorder.Lawful fun _ => True where
  init := trivial
  update := fun _ _ _ => ⟨_, rfl, trivial⟩
  nil := fun s => congrArg Except.ok (List.append_nil s)
  append := by
    intro s s' p q h
    obtain rfl := Except.ok.inj h
    exact congrArg Except.ok (List.append_assoc s p q).symm
  final := fun _ _ => ⟨_, rfl⟩

section Refinement

variable {σ : Type} {H : Hash σ} {Ready : σ → Prop}

/-- A context stands for a log of entries, the one before the first entry being `c₀`. -/
structure Keeps (H : Hash σ) (Ready : σ → Prop) (c₀ : Context σ) (log : Log) (c : Context σ) :
    Prop where
  ready : Ready c.sha
  sha : H.update c₀.sha log.stream = .ok c.sha
  rootCrcState : c.rootCrcState = crc32cUpdate c₀.rootCrcState log.metaStream
  lane : c.lane.forget = (log.lanes c₀.lane).forget
  entryCount : c.entryCount = UInt64.ofNat log.closed.length
  totalBytes : c.totalBytes = UInt64.ofNat log.dataLength
  flags : c.flags = c₀.flags
  hwStamp : c.hwStamp = c₀.hwStamp
  thermalBefore : c.thermalBeforeMilliC = c₀.thermalBeforeMilliC
  thermalLimit : c.thermalLimitMilliC = c₀.thermalLimitMilliC
  thermalMaxDelta : c.thermalMaxDeltaMilliC = c₀.thermalMaxDeltaMilliC
  entryOpen : c.entryOpen = log.opened.isSome
  opened : ∀ e ∈ log.opened, c.pathCrcFinal = pathCrc e.path ∧ c.entryBaseLane = e.base ∧
    c.entryCrcState = crc32cUpdate 0xffffffff e.data ∧ c.entryDeclaredSize = e.size ∧
    c.entrySeenSize = UInt64.ofNat e.data.length

theorem feedMeta_eq {c : Context σ} {p : List Byte} {s : σ} (h : H.update c.sha p = .ok s) :
    feedMeta H c p =
      .ok { c with rootCrcState := crc32cUpdate c.rootCrcState p, sha := s } := by
  rw [feedMeta, h]
  rfl

theorem Hash.Lawful.extend (hH : H.Lawful Ready) {s₀ s : σ} {p : List Byte}
    (h : H.update s₀ p = .ok s) (hs : Ready s) (q : List Byte) :
    ∃ s', H.update s q = .ok s' ∧ H.update s₀ (p ++ q) = .ok s' ∧ Ready s' := by
  obtain ⟨s', hq, hs'⟩ := hH.update s q hs
  exact ⟨s', hq, (hH.append _ _ _ _ h).trans hq, hs'⟩

theorem length_bytes {w : ℕ} {span : Span w} (h : ¬(span.data = none ∧ span.len ≠ 0)) :
    span.bytes.length = span.len := by
  rcases hdata : span.data with _ | bytes
  · have hlen : span.len = 0 := by
      by_contra hne
      exact h ⟨hdata, hne⟩
    rw [Span.bytes, hdata, hlen]
    rfl
  · rw [Span.bytes, hdata]
    exact span.len_eq bytes hdata

/-! ### Accepted calls -/

/-- The context after an accepted `entry_begin`. -/
def Context.afterBegin (c : Context σ) (e : Entry) (s : σ) : Context σ :=
  { c with
    pathCrcFinal := pathCrc e.path
    entryBaseLane := e.base
    entryCrcState := 0xffffffff
    entryDeclaredSize := e.size
    entrySeenSize := 0
    entryOpen := true
    rootCrcState := crc32cUpdate (crc32cUpdate c.rootCrcState e.header) e.path
    sha := s
    lane := c.lane.modify (Fin.ofNat 16 e.base.toNat) (Lane.feedPath e.header e.path) }

theorem entryBegin_eq {c : Context σ} {path : Span 32} {bytes : List Byte} {size : UInt64}
    {kind : Word} {s s' : σ} (hdata : path.data = some bytes) (hlen : path.len ≠ 0)
    (hopen : c.entryOpen = false)
    (hheader : H.update c.sha (Entry.header ⟨bytes, size, kind, []⟩) = .ok s)
    (hpath : H.update s bytes = .ok s') :
    entryBegin H c path size kind = .ok (.ok, c.afterBegin ⟨bytes, size, kind, []⟩ s') := by
  rw [Entry.header, path.len_eq bytes hdata] at hheader
  rw [entryBegin, hdata]
  simp only [if_neg hlen, hopen, Bool.false_eq_true, if_false]
  rw [feedMeta_eq (by exact hheader), Result.ok_bind, feedMeta_eq (by exact hpath), Result.ok_bind]
  rw [Context.afterBegin, Entry.header, path.len_eq bytes hdata]
  rfl

/-- The context after an accepted `entry_data`. -/
def Context.afterData (c : Context σ) (bytes : List Byte) (s : σ) : Context σ :=
  { c with
    entryCrcState := crc32cUpdate c.entryCrcState bytes
    sha := s
    lane := feedLanes c.entryBaseLane c.lane c.entrySeenSize bytes
    entrySeenSize := c.entrySeenSize + UInt64.ofNat bytes.length
    totalBytes := c.totalBytes + UInt64.ofNat bytes.length }

theorem entryData_eq {c : Context σ} {data : Span 64} {s : σ}
    (hnull : ¬(data.data = none ∧ data.len ≠ 0)) (hopen : c.entryOpen = true)
    (hsize : ¬c.entryDeclaredSize < c.entrySeenSize + UInt64.ofNat data.len)
    (hdata : H.update c.sha data.bytes = .ok s) :
    entryData H c data = .ok (.ok, c.afterData data.bytes s) := by
  rw [entryData, if_neg hnull, if_neg (by rw [hopen]; decide), if_neg hsize, hdata, Result.ok_bind,
    Context.afterData, length_bytes hnull]
  rfl

/-- The context after an accepted `entry_end`. -/
def Context.afterEnd (c : Context σ) (s : σ) : Context σ :=
  { c with
    rootCrcState := crc32cUpdate c.rootCrcState (endMeta c)
    sha := s
    entryCount := c.entryCount + 1
    entryOpen := false }

theorem entryEnd_eq {c : Context σ} {s : σ} (hopen : c.entryOpen = true)
    (hsize : c.entrySeenSize = c.entryDeclaredSize) (hend : H.update c.sha (endMeta c) = .ok s) :
    entryEnd H c = .ok (.ok, c.afterEnd s) := by
  rw [entryEnd, if_neg (by rw [hopen]; decide), if_neg (not_not.mpr hsize), feedMeta_eq hend]
  rfl

/-! ### One call -/

variable {c₀ c : Context σ} {log : Log}

theorem Keeps.afterBegin (h : Keeps H Ready c₀ log c) (hopened : log.opened = none) {e : Entry}
    (he : e.data = []) {s : σ} (hs : Ready s)
    (hsha : H.update c₀.sha (log.stream ++ e.header ++ e.path) = .ok s) :
    Keeps H Ready c₀ { log with opened := some e } (c.afterBegin e s) := by
  have hnew : Log.opened { log with opened := some e } = some e := rfl
  have hentries := Log.entries_of_none hopened
  exact
    { ready := hs
      sha := by
        rw [Log.stream_of_none hopened] at hsha
        rw [Log.stream_of_some hnew, Entry.written, he, List.append_nil, ← List.append_assoc]
        exact hsha
      rootCrcState := by
        rw [Log.metaStream_of_some hnew, ← Log.metaStream_of_none hopened, crc32cUpdate_append,
          crc32cUpdate_append, ← h.rootCrcState]
        rfl
      lane := by
        rw [Log.lanes_of_some hnew, Entry.feed, he]
        have hlane := h.lane
        rw [Log.lanes, hentries] at hlane
        refine Lanes.forget_modify _ hlane fun l l' hl => ?_
        exact congrArg (Lane.feedPath e.header e.path) hl
      entryCount := h.entryCount
      totalBytes := by
        rw [Log.dataLength_of_some hnew, he, List.length_nil, Nat.add_zero, ← hentries]
        exact h.totalBytes
      flags := h.flags
      hwStamp := h.hwStamp
      thermalBefore := h.thermalBefore
      thermalLimit := h.thermalLimit
      thermalMaxDelta := h.thermalMaxDelta
      entryOpen := rfl
      opened := by
        intro e' he'
        obtain rfl := Option.some.inj he'
        rw [he]
        exact ⟨rfl, rfl, rfl, rfl, rfl⟩ }

theorem Keeps.afterData (h : Keeps H Ready c₀ log c) {e : Entry} (hopened : log.opened = some e)
    {bytes : List Byte} {s : σ} (hs : Ready s)
    (hsha : H.update c₀.sha (log.stream ++ bytes) = .ok s) :
    Keeps H Ready c₀ { log with opened := some (e.append bytes) } (c.afterData bytes s) := by
  have hnew : Log.opened { log with opened := some (e.append bytes) } = some (e.append bytes) := rfl
  obtain ⟨hpath, hbase, hcrc, hsize, hseen⟩ := h.opened e hopened
  have hlength : (e.append bytes).data.length = e.data.length + bytes.length :=
    List.length_append ..
  exact
    { ready := hs
      sha := by
        rw [Log.stream_of_some hopened, Entry.written] at hsha
        rw [Log.stream_of_some hnew, Entry.written, Entry.append, ← List.append_assoc _ e.data,
          ← List.append_assoc]
        exact hsha
      rootCrcState := by
        rw [Log.metaStream_of_some hnew]
        exact h.rootCrcState.trans (by rw [Log.metaStream_of_some hopened]; rfl)
      lane := by
        have hlane := h.lane
        rw [Log.lanes_of_some hopened, Entry.feed] at hlane
        -- the lanes have read the data so far and go on with the new bytes
        have happend := feedTail_append e.base
          ((log.closed.foldl Entry.feed c₀.lane).modify (Fin.ofNat 16 e.base.toNat)
            (Lane.feedPath e.header e.path)) 0 e.data bytes
        rw [Nat.zero_add] at happend
        rw [Log.lanes_of_some hnew, Context.afterData, hbase, hseen, forget_feedLanes]
        exact (forget_feedTail e.base hlane _ _).trans (congrArg Lanes.forget happend.symm)
      entryCount := h.entryCount
      totalBytes := by
        rw [Log.dataLength_of_some hnew, hlength, ← Nat.add_assoc, ← Log.dataLength_of_some hopened,
          UInt64.ofNat_add, ← h.totalBytes]
        rfl
      flags := h.flags
      hwStamp := h.hwStamp
      thermalBefore := h.thermalBefore
      thermalLimit := h.thermalLimit
      thermalMaxDelta := h.thermalMaxDelta
      entryOpen := by
        have hopen := h.entryOpen
        rw [hopened] at hopen
        exact hopen
      opened := by
        intro e' he'
        obtain rfl := Option.some.inj he'
        refine ⟨hpath, hbase, ?_, hsize, ?_⟩
        · rw [Context.afterData, hcrc, ← crc32cUpdate_append]
          rfl
        · rw [hlength, UInt64.ofNat_add, ← hseen]
          rfl }

theorem Keeps.endMeta_eq (h : Keeps H Ready c₀ log c) {e : Entry} (hopened : log.opened = some e) :
    endMeta c = e.trailer := by
  obtain ⟨hpath, hbase, hcrc, hsize, hseen⟩ := h.opened e hopened
  rw [endMeta, Entry.trailer, hpath, hbase, hcrc, hseen]

theorem Keeps.afterEnd (h : Keeps H Ready c₀ log c) {e : Entry} (hopened : log.opened = some e)
    {s : σ} (hs : Ready s) (hsha : H.update c₀.sha (log.stream ++ e.trailer) = .ok s) :
    Keeps H Ready c₀ { closed := log.closed ++ [e], opened := none } (c.afterEnd s) := by
  have hentries : Log.entries { closed := log.closed ++ [e], opened := none } = log.entries := by
    rw [Log.entries_of_none rfl, Log.entries_of_some hopened]
  exact
    { ready := hs
      sha := by
        rw [Log.stream_of_some hopened, List.append_assoc] at hsha
        rw [Log.stream_of_none rfl, List.map_append, List.flatten_append]
        simpa [Entry.record, Context.afterEnd] using hsha
      rootCrcState := by
        rw [Context.afterEnd, h.endMeta_eq hopened, h.rootCrcState, ← crc32cUpdate_append,
          Log.metaStream_of_some hopened, Log.metaStream_of_none rfl]
        simp [Entry.metaRecord]
      lane := by
        rw [Log.lanes, hentries]
        exact h.lane
      entryCount := by
        rw [Context.afterEnd, h.entryCount, List.length_append, UInt64.ofNat_add]
        rfl
      totalBytes := by
        rw [Log.dataLength, hentries]
        exact h.totalBytes
      flags := h.flags
      hwStamp := h.hwStamp
      thermalBefore := h.thermalBefore
      thermalLimit := h.thermalLimit
      thermalMaxDelta := h.thermalMaxDelta
      entryOpen := rfl
      opened := by
        intro e' he'
        cases he' }

/-- The context after `rmr_fc16_init`. -/
def Context.initial (hw : UInt64) (tb limit delta : Word) (s : σ) : Context σ where
  lane := Vector.replicate 16 { crcState := 0xffffffff, xorFold := 0, bytes := 0, blocks16 := 0 }
  sha := s
  rootCrcState := crc32cUpdate 0xffffffff tag
  entryCrcState := 0xffffffff
  pathCrcFinal := 0
  flags := if hw ≠ 0 then flagHwStampValid else 0
  entryDeclaredSize := 0
  entrySeenSize := 0
  entryCount := 0
  totalBytes := 0
  hwStamp := hw
  thermalBeforeMilliC := tb
  thermalAfterMilliC := 0
  thermalLimitMilliC := limit
  thermalMaxDeltaMilliC := delta
  entryOpen := false
  entryBaseLane := 0

theorem init_eq {hw : UInt64} {tb limit delta : Word} {s : σ} (h : H.update H.init tag = .ok s) :
    init H hw tb limit delta = .ok (.initial hw tb limit delta s) := by
  rw [init]
  exact feedMeta_eq h

theorem keeps_initial (hH : H.Lawful Ready) (hw : UInt64) (tb limit delta : Word) {s : σ}
    (hs : Ready s) : Keeps H Ready (.initial hw tb limit delta s) .empty
      (.initial hw tb limit delta s) where
  ready := hs
  sha := hH.nil s
  rootCrcState := rfl
  lane := rfl
  entryCount := rfl
  totalBytes := rfl
  flags := rfl
  hwStamp := rfl
  thermalBefore := rfl
  thermalLimit := rfl
  thermalMaxDelta := rfl
  entryOpen := rfl
  opened := by
    intro e he
    cases he

theorem keeps_entryBegin (hH : H.Lawful Ready) (h : Keeps H Ready c₀ log c) (path : Span 32)
    (size : UInt64) (kind : Word) :
    ∃ c', entryBegin H c path size kind = .ok ((log.next (.entryBegin path size kind)).1, c') ∧
      Keeps H Ready c₀ (log.next (.entryBegin path size kind)).2 c' := by
  rcases hdata : path.data with _ | bytes
  · rw [entryBegin, Log.next, hdata]
    exact ⟨c, rfl, h⟩
  · by_cases hlen : path.len = 0
    · rw [entryBegin, Log.next, hdata]
      simp only [if_pos hlen]
      exact ⟨c, rfl, h⟩
    · rcases hopened : log.opened with _ | e
      · obtain ⟨s, hs, hall, hready⟩ :=
          hH.extend h.sha h.ready (Entry.header ⟨bytes, size, kind, []⟩)
        obtain ⟨s', hs', hall', hready'⟩ := hH.extend hall hready bytes
        have hnext : log.next (.entryBegin path size kind) =
            (.ok, { log with opened := some ⟨bytes, size, kind, []⟩ }) := by
          rw [Log.next, hdata, hopened]
          simp only [if_neg hlen, Option.isSome_none, Bool.false_eq_true, if_false]
        rw [hnext]
        exact ⟨_, entryBegin_eq hdata hlen (by rw [h.entryOpen, hopened]; rfl) hs hs',
          h.afterBegin hopened rfl hready' hall'⟩
      · rw [entryBegin, Log.next, hdata, hopened]
        have hopen : c.entryOpen = true := by rw [h.entryOpen, hopened]; rfl
        simp only [if_neg hlen, hopen, Option.isSome_some, if_true]
        exact ⟨c, rfl, h⟩

theorem keeps_entryData (hH : H.Lawful Ready) (h : Keeps H Ready c₀ log c) (data : Span 64) :
    ∃ c', entryData H c data = .ok ((log.next (.entryData data)).1, c') ∧
      Keeps H Ready c₀ (log.next (.entryData data)).2 c' := by
  rw [Log.next]
  by_cases hnull : data.data = none ∧ data.len ≠ 0
  · rw [entryData, if_pos hnull, if_pos hnull]
    exact ⟨c, rfl, h⟩
  · rw [if_neg hnull]
    rcases hopened : log.opened with _ | e
    · have hopen : c.entryOpen = false := by rw [h.entryOpen, hopened]; rfl
      rw [entryData, if_neg hnull, if_pos (by rw [hopen]; decide)]
      exact ⟨c, rfl, h⟩
    · have hopen : c.entryOpen = true := by rw [h.entryOpen, hopened]; rfl
      obtain ⟨-, -, -, hsize, hseen⟩ := h.opened e hopened
      simp only [← hsize, ← hseen]
      by_cases hfull : c.entryDeclaredSize < c.entrySeenSize + UInt64.ofNat data.len
      · rw [entryData, if_neg hnull, if_neg (by rw [hopen]; decide), if_pos hfull, if_pos hfull]
        exact ⟨c, rfl, h⟩
      · obtain ⟨s, hs, hall, hready⟩ := hH.extend h.sha h.ready data.bytes
        rw [if_neg hfull]
        exact ⟨_, entryData_eq hnull hopen hfull hs, h.afterData hopened hready hall⟩

theorem keeps_entryEnd (hH : H.Lawful Ready) (h : Keeps H Ready c₀ log c) :
    ∃ c', entryEnd H c = .ok ((log.next .entryEnd).1, c') ∧
      Keeps H Ready c₀ (log.next .entryEnd).2 c' := by
  rw [Log.next]
  rcases hopened : log.opened with _ | e
  · have hopen : c.entryOpen = false := by rw [h.entryOpen, hopened]; rfl
    rw [entryEnd, if_pos (by rw [hopen]; decide)]
    exact ⟨c, rfl, h⟩
  · have hopen : c.entryOpen = true := by rw [h.entryOpen, hopened]; rfl
    obtain ⟨-, -, -, hsize, hseen⟩ := h.opened e hopened
    simp only [← hsize, ← hseen]
    by_cases hne : c.entrySeenSize ≠ c.entryDeclaredSize
    · rw [entryEnd, if_neg (by rw [hopen]; decide), if_pos hne, if_pos hne]
      exact ⟨c, rfl, h⟩
    · obtain ⟨s, hs, hall, hready⟩ := hH.extend h.sha h.ready e.trailer
      rw [if_neg hne]
      exact ⟨_, entryEnd_eq hopen (not_not.mp hne) (by rw [h.endMeta_eq hopened]; exact hs),
        h.afterEnd hopened hready hall⟩

theorem finalize_of_not_closes {ta : Word} {out : Bool} (h : Keeps H Ready c₀ log c)
    (hcloses : ¬log.Closes (.finalize ta out)) :
    finalize H c ta out = .ok ((log.next (.finalize ta out)).1, c, none) ∧
      (log.next (.finalize ta out)).2 = log := by
  rw [finalize, Log.next]
  cases out with
  | false => exact ⟨rfl, rfl⟩
  | true =>
      rcases hopened : log.opened with _ | e
      · exact absurd ⟨rfl, hopened⟩ hcloses
      · have hopen : c.entryOpen = true := by rw [h.entryOpen, hopened]; rfl
        simp [hopen]

/-- What a call does that does not finalize. -/
theorem keeps_step (hH : H.Lawful Ready) (h : Keeps H Ready c₀ log c) {call : Call}
    (hcloses : ¬log.Closes call) :
    ∃ c', step H c call = .ok ((log.next call).1, c') ∧ Keeps H Ready c₀ (log.next call).2 c' := by
  cases call with
  | entryBegin path size kind => exact keeps_entryBegin hH h path size kind
  | entryData data => exact keeps_entryData hH h data
  | entryEnd => exact keeps_entryEnd hH h
  | finalize ta out =>
      obtain ⟨hfinalize, hlog⟩ := finalize_of_not_closes h hcloses
      rw [hlog]
      refine ⟨c, ?_, h⟩
      rw [step, hfinalize]
      rfl

theorem keeps_run (hH : H.Lawful Ready) {calls : List Call} (h : Keeps H Ready c₀ log c)
    (hcalls : log.Unfinalized calls) :
    ∃ c', run H c calls = .ok ((log.run calls).1, c') ∧ Keeps H Ready c₀ (log.run calls).2 c' := by
  induction calls generalizing log c with
  | nil => exact ⟨c, rfl, h⟩
  | cons call calls ih =>
      obtain ⟨c₁, hstep, h₁⟩ := keeps_step hH h hcalls.1
      obtain ⟨c₂, hrun, h₂⟩ := ih h₁ hcalls.2
      refine ⟨c₂, ?_, h₂⟩
      rw [run, hstep, Result.ok_bind]
      simp only [hrun]
      rfl

/-! ### Rejected calls -/

theorem entryBegin_rejected {path : Span 32} {size : UInt64} {kind : Word} {s : Status}
    {c c' : Context σ} (h : entryBegin H c path size kind = .ok (s, c')) (hs : s ≠ .ok) :
    c' = c := by
  rw [entryBegin] at h
  rcases hdata : path.data with _ | bytes
  · rw [hdata] at h
    exact (congrArg Prod.snd (Except.ok.inj h)).symm
  · rw [hdata] at h
    by_cases hlen : path.len = 0
    · simp only [if_pos hlen] at h
      exact (congrArg Prod.snd (Except.ok.inj h)).symm
    · by_cases hopen : c.entryOpen
      · simp only [if_neg hlen, if_pos hopen] at h
        exact (congrArg Prod.snd (Except.ok.inj h)).symm
      · simp only [if_neg hlen, if_neg hopen] at h
        obtain ⟨c₁, -, h⟩ := Result.bind_eq_ok.mp h
        obtain ⟨c₂, -, h⟩ := Result.bind_eq_ok.mp h
        exact absurd (congrArg Prod.fst (Except.ok.inj h)).symm hs

theorem entryData_rejected {data : Span 64} {s : Status} {c c' : Context σ}
    (h : entryData H c data = .ok (s, c')) (hs : s ≠ .ok) : c' = c := by
  rw [entryData] at h
  by_cases hnull : data.data = none ∧ data.len ≠ 0
  · rw [if_pos hnull] at h
    exact (congrArg Prod.snd (Except.ok.inj h)).symm
  · by_cases hopen : ¬c.entryOpen
    · rw [if_neg hnull, if_pos hopen] at h
      exact (congrArg Prod.snd (Except.ok.inj h)).symm
    · by_cases hsize : c.entryDeclaredSize < c.entrySeenSize + UInt64.ofNat data.len
      · rw [if_neg hnull, if_neg hopen, if_pos hsize] at h
        exact (congrArg Prod.snd (Except.ok.inj h)).symm
      · rw [if_neg hnull, if_neg hopen, if_neg hsize] at h
        obtain ⟨s', -, h⟩ := Result.bind_eq_ok.mp h
        exact absurd (congrArg Prod.fst (Except.ok.inj h)).symm hs

theorem entryEnd_rejected {s : Status} {c c' : Context σ} (h : entryEnd H c = .ok (s, c'))
    (hs : s ≠ .ok) : c' = c := by
  rw [entryEnd] at h
  by_cases hopen : ¬c.entryOpen
  · rw [if_pos hopen] at h
    exact (congrArg Prod.snd (Except.ok.inj h)).symm
  · by_cases hsize : c.entrySeenSize ≠ c.entryDeclaredSize
    · rw [if_neg hopen, if_pos hsize] at h
      exact (congrArg Prod.snd (Except.ok.inj h)).symm
    · rw [if_neg hopen, if_neg hsize] at h
      obtain ⟨c₁, -, h⟩ := Result.bind_eq_ok.mp h
      exact absurd (congrArg Prod.fst (Except.ok.inj h)).symm hs

theorem finalize_rejected {ta : Word} {out : Bool} {s : Status} {c c' : Context σ}
    {o : Option Snapshot} (h : finalize H c ta out = .ok (s, c', o)) (hok : s ≠ .ok)
    (hthermal : s ≠ .errThermal) : c' = c := by
  rw [finalize] at h
  by_cases hout : ¬out
  · rw [if_pos hout] at h
    exact (congrArg (fun r : Status × Context σ × Option Snapshot => r.2.1) (Except.ok.inj h)).symm
  · by_cases hopen : c.entryOpen
    · rw [if_neg hout, if_pos hopen] at h
      exact (congrArg (fun r : Status × Context σ × Option Snapshot => r.2.1)
        (Except.ok.inj h)).symm
    · rw [if_neg hout, if_neg hopen] at h
      obtain ⟨c₁, -, h⟩ := Result.bind_eq_ok.mp h
      obtain ⟨r, -, h⟩ := Result.bind_eq_ok.mp h
      have hstatus := congrArg Prod.fst (Except.ok.inj h)
      by_cases haccepted : thermalAccepted c ta
      · exact absurd (hstatus.symm.trans (if_pos haccepted)) hok
      · exact absurd (hstatus.symm.trans (if_neg haccepted)) hthermal

/-- A call that is rejected changes nothing. -/
theorem step_rejected {call : Call} {s : Status} {c c' : Context σ}
    (h : step H c call = .ok (s, c'))
    (hs : s = .errState ∨ s = .errSize ∨ s = .errArgument) : c' = c := by
  have hok : s ≠ .ok := by rcases hs with rfl | rfl | rfl <;> decide
  have hthermal : s ≠ .errThermal := by rcases hs with rfl | rfl | rfl <;> decide
  cases call with
  | entryBegin path size kind => exact entryBegin_rejected h hok
  | entryData data => exact entryData_rejected h hok
  | entryEnd => exact entryEnd_rejected h hok
  | finalize ta out =>
      rw [step] at h
      rcases hresult : finalize H c ta out with e | ⟨s', c₁, o⟩
      · rw [hresult] at h
        cases h
      · rw [hresult] at h
        obtain ⟨rfl, rfl⟩ := Prod.mk.inj (Except.ok.inj h)
        exact finalize_rejected hresult hok hthermal

/-! ### The snapshot -/

/-- The last record of the stream. -/
def Log.finalMeta (log : Log) (tb ta : Word) : List Byte :=
  [0x46, 0x49, 0x4e, 0x4c] ++ putU64 (UInt64.ofNat log.closed.length) ++
    putU64 (UInt64.ofNat log.dataLength) ++ putU32 tb ++ putU32 ta

/-- The snapshot of a log, the context before the first entry being `c₀`. -/
def Log.snapshot (log : Log) (c₀ : Context σ) (ta : Word) (digest : Vector Byte 32) : Snapshot where
  version := 1
  flags := if thermalAccepted c₀ ta then c₀.flags ||| flagThermalAccept else c₀.flags
  rootCrc32c := crc32cFinish
    (crc32cUpdate c₀.rootCrcState (log.metaStream ++ log.finalMeta c₀.thermalBeforeMilliC ta))
  pathCountLow := (UInt64.ofNat log.closed.length).toUInt32
  entryCount := UInt64.ofNat log.closed.length
  totalBytes := UInt64.ofNat log.dataLength
  hwStamp := c₀.hwStamp
  thermalBeforeMilliC := c₀.thermalBeforeMilliC
  thermalAfterMilliC := ta
  warmupRounds := 0
  benchmarkSamples := 0
  benchmarkANs := 0
  benchmarkBNs := 0
  laneCrc32c := (log.lanes c₀.lane).map fun l => crc32cFinish l.crcState
  laneXorFold := (log.lanes c₀.lane).map Lane.xorFold
  laneBytes := (log.lanes c₀.lane).map Lane.bytes
  sha256 := digest

/-- What is seen of lanes does not depend on the count of their blocks. -/
theorem Lanes.map_eq_of_forget {α : Type} {lanes lanes' : Lanes} (h : lanes.forget = lanes'.forget)
    (f : Lane → α) (hf : ∀ l : Lane, f l.forget = f l) : lanes.map f = lanes'.map f := by
  have hmap := congrArg (Vector.map f) h
  simpa [Lanes.forget, Function.comp_def, hf] using hmap

/-- An accepted `finalize`. -/
theorem finalize_eq (hH : H.Lawful Ready) (h : Keeps H Ready c₀ log c) (hopened : log.opened = none)
    (ta : Word) :
    ∃ s s' digest c',
      H.update c₀.sha (log.stream ++ log.finalMeta c₀.thermalBeforeMilliC ta) = .ok s ∧
      Ready s ∧ H.final s = .ok (s', digest) ∧ c'.sha = s' ∧ c'.entryOpen = false ∧
      finalize H c ta true = .ok (if thermalAccepted c₀ ta then .ok else .errThermal, c',
        some (log.snapshot c₀ ta digest)) := by
  have hopen : c.entryOpen = false := by rw [h.entryOpen, hopened]; rfl
  have hmeta : ∀ flags : Word, finalMeta { c with thermalAfterMilliC := ta, flags := flags } ta =
      log.finalMeta c₀.thermalBeforeMilliC ta := by
    intro flags
    rw [finalMeta, Log.finalMeta, ← h.entryCount, ← h.totalBytes, ← h.thermalBefore]
  have haccepted : thermalAccepted c ta = thermalAccepted c₀ ta := by
    rw [thermalAccepted, thermalAccepted, h.thermalBefore, h.thermalLimit, h.thermalMaxDelta]
  obtain ⟨s, hs, hall, hready⟩ := hH.extend h.sha h.ready
    (log.finalMeta c₀.thermalBeforeMilliC ta)
  obtain ⟨⟨s', digest⟩, hfinal⟩ := hH.final s hready
  let closed : Context σ :=
    { c with
      thermalAfterMilliC := ta
      flags := if thermalAccepted c₀ ta then c₀.flags ||| flagThermalAccept else c₀.flags
      rootCrcState := crc32cUpdate c.rootCrcState (log.finalMeta c₀.thermalBeforeMilliC ta)
      sha := s }
  have hsnapshot : snapshotOf closed ta digest = log.snapshot c₀ ta digest := by
    have hlanes : ∀ {α : Type} (f : Lane → α), (∀ l : Lane, f l.forget = f l) →
        c.lane.map f = (log.lanes c₀.lane).map f := fun f hf => Lanes.map_eq_of_forget h.lane f hf
    have hroot : closed.rootCrcState =
        crc32cUpdate c.rootCrcState (log.finalMeta c.thermalBeforeMilliC ta) := by
      rw [h.thermalBefore]
    rw [snapshotOf, hroot, Log.snapshot, crc32cUpdate_append, ← h.rootCrcState, ← h.entryCount,
      ← h.totalBytes, ← h.hwStamp, ← h.thermalBefore, ← hlanes Lane.xorFold fun l => rfl,
      ← hlanes Lane.bytes fun l => rfl, ← hlanes (fun l => crc32cFinish l.crcState) fun l => rfl]
  refine ⟨s, s', digest, { closed with sha := s' }, hall, hready, hfinal, rfl, hopen, ?_⟩
  rw [finalize, if_neg (by decide), if_neg (by rw [hopen]; decide)]
  simp only [hmeta]
  rw [feedMeta_eq (by exact hs), Result.ok_bind]
  simp only [hfinal, Result.ok_bind, haccepted, h.flags, ← hsnapshot]
  rfl

end Refinement

end Blake3.Fc16
