import Blake3.Fc16.Snapshot

/-!
What the hash is fed determines the entries, as long as no entry receives
`2 ^ 64` bytes. Beyond that the comparison with the declared size wraps around,
and two different sequences of entries can have one stream.
-/

namespace Blake3.Fc16

/-- The entries of a run, read off what its calls returned. -/
def Log.record (log : Log) : Call × Status → Log
  | (.entryBegin path size kind, .ok) => { log with opened := some ⟨path.bytes, size, kind, []⟩ }
  | (.entryData data, .ok) => { log with opened := log.opened.map (·.append data.bytes) }
  | (.entryEnd, .ok) => { closed := log.closed ++ log.opened.toList, opened := none }
  | _ => log

/-- Whether a call has finalized. -/
def HasFinalized : Call × Status → Prop
  | (.finalize _ _, .ok) => True
  | (.finalize _ _, .errThermal) => True
  | _ => False

/-- A run up to the first `finalize` that is accepted: the temperatures before
and after, the entries, and what the hash was fed. -/
inductive Completed : Word → Word → List Entry → List Byte → Prop where
  | intro {hw : UInt64} {tb limit delta ta : Word} {calls : List Call}
      {c₀ c c' : Context (List Byte)}
      {statuses : List Status} {status : Status} {snapshot : Snapshot}
      (hinit : init recorder hw tb limit delta = .ok c₀)
      (hrun : run recorder c₀ calls = .ok (statuses, c))
      (hfirst : ∀ call ∈ calls.zip statuses, ¬HasFinalized call)
      (hfinalize : finalize recorder c ta true = .ok (status, c', some snapshot)) :
      Completed tb ta ((calls.zip statuses).foldl Log.record .empty).entries c'.sha

/-! ### The log of a run -/

theorem Log.next_eq_record {log : Log} {call : Call} (hcloses : ¬log.Closes call) :
    (log.next call).2 = log.record (call, (log.next call).1) := by
  cases call with
  | entryBegin path size kind =>
      rw [next]
      rcases hdata : path.data with _ | bytes
      · rfl
      · by_cases hlen : path.len = 0
        · simp only [if_pos hlen]
          rfl
        · by_cases hopened : log.opened.isSome
          · simp only [if_neg hlen, if_pos hopened]
            rfl
          · simp only [if_neg hlen, if_neg hopened, record, Span.bytes, hdata]
            rfl
  | entryData data =>
      rw [next]
      by_cases hnull : data.data = none ∧ data.len ≠ 0
      · rw [if_pos hnull]
        rfl
      · rw [if_neg hnull]
        rcases hopened : log.opened with _ | e
        · rfl
        · by_cases hsize : e.size < UInt64.ofNat e.data.length + UInt64.ofNat data.len
          · simp only [if_pos hsize]
            rfl
          · simp only [if_neg hsize, record, hopened]
            rfl
  | entryEnd =>
      rw [next]
      rcases hopened : log.opened with _ | e
      · rfl
      · by_cases hsize : UInt64.ofNat e.data.length ≠ e.size
        · simp only [if_pos hsize]
          rfl
        · simp only [if_neg hsize, record, hopened]
          rfl
  | finalize ta out =>
      rw [next]
      cases out with
      | false => rfl
      | true =>
          rcases hopened : log.opened with _ | e
          · exact absurd ⟨rfl, hopened⟩ hcloses
          · rfl

theorem Log.run_eq_record {calls : List Call} {log : Log} (h : log.Unfinalized calls) :
    (log.run calls).2 = (calls.zip (log.run calls).1).foldl Log.record log := by
  induction calls generalizing log with
  | nil => rfl
  | cons call calls ih =>
      rw [run, List.zip_cons_cons, List.foldl_cons, ← Log.next_eq_record h.1, ← ih h.2]

/-- What the calls have checked of the entries. -/
structure Log.Checked (log : Log) : Prop where
  path : ∀ e ∈ log.entries, e.path.length < 2 ^ 32
  size : ∀ e ∈ log.closed, e.size = UInt64.ofNat e.data.length

theorem Log.checked_empty : Log.empty.Checked where
  path := by
    intro e he
    cases he
  size := by
    intro e he
    cases he

theorem Log.Checked.next {log : Log} (h : log.Checked) (call : Call) :
    (log.next call).2.Checked := by
  -- only a new entry brings a path, and only an entry that ends a size to check
  cases call with
  | entryBegin path size kind =>
      rw [Log.next]
      rcases hdata : path.data with _ | bytes
      · exact h
      · by_cases hlen : path.len = 0
        · simp only [if_pos hlen]
          exact h
        · by_cases hopened : log.opened.isSome
          · simp only [if_neg hlen, if_pos hopened]
            exact h
          · simp only [if_neg hlen, if_neg hopened]
            refine ⟨fun e he => ?_, h.size⟩
            rw [Log.entries_of_some rfl] at he
            rcases List.mem_append.mp he with he | he
            · exact h.path e (List.mem_append_left _ he)
            · rw [List.mem_singleton.mp he]
              exact (path.len_eq bytes hdata).trans_lt path.len_lt
  | entryData data =>
      rw [Log.next]
      by_cases hnull : data.data = none ∧ data.len ≠ 0
      · rw [if_pos hnull]
        exact h
      · rw [if_neg hnull]
        rcases hopened : log.opened with _ | e
        · exact h
        · by_cases hsize : e.size < UInt64.ofNat e.data.length + UInt64.ofNat data.len
          · simp only [if_pos hsize]
            exact h
          · simp only [if_neg hsize]
            refine ⟨fun e' he' => ?_, h.size⟩
            rw [Log.entries_of_some rfl] at he'
            rcases List.mem_append.mp he' with he' | he'
            · exact h.path e' (List.mem_append_left _ he')
            · rw [List.mem_singleton.mp he']
              exact h.path e (by rw [Log.entries_of_some hopened]; simp)
  | entryEnd =>
      rw [Log.next]
      rcases hopened : log.opened with _ | e
      · exact h
      · have hpath := h.path
        rw [Log.entries_of_some hopened] at hpath
        by_cases hsize : UInt64.ofNat e.data.length ≠ e.size
        · simp only [if_pos hsize]
          exact h
        · simp only [if_neg hsize]
          refine ⟨by rw [Log.entries_of_none rfl]; exact hpath, fun e' he' => ?_⟩
          rcases List.mem_append.mp he' with he' | he'
          · exact h.size e' he'
          · rw [List.mem_singleton.mp he']
            exact (not_not.mp hsize).symm
  | finalize ta out =>
      rw [Log.next]
      split_ifs <;> exact h

theorem Log.Checked.run {log : Log} (h : log.Checked) (calls : List Call) :
    (log.run calls).2.Checked := by
  induction calls generalizing log with
  | nil => exact h
  | cons call calls ih => exact ih (h.next call)

section

variable {c₀ c : Context (List Byte)} {log : Log}

theorem hasFinalized_of_closes (h : Keeps recorder (fun _ => True) c₀ log c) {call : Call}
    (hcloses : log.Closes call) {s : Status} {c' : Context (List Byte)}
    (hstep : step recorder c call = .ok (s, c')) : HasFinalized (call, s) := by
  obtain ⟨hopened, ta, rfl⟩ := hcloses.eq_finalize
  obtain ⟨s₁, s₂, digest, c'', -, -, -, -, -, hfinalize⟩ :=
    finalize_eq lawful_recorder h hopened ta
  rw [step, hfinalize] at hstep
  obtain rfl := congrArg Prod.fst (Except.ok.inj hstep)
  by_cases haccepted : thermalAccepted c₀ ta
  · simp [HasFinalized, haccepted]
  · simp [HasFinalized, haccepted]

theorem unfinalized_of_run (h : Keeps recorder (fun _ => True) c₀ log c) {calls : List Call}
    {statuses : List Status} {c' : Context (List Byte)}
    (hrun : run recorder c calls = .ok (statuses, c'))
    (hfirst : ∀ call ∈ calls.zip statuses, ¬HasFinalized call) : log.Unfinalized calls := by
  induction calls generalizing log c statuses with
  | nil => trivial
  | cons call calls ih =>
      rw [run] at hrun
      obtain ⟨⟨s, c₁⟩, hstep, hrest⟩ := Result.bind_eq_ok.mp hrun
      obtain ⟨⟨statuses', c₂⟩, hrun', heq⟩ := Result.bind_eq_ok.mp hrest
      obtain ⟨rfl, rfl⟩ := Prod.mk.inj (Except.ok.inj heq)
      rw [List.zip_cons_cons] at hfirst
      have hcloses : ¬log.Closes call := fun hcloses =>
        hfirst (call, s) List.mem_cons_self (hasFinalized_of_closes h hcloses hstep)
      obtain ⟨c₁', hstep', hkeeps⟩ := keeps_step lawful_recorder h hcloses
      obtain ⟨-, rfl⟩ := Prod.mk.inj (Except.ok.inj (hstep.symm.trans hstep'))
      exact ⟨hcloses, ih hkeeps hrun' fun call hcall => hfirst call (List.mem_cons_of_mem _ hcall)⟩

end

/-- What the hash was fed by a completed run. -/
theorem Completed.stream_eq {tb ta : Word} {entries : List Entry} {stream : List Byte}
    (h : Completed tb ta entries stream) :
    (∀ e ∈ entries, e.path.length < 2 ^ 32 ∧ e.size = UInt64.ofNat e.data.length) ∧
      stream = tag ++ (entries.map Entry.record).flatten ++
        Log.finalMeta { closed := entries, opened := none } tb ta := by
  cases h with
  | @intro hw _ limit delta _ calls c₀ c c' statuses status snapshot hinit hrun hfirst hfinalize =>
      have hinit' : init recorder hw tb limit delta = .ok (.initial hw tb limit delta tag) :=
        init_eq rfl
      obtain rfl := Except.ok.inj (hinit.symm.trans hinit')
      have hkeeps := keeps_initial lawful_recorder hw tb limit delta (s := tag) trivial
      have hunfinalized := unfinalized_of_run hkeeps hrun hfirst
      obtain ⟨c₁, hrun', hc⟩ := keeps_run lawful_recorder hkeeps hunfinalized
      obtain ⟨rfl, rfl⟩ := Prod.mk.inj (Except.ok.inj (hrun.symm.trans hrun'))
      have hopened : (Log.empty.run calls).2.opened = none := by
        by_contra hne
        have hcloses : ¬(Log.empty.run calls).2.Closes (.finalize ta true) := fun h => hne h.2
        rw [(finalize_of_not_closes hc hcloses).1] at hfinalize
        cases hfinalize
      obtain ⟨s, s', digest, c₂, hs, -, hfinal, hsha, -, hfinalize'⟩ :=
        finalize_eq lawful_recorder hc hopened ta
      have hsame := Except.ok.inj (hfinalize.symm.trans hfinalize')
      obtain rfl := congrArg (fun r : Status × Context (List Byte) × Option Snapshot => r.2.1) hsame
      obtain rfl := congrArg Prod.fst (Except.ok.inj hfinal)
      have hchecked := Log.checked_empty.run calls
      rw [← Log.run_eq_record hunfinalized]
      have hentries := Log.entries_of_none hopened
      refine ⟨fun e he => ⟨hchecked.path e he, hchecked.size e (hentries ▸ he)⟩, ?_⟩
      have hlog : (Log.empty.run calls).2 =
          { closed := (Log.empty.run calls).2.entries, opened := none } := by
        rw [hentries, ← hopened]
      rw [hsha, ← Except.ok.inj hs, ← hlog, Log.stream_of_none hopened, ← hentries,
        List.append_assoc]
      rfl

theorem Log.status_of_not_closes {log : Log} {call : Call} (h : ¬log.Closes call) :
    ¬HasFinalized (call, (log.next call).1) := by
  cases call with
  | entryBegin path size kind => exact fun hfinalized => hfinalized
  | entryData data => exact fun hfinalized => hfinalized
  | entryEnd => exact fun hfinalized => hfinalized
  | finalize ta out =>
      rw [next]
      cases out with
      | false => exact fun hfinalized => hfinalized
      | true =>
          rcases hopened : log.opened with _ | e
          · exact absurd ⟨rfl, hopened⟩ h
          · exact fun hfinalized => hfinalized

theorem Log.statuses_of_unfinalized {calls : List Call} {log : Log} (h : log.Unfinalized calls) :
    ∀ call ∈ calls.zip (log.run calls).1, ¬HasFinalized call := by
  induction calls generalizing log with
  | nil => simp
  | cons call calls ih =>
      rw [run, List.zip_cons_cons, List.forall_mem_cons]
      exact ⟨Log.status_of_not_closes h.1, ih h.2⟩

/-- A run that ends with no entry open can be completed. -/
theorem completed_of_run {calls : List Call} (h : Log.empty.Unfinalized calls)
    {entries : List Entry}
    (hrun : (Log.empty.run calls).2 = { closed := entries, opened := none }) (tb ta : Word) :
    Completed tb ta entries (tag ++ (entries.map Entry.record).flatten ++
      Log.finalMeta { closed := entries, opened := none } tb ta) := by
  have hinit : init recorder 0 tb 0 0 = .ok (.initial 0 tb 0 0 tag) := init_eq rfl
  have hkeeps := keeps_initial lawful_recorder 0 tb 0 0 (s := tag) trivial
  obtain ⟨c, hcalls, hc⟩ := keeps_run lawful_recorder hkeeps h
  obtain ⟨s, s', digest, c', -, -, -, -, -, hfinalize⟩ :=
    finalize_eq lawful_recorder hc (by rw [hrun]) ta
  have hcompleted := Completed.intro hinit hcalls (Log.statuses_of_unfinalized h) hfinalize
  have hentries :
      ((calls.zip (Log.empty.run calls).1).foldl Log.record .empty).entries = entries := by
    rw [← Log.run_eq_record h, hrun, Log.entries_of_none rfl]
  rw [hentries] at hcompleted
  rw [← hcompleted.stream_eq.2]
  exact hcompleted

/-! ### Unique decoding -/

theorem putU32_eq (v : Word) : putU32 v = LittleEndian.toBytes 4 v.toNat :=
  LittleEndian.toBytes_word v

theorem putU64_eq (v : UInt64) : putU64 v = LittleEndian.toBytes 8 v.toNat := by
  rw [← LittleEndian.toBytes_doubleWord]
  simp [putU64, List.range_succ]

theorem putU32_inj {v w : Word} (h : putU32 v = putU32 w) : v = w := by
  rw [putU32_eq, putU32_eq] at h
  exact LittleEndian.toBytes_word_inj h

theorem putU64_inj {v w : UInt64} (h : putU64 v = putU64 w) : v = w := by
  rw [putU64_eq, putU64_eq] at h
  exact LittleEndian.toBytes_doubleWord_inj h

@[simp] theorem length_putU32 (v : Word) : (putU32 v).length = 4 := rfl

@[simp] theorem length_putU64 (v : UInt64) : (putU64 v).length = 8 := rfl

@[simp] theorem length_trailer (e : Entry) : e.trailer.length = 24 := rfl

theorem ofNat64_inj {m n : ℕ} (hm : m < 2 ^ 64) (hn : n < 2 ^ 64)
    (h : UInt64.ofNat m = UInt64.ofNat n) : m = n := by
  rw [← toNat_ofNat64 hm, h, toNat_ofNat64 hn]

/-- What can be read back of an entry: its lengths fit their fields. -/
structure Entry.Readable (e : Entry) : Prop where
  path : e.path.length < 2 ^ 32
  size : e.size = UInt64.ofNat e.data.length
  data : e.data.length < 2 ^ 64

theorem record_inj {e e' : Entry} (he : e.Readable) (he' : e'.Readable) {rest rest' : List Byte}
    (h : e.record ++ rest = e'.record ++ rest') : e = e' ∧ rest = rest' := by
  simp only [Entry.record, Entry.written, Entry.header, entryMeta, List.append_assoc] at h
  have h := List.append_cancel_left h
  obtain ⟨hlen, h⟩ := List.append_inj h (by simp)
  obtain ⟨hsize, h⟩ := List.append_inj h (by simp)
  obtain ⟨hkind, h⟩ := List.append_inj h (by simp)
  have hpathLength : e.path.length = e'.path.length := by
    have hword := congrArg UInt32.toNat (putU32_inj hlen)
    rwa [UInt32.toNat_ofNat_of_lt' he.path, UInt32.toNat_ofNat_of_lt' he'.path] at hword
  obtain ⟨hpath, h⟩ := List.append_inj h hpathLength
  have hsize := putU64_inj hsize
  have hdataLength : e.data.length = e'.data.length :=
    ofNat64_inj he.data he'.data (by rw [← he.size, ← he'.size, hsize])
  obtain ⟨hdata, h⟩ := List.append_inj h hdataLength
  obtain ⟨-, hrest⟩ := List.append_inj h (by simp)
  refine ⟨?_, hrest⟩
  cases e
  cases e'
  rw [Entry.mk.injEq]
  exact ⟨hpath, hsize, putU32_inj hkind, hdata⟩

/-- An entry does not begin like the last record. -/
theorem record_ne_finalMeta {e : Entry} {log : Log} {tb ta : Word} {rest : List Byte} :
    e.record ++ rest ≠ log.finalMeta tb ta := by
  intro h
  have hhead := congrArg List.head? h
  simp [Entry.record, Entry.written, Entry.header, entryMeta, Log.finalMeta] at hhead

theorem finalMeta_inj {log log' : Log} {tb ta tb' ta' : Word}
    (h : log.finalMeta tb ta = log'.finalMeta tb' ta') : tb = tb' ∧ ta = ta' := by
  simp only [Log.finalMeta, List.append_assoc] at h
  have h := List.append_cancel_left h
  obtain ⟨-, h⟩ := List.append_inj h (by simp)
  obtain ⟨-, h⟩ := List.append_inj h (by simp)
  obtain ⟨htb, hta⟩ := List.append_inj h (by simp)
  exact ⟨putU32_inj htb, putU32_inj hta⟩

theorem records_inj {entries entries' : List Entry} (he : ∀ e ∈ entries, e.Readable)
    (he' : ∀ e ∈ entries', e.Readable) {log log' : Log} {tb ta tb' ta' : Word}
    (h : (entries.map Entry.record).flatten ++ log.finalMeta tb ta =
      (entries'.map Entry.record).flatten ++ log'.finalMeta tb' ta') :
    entries = entries' ∧ tb = tb' ∧ ta = ta' := by
  induction entries generalizing entries' with
  | nil =>
      rcases entries' with _ | ⟨e', entries'⟩
      · exact ⟨rfl, finalMeta_inj h⟩
      · rw [List.map_cons, List.flatten_cons, List.append_assoc] at h
        exact absurd h.symm record_ne_finalMeta
  | cons e entries ih =>
      rcases entries' with _ | ⟨e', entries'⟩
      · rw [List.map_cons, List.flatten_cons, List.append_assoc] at h
        exact absurd h record_ne_finalMeta
      · rw [List.map_cons, List.flatten_cons, List.append_assoc, List.map_cons, List.flatten_cons,
          List.append_assoc] at h
        obtain ⟨rfl, hrest⟩ := record_inj (he e List.mem_cons_self) (he' e' List.mem_cons_self) h
        obtain ⟨rfl, htemps⟩ := ih (fun e h => he e (List.mem_cons_of_mem _ h))
          (fun e h => he' e (List.mem_cons_of_mem _ h)) hrest
        exact ⟨rfl, htemps⟩

/-- Runs whose entries all receive fewer than `2 ^ 64` bytes are determined by
what the hash is fed. -/
theorem completed_inj {tb ta tb' ta' : Word} {entries entries' : List Entry} {stream : List Byte}
    (h : Completed tb ta entries stream) (h' : Completed tb' ta' entries' stream)
    (hdata : ∀ e ∈ entries, e.data.length < 2 ^ 64)
    (hdata' : ∀ e ∈ entries', e.data.length < 2 ^ 64) :
    entries = entries' ∧ tb = tb' ∧ ta = ta' := by
  obtain ⟨he, hstream⟩ := h.stream_eq
  obtain ⟨he', hstream'⟩ := h'.stream_eq
  rw [hstream, List.append_assoc, List.append_assoc] at hstream'
  exact records_inj (fun e hmem => ⟨(he e hmem).1, (he e hmem).2, hdata e hmem⟩)
    (fun e hmem => ⟨(he' e hmem).1, (he' e hmem).2, hdata' e hmem⟩)
    (List.append_cancel_left hstream')

/-- A run that reads three bytes, at two temperatures afterwards. -/
theorem completed_inj_at_three :
    ∃ stream, Completed 20 21 [⟨[0x61], 3, 1, [1, 2, 3]⟩] stream ∧
      ¬Completed 20 22 [⟨[0x61], 3, 1, [1, 2, 3]⟩] stream := by
  have hsplits : Splits [⟨[0x61], 3, 1, [1, 2, 3]⟩]
      [.entryBegin (.of [0x61] (by decide)) 3 1, .entryData (.of [1, 2, 3] (by decide)),
        .entryEnd] :=
    .of_pieces (.of [0x61] (by decide)) [.of [1, 2, 3] (by decide)] rfl (by simp [Span.of]) rfl .nil
  obtain ⟨hrun, hunfinalized⟩ :=
    Log.run_splits hsplits (by simp [Entry.Complete]) (by simp) .empty rfl
  have hcompleted : Completed 20 21 [⟨[0x61], 3, 1, [1, 2, 3]⟩] _ :=
    completed_of_run hunfinalized (congrArg Prod.snd hrun) 20 21
  refine ⟨_, hcompleted, fun hother => ?_⟩
  have hta := (completed_inj hcompleted hother (by simp) (by simp)).2.2
  exact absurd hta (by decide)

/-! ### Entries of `2 ^ 64` bytes and more -/

/-- The declared size that no comparison exceeds. -/
def unlimited : UInt64 := 0xffffffffffffffff

def oneByte (b : Byte) : Call := .entryData (.of [b] (Nat.one_lt_two_pow (by decide)))

/-- The calls that read an entry byte by byte. -/
def Entry.bytewise (e : Entry) (h : e.path.length < 2 ^ 32) : List Call :=
  .entryBegin (.of e.path h) e.size e.kind :: (e.data.map oneByte ++ [.entryEnd])

theorem Log.run_bytes {log : Log} {e : Entry} (hopened : log.opened = some e)
    (hsize : e.size = unlimited) (data : List Byte) :
    (log.run (data.map oneByte)).2 = { log with opened := some (e.append data) } ∧
      log.Unfinalized (data.map oneByte) := by
  induction data generalizing log e with
  | nil =>
      refine ⟨?_, trivial⟩
      rw [Entry.append, List.append_nil, ← hopened]
      rfl
  | cons b data ih =>
      have hnext : log.next (oneByte b) = (.ok, { log with opened := some (e.append [b]) }) := by
        have hle : ¬e.size < UInt64.ofNat e.data.length + UInt64.ofNat [b].length := by
          rw [hsize, UInt64.lt_iff_toNat_lt]
          have := (UInt64.ofNat e.data.length + UInt64.ofNat [b].length).toNat_lt
          change ¬18446744073709551615 < _
          omega
        rw [oneByte, next, if_neg (by simp [Span.of]), hopened]
        exact if_neg hle
      have hopened' : Log.opened { log with opened := some (e.append [b]) } = some (e.append [b]) :=
        rfl
      obtain ⟨hrun, hunfinalized⟩ := ih hopened' hsize
      refine ⟨?_, fun h => h, ?_⟩
      · rw [List.map_cons, run, hnext]
        dsimp only
        rw [hrun, Entry.append, Entry.append, Entry.append, List.append_assoc]
        rfl
      · rw [hnext]
        exact hunfinalized

/-- An entry that declares the largest size can receive that many bytes, or
`2 ^ 64` more. -/
structure Entry.Unlimited (e : Entry) : Prop where
  path : e.path ≠ [] ∧ e.path.length < 2 ^ 32
  size : e.size = unlimited
  data : UInt64.ofNat e.data.length = unlimited

theorem Log.run_unlimited {entries : List Entry} (h : ∀ e ∈ entries, e.Unlimited) {log : Log}
    (hopened : log.opened = none) :
    ∃ calls, (log.run calls).2 = { closed := log.closed ++ entries, opened := none } ∧
      log.Unfinalized calls := by
  induction entries generalizing log with
  | nil => exact ⟨[], by rw [List.append_nil, ← hopened]; rfl, trivial⟩
  | cons e entries ih =>
      obtain ⟨⟨hne, hpath⟩, hsize, hdata⟩ := h e List.mem_cons_self
      have hbegin : log.next (.entryBegin (.of e.path hpath) e.size e.kind) =
          (.ok, { log with opened := some ⟨e.path, e.size, e.kind, []⟩ }) := by
        rw [next, hopened]
        exact if_neg fun hzero => hne (List.length_eq_zero_iff.mp hzero)
      have hopened' : Log.opened { log with opened := some ⟨e.path, e.size, e.kind, []⟩ } =
          some ⟨e.path, e.size, e.kind, []⟩ := rfl
      obtain ⟨hbytes, hbytesUnfinalized⟩ := run_bytes hopened' hsize e.data
      have hend : Log.next { log with opened := some e } .entryEnd =
          (.ok, { closed := log.closed ++ [e], opened := none }) :=
        if_neg (not_not.mpr (hdata.trans hsize.symm))
      obtain ⟨calls, hrun, hunfinalized⟩ := ih (fun e he => h e (List.mem_cons_of_mem _ he))
        (show Log.opened { closed := log.closed ++ [e], opened := none } = none from rfl)
      have hentry : Entry.append ⟨e.path, e.size, e.kind, []⟩ e.data = e := rfl
      rw [hentry] at hbytes
      have hcalls : e.bytewise hpath ++ calls = .entryBegin (.of e.path hpath) e.size e.kind ::
          (e.data.map oneByte ++ .entryEnd :: calls) := by simp [Entry.bytewise]
      refine ⟨e.bytewise hpath ++ calls, ?_, ?_⟩
      · rw [hcalls, run, hbegin]
        dsimp only
        rw [run_append, hbytes, run, hend]
        dsimp only
        rw [hrun, List.append_assoc]
        rfl
      · rw [hcalls]
        refine ⟨fun h => h, ?_⟩
        rw [hbegin, unfinalized_append]
        refine ⟨hbytesUnfinalized, ?_⟩
        rw [hbytes]
        refine ⟨fun h => h, ?_⟩
        rw [hend]
        exact hunfinalized

theorem completed_of_unlimited {entries : List Entry} (h : ∀ e ∈ entries, e.Unlimited) :
    Completed 0 0 entries (tag ++ (entries.map Entry.record).flatten ++
      Log.finalMeta { closed := entries, opened := none } 0 0) := by
  obtain ⟨calls, hrun, hunfinalized⟩ := Log.run_unlimited h (show Log.empty.opened = none from rfl)
  exact completed_of_run hunfinalized hrun 0 0

/-- The kind that leads the checksum from any state back to its first state, the
path being one byte. -/
theorem crc32cUpdate_kind (bytes : List Byte) :
    crc32cUpdate 0xffffffff
      (bytes ++ putU32 (crc32cUpdate 0xffffffff bytes ^^^ 0x7c9d21ad) ++ [0x79]) = 0xffffffff := by
  have hword : ∀ state : Word, crc32cUpdate state (putU32 (state ^^^ 0x7c9d21ad)) =
      Crc.shifts 0x82f63b78 32 0x7c9d21ad := by
    intro state
    rw [putU32_eq, crc32cUpdate_eq, Crc.update_toBytes _ _ (UInt32.toNat_lt _), ← UInt32.xor_assoc,
      UInt32.xor_self, UInt32.zero_xor]
  rw [crc32cUpdate_append, crc32cUpdate_append, hword]
  decide +kernel

namespace Collision

variable (d e z : List Byte)

/-- The first entry, in the one sequence with data `d` only. -/
def firstShort : Entry := ⟨[0x78], unlimited, 0, d⟩

/-- In the other sequence it goes on with the end of the first record and the
beginning of the second one. -/
def firstLong : Entry :=
  ⟨[0x78], unlimited, 0, d ++ (firstShort d).trailer ++ entryMeta 1 unlimited 0 ++ [0x79] ++ z⟩

/-- What follows the data that both first entries have, up to the kind of the
second entry. -/
def link : List Byte :=
  z ++ (firstLong d z).trailer ++ [0x45, 0x4e, 0x54, 0x52] ++ putU32 1 ++ putU64 unlimited

def kind : Word := crc32cUpdate 0xffffffff (link d z) ^^^ 0x7c9d21ad

def secondShort : Entry := ⟨[0x79], unlimited, kind d z, e⟩

def secondLong : Entry :=
  ⟨[0x79], unlimited, 0, link d z ++ putU32 (kind d z) ++ [0x79] ++ e⟩

theorem length_link : (link d z).length = z.length + 40 := by
  simp [link]

theorem unlimited_of_length {path data rest : List Byte} {kind : Word}
    (hpath : path ≠ [] ∧ path.length < 2 ^ 32) (hrest : UInt64.ofNat rest.length = unlimited)
    (hz : UInt64.ofNat (z.length + 45) = 0) (hdata : data.length = z.length + 45 + rest.length) :
    Entry.Unlimited ⟨path, unlimited, kind, data⟩ where
  path := hpath
  size := rfl
  data := by
    rw [hdata, UInt64.ofNat_add, hz, hrest]
    rfl

theorem firstLong_unlimited (hd : UInt64.ofNat d.length = unlimited)
    (hz : UInt64.ofNat (z.length + 45) = 0) : (firstLong d z).Unlimited := by
  refine unlimited_of_length z (by decide) hd hz ?_
  simp [entryMeta]
  omega

theorem secondLong_unlimited (he : UInt64.ofNat e.length = unlimited)
    (hz : UInt64.ofNat (z.length + 45) = 0) : (secondLong d e z).Unlimited := by
  refine unlimited_of_length z (by decide) he hz ?_
  simp [length_link]
  omega

/-- Both second entries end alike. -/
theorem trailer_eq (he : UInt64.ofNat e.length = unlimited)
    (hz : UInt64.ofNat (z.length + 45) = 0) :
    (secondShort d e z).trailer = (secondLong d e z).trailer := by
  have hlength : UInt64.ofNat (secondLong d e z).data.length = unlimited :=
    (secondLong_unlimited d e z he hz).data
  have hcrc : crc32cUpdate 0xffffffff (secondLong d e z).data = crc32cUpdate 0xffffffff e := by
    rw [secondLong, crc32cUpdate_append, kind, crc32cUpdate_kind]
  rw [Entry.trailer, Entry.trailer, hlength, hcrc]
  rw [show (secondShort d e z).data = e from rfl, he]
  rfl

theorem record_eq (he : UInt64.ofNat e.length = unlimited)
    (hz : UInt64.ofNat (z.length + 45) = 0) :
    (firstLong d z).record ++ (secondShort d e z).record =
      (firstShort d).record ++ (secondLong d e z).record := by
  rw [Entry.record, Entry.record, Entry.record, Entry.record, trailer_eq d e z he hz]
  simp [Entry.written, Entry.header, firstLong, firstShort, secondShort, secondLong, link,
    entryMeta]

theorem finalMeta_eq (hd : UInt64.ofNat d.length = unlimited)
    (he : UInt64.ofNat e.length = unlimited) (hz : UInt64.ofNat (z.length + 45) = 0) :
    Log.finalMeta { closed := [firstLong d z, secondShort d e z], opened := none } 0 0 =
      Log.finalMeta { closed := [firstShort d, secondLong d e z], opened := none } 0 0 := by
  have hlengths : ∀ x y : Entry, UInt64.ofNat x.data.length = unlimited →
      UInt64.ofNat y.data.length = unlimited →
      UInt64.ofNat (Log.dataLength { closed := [x, y], opened := none }) =
        unlimited + unlimited := by
    intro x y hx hy
    have hsum :
        Log.dataLength { closed := [x, y], opened := none } = x.data.length + y.data.length := by
      simp [Log.dataLength, Log.entries]
    rw [hsum, UInt64.ofNat_add, hx, hy]
  rw [Log.finalMeta, Log.finalMeta,
    hlengths _ _ (firstLong_unlimited d z hd hz).data
      (show UInt64.ofNat e.length = unlimited from he),
    hlengths _ _ (show UInt64.ofNat d.length = unlimited from hd)
      (secondLong_unlimited d e z he hz).data]
  rfl

/-- Two sequences of two entries are fed to the hash as one stream. -/
theorem exists_two (hd : UInt64.ofNat d.length = unlimited) (he : UInt64.ofNat e.length = unlimited)
    (hz : UInt64.ofNat (z.length + 45) = 0) :
    ∃ stream, Completed 0 0 [firstLong d z, secondShort d e z] stream ∧
      Completed 0 0 [firstShort d, secondLong d e z] stream := by
  have hunlimited : ∀ x ∈ [firstLong d z, secondShort d e z], x.Unlimited := by
    intro x hx
    rcases List.mem_pair.mp hx with rfl | rfl
    · exact firstLong_unlimited d z hd hz
    · exact ⟨by simp [secondShort], rfl, he⟩
  have hunlimited' : ∀ x ∈ [firstShort d, secondLong d e z], x.Unlimited := by
    intro x hx
    rcases List.mem_pair.mp hx with rfl | rfl
    · exact ⟨by simp [firstShort], rfl, hd⟩
    · exact secondLong_unlimited d e z he hz
  have hshort := completed_of_unlimited hunlimited'
  refine ⟨_, completed_of_unlimited hunlimited, ?_⟩
  rw [finalMeta_eq d e z hd he hz]
  have hrecords := record_eq d e z he hz
  simp only [List.map_cons, List.map_nil, List.flatten_cons, List.flatten_nil, List.append_nil]
    at hshort ⊢
  rw [hrecords]
  exact hshort

end Collision

/-- What the hash is fed does not determine entries of `2 ^ 64` bytes. -/
theorem completed_not_inj :
    ¬∀ (tb ta tb' ta' : Word) (entries entries' : List Entry) (stream : List Byte),
      Completed tb ta entries stream → Completed tb' ta' entries' stream →
        entries = entries' ∧ tb = tb' ∧ ta = ta' := by
  intro h
  have hlength : ∀ n, (List.replicate n (0 : Byte)).length = n := fun n => List.length_replicate ..
  obtain ⟨stream, hlong, hshort⟩ := Collision.exists_two (List.replicate (2 ^ 64 - 1) 0)
    (List.replicate (2 ^ 64 - 1) 0) (List.replicate (2 ^ 64 - 45) 0) (by rw [hlength]; rfl)
    (by rw [hlength]; rfl) (by rw [hlength]; rfl)
  have hentries := (h _ _ _ _ _ _ _ hlong hshort).1
  have hdata := congrArg (fun e : Entry => e.data.length) (List.cons.inj hentries).1
  simp only [Collision.firstLong, Collision.firstShort, List.length_append, hlength] at hdata
  omega

end Blake3.Fc16
