import Blake3.Fc16.Session

/-!
Which sequences of calls stay inside the 64-byte buffer of SHA-256. `finalize`
leaves that buffer full, so that nothing may be fed to a context afterwards.
-/

namespace Blake3.Fc16

/-- A context is used for one snapshot: once a call has finalized, no further
call finalizes or opens an entry. -/
def Log.OneSnapshot (log : Log) : List Call → Prop
  | [] => True
  | call :: calls =>
      (log.Closes call → ∀ later ∈ calls, ¬log.Closes later ∧ ¬log.Opens later) ∧
        (¬log.Closes call → (log.next call).2.OneSnapshot calls)

theorem init_sha256 (hw : UInt64) (tb limit delta : Word) :
    ∃ c₀ : Context Sha256Ctx, init sha256 hw tb limit delta = .ok c₀ ∧
      Keeps sha256 (fun c => c.bufferLen < 64) c₀ .empty c₀ := by
  obtain ⟨s, htag, hready⟩ := lawful_sha256.update sha256.init tag lawful_sha256.init
  exact ⟨_, init_eq htag, keeps_initial lawful_sha256 hw tb limit delta hready⟩

/-- What is returned in the end does not decide whether a run goes through. -/
theorem bind_ok_iff {α β : Type} (x : Result α) (f : α → β) :
    (∃ r, (x >>= fun a => pure (f a) : Result β) = .ok r) ↔ ∃ a, x = .ok a := by
  cases x with
  | error e => exact ⟨fun ⟨_, h⟩ => (by cases h), fun ⟨_, h⟩ => (by cases h)⟩
  | ok a => exact ⟨fun _ => ⟨a, rfl⟩, fun _ => ⟨f a, rfl⟩⟩

/-- A context that has been finalized. -/
structure Finalized (c : Context Sha256Ctx) : Prop where
  full : c.sha.bufferLen = 64
  entryOpen : c.entryOpen = false

section

variable {c₀ c : Context Sha256Ctx} {log : Log}

theorem feedMeta_full {p : List Byte} (hp : p ≠ []) (h : c.sha.bufferLen = 64) :
    feedMeta sha256 c p = .error .outOfBounds := by
  have hupdate : sha256.update c.sha p = .error .outOfBounds := Sha256Ctx.update_of_full hp h
  rw [feedMeta, hupdate]
  rfl

/-- What would be fed to a finalized context falls behind the buffer. -/
theorem Finalized.step_feeds (h : Finalized c) {call : Call}
    (hcall : log.Closes call ∨ log.Opens call) : step sha256 c call = .error .outOfBounds := by
  cases call with
  | entryBegin path size kind =>
      obtain ⟨hpath, hlen, -⟩ := hcall.resolve_left fun hcloses => hcloses
      obtain ⟨bytes, hdata⟩ := Option.ne_none_iff_exists'.mp hpath
      rw [step, entryBegin, hdata]
      simp only [if_neg hlen, h.entryOpen, Bool.false_eq_true, if_false]
      have hmeta : entryMeta path.len size kind ≠ [] := by simp [entryMeta]
      rw [feedMeta_full hmeta (by exact h.full)]
      rfl
  | entryData data => exact absurd hcall (by rintro (h | h) <;> exact h)
  | entryEnd => exact absurd hcall (by rintro (h | h) <;> exact h)
  | finalize ta out =>
      obtain ⟨rfl, -⟩ := hcall.resolve_right fun hopens => hopens
      rw [step, finalize, if_neg (by decide), if_neg (by rw [h.entryOpen]; decide)]
      have hmeta : ∀ c : Context Sha256Ctx, finalMeta c ta ≠ [] := by simp [finalMeta]
      dsimp only
      rw [feedMeta_full (hmeta _) (by exact h.full)]
      rfl

/-- Every other call is rejected by a finalized context. -/
theorem Finalized.step_rejected (h : Finalized c) (hopened : log.opened = none) {call : Call}
    (hcloses : ¬log.Closes call) (hopens : ¬log.Opens call) :
    ∃ s, step sha256 c call = .ok (s, c) := by
  cases call with
  | entryBegin path size kind =>
      rw [step, entryBegin]
      rcases hdata : path.data with _ | bytes
      · exact ⟨_, rfl⟩
      · have hlen : path.len = 0 := by
          by_contra hne
          exact hopens ⟨by rw [hdata]; simp, hne, hopened⟩
        simp only [if_pos hlen]
        exact ⟨_, rfl⟩
  | entryData data =>
      rw [step, entryData]
      by_cases hnull : data.data = none ∧ data.len ≠ 0
      · rw [if_pos hnull]
        exact ⟨_, rfl⟩
      · rw [if_neg hnull, if_pos (by rw [h.entryOpen]; decide)]
        exact ⟨_, rfl⟩
  | entryEnd =>
      rw [step, entryEnd, if_pos (by rw [h.entryOpen]; decide)]
      exact ⟨_, rfl⟩
  | finalize ta out =>
      cases out with
      | false => exact ⟨_, rfl⟩
      | true => exact absurd ⟨rfl, hopened⟩ hcloses

theorem Finalized.run_iff (h : Finalized c) (hopened : log.opened = none) (calls : List Call) :
    (∃ r, run sha256 c calls = .ok r) ↔ ∀ later ∈ calls, ¬log.Closes later ∧ ¬log.Opens later := by
  induction calls with
  | nil => exact ⟨fun _ => by simp, fun _ => ⟨_, rfl⟩⟩
  | cons call calls ih =>
      rw [List.forall_mem_cons, ← ih, run]
      by_cases hfeeds : log.Closes call ∨ log.Opens call
      · rw [h.step_feeds hfeeds]
        constructor
        · rintro ⟨r, hr⟩
          cases hr
        · rintro ⟨⟨hcloses, hopens⟩, -⟩
          exact absurd hfeeds (not_or.mpr ⟨hcloses, hopens⟩)
      · obtain ⟨hcloses, hopens⟩ := not_or.mp hfeeds
        obtain ⟨s, hstep⟩ := h.step_rejected hopened hcloses hopens
        rw [hstep, Result.ok_bind, bind_ok_iff]
        exact ⟨fun hrun => ⟨⟨hcloses, hopens⟩, hrun⟩, fun hrun => hrun.2⟩

/-- The call that finalizes goes through and leaves the buffer full. -/
theorem finalized_of_closes (h : Keeps sha256 (fun c => c.bufferLen < 64) c₀ log c) {call : Call}
    (hcloses : log.Closes call) :
    log.opened = none ∧ ∃ s c', step sha256 c call = .ok (s, c') ∧ Finalized c' := by
  obtain ⟨hopened, ta, rfl⟩ := hcloses.eq_finalize
  obtain ⟨s, s', digest, c', -, hready, hfinal, hsha, hopen, hfinalize⟩ :=
    finalize_eq lawful_sha256 h hopened ta
  obtain ⟨s'', digest', hfinal', hfull⟩ := Sha256Ctx.final_of_lt hready
  obtain ⟨rfl, -⟩ := Prod.mk.inj (Except.ok.inj (hfinal.symm.trans hfinal'))
  exact ⟨hopened, _, c', by rw [step, hfinalize]; rfl, hsha ▸ hfull, hopen⟩

theorem run_iff (h : Keeps sha256 (fun c => c.bufferLen < 64) c₀ log c) (calls : List Call) :
    (∃ r, run sha256 c calls = .ok r) ↔ log.OneSnapshot calls := by
  induction calls generalizing log c with
  | nil => exact ⟨fun _ => trivial, fun _ => ⟨_, rfl⟩⟩
  | cons call calls ih =>
      rw [run, Log.OneSnapshot]
      by_cases hcloses : log.Closes call
      · obtain ⟨hopened, s, c', hstep, hfinalized⟩ := finalized_of_closes h hcloses
        rw [hstep, Result.ok_bind, bind_ok_iff, hfinalized.run_iff hopened calls]
        exact ⟨fun hlater => ⟨fun _ => hlater, fun hne => absurd hcloses hne⟩,
          fun hone => hone.1 hcloses⟩
      · obtain ⟨c', hstep, hkeeps⟩ := keeps_step lawful_sha256 h hcloses
        rw [hstep, Result.ok_bind, bind_ok_iff, ih hkeeps]
        exact ⟨fun hone => ⟨fun h => absurd h hcloses, fun _ => hone⟩, fun hone => hone.2 hcloses⟩

end

/-- The calls after `init` never store behind the buffer exactly when the
context is used for one snapshot. -/
theorem run_in_bounds_iff (hw : UInt64) (tb limit delta : Word) (calls : List Call) :
    (∃ c₀ r, init sha256 hw tb limit delta = .ok c₀ ∧ run sha256 c₀ calls = .ok r) ↔
      Log.empty.OneSnapshot calls := by
  obtain ⟨c₀, hinit, hkeeps⟩ := init_sha256 hw tb limit delta
  rw [← run_iff hkeeps]
  constructor
  · rintro ⟨c, r, hc, hr⟩
    obtain rfl := Except.ok.inj (hc.symm.trans hinit)
    exact ⟨r, hr⟩
  · rintro ⟨r, hr⟩
    exact ⟨c₀, r, hinit, hr⟩

/-- A second `finalize` stores its first byte behind the buffer. -/
theorem finalize_twice_out_of_bounds :
    ∃ c₀ : Context Sha256Ctx, init sha256 0 0 0 0 = .ok c₀ ∧
      run sha256 c₀ [.finalize 0 true, .finalize 0 true] = .error .outOfBounds := by
  obtain ⟨c₀, hinit, hkeeps⟩ := init_sha256 0 0 0 0
  have hcloses : Log.empty.Closes (.finalize 0 true) := ⟨rfl, rfl⟩
  obtain ⟨hopened, s, c, hstep, hfinalized⟩ := finalized_of_closes hkeeps hcloses
  have hsecond : run sha256 c [.finalize 0 true] = .error .outOfBounds := by
    rw [run, hfinalized.step_feeds (.inl hcloses)]
    rfl
  refine ⟨c₀, hinit, ?_⟩
  rw [run, hstep, Result.ok_bind]
  simp only [hsecond]
  rfl

end Blake3.Fc16
