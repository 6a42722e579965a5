import Blake3.Lib.Regions
import Blake3.Lowlevel.Copy

/-!
The allocator of `rmr_lowlevel.h` for targets without a heap: it hands out an arena from
the front on, and takes it back only as a whole.
-/

namespace Blake3.Lowlevel

open ByteMemory Regions

/-- `rmr_freestanding_arena` and `RMR_FREESTANDING_ARENA_SIZE`. -/
structure Arena (t : Target) where
  start : ℕ
  size : t.Size

/-- The memory and `rmr_freestanding_arena_head`. -/
structure Heap where
  mem : Mem
  head : ℕ

/-- What a call returns: an address, or `NULL`. -/
abbrev Pointer := Option ℕ

namespace Arena

variable {t : Target}

/-- `rmr_ll_freestanding_available` -/
def available (A : Arena t) (s : Heap) : ℕ := (A.size + 2 ^ t.bits - s.head) % 2 ^ t.bits

/-- `(size + (sizeof(uintptr_t) - 1u)) & ~(sizeof(uintptr_t) - 1u)` -/
def aligned (t : Target) (size : ℕ) : ℕ :=
  (size + (t.wordSize - 1)) % 2 ^ t.bits &&& (2 ^ t.bits - 1 - (t.wordSize - 1))

/-- `rmr_ll_malloc` -/
def malloc (A : Arena t) (s : Heap) (size : ℕ) : Pointer × Heap :=
  let aligned := aligned t size
  if aligned = 0 then (none, s)
  else if A.available s < aligned then (none, s)
  else (some (A.start + s.head), { s with head := (s.head + aligned) % 2 ^ t.bits })

/-- `rmr_ll_calloc` -/
def calloc (A : Arena t) (s : Heap) (count size : ℕ) : Option (Pointer × Heap) :=
  if count = 0 ∨ size = 0 then some (none, s)
  else if (2 ^ t.bits - 1) / size < count then some (none, s)
  else
    match A.malloc s (count * size % 2 ^ t.bits) with
    | (none, s) => some (none, s)
    | (some ptr, s) => do
        let mem ← rmrMemset t s.mem ptr 0 (count * size % 2 ^ t.bits)
        some (some ptr, { s with mem := mem })

/-- `rmr_ll_freestanding_reset_allocator` -/
def resetAllocator (s : Heap) : Heap := { s with head := 0 }

/-! ### Calls -/

inductive Call (t : Target) where
  | malloc (size : t.Size)
  | calloc (count size : t.Size)
  | reset

/-- The bytes that a call asks for. -/
def Call.requested : Call t → ℕ
  | .malloc size => size
  | .calloc count size => count * size
  | .reset => 0

/-- What a call returns and leaves. -/
def step (A : Arena t) (s : Heap) : Call t → Option (Pointer × Heap)
  | .malloc size => some (A.malloc s size)
  | .calloc count size => A.calloc s count size
  | .reset => some (none, resetAllocator s)

/-- A block that has been returned: what has been set aside for it, and what was asked for. -/
structure Returned where
  region : Region
  requested : ℕ

/-- The blocks since the last reset, after one more call. -/
def after (blocks : List Returned) (call : Call t) (ptr : Pointer) (s s' : Heap) : List Returned :=
  match call, ptr with
  | .reset, _ => []
  | _, none => blocks
  | call, some p => blocks ++ [⟨⟨p, s'.head - s.head⟩, call.requested⟩]

/-- A sequence of calls: what they leave, and the blocks since the last reset. -/
def run (A : Arena t) : List (Call t) → Heap → List Returned → Option (Heap × List Returned)
  | [], s, blocks => some (s, blocks)
  | call :: calls, s, blocks => do
      let (ptr, s') ← A.step s call
      run A calls s' (after blocks call ptr s s')

/-! ### One call -/

theorem aligned_spec (size : t.Size) :
    t.wordSize ∣ aligned t size ∧ aligned t size < 2 ^ t.bits ∧
      (aligned t size = 0 ∨ size ≤ aligned t size) := by
  obtain ⟨k, hk, hle⟩ : ∃ k, t.wordSize = 2 ^ k ∧ k ≤ t.bits := by
    rcases t.wordSize_eq with h | h
    · exact ⟨2, h, by rw [Target.bits, h]; decide⟩
    · exact ⟨3, h, by rw [Target.bits, h]; decide⟩
  have hround := roundUp_spec hle size.isLt
  rw [roundUp, ← hk] at hround
  exact hround

/-- The head is in the arena, at a multiple of the size of a word. -/
structure Ready (A : Arena t) (s : Heap) : Prop where
  head_le : s.head ≤ A.size
  head_dvd : t.wordSize ∣ s.head

variable {A : Arena t} {s : Heap}

theorem Ready.available_eq (h : A.Ready s) : A.available s = A.size - s.head := by
  have hhead := h.head_le
  have hsize := A.size.isLt
  rw [available, show A.size.val + 2 ^ t.bits - s.head = A.size.val - s.head + 2 ^ t.bits by omega,
    Nat.add_mod_right, Nat.mod_eq_of_lt (by omega)]

/-- `s'` has `n` bytes more set aside than `s`, enough for `requested` ones. -/
structure Grows (A : Arena t) (s s' : Heap) (requested n : ℕ) : Prop where
  ready : A.Ready s'
  head_eq : s'.head = s.head + n
  requested_le : requested ≤ n

/-- `malloc` returns the place of the head and moves it on, or changes nothing. -/
theorem Ready.malloc (h : A.Ready s) (size : t.Size) :
    A.malloc s size = (none, s) ∨
      ∃ n s', A.malloc s size = (some (A.start + s.head), s') ∧ A.Grows s s' size n ∧
        s'.mem = s.mem := by
  obtain ⟨hdvd, hlt, hsize⟩ := aligned_spec size
  rw [Arena.malloc]
  by_cases hzero : aligned t size = 0
  · exact .inl (if_pos hzero)
  rw [if_neg hzero, h.available_eq]
  by_cases hfull : A.size - s.head < aligned t size
  · exact .inl (if_pos hfull)
  have hhead := h.head_le
  have harena := A.size.isLt
  have hmod : (s.head + aligned t size) % 2 ^ t.bits = s.head + aligned t size :=
    Nat.mod_eq_of_lt (by omega)
  rw [if_neg hfull, hmod]
  refine .inr ⟨aligned t size, _, rfl, ⟨⟨?_, Nat.dvd_add h.head_dvd hdvd⟩, rfl, ?_⟩, rfl⟩
  · dsimp only
    omega
  · exact hsize.resolve_left hzero

/-- `calloc` does what `malloc` does for the product, which does not overflow, and sets the
block to zero. -/
theorem Ready.calloc (h : A.Ready s) (count size : t.Size) :
    A.calloc s count size = some (none, s) ∨
      ∃ n s', A.calloc s count size = some (some (A.start + s.head), s') ∧
        A.Grows s s' (count * size) n ∧ count.val * size < 2 ^ t.bits ∧
        s'.mem = store s.mem (A.start + s.head) (List.replicate (count * size) 0) := by
  rw [Arena.calloc]
  by_cases hzero : count.val = 0 ∨ size.val = 0
  · exact .inl (if_pos hzero)
  rw [if_neg hzero]
  by_cases hmany : (2 ^ t.bits - 1) / size.val < count.val
  · exact .inl (if_pos hmany)
  have hpos : 0 < size.val := by omega
  have hpow := Nat.two_pow_pos t.bits
  have hfits : count.val * size < 2 ^ t.bits := by
    have hle := (Nat.le_div_iff_mul_le hpos).mp (Nat.not_lt.mp hmany)
    omega
  rw [if_neg hmany, Nat.mod_eq_of_lt hfits]
  rcases h.malloc ⟨count * size, hfits⟩ with hnull | ⟨n, s', hmalloc, hgrows, hmem⟩
  · left
    dsimp only at hnull
    rw [hnull]
  · right
    dsimp only at hmalloc
    rw [hmalloc]
    simp only [hmem, rmrMemset_eq 0 hfits, Option.bind_eq_bind, Option.bind_some]
    exact ⟨n, _, rfl, ⟨⟨hgrows.ready.head_le, hgrows.ready.head_dvd⟩, hgrows.head_eq,
      hgrows.requested_le⟩, hfits, rfl⟩

/-- The bytes that a call writes to the block it returns. -/
def Call.written : Call t → List Byte
  | .malloc _ => []
  | .calloc count size => List.replicate (count * size) 0
  | .reset => []

/-- What a call may return and leave. -/
inductive Outcome (A : Arena t) (s : Heap) : Call t → Pointer → Heap → Prop
  | reset : Outcome A s .reset none (resetAllocator s)
  | null {call : Call t} : call ≠ .reset → Outcome A s call none s
  | returned {call : Call t} {s' : Heap} {n : ℕ} : call ≠ .reset →
      A.Grows s s' call.requested n → call.requested < 2 ^ t.bits →
      s'.mem = store s.mem (A.start + s.head) call.written →
      Outcome A s call (some (A.start + s.head)) s'

theorem Ready.step (h : A.Ready s) (call : Call t) :
    ∃ ptr s', A.step s call = some (ptr, s') ∧ A.Outcome s call ptr s' := by
  cases call with
  | malloc size =>
      rcases h.malloc size with hnull | ⟨n, s', hmalloc, hgrows, hmem⟩
      · exact ⟨none, s, congrArg some hnull, .null (by simp)⟩
      · exact ⟨_, s', congrArg some hmalloc,
          .returned (by simp) hgrows size.isLt (hmem.trans store_nil.symm)⟩
  | calloc count size =>
      rcases h.calloc count size with hnull | ⟨n, s', hcalloc, hgrows, hfits, hmem⟩
      · exact ⟨none, s, hnull, .null (by simp)⟩
      · exact ⟨_, s', hcalloc, .returned (by simp) hgrows hfits hmem⟩
  | reset => exact ⟨none, _, rfl, .reset⟩

/-! ### Any calls -/

/-- The blocks since the last reset fill the arena up to its head. -/
structure Sound (A : Arena t) (s : Heap) (blocks : List Returned) : Prop where
  ready : A.Ready s
  adjacent : Adjacent A.start (blocks.map Returned.region) (A.start + s.head)
  requested_le : ∀ b ∈ blocks, b.requested ≤ b.region.size

theorem sound_empty (A : Arena t) (m : Mem) : A.Sound ⟨m, 0⟩ [] where
  ready := ⟨Nat.zero_le _, Nat.dvd_zero _⟩
  adjacent := .nil
  requested_le := by simp

variable {blocks : List Returned} {call : Call t} {ptr : Pointer} {s' : Heap}

theorem Sound.after (h : A.Sound s blocks) (houtcome : A.Outcome s call ptr s') :
    A.Sound s' (after blocks call ptr s s') := by
  cases houtcome with
  | reset => exact sound_empty A s.mem
  | null hcall =>
      have hsame : Arena.after blocks call none s s = blocks := by
        cases call <;> first | rfl | exact absurd rfl hcall
      rwa [hsame]
  | @returned _ _ n hcall hgrows hfits hmem =>
      have hafter : Arena.after blocks call (some (A.start + s.head)) s s' =
          blocks ++ [⟨⟨A.start + s.head, n⟩, call.requested⟩] := by
        rw [show n = s'.head - s.head by rw [hgrows.head_eq, Nat.add_sub_cancel_left]]
        cases call <;> first | rfl | exact absurd rfl hcall
      rw [hafter]
      refine ⟨hgrows.ready, ?_, ?_⟩
      · rw [List.map_append, hgrows.head_eq, ← Nat.add_assoc]
        exact h.adjacent.concat n
      · exact List.forall_mem_append.mpr ⟨h.requested_le, by simpa using hgrows.requested_le⟩

theorem Sound.run (h : A.Sound s blocks) (calls : List (Call t)) :
    ∃ s' blocks', A.run calls s blocks = some (s', blocks') ∧ A.Sound s' blocks' := by
  induction calls generalizing s blocks with
  | nil => exact ⟨s, blocks, rfl, h⟩
  | cons call calls ih =>
      obtain ⟨ptr, s₁, hstep, houtcome⟩ := h.ready.step call
      obtain ⟨s', blocks', hrun, hsound⟩ := ih (h.after houtcome)
      refine ⟨s', blocks', ?_, hsound⟩
      rw [Arena.run, hstep, Option.bind_eq_bind, Option.bind_some]
      exact hrun

/-- After any calls the head is in the arena, at a multiple of the size of a word, and the
blocks since the last reset lie one behind the other in the arena, each as large as it has to
be. A further call, whatever has been stored meanwhile, changes nothing if it returns `NULL`;
otherwise nothing wraps, and it writes only zeros, only for `calloc`, and only to its block. -/
theorem run_spec (A : Arena t) (m : Mem) (calls : List (Call t)) :
    ∃ s blocks, A.run calls ⟨m, 0⟩ [] = some (s, blocks) ∧
      s.head ≤ A.size ∧ t.wordSize ∣ s.head ∧
      (blocks.Pairwise fun b c => b.region.stop ≤ c.region.start) ∧
      (∀ b ∈ blocks, A.start ≤ b.region.start ∧ b.region.stop ≤ A.start + A.size ∧
        b.requested ≤ b.region.size) ∧
      ∀ mem call, ∃ ptr s', A.step { s with mem := mem } call = some (ptr, s') ∧
        (ptr = none → call ≠ .reset → s' = { s with mem := mem }) ∧
        ∀ p, ptr = some p → call.requested < 2 ^ t.bits ∧
          (∀ count size, call = .calloc count size →
            ∀ i < count.val * size.val, s'.mem (p + i) = 0) ∧
          ∀ a, a < p ∨ p + call.requested ≤ a → s'.mem a = mem a := by
  obtain ⟨s, blocks, hrun, hsound⟩ := (sound_empty A m).run calls
  have hbounds := hsound.adjacent.bounds.2
  have hhead := hsound.ready.head_le
  refine ⟨s, blocks, hrun, hhead, hsound.ready.head_dvd,
    List.pairwise_map.mp hsound.adjacent.pairwise, fun b hb => ?_, fun mem call => ?_⟩
  · obtain ⟨hlow, hhigh⟩ := hbounds b.region (List.mem_map_of_mem hb)
    exact ⟨hlow, by omega, hsound.requested_le b hb⟩
  have hready : A.Ready { s with mem := mem } := ⟨hhead, hsound.ready.head_dvd⟩
  obtain ⟨ptr, s', hstep, houtcome⟩ := hready.step call
  refine ⟨ptr, s', hstep, ?_⟩
  cases houtcome with
  | reset => exact ⟨fun _ hcall => absurd rfl hcall, by simp⟩
  | null hcall => exact ⟨fun _ _ => rfl, by simp⟩
  | returned hcall hgrows hfits hmem =>
      refine ⟨by simp, fun p hp => ?_⟩
      obtain rfl := Option.some.inj hp
      refine ⟨hfits, ?_, fun a ha => ?_⟩
      · rintro count size rfl i hi
        rw [hmem, Call.written, store_apply_lt (by rwa [List.length_replicate]),
          List.getD_replicate _ hi]
      · rw [hmem]
        refine store_apply_of_not ?_
        cases call with
        | malloc size =>
            rw [Call.written, List.length_nil]
            omega
        | calloc count size => rwa [Call.written, List.length_replicate]
        | reset => exact absurd rfl hcall

end Arena

end Blake3.Lowlevel
