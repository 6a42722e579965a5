import Blake3.Lib.ReleaseAcquire
import Blake3.Parallel
import Blake3.Simd.Avx512

/-!
The features of the processor, which `get_cpu_features` finds out once and
keeps in `g_cpu_features`, and the dispatch that rests on them: whichever
threads call first, all calls see the same features, and only those that
the operating system supports as well.
-/

namespace Blake3.Simd.CpuFeatures

open ReleaseAcquire

/-! ### The bits of `enum cpu_feature` -/

def sse2 : UInt32 := (1 : UInt32) <<< 0
def ssse3 : UInt32 := (1 : UInt32) <<< 1
def sse41 : UInt32 := (1 : UInt32) <<< 2
def avx : UInt32 := (1 : UInt32) <<< 3
def avx2 : UInt32 := (1 : UInt32) <<< 4
def avx512f : UInt32 := (1 : UInt32) <<< 5
def avx512vl : UInt32 := (1 : UInt32) <<< 6
def undefined : UInt32 := (1 : UInt32) <<< 30

/-- The registers after `cpuid`. -/
structure CpuidRegs where
  eax : UInt32
  ebx : UInt32
  ecx : UInt32
  edx : UInt32

/-- What the processor answers, the same on all its cores. -/
structure Processor where
  cpuid : UInt32 → CpuidRegs
  cpuidex : UInt32 → UInt32 → CpuidRegs
  xgetbv : UInt64

/-- What a build decides. -/
structure Target where
  isX86 : Bool
  /-- On 64 bits SSE2 needs no test. -/
  amd64 : Bool
  noAvx512 : Bool
  noAvx2 : Bool
  noSse41 : Bool
  noSse2 : Bool
  useNeon : Bool
  windows : Bool
  byteShuffle : Bool

/-- `features |= bit` under a condition. -/
def setIf (condition : Bool) (bit features : UInt32) : UInt32 :=
  if condition then features ||| bit else features

def bitSet (reg bit : UInt32) : Bool :=
  reg &&& ((1 : UInt32) <<< bit) != 0

/-- The part of `get_cpu_features` that asks the processor. -/
def detectFeatures (target : Target) (cpu : Processor) : UInt32 :=
  let maxId := (cpu.cpuid 0).eax.toInt32
  let regs := cpu.cpuid 1
  let features := setIf (target.amd64 || bitSet regs.edx 26) sse2 0
  let features := setIf (bitSet regs.ecx 9) ssse3 features
  let features := setIf (bitSet regs.ecx 19) sse41 features
  if bitSet regs.ecx 27 then
    let mask := cpu.xgetbv
    if mask &&& 6 = 6 then
      let features := setIf (bitSet regs.ecx 28) avx features
      if 7 ≤ maxId then
        let regs := cpu.cpuidex 7 0
        let features := setIf (bitSet regs.ebx 5) avx2 features
        if mask &&& 224 = 224 then
          let features := setIf (bitSet regs.ebx 31) avx512vl features
          setIf (bitSet regs.ebx 16) avx512f features
        else features
      else features
    else features
  else features

/-- The operating system saves the registers of AVX. -/
def osAvx (cpu : Processor) : Bool :=
  bitSet (cpu.cpuid 1).ecx 27 && cpu.xgetbv &&& 6 == 6

/-- It saves those of AVX-512 as well. -/
def osAvx512 (cpu : Processor) : Bool :=
  osAvx cpu && cpu.xgetbv &&& 224 == 224

/-- What each bit of the features says. -/
structure Detected (target : Target) (cpu : Processor) (features : UInt32) : Prop where
  sse2 : features &&& sse2 ≠ 0 ↔ target.amd64 ∨ bitSet (cpu.cpuid 1).edx 26
  ssse3 : features &&& ssse3 ≠ 0 ↔ bitSet (cpu.cpuid 1).ecx 9
  sse41 : features &&& sse41 ≠ 0 ↔ bitSet (cpu.cpuid 1).ecx 19
  avx : features &&& avx ≠ 0 ↔ bitSet (cpu.cpuid 1).ecx 28 ∧ osAvx cpu
  avx2 : features &&& avx2 ≠ 0 ↔
    bitSet (cpu.cpuidex 7 0).ebx 5 ∧ 7 ≤ (cpu.cpuid 0).eax.toInt32 ∧ osAvx cpu
  avx512f : features &&& avx512f ≠ 0 ↔
    bitSet (cpu.cpuidex 7 0).ebx 16 ∧ 7 ≤ (cpu.cpuid 0).eax.toInt32 ∧ osAvx512 cpu
  avx512vl : features &&& avx512vl ≠ 0 ↔
    bitSet (cpu.cpuidex 7 0).ebx 31 ∧ 7 ≤ (cpu.cpuid 0).eax.toInt32 ∧ osAvx512 cpu
  undefined : features &&& undefined = 0

theorem setIf_and_ne_zero {condition : Bool} {bit features x : UInt32} :
    setIf condition bit features &&& x ≠ 0 ↔
      condition ∧ bit &&& x ≠ 0 ∨ features &&& x ≠ 0 := by
  cases condition with
  | false => simp [setIf]
  | true =>
      have hor : (features ||| bit) &&& x = features &&& x ||| bit &&& x :=
        UInt32.toBitVec_inj.mp BitVec.and_or_distrib_right
      rw [setIf, if_pos rfl, hor, Ne, UInt32.or_eq_zero_iff]
      tauto

/-- The tests inside of tests as conditions of single bits. -/
theorem detectFeatures_eq (target : Target) (cpu : Processor) :
    detectFeatures target cpu =
      setIf (osAvx512 cpu && (7 ≤ (cpu.cpuid 0).eax.toInt32) && bitSet (cpu.cpuidex 7 0).ebx 16)
        avx512f
      (setIf (osAvx512 cpu && (7 ≤ (cpu.cpuid 0).eax.toInt32) && bitSet (cpu.cpuidex 7 0).ebx 31)
        avx512vl
      (setIf (osAvx cpu && (7 ≤ (cpu.cpuid 0).eax.toInt32) && bitSet (cpu.cpuidex 7 0).ebx 5) avx2
      (setIf (osAvx cpu && bitSet (cpu.cpuid 1).ecx 28) avx
      (setIf (bitSet (cpu.cpuid 1).ecx 19) sse41
      (setIf (bitSet (cpu.cpuid 1).ecx 9) ssse3
      (setIf (target.amd64 || bitSet (cpu.cpuid 1).edx 26) sse2 0)))))) := by
  have hfalse : ∀ bit features : UInt32, setIf false bit features = features := fun _ _ => rfl
  unfold detectFeatures osAvx512 osAvx
  by_cases hxsave : bitSet (cpu.cpuid 1).ecx 27
  · by_cases hmask : cpu.xgetbv &&& 6 = 6
    · by_cases hid : 7 ≤ (cpu.cpuid 0).eax.toInt32
      · by_cases hzmm : cpu.xgetbv &&& 224 = 224
        · simp [hxsave, hmask, hid, hzmm]
        · have hno : (cpu.xgetbv &&& 224 == 224) = false := beq_eq_false_iff_ne.mpr hzmm
          simp [hxsave, hmask, hid, hno, hzmm, hfalse]
      · simp [hxsave, hmask, hid, hfalse]
    · have hno : (cpu.xgetbv &&& 6 == 6) = false := beq_eq_false_iff_ne.mpr hmask
      simp [hxsave, hno, hmask, hfalse]
  · simp [hxsave, hfalse]

theorem detectFeatures_detected (target : Target) (cpu : Processor) :
    Detected target cpu (detectFeatures target cpu) := by
  rw [detectFeatures_eq]
  constructor
  case undefined =>
    by_contra h
    simp +decide only [setIf_and_ne_zero, and_false, or_self] at h
  case sse2 | ssse3 | sse41 =>
    simp +decide only [setIf_and_ne_zero, Bool.or_eq_true, and_false, and_true, false_or, or_false]
  case avx | avx2 | avx512f | avx512vl =>
    simp +decide only [setIf_and_ne_zero, Bool.and_eq_true, decide_eq_true_eq, and_false, and_true,
      false_or, or_false]
    tauto

theorem detectFeatures_ne_undefined (target : Target) (cpu : Processor) :
    detectFeatures target cpu ≠ CpuFeatures.undefined := by
  intro h
  have hzero := (detectFeatures_detected target cpu).undefined
  rw [h] at hzero
  exact absurd hzero (by decide)

/-! ### Dispatch on the bits -/

def maxSimdDegree (target : Target) : ℕ :=
  if target.isX86 then 16 else if target.useNeon then 4 else 1

def blake3SimdDegree (target : Target) (features : UInt32) : ℕ :=
  if target.isX86 ∧ !target.noAvx512 ∧ features &&& (avx512f ||| avx512vl) = avx512f ||| avx512vl
  then 16
  else if target.isX86 ∧ !target.noAvx2 ∧ features &&& avx2 ≠ 0 then 8
  else if target.isX86 ∧ !target.noSse41 ∧ features &&& sse41 ≠ 0 then 4
  else if target.isX86 ∧ !target.noSse2 ∧ features &&& sse2 ≠ 0 then 4
  else if target.useNeon then 4
  else 1

/-- The features that the build has code for. -/
def usable (target : Target) (features : UInt32) : Features where
  sse2 := target.isX86 && !target.noSse2 && decide (features &&& sse2 ≠ 0)
  sse41 := target.isX86 && !target.noSse41 && decide (features &&& sse41 ≠ 0)
  avx2 := target.isX86 && !target.noAvx2 && decide (features &&& avx2 ≠ 0)
  avx512f := target.isX86 && !target.noAvx512 && decide (features &&& avx512f ≠ 0)
  avx512vl := target.isX86 && !target.noAvx512 && decide (features &&& avx512vl ≠ 0)
  neon := target.useNeon

def dispatchBuild (target : Target) : DispatchBuild where
  windows := target.windows
  noSse41 := target.noSse41
  byteShuffle := target.byteShuffle

/-- A test of two bits at once. -/
theorem and_or_eq_iff (features : UInt32) :
    features &&& (avx512f ||| avx512vl) = avx512f ||| avx512vl ↔
      features &&& avx512f ≠ 0 ∧ features &&& avx512vl ≠ 0 := by
  have hf : features &&& avx512f = if features.toBitVec.getLsbD 5 then avx512f else 0 := by
    apply UInt32.toBitVec_inj.mp
    rw [apply_ite UInt32.toBitVec]
    exact BitVec.and_twoPow features.toBitVec 5
  have hvl : features &&& avx512vl = if features.toBitVec.getLsbD 6 then avx512vl else 0 := by
    apply UInt32.toBitVec_inj.mp
    rw [apply_ite UInt32.toBitVec]
    exact BitVec.and_twoPow features.toBitVec 6
  have hor : features &&& (avx512f ||| avx512vl) =
      features &&& avx512f ||| features &&& avx512vl :=
    UInt32.toBitVec_inj.mp BitVec.and_or_distrib_left
  rw [hor, hf, hvl]
  split_ifs <;> decide

/-- The implementations of `hash_many`. -/
inductive Kernel
  | avx512
  | avx2
  | sse41
  | sse2
  | neon
  | portable

/-- How many inputs the kernel works on at once. -/
def Kernel.lanes : Kernel → ℕ
  | .avx512 => 16
  | .avx2 => 8
  | .sse41 | .sse2 | .neon => 4
  | .portable => 1

def Kernel.hashMany (build : DispatchBuild) (args : ManyArgs) :
    Kernel → List (List Byte) → UInt64 → List Byte
  | .avx512 => hashManyAvx512 args
  | .avx2 => hashManyAvx2 args build.noSse41
  | .sse41 => hashManySse41 args
  | .sse2 => hashManySse2 args
  | .neon => hashManyNeon args build.byteShuffle
  | .portable => hashManyPortable args

def kernel (features : Features) : Kernel :=
  if features.avx512f && features.avx512vl then .avx512
  else if features.avx2 then .avx2
  else if features.sse41 then .sse41
  else if features.sse2 then .sse2
  else if features.neon then .neon
  else .portable

theorem blake3HashMany_kernel (features : Features) (build : DispatchBuild) (args : ManyArgs) :
    blake3HashMany features build args = (kernel features).hashMany build args := by
  unfold blake3HashMany kernel
  split_ifs <;> rfl

theorem kernel_lanes (features : Features) : (kernel features).lanes =
    if features.avx512f && features.avx512vl then 16 else if features.avx2 then 8
    else if features.sse41 then 4 else if features.sse2 then 4
    else if features.neon then 4 else 1 := by
  unfold kernel
  split_ifs <;> rfl

/-- The degree is the number of lanes of the kernel that the dispatch takes. -/
theorem blake3SimdDegree_eq (target : Target) (features : UInt32) :
    blake3SimdDegree target features = (kernel (usable target features)).lanes := by
  have hboth : ∀ p q r s : Prop, p ∧ q ∧ r ∧ s ↔ p ∧ q ∧ r ∧ p ∧ q ∧ s := by tauto
  rw [kernel_lanes]
  unfold blake3SimdDegree usable
  simp only [and_or_eq_iff, Bool.and_eq_true, decide_eq_true_eq, and_assoc]
  exact if_congr (hboth _ _ _ _) rfl rfl

theorem blake3SimdDegree_pow (target : Target) (features : UInt32) :
    ∃ i, blake3SimdDegree target features = 2 ^ i := by
  unfold blake3SimdDegree
  split_ifs
  exacts [⟨4, rfl⟩, ⟨3, rfl⟩, ⟨2, rfl⟩, ⟨2, rfl⟩, ⟨2, rfl⟩, ⟨0, rfl⟩]

theorem blake3SimdDegree_le (target : Target) (features : UInt32) :
    blake3SimdDegree target features ≤ maxSimdDegree target := by
  unfold blake3SimdDegree maxSimdDegree
  split_ifs <;> simp_all

/-- The degree of the processor within the bound that the build has for its arrays. -/
def simdOf (target : Target) (features : UInt32) : Blake3.Simd where
  degree := blake3SimdDegree target features
  maxDegree := maxSimdDegree target
  degree_pow := blake3SimdDegree_pow target features
  degree_le := blake3SimdDegree_le target features

/-! ### The callers of `get_cpu_features` -/

inductive Pc
  | ready
  | loadFeatures
  | detect
  | storeFeatures (features : UInt32)

/-- A thread with the number of calls it has still to make, and what its calls
so far have returned. -/
structure Caller where
  todo : ℕ
  pc : Pc := .ready
  results : List UInt32 := []

namespace Caller

def goto (s : Caller) (pc : Pc) : Caller := { s with pc := pc }

def give (s : Caller) (features : UInt32) : Caller :=
  { s with pc := .ready, results := s.results ++ [features] }

/-- `get_cpu_features`, with `g_cpu_features` as the only location. -/
def next (target : Target) (cpu : Processor) (s : Caller) : Act (fun _ : Unit => UInt32) Caller :=
  match s.pc with
  | .ready =>
      match s.todo with
      | 0 => .halt
      | todo + 1 => .own { s with todo := todo, pc := .loadFeatures }
  | .loadFeatures =>
      .load () fun features => if features ≠ undefined then s.give features else s.goto .detect
  | .detect =>
      if target.isX86 then .own (s.goto (.storeFeatures (detectFeatures target cpu)))
      else .own (s.give 0)
  | .storeFeatures features => .store () features (s.give features)

end Caller

abbrev State (ι : Type*) := Config (fun _ : Unit => UInt32) ι Caller

def State.init {ι : Type*} (calls : ι → ℕ) : State ι :=
  Config.start (fun _ => undefined) fun i => { todo := calls i }

/-! ### What the callers see -/

/-- What `get_cpu_features` returns to every caller. -/
def cpuFeatures (target : Target) (cpu : Processor) : UInt32 :=
  if target.isX86 then detectFeatures target cpu else 0

variable {target : Target} {cpu : Processor}

/-- All values that have been written to `g_cpu_features`. -/
def WriteOk (target : Target) (cpu : Processor) (_ : Unit) (_ : ℕ)
    (w : Message Unit UInt32) : Prop :=
  w.value ≠ undefined → w.value = cpuFeatures target cpu

structure CallerOk (target : Target) (cpu : Processor) (s : Caller) : Prop where
  storing : ∀ features, s.pc = .storeFeatures features → features = cpuFeatures target cpu
  results : ∀ features ∈ s.results, features = cpuFeatures target cpu

theorem CallerOk.give {s : Caller} (h : CallerOk target cpu s) :
    CallerOk target cpu (s.give (cpuFeatures target cpu)) where
  storing := nofun
  results features hfeatures := by
    rcases List.mem_append.mp hfeatures with hold | hnew
    · exact h.results features hold
    · exact List.mem_singleton.mp hnew

/-- The rank of a caller: the steps that its calls still take. -/
def Caller.rank (s : Caller) : ℕ :=
  4 * s.todo + match s.pc with
    | .ready => 0
    | .loadFeatures => 3
    | .detect => 2
    | .storeFeatures _ => 1

/-- The calls that have returned, that have begun and that are to begin. -/
def Caller.count (s : Caller) : ℕ :=
  s.todo + s.results.length + match s.pc with
    | .ready => 0
    | _ => 1

theorem step_spec {m m' : Memory fun _ : Unit => UInt32} {t t' : Thread Unit Caller}
    (h : Step (Caller.next target cpu) m t m' t') :
    (m.All (WriteOk target cpu) → CallerOk target cpu t.state →
      m'.All (WriteOk target cpu) ∧ CallerOk target cpu t'.state) ∧
    t'.state.rank < t.state.rank ∧ t'.state.count = t.state.count := by
  obtain ⟨⟨todo, pc, results⟩, W⟩ := t
  cases pc with
  | ready =>
      cases todo with
      | zero => cases h with | _ action => cases action
      | succ todo =>
          cases h with
          | own action =>
              cases action
              refine ⟨fun hm hs => ⟨hm, nofun, hs.results⟩, ?_, ?_⟩
              · simp +arith [Caller.rank]
              · simp +arith [Caller.count]
          | _ action => cases action
  | loadFeatures =>
      cases h with
      | load action visible written =>
          cases action
          dsimp only
          -- a word that is not UNDEFINED is the one that every thread detects
          split_ifs with hfeatures
          · refine ⟨fun hm hs => ⟨hm, hm _ _ _ written hfeatures ▸ hs.give⟩, ?_, ?_⟩
            · simp [Caller.rank, Caller.give]
            · simp +arith [Caller.count, Caller.give]
          · refine ⟨fun hm hs => ⟨hm, nofun, hs.results⟩, ?_, ?_⟩
            · simp [Caller.rank, Caller.goto]
            · simp [Caller.count, Caller.goto]
      | _ action => cases action
  | detect =>
      cases hx86 : target.isX86 with
      | false =>
          obtain ⟨rfl, rfl⟩ := h.eq_of_own
            (show _ = Act.own (Caller.give ⟨todo, .detect, results⟩ 0) by
              simp [Caller.next, hx86])
          -- without the branches of x86 nothing is stored
          have hzero : cpuFeatures target cpu = 0 := by simp [cpuFeatures, hx86]
          refine ⟨fun hm hs => ⟨hm, hzero ▸ hs.give⟩, ?_, ?_⟩
          · simp [Caller.rank, Caller.give]
          · simp +arith [Caller.count, Caller.give]
      | true =>
          obtain ⟨rfl, rfl⟩ := h.eq_of_own
            (show _ = Act.own (Caller.goto ⟨todo, .detect, results⟩
                (.storeFeatures (detectFeatures target cpu))) by
              simp [Caller.next, hx86])
          refine ⟨fun hm hs => ⟨hm, ?_, hs.results⟩, ?_, ?_⟩
          · rintro features ⟨⟩
            rw [cpuFeatures, if_pos hx86]
          · simp [Caller.rank, Caller.goto]
          · simp [Caller.count, Caller.goto]
  | storeFeatures features =>
      cases h with
      | store action =>
          cases action
          refine ⟨fun hm hs => ?_, ?_, ?_⟩
          · have heq := hs.storing features rfl
            subst heq
            exact ⟨hm.write fun _ => rfl, hs.give⟩
          · simp [Caller.rank, Caller.give]
          · simp +arith [Caller.count, Caller.give]
      | _ action => cases action

section Runs

variable {ι : Type*} [DecidableEq ι] {calls : ι → ℕ} {c : State ι}

abbrev State.Reached (target : Target) (cpu : Processor) (calls : ι → ℕ) (c : State ι) : Prop :=
  Reachable (Caller.next target cpu) (State.init calls) c

theorem results_eq (h : State.Reached target cpu calls c) (i : ι) :
    ∀ features ∈ (c.threads i).state.results, features = cpuFeatures target cpu := by
  have hmodular := Reachable.modular (P := WriteOk target cpu)
    (T := fun t => CallerOk target cpu t.state) h
    (start_all fun _ hne => absurd rfl hne) (fun _ => ⟨nofun, nofun⟩)
    fun m t m' t' hm ht step => (step_spec step).1 hm ht
  exact (hmodular.2 i).results

theorem count_eq (h : State.Reached target cpu calls c) (i : ι) :
    (c.threads i).state.count = calls i := by
  refine Reachable.invariant (I := fun d => (d.threads i).state.count = calls i) h
    (Nat.add_zero _) ?_
  rintro d _ hd ⟨j, step⟩
  by_cases hj : i = j
  · subst hj
    rw [Config.update_threads_self, (step_spec step).2.2, hd]
  · rw [Config.update_threads_of_ne d _ _ hj, hd]

theorem descends_next : Descends (Caller.next target cpu) Caller.rank :=
  fun _ _ _ _ step => (step_spec step).2.1

theorem count_of_halt {s : Caller} (h : s.next target cpu = .halt) :
    s.count = s.results.length := by
  obtain ⟨todo, pc, results⟩ := s
  cases pc with
  | ready =>
      cases todo with
      | zero => simp [Caller.count]
      | succ todo => cases h
  | loadFeatures | storeFeatures => cases h
  | detect =>
      rw [Caller.next] at h
      split_ifs at h

theorem exists_completed [Fintype ι] (h : State.Reached target cpu calls c) :
    ∃ c', Reachable (Caller.next target cpu) c c' ∧
      ∀ i, (c'.threads i).state.results = List.replicate (calls i) (cpuFeatures target cpu) := by
  obtain ⟨c', hc', hhalt⟩ := descends_next.exists_halted h.sound
  refine ⟨c', hc', fun i => List.eq_replicate_iff.mpr ⟨?_, results_eq (h.trans hc') i⟩⟩
  rw [← count_of_halt (hhalt i), count_eq (h.trans hc')]

/-- The instructions of every kernel that the features allow are there, and the
operating system saves the registers they use. -/
structure Supported (target : Target) (cpu : Processor) (features : Features) : Prop where
  sse2 : features.sse2 → target.amd64 ∨ bitSet (cpu.cpuid 1).edx 26
  sse41 : features.sse41 → bitSet (cpu.cpuid 1).ecx 19
  avx2 : features.avx2 → bitSet (cpu.cpuidex 7 0).ebx 5 ∧ osAvx cpu
  avx512f : features.avx512f → bitSet (cpu.cpuidex 7 0).ebx 16 ∧ osAvx512 cpu
  avx512vl : features.avx512vl → bitSet (cpu.cpuidex 7 0).ebx 31 ∧ osAvx512 cpu
  neon : features.neon → target.useNeon

theorem supported_cpuFeatures (target : Target) (cpu : Processor) :
    Supported target cpu (usable target (cpuFeatures target cpu)) := by
  cases hx86 : target.isX86 with
  | false => constructor <;> simp [usable, hx86]
  | true =>
      have hdetected := detectFeatures_detected target cpu
      rw [cpuFeatures, if_pos hx86]
      constructor <;> simp only [usable, hx86, Bool.and_eq_true, decide_eq_true_eq, and_imp]
      · exact fun _ _ h => hdetected.sse2.mp h
      · exact fun _ _ h => hdetected.sse41.mp h
      · exact fun _ _ h => ⟨(hdetected.avx2.mp h).1, (hdetected.avx2.mp h).2.2⟩
      · exact fun _ _ h => ⟨(hdetected.avx512f.mp h).1, (hdetected.avx512f.mp h).2.2⟩
      · exact fun _ _ h => ⟨(hdetected.avx512vl.mp h).1, (hdetected.avx512vl.mp h).2.2⟩
      · exact id

/-- Whichever threads find out the features and in whatever order: all calls return
the same features, the ones that the processor answers for and that it and the
operating system support, no run takes more than four steps for each call, and
every run can be completed. -/
theorem get_cpu_features_spec [Fintype ι] (target : Target) (cpu : Processor) (calls : ι → ℕ) :
    (∀ c, State.Reached target cpu calls c → ∀ i, ∀ features ∈ (c.threads i).state.results,
      features = cpuFeatures target cpu ∧ features ≠ undefined ∧
        (target.isX86 = true → Detected target cpu features) ∧
        Supported target cpu (usable target features)) ∧
    (∀ (run : ℕ → State ι) (n : ℕ), run 0 = State.init calls →
      (∀ k < n, Config.Step (Caller.next target cpu) (run k) (run (k + 1))) →
        n ≤ ∑ i, 4 * calls i) ∧
    ∀ c, State.Reached target cpu calls c → ∃ c', Reachable (Caller.next target cpu) c c' ∧
      ∀ i, (c'.threads i).state.results = List.replicate (calls i) (cpuFeatures target cpu) := by
  refine ⟨fun c h i features hfeatures => ?_, fun run n hinit hsteps => ?_,
    fun c h => exists_completed h⟩
  · obtain rfl := results_eq h i features hfeatures
    refine ⟨rfl, ?_, fun hx86 => ?_, supported_cpuFeatures target cpu⟩
    · rw [cpuFeatures]
      split_ifs
      · exact detectFeatures_ne_undefined target cpu
      · decide
    · rw [cpuFeatures, if_pos hx86]
      exact detectFeatures_detected target cpu
  · have hle := descends_next.length_le run n hsteps
    rw [hinit] at hle
    exact (Nat.le_add_right _ _).trans hle

/-- With the features that any call returns in any run, the functions of
`c/blake3_dispatch.c` compute what the specification does, and the degree is
the number of inputs that the chosen kernel takes at once, within the bound
of the build. -/
theorem dispatch_of_reached (h : State.Reached target cpu calls c) {i : ι} {features : UInt32}
    (hfeatures : features ∈ (c.threads i).state.results) (xof : XofArgs) (outblocks : ℕ)
    (args : ManyArgs) (inputs : List (List Byte)) (counter : UInt64) :
    (simdOf target features).degree = (kernel (usable target (cpuFeatures target cpu))).lanes ∧
    (simdOf target features).degree ≤ maxSimdDegree target ∧
    blake3CompressInPlace (usable target features) xof.cv xof.block xof.blockLen counter
        xof.flags =
      compressInPlace Blake3.compress xof.cv xof.block xof.blockLen.toNat counter xof.flags ∧
    blake3XofMany (usable target features) (dispatchBuild target) xof outblocks counter =
      xofMany Blake3.compress xof.cv xof.block xof.blockLen.toNat counter xof.flags outblocks ∧
    ∃ cvs, Blake3.hashMany Blake3.compress .wrapping args.key args.flags args.flagsStart
        args.flagsEnd args.blocks args.incrementCounter inputs counter = .ok cvs ∧
      blake3HashMany (usable target features) (dispatchBuild target) args inputs counter =
        cvs.flatMap Vector.toList := by
  obtain rfl := results_eq h i features hfeatures
  exact ⟨blake3SimdDegree_eq target _, (simdOf target _).degree_le,
    dispatch_reference _ _ xof outblocks args inputs counter⟩

/-- A 64-bit build on a processor that answers every question with yes, with a batch of
sixteen inputs of two blocks and one input more. -/
theorem dispatch_of_reached_avx512 :
    ∃ c : State (Fin 2), ∃ features,
      State.Reached ⟨true, true, false, false, false, false, false, false, false⟩
        ⟨fun _ => ⟨7, 0, 0xffffffff, 0⟩, fun _ _ => ⟨0, 0xffffffff, 0, 0⟩, 0xff⟩ (fun _ => 1) c ∧
      (c.threads 0).state.results = [features] ∧ features = 0x7f ∧
      blake3SimdDegree ⟨true, true, false, false, false, false, false, false, false⟩ features = 16 ∧
      ∃ cvs : List CVBytes,
        Blake3.hashMany Blake3.compress .wrapping iv 0 1 2 2 true
          (List.replicate 17 (List.replicate 128 7)) 5 = .ok cvs ∧
        blake3HashMany
          (usable ⟨true, true, false, false, false, false, false, false, false⟩ features)
          ⟨false, false, false⟩ ⟨2, iv, true, 0, 1, 2⟩
          (List.replicate 17 (List.replicate 128 7)) 5 = cvs.flatMap Vector.toList := by
  obtain ⟨c, hc, hresults⟩ := exists_completed
    (show State.Reached ⟨true, true, false, false, false, false, false, false, false⟩
      ⟨fun _ => ⟨7, 0, 0xffffffff, 0⟩, fun _ _ => ⟨0, 0xffffffff, 0, 0⟩, 0xff⟩
      (fun _ : Fin 2 => 1) _ from .refl)
  obtain ⟨hdegree, -, -, -, cvs, hcvs, hmany⟩ := dispatch_of_reached hc (i := 0)
    (by rw [hresults 0]; exact List.mem_singleton.mpr rfl) ⟨iv, .replicate 64 0, 0, 0⟩ 0
    ⟨2, iv, true, 0, 1, 2⟩ (List.replicate 17 (List.replicate 128 7)) 5
  exact ⟨c, _, hc, hresults 0, by decide, hdegree, cvs, hcvs, hmany⟩

end Runs

end Blake3.Simd.CpuFeatures
