import Blake3.C.HasherTree
import Blake3.Pai.Paths
import Blake3.Pai.Sha256

/-!
The digests of `scan.c`. The one that `hash_algo` asks for is taken of every file
and of the lines of the manifest, which it reads one by one.
-/

namespace Blake3.Pai

/-- What the code is compiled for. -/
structure Platform where
  /-- The bits of a `size_t`. -/
  width : ℕ
  width_eq : width = 32 ∨ width = 64
  simd : Simd
  /-- What lies on the stack where `pai_sha256_init` leaves the buffer as it is. -/
  stack : Block

def sha256Name : Str := [0x73, 0x68, 0x61, 0x32, 0x35, 0x36]

def blake3Name : Str := [0x62, 0x6c, 0x61, 0x6b, 0x65, 0x33]

def algoIsBlake3 (algo : Option Str) : Bool := algo = some blake3Name

/-- The array that a digest is written to. -/
def bytes32 (bytes : List Byte) : CVBytes := Vector.ofFn fun i => bytes.getD i.val 0

/-! ### The digest of the manifest -/

/-- `pai_manifest_digest_ctx` -/
inductive ManifestDigest where
  | blake3 (hasher : C.Hasher)
  | sha256 (ctx : Sha256Ctx)

variable (P : Platform) (algo : Option Str)

def manifestDigestInit : ManifestDigest :=
  if algoIsBlake3 algo then .blake3 C.blake3HasherInit else .sha256 (Sha256Ctx.init P.stack)

def blake3Update (hasher : C.Hasher) (data : List Byte) : Result C.Hasher :=
  C.blake3HasherUpdate compress P.simd .serial hasher data

def manifestDigestUpdate (data : List Byte) : ManifestDigest → Result ManifestDigest
  | .blake3 hasher => do
      let hasher ← blake3Update P hasher data
      return .blake3 hasher
  | .sha256 ctx => do
      let ctx ← Sha256Ctx.update P.width ctx data
      return .sha256 ctx

def manifestDigestFinal : ManifestDigest → Result CVBytes
  | .blake3 hasher => do
      let out ← C.blake3HasherFinalize compress hasher 32
      return bytes32 out
  | .sha256 ctx => do
      let (_, out) ← ctx.final
      return out

/-! ### The digest of a file -/

/-- The loop over `fread` with an array of `cap` bytes, until one is not filled. -/
def freadLoop {σ : Type} (update : σ → List Byte → Result σ) (cap : ℕ) (s : σ)
    (rest : List Byte) : Result σ := do
  let buf := rest.take cap
  let s ← (if buf = [] then .ok s else update s buf : Result σ)
  if _h : 0 < cap ∧ cap ≤ rest.length then freadLoop update cap s (rest.drop cap) else .ok s
termination_by rest.length
decreasing_by
  rw [List.length_drop]
  omega

/-- `pai_sha256_file`, from what the file is found to hold -/
def paiSha256File (content : List Byte) : Result CVBytes := do
  let ctx ← freadLoop (Sha256Ctx.update P.width) 4096 (Sha256Ctx.init P.stack) content
  let (_, out) ← ctx.final
  return out

/-- `pai_blake3_file` -/
def paiBlake3File (content : List Byte) : Result CVBytes := do
  let hasher ← freadLoop (blake3Update P) (64 * 1024) C.blake3HasherInit content
  let out ← C.blake3HasherFinalize compress hasher 32
  return bytes32 out

/-- `hash_file_for_algo`; there is no content where the file is not opened or read. -/
def hashFileForAlgo : Option (List Byte) → Result (Option CVBytes)
  | none => .ok none
  | some content => do
      let h ← if algoIsBlake3 algo then paiBlake3File P content else paiSha256File P content
      return some h

/-! ### What the digests are -/

/-- The digest of a message by the algorithm that is asked for. -/
def digestOf (m : List Byte) : CVBytes :=
  bytes32 <|
    if algoIsBlake3 algo then streamBytes compress (rootNode compress iv 0 m) 0 32
    else (Sha256.absorb .initial (Sha256.padWith m (8 * m.length % 2 ^ 64))).digest

theorem toList_bytes32 {bytes : List Byte} (h : bytes.length = 32) :
    (bytes32 bytes).toList = bytes := by
  apply List.ext_getElem
  · rw [Vector.length_toList, h]
  · intro i hi hi'
    simp [bytes32, hi']

theorem eq_bytes32 {v : CVBytes} {bytes : List Byte} (h : v.toList = bytes) :
    v = bytes32 bytes := by
  apply Vector.toList_inj.mp
  rw [toList_bytes32 (by rw [← h, Vector.length_toList]), h]

/-- It is the first 32 bytes of the output of BLAKE3. -/
theorem digestOf_blake3 (m : List Byte) :
    (digestOf (some blake3Name) m).toList =
      streamBytes compress (rootNode compress iv 0 m) 0 32 :=
  toList_bytes32 (length_streamBytes _ _ _ _)

theorem length_digest (s : Sha256.State) : s.digest.length = 32 := by
  simp [Sha256.State.digest, Sha256.State.words, Sha256.wordBytes]

/-- It is the SHA-256 of every message that the standard has one for. -/
theorem digestOf_sha256 (halgo : algoIsBlake3 algo = false) {m : List Byte}
    (h : m.length < 2 ^ 61) : (digestOf algo m).toList = Sha256.hash m := by
  rw [digestOf, if_neg (by rw [halgo]; exact Bool.false_ne_true), toList_bytes32 (length_digest _),
    Nat.mod_eq_of_lt (by omega)]
  rfl

/-! ### What the contexts have read -/

/-- A context that has read a message and counted its bits. -/
structure Counts (ctx : Sha256Ctx) (m : List Byte) : Prop where
  absorbed : ∃ done, Fc16.Sha256Ctx.Absorbed ctx m done
  room : ctx.bufferLen < 64
  counted : ctx.bitLen = UInt64.ofNat (8 * m.length)

variable {P}

theorem counts_init (buf : Block) : Counts (Sha256Ctx.init buf) [] :=
  ⟨⟨[], Fc16.Sha256Ctx.absorbed_init buf⟩, show 0 < 64 by decide, rfl⟩

theorem Counts.update {ctx : Sha256Ctx} {m data : List Byte} (h : Counts ctx m)
    (hdata : data.length < 2 ^ 29) :
    ∃ ctx', Sha256Ctx.update P.width ctx data = .ok ctx' ∧ Counts ctx' (m ++ data) := by
  obtain ⟨done, habsorbed⟩ := h.absorbed
  obtain ⟨ctx', hupdates, habsorbed', hroom, hlen⟩ :=
    updates_eq (w := P.width) [data] habsorbed h.room
  have hpow : 2 ^ 32 ≤ 2 ^ P.width := by
    rcases P.width_eq with hw | hw
    · rw [hw]
    · rw [hw]
      decide
  have hcounted : Pai.counted P.width [data] = 8 * data.length := by
    rw [Pai.counted, List.map_cons, List.map_nil, List.sum_cons, List.sum_nil,
      Nat.mod_eq_of_lt (by omega)]
    omega
  rw [List.flatten_cons, List.flatten_nil, List.append_nil] at habsorbed'
  refine ⟨ctx', ?_, habsorbed', hroom, ?_⟩
  · rw [List.foldlM_cons] at hupdates
    obtain ⟨ctx'', hupdate, hnil⟩ := Result.bind_eq_ok.mp hupdates
    cases hnil
    exact hupdate
  · rw [hlen, hcounted, h.counted, ← UInt64.ofNat_add, List.length_append, Nat.mul_add]

theorem Counts.final {ctx : Sha256Ctx} {m : List Byte} (h : Counts ctx m)
    (halgo : algoIsBlake3 algo = false) : ∃ ctx', ctx.final = .ok (ctx', digestOf algo m) := by
  obtain ⟨done, habsorbed⟩ := h.absorbed
  obtain ⟨ctx', digest, hfinal, hdigest⟩ := habsorbed.final h.room
  refine ⟨ctx', ?_⟩
  rw [h.counted, UInt64.toNat_ofNat'] at hdigest
  rw [Sha256Ctx.final, hfinal, eq_bytes32 hdigest, digestOf,
    if_neg (by rw [halgo]; exact Bool.false_ne_true)]

/-- A hasher that has read a message. -/
abbrev Hashes (hasher : C.Hasher) (m : List Byte) : Prop := C.Reads compress iv 0 hasher m

theorem blake3Update_eq {hasher : C.Hasher} {m data : List Byte} (h : Hashes hasher m)
    (hlen : (m ++ data).length < 2 ^ 64) :
    ∃ hasher', blake3Update P hasher data = .ok hasher' ∧ Hashes hasher' (m ++ data) :=
  C.blake3HasherUpdateBase_eq P.simd .serial false h hlen

theorem blake3Final_eq {hasher : C.Hasher} {m : List Byte} (h : Hashes hasher m)
    (halgo : algoIsBlake3 algo = true) :
    (C.blake3HasherFinalize compress hasher 32 >>= fun out => return bytes32 out) =
      .ok (digestOf algo m) := by
  rw [C.blake3HasherFinalize, C.blake3HasherFinalizeSeek_eq h, Result.ok_bind, digestOf,
    if_pos halgo]
  rfl

/-- What the context for the manifest has read. -/
inductive Fed : ManifestDigest → List Byte → Prop where
  | blake3 {hasher : C.Hasher} {m : List Byte} (halgo : algoIsBlake3 algo = true)
      (h : Hashes hasher m) : Fed (.blake3 hasher) m
  | sha256 {ctx : Sha256Ctx} {m : List Byte} (halgo : algoIsBlake3 algo = false)
      (h : Counts ctx m) : Fed (.sha256 ctx) m

theorem fed_init : Fed algo (manifestDigestInit P algo) [] := by
  rw [manifestDigestInit]
  split
  · next halgo => exact .blake3 halgo C.reads_hasherInitBase
  · next halgo => exact .sha256 (Bool.eq_false_of_not_eq_true halgo) (counts_init _)

variable {algo}

theorem Fed.update {d : ManifestDigest} {m data : List Byte} (h : Fed algo d m)
    (hdata : data.length < 2 ^ 29) (hlen : (m ++ data).length < 2 ^ 64) :
    ∃ d', manifestDigestUpdate P data d = .ok d' ∧ Fed algo d' (m ++ data) := by
  cases h with
  | blake3 halgo h =>
      obtain ⟨hasher', hupdate, h'⟩ := blake3Update_eq (P := P) h hlen
      exact ⟨.blake3 hasher', by rw [manifestDigestUpdate, hupdate]; rfl, .blake3 halgo h'⟩
  | sha256 halgo h =>
      obtain ⟨ctx', hupdate, h'⟩ := h.update (P := P) hdata
      exact ⟨.sha256 ctx', by rw [manifestDigestUpdate, hupdate]; rfl, .sha256 halgo h'⟩

theorem Fed.final {d : ManifestDigest} {m : List Byte} (h : Fed algo d m) :
    manifestDigestFinal d = .ok (digestOf algo m) := by
  cases h with
  | blake3 halgo h => exact blake3Final_eq algo h halgo
  | sha256 halgo h =>
      obtain ⟨ctx', hfinal⟩ := h.final algo halgo
      rw [manifestDigestFinal, hfinal]
      rfl

/-! ### Files -/

/-- The loop keeps to what one update does. -/
theorem freadLoop_eq {σ : Type} {update : σ → List Byte → Result σ} (cap : ℕ) (hcap : 0 < cap)
    {I : σ → List Byte → Prop} {bound : ℕ}
    (hupdate : ∀ s m p, I s m → p.length ≤ cap → (m ++ p).length ≤ bound →
      ∃ s', update s p = .ok s' ∧ I s' (m ++ p))
    (s : σ) (m rest : List Byte) (h : I s m) (hlen : (m ++ rest).length ≤ bound) :
    ∃ s', freadLoop update cap s rest = .ok s' ∧ I s' (m ++ rest) := by
  induction hrest : rest.length using Nat.strong_induction_on generalizing s m rest with
  | _ k ih =>
      subst hrest
      have hsplit : m ++ rest.take cap ++ rest.drop cap = m ++ rest := by
        rw [List.append_assoc, List.take_append_drop]
      obtain ⟨s', hstep, h'⟩ : ∃ s', (if rest.take cap = [] then .ok s
          else update s (rest.take cap)) = .ok s' ∧ I s' (m ++ rest.take cap) := by
        by_cases hempty : rest.take cap = []
        · exact ⟨s, if_pos hempty, by rwa [hempty, List.append_nil]⟩
        · rw [if_neg hempty]
          refine hupdate s m _ h (List.length_take_le _ _) ?_
          rw [← hsplit, List.length_append] at hlen
          omega
      rw [freadLoop, hstep, Result.ok_bind]
      split
      · next hmore =>
          rw [← hsplit] at hlen ⊢
          exact ih _ (by rw [List.length_drop]; omega) s' _ _ h' hlen rfl
      · next hlast =>
          refine ⟨s', rfl, ?_⟩
          rwa [List.take_of_length_le (by omega)] at h'

/-- A file never fails to be hashed once it is read. -/
theorem hashFileForAlgo_eq {content : List Byte} (hlen : content.length < 2 ^ 63) :
    hashFileForAlgo P algo (some content) = .ok (some (digestOf algo content)) := by
  rw [hashFileForAlgo]
  by_cases halgo : algoIsBlake3 algo = true
  · obtain ⟨hasher, hloop, h⟩ := freadLoop_eq (64 * 1024) (by decide) (I := Hashes)
      (fun s m p h _ hbound => blake3Update_eq (P := P) h (lt_of_le_of_lt hbound (by decide)))
      C.blake3HasherInit [] content C.reads_hasherInitBase hlen.le
    rw [if_pos halgo, paiBlake3File, hloop, Result.ok_bind, blake3Final_eq algo h halgo]
    rfl
  · obtain ⟨ctx, hloop, h⟩ := freadLoop_eq 4096 (by decide) (I := Counts)
      (fun s m p h hp _ => h.update (P := P) (lt_of_le_of_lt hp (by decide)))
      (Sha256Ctx.init P.stack) [] content (counts_init _) hlen.le
    obtain ⟨ctx', hfinal⟩ := h.final algo (Bool.eq_false_of_not_eq_true halgo)
    rw [if_neg halgo, paiSha256File, hloop, Result.ok_bind, hfinal]
    rfl

end Blake3.Pai
