import Blake3.Lib.LittleEndian
import Blake3.Words
import Mathlib.Data.List.FinRange
import Mathlib.Data.List.Flatten

/-!
The digests of `rafaelia_packet_custody.c`: one of each fragment of a packet and
one of the table of all fragments. BLAKE3 in derive-key mode is a function of
the context and of the bytes fed to the hasher.
-/

namespace Blake3.Custody

inductive Status where
  | ok
  | duplicate
  | incomplete
  | errArgument
  | errRange
  | errDigest
  deriving DecidableEq, Repr

abbrev PacketId := Vector Byte 16
abbrev Digest := CVBytes

/-- `blake3_hasher` in derive-key mode, by its context and what was fed to it. -/
structure DeriveKeyHasher where
  context : List Byte
  fed : List Byte

namespace DeriveKeyHasher

def init (context : List Byte) : DeriveKeyHasher := { context := context, fed := [] }

def update (self : DeriveKeyHasher) (input : List Byte) : DeriveKeyHasher :=
  { self with fed := self.fed ++ input }

def finalize (deriveKey : List Byte → List Byte → Digest) (self : DeriveKeyHasher) : Digest :=
  deriveKey self.context self.fed

end DeriveKeyHasher

def asciiBytes (text : String) : List Byte := text.toList.map fun c => UInt8.ofNat c.toNat

def rpcChunkContext : List Byte := asciiBytes "RAFAELIA_PACKET_CUSTODY_CHUNK_V1"
def rpcRootContext : List Byte := asciiBytes "RAFAELIA_PACKET_CUSTODY_ROOT_V1"

def rpcStore32Le (value : UInt32) : List Byte :=
  [value.toUInt8, (value >>> 8).toUInt8, (value >>> 16).toUInt8, (value >>> 24).toUInt8]

def rpcStore64Le (value : UInt64) : List Byte :=
  [value.toUInt8, (value >>> 8).toUInt8, (value >>> 16).toUInt8, (value >>> 24).toUInt8,
    (value >>> 32).toUInt8, (value >>> 40).toUInt8, (value >>> 48).toUInt8, (value >>> 56).toUInt8]

def rpcValidTotal (totalChunks : UInt32) : Bool := 0 < totalChunks && totalChunks ≤ 4096

/-- A `payload` pointer, which may be null, and its `payload_len`. -/
structure Payload where
  data : Option (List Byte)
  len : UInt64
  len_eq : ∀ bytes ∈ data, bytes.length = len.toNat

namespace Payload

/-- The bytes a payload is made of. -/
def bytes (payload : Payload) : List Byte := payload.data.getD []

def IsNull (payload : Payload) : Prop := payload.data = none ∧ payload.len ≠ 0

instance (payload : Payload) : Decidable payload.IsNull :=
  inferInstanceAs (Decidable (payload.data = none ∧ payload.len ≠ 0))

end Payload

/-! ### Fragments -/

/-- The header of a fragment, 36 bytes. -/
def chunkHeader (packetId : PacketId) (chunkIndex totalChunks : UInt32) (payloadLen : UInt64) :
    List Byte :=
  asciiBytes "RPC" ++ [1] ++ packetId.toList ++ rpcStore32Le chunkIndex ++
    rpcStore32Le totalChunks ++ rpcStore64Le payloadLen

/-- The hasher of a fragment when the arguments are accepted. -/
def chunkHasher (packetId : Option PacketId) (chunkIndex totalChunks : UInt32)
    (payload : Payload) : Except Status DeriveKeyHasher :=
  match packetId with
  | none => .error .errArgument
  | some packetId =>
      if payload.IsNull then .error .errArgument
      else if ¬rpcValidTotal totalChunks ∨ totalChunks ≤ chunkIndex then .error .errRange
      else
        let hasher := (DeriveKeyHasher.init rpcChunkContext).update
          (chunkHeader packetId chunkIndex totalChunks payload.len)
        .ok (if payload.len ≠ 0 then hasher.update payload.bytes else hasher)

/-- The digest of a fragment, the `out` pointer not being null. -/
def rpcChunkDigest (deriveKey : List Byte → List Byte → Digest) (packetId : Option PacketId)
    (chunkIndex totalChunks : UInt32) (payload : Payload) : Except Status Digest :=
  (chunkHasher packetId chunkIndex totalChunks payload).map (·.finalize deriveKey)

/-! ### The table of fragments -/

def rootHeader (packetId : PacketId) (totalChunks : UInt32) : List Byte :=
  asciiBytes "RPR" ++ [1] ++ packetId.toList ++ rpcStore32Le totalChunks

/-- Entry `i` of the table: its index and length, and its digest. -/
def rootRecord (hasher : DeriveKeyHasher) (i : ℕ) (length : UInt64) (digest : Digest) :
    DeriveKeyHasher :=
  (hasher.update (rpcStore32Le (UInt32.ofNat i) ++ rpcStore64Le length)).update digest.toList

/-- The hasher of a table when the arguments are accepted. -/
def rootHasher (packetId : Option PacketId) (totalChunks : UInt32)
    (chunkLengths : Option (Vector UInt64 totalChunks.toNat))
    (chunkDigests : Option (Vector Digest totalChunks.toNat)) : Except Status DeriveKeyHasher :=
  match packetId, chunkLengths, chunkDigests with
  | some packetId, some chunkLengths, some chunkDigests =>
      if ¬rpcValidTotal totalChunks then .error .errRange
      else
        let hasher := (DeriveKeyHasher.init rpcRootContext).update (rootHeader packetId totalChunks)
        .ok ((List.finRange totalChunks.toNat).foldl
          (fun hasher (i : Fin _) => rootRecord hasher i chunkLengths[i] chunkDigests[i]) hasher)
  | _, _, _ => .error .errArgument

def rpcManifestRoot (deriveKey : List Byte → List Byte → Digest) (packetId : Option PacketId)
    (totalChunks : UInt32) (chunkLengths : Option (Vector UInt64 totalChunks.toNat))
    (chunkDigests : Option (Vector Digest totalChunks.toNat)) : Except Status Digest :=
  (rootHasher packetId totalChunks chunkLengths chunkDigests).map (·.finalize deriveKey)

/-! ### What a hasher is fed -/

theorem rpcStore32Le_eq (value : UInt32) :
    rpcStore32Le value = LittleEndian.toBytes 4 value.toNat := LittleEndian.toBytes_word value

theorem rpcStore64Le_eq (value : UInt64) :
    rpcStore64Le value = LittleEndian.toBytes 8 value.toNat := LittleEndian.toBytes_doubleWord value

theorem rpcStore32Le_inj {v w : UInt32} (h : rpcStore32Le v = rpcStore32Le w) : v = w := by
  rw [rpcStore32Le_eq, rpcStore32Le_eq] at h
  exact LittleEndian.toBytes_word_inj h

theorem rpcStore64Le_inj {v w : UInt64} (h : rpcStore64Le v = rpcStore64Le w) : v = w := by
  rw [rpcStore64Le_eq, rpcStore64Le_eq] at h
  exact LittleEndian.toBytes_doubleWord_inj h

theorem chunkHasher_eq_ok {packetId : PacketId} {chunkIndex totalChunks : UInt32}
    {payload : Payload} {h : DeriveKeyHasher}
    (hok : chunkHasher (some packetId) chunkIndex totalChunks payload = .ok h) :
    h.context = rpcChunkContext ∧
      h.fed = chunkHeader packetId chunkIndex totalChunks payload.len ++ payload.bytes := by
  rw [chunkHasher] at hok
  split_ifs at hok with hnull hrange hlen
  · obtain rfl := Except.ok.inj hok
    exact ⟨rfl, rfl⟩
  · obtain rfl := Except.ok.inj hok
    refine ⟨rfl, ?_⟩
    -- an empty payload is not fed at all
    have hempty : payload.bytes = [] := by
      rw [not_not] at hlen
      rw [Payload.bytes]
      rcases hdata : payload.data with _ | bytes
      · rfl
      · have := payload.len_eq bytes (by rw [hdata]; rfl)
        rw [hlen] at this
        exact List.length_eq_zero_iff.mp this
    rw [hempty, List.append_nil]
    rfl

/-- The bytes of entry `i` of the table. -/
def recordBytes (i : ℕ) (length : UInt64) (digest : Digest) : List Byte :=
  rpcStore32Le (UInt32.ofNat i) ++ rpcStore64Le length ++ digest.toList

def recordAt {n : ℕ} (lengths : Vector UInt64 n) (digests : Vector Digest n) (i : Fin n) :
    List Byte := recordBytes i lengths[i] digests[i]

theorem foldl_rootRecord {n : ℕ} (lengths : Vector UInt64 n) (digests : Vector Digest n)
    (indices : List (Fin n)) (hasher : DeriveKeyHasher) :
    indices.foldl (fun hasher (i : Fin n) => rootRecord hasher i lengths[i] digests[i]) hasher =
      { hasher with
        fed := hasher.fed ++ (indices.map (recordAt lengths digests)).flatten } := by
  induction indices generalizing hasher with
  | nil => simp
  | cons i indices ih =>
      rw [List.foldl_cons, ih, rootRecord]
      simp [DeriveKeyHasher.update, recordBytes, recordAt]

theorem rootHasher_eq_ok {packetId : PacketId} {totalChunks : UInt32}
    {chunkLengths : Vector UInt64 totalChunks.toNat}
    {chunkDigests : Vector Digest totalChunks.toNat}
    {h : DeriveKeyHasher}
    (hok : rootHasher (some packetId) totalChunks (some chunkLengths) (some chunkDigests) = .ok h) :
    h.context = rpcRootContext ∧
      h.fed = rootHeader packetId totalChunks ++
        ((List.finRange totalChunks.toNat).map (recordAt chunkLengths chunkDigests)).flatten := by
  rw [rootHasher] at hok
  split_ifs at hok with htotal
  obtain rfl := Except.ok.inj hok
  rw [foldl_rootRecord]
  exact ⟨rfl, rfl⟩

/-! ### What the bytes say -/

/-- What is hashed: a fragment, or the table of all fragments. -/
inductive Hashed where
  | fragment (packetId : PacketId) (chunkIndex totalChunks : UInt32) (payload : List Byte)
  | manifest (packetId : PacketId) (totalChunks : UInt32) (table : List (UInt64 × Digest))

/-- Accepted arguments, and the hasher made for them. -/
inductive HashedBy : Hashed → DeriveKeyHasher → Prop where
  | fragment {packetId : PacketId} {chunkIndex totalChunks : UInt32} {payload : Payload}
      {h : DeriveKeyHasher}
      (hok : chunkHasher (some packetId) chunkIndex totalChunks payload = .ok h) :
      HashedBy (.fragment packetId chunkIndex totalChunks payload.bytes) h
  | manifest {packetId : PacketId} {totalChunks : UInt32}
      {chunkLengths : Vector UInt64 totalChunks.toNat}
      {chunkDigests : Vector Digest totalChunks.toNat} {h : DeriveKeyHasher}
      (hok : rootHasher (some packetId) totalChunks (some chunkLengths) (some chunkDigests) =
        .ok h) :
      HashedBy (.manifest packetId totalChunks (chunkLengths.toList.zip chunkDigests.toList)) h

def Hashed.context : Hashed → List Byte
  | .fragment .. => rpcChunkContext
  | .manifest .. => rpcRootContext

theorem chunkHeader_inj {p p' : PacketId} {i i' t t' : UInt32} {n n' : UInt64} {a a' : List Byte}
    (h : chunkHeader p i t n ++ a = chunkHeader p' i' t' n' ++ a') :
    p = p' ∧ i = i' ∧ t = t' ∧ a = a' := by
  simp only [chunkHeader, List.append_assoc] at h
  have h := (List.append_cancel_left (List.append_cancel_left h))
  obtain ⟨hp, h⟩ := List.append_inj h (by simp)
  obtain ⟨hi, h⟩ := List.append_inj h (by simp [rpcStore32Le])
  obtain ⟨ht, h⟩ := List.append_inj h (by simp [rpcStore32Le])
  obtain ⟨-, h⟩ := List.append_inj h (by simp [rpcStore64Le])
  exact ⟨Vector.toList_inj.mp hp, rpcStore32Le_inj hi, rpcStore32Le_inj ht, h⟩

theorem rootHeader_inj {p p' : PacketId} {t t' : UInt32} {a a' : List Byte}
    (h : rootHeader p t ++ a = rootHeader p' t' ++ a') : p = p' ∧ t = t' ∧ a = a' := by
  simp only [rootHeader, List.append_assoc] at h
  have h := (List.append_cancel_left (List.append_cancel_left h))
  obtain ⟨hp, h⟩ := List.append_inj h (by simp)
  obtain ⟨ht, h⟩ := List.append_inj h (by simp [rpcStore32Le])
  exact ⟨Vector.toList_inj.mp hp, rpcStore32Le_inj ht, h⟩

theorem recordBytes_inj {i : ℕ} {n n' : UInt64} {d d' : Digest}
    (h : recordBytes i n d = recordBytes i n' d') : n = n' ∧ d = d' := by
  simp only [recordBytes, List.append_assoc] at h
  obtain ⟨hn, hd⟩ := List.append_inj (List.append_cancel_left h) (by simp [rpcStore64Le])
  exact ⟨rpcStore64Le_inj hn, Vector.toList_inj.mp hd⟩

/-- Tables of one length with the same bytes are the same. -/
theorem records_inj {n : ℕ} {lengths lengths' : Vector UInt64 n}
    {digests digests' : Vector Digest n}
    (h : ((List.finRange n).map (recordAt lengths digests)).flatten =
      ((List.finRange n).map (recordAt lengths' digests')).flatten) :
    lengths = lengths' ∧ digests = digests' := by
  have hlength : ∀ (lengths : Vector UInt64 n) (digests : Vector Digest n),
      List.length ∘ recordAt lengths digests = fun _ => 44 := by
    intro lengths digests
    funext i
    simp [recordAt, recordBytes, rpcStore32Le, rpcStore64Le]
  have hlist := List.eq_iff_flatten_eq.mpr ⟨h, by rw [List.map_map, List.map_map, hlength, hlength]⟩
  have hentry : ∀ i : Fin n, lengths[i] = lengths'[i] ∧ digests[i] = digests'[i] := fun i =>
    recordBytes_inj (List.map_inj_left.mp hlist i (List.mem_finRange i))
  exact ⟨Vector.ext fun i hi => (hentry ⟨i, hi⟩).1, Vector.ext fun i hi => (hentry ⟨i, hi⟩).2⟩

/-- Fragments and tables never give the same bytes. -/
theorem chunkHeader_ne_rootHeader {p p' : PacketId} {i t t' : UInt32} {n : UInt64}
    {a a' : List Byte} : chunkHeader p i t n ++ a ≠ rootHeader p' t' ++ a' := by
  intro h
  -- the third letter of the two magics
  have hthird := congrArg (fun bytes : List Byte => bytes[2]?) h
  simp [chunkHeader, rootHeader, asciiBytes] at hthird

/-- What a hasher is fed determines what is hashed. -/
theorem fed_inj {x y : Hashed} {h h' : DeriveKeyHasher} (hx : HashedBy x h) (hy : HashedBy y h')
    (hfed : h.fed = h'.fed) : x = y := by
  cases hx with
  | fragment hok =>
      rw [(chunkHasher_eq_ok hok).2] at hfed
      cases hy with
      | fragment hok' =>
          rw [(chunkHasher_eq_ok hok').2] at hfed
          obtain ⟨rfl, rfl, rfl, hbytes⟩ := chunkHeader_inj hfed
          rw [hbytes]
      | manifest hok' =>
          rw [(rootHasher_eq_ok hok').2] at hfed
          exact absurd hfed chunkHeader_ne_rootHeader
  | manifest hok =>
      rw [(rootHasher_eq_ok hok).2] at hfed
      cases hy with
      | fragment hok' =>
          rw [(chunkHasher_eq_ok hok').2] at hfed
          exact absurd hfed.symm chunkHeader_ne_rootHeader
      | manifest hok' =>
          rw [(rootHasher_eq_ok hok').2] at hfed
          obtain ⟨rfl, rfl, hrecords⟩ := rootHeader_inj hfed
          obtain ⟨rfl, rfl⟩ := records_inj hrecords
          rfl

theorem HashedBy.context_eq {x : Hashed} {h : DeriveKeyHasher} (hx : HashedBy x h) :
    h.context = x.context := by
  cases hx with
  | fragment hok => exact (chunkHasher_eq_ok hok).1
  | manifest hok => exact (rootHasher_eq_ok hok).1

theorem rpcChunkContext_ne_rpcRootContext : rpcChunkContext ≠ rpcRootContext := by decide

/-! ### The digests that are returned -/

/-- Accepted calls of the two functions, with the digest that they return. -/
inductive Digested (deriveKey : List Byte → List Byte → Digest) : Hashed → Digest → Prop where
  | fragment {packetId : PacketId} {chunkIndex totalChunks : UInt32} {payload : Payload}
      {digest : Digest}
      (hok : rpcChunkDigest deriveKey (some packetId) chunkIndex totalChunks payload =
        .ok digest) :
      Digested deriveKey (.fragment packetId chunkIndex totalChunks payload.bytes) digest
  | manifest {packetId : PacketId} {totalChunks : UInt32}
      {chunkLengths : Vector UInt64 totalChunks.toNat}
      {chunkDigests : Vector Digest totalChunks.toNat} {digest : Digest}
      (hok : rpcManifestRoot deriveKey (some packetId) totalChunks (some chunkLengths)
        (some chunkDigests) = .ok digest) :
      Digested deriveKey
        (.manifest packetId totalChunks (chunkLengths.toList.zip chunkDigests.toList)) digest

theorem map_eq_ok {ε α β : Type} {x : Except ε α} {g : α → β} {b : β} :
    x.map g = .ok b ↔ ∃ a, x = .ok a ∧ g a = b := by
  cases x with
  | error e => simp [Except.map]
  | ok a => simp [Except.map]

theorem HashedBy.digested {x : Hashed} {h : DeriveKeyHasher} (hx : HashedBy x h)
    (deriveKey : List Byte → List Byte → Digest) : Digested deriveKey x (h.finalize deriveKey) := by
  cases hx with
  | fragment hok => exact .fragment (map_eq_ok.mpr ⟨_, hok, rfl⟩)
  | manifest hok => exact .manifest (map_eq_ok.mpr ⟨_, hok, rfl⟩)

theorem Digested.hashedBy {deriveKey : List Byte → List Byte → Digest} {x : Hashed}
    {digest : Digest} (h : Digested deriveKey x digest) :
    ∃ hasher, HashedBy x hasher ∧ hasher.finalize deriveKey = digest := by
  cases h with
  | fragment hok =>
      obtain ⟨hasher, hhasher, hdigest⟩ := map_eq_ok.mp hok
      exact ⟨hasher, .fragment hhasher, hdigest⟩
  | manifest hok =>
      obtain ⟨hasher, hhasher, hdigest⟩ := map_eq_ok.mp hok
      exact ⟨hasher, .manifest hhasher, hdigest⟩

/-- The length of an accepted payload is the one of its bytes, also where it is null. -/
theorem len_of_chunkHasher {packetId : PacketId} {chunkIndex totalChunks : UInt32}
    {payload : Payload} {h : DeriveKeyHasher}
    (hok : chunkHasher (some packetId) chunkIndex totalChunks payload = .ok h) :
    payload.len = UInt64.ofNat payload.bytes.length := by
  rw [chunkHasher] at hok
  split_ifs at hok with hnull
  all_goals
    rw [Payload.bytes]
    rcases hdata : payload.data with _ | bytes
    · exact not_not.mp fun hlen => hnull ⟨hdata, hlen⟩
    · have hlen := payload.len_eq bytes (by rw [hdata]; rfl)
      rw [Option.getD_some, hlen, UInt64.ofNat_toNat]

/-- What is hashed determines what the hasher is fed. -/
theorem HashedBy.fed_eq {x y : Hashed} {h h' : DeriveKeyHasher} (hx : HashedBy x h)
    (hy : HashedBy y h') (hxy : x = y) : h.fed = h'.fed := by
  cases hx with
  | fragment hok =>
      cases hy with
      | fragment hok' =>
          obtain ⟨rfl, rfl, rfl, hbytes⟩ := Hashed.fragment.inj hxy
          rw [(chunkHasher_eq_ok hok).2, (chunkHasher_eq_ok hok').2, len_of_chunkHasher hok,
            len_of_chunkHasher hok', hbytes]
      | manifest => cases hxy
  | manifest hok =>
      cases hy with
      | fragment => cases hxy
      | manifest hok' =>
          obtain ⟨rfl, rfl, htable⟩ := Hashed.manifest.inj hxy
          have hlengths := congrArg (List.map Prod.fst) htable
          have hdigests := congrArg (List.map Prod.snd) htable
          rw [List.map_fst_zip (by simp), List.map_fst_zip (by simp)] at hlengths
          rw [List.map_snd_zip (by simp), List.map_snd_zip (by simp)] at hdigests
          rw [(rootHasher_eq_ok hok).2, (rootHasher_eq_ok hok').2, Vector.toList_inj.mp hlengths,
            Vector.toList_inj.mp hdigests]

/-- The digest is the one of what the hasher was fed. -/
theorem Digested.eq {deriveKey : List Byte → List Byte → Digest} {x : Hashed} {digest : Digest}
    {h : DeriveKeyHasher} (hdigest : Digested deriveKey x digest) (hx : HashedBy x h) :
    deriveKey x.context h.fed = digest := by
  obtain ⟨hasher, hhasher, rfl⟩ := hdigest.hashedBy
  rw [DeriveKeyHasher.finalize, hhasher.context_eq, hhasher.fed_eq hx rfl]

/-- What a hasher is fed determines what is hashed; fragments and tables are
hashed in two different contexts. The two functions return the digest of what is fed,
and one digest for two different things is a collision of the hash function on it. -/
theorem hashed_determined {x y : Hashed} {h h' : DeriveKeyHasher} (hx : HashedBy x h)
    (hy : HashedBy y h') :
    (h.fed = h'.fed → x = y) ∧ h.context = x.context ∧ h'.context = y.context ∧
      rpcChunkContext ≠ rpcRootContext ∧
      ∀ deriveKey : List Byte → List Byte → Digest,
        Digested deriveKey x (deriveKey x.context h.fed) ∧
        Digested deriveKey y (deriveKey y.context h'.fed) ∧
        ∀ digest, Digested deriveKey x digest → Digested deriveKey y digest → x ≠ y →
          h.fed ≠ h'.fed ∧ deriveKey x.context h.fed = deriveKey y.context h'.fed := by
  refine ⟨fed_inj hx hy, hx.context_eq, hy.context_eq, rpcChunkContext_ne_rpcRootContext, ?_⟩
  intro deriveKey
  refine ⟨?_, ?_, fun digest hdx hdy hne => ⟨fun hfed => hne (fed_inj hx hy hfed), ?_⟩⟩
  · rw [← hx.context_eq]
    exact hx.digested deriveKey
  · rw [← hy.context_eq]
    exact hy.digested deriveKey
  · rw [hdx.eq hx, hdy.eq hy]

/-- Two fragments that differ in a byte, and two tables with their entries exchanged: a
function that gives all of them one digest collides on what it is fed. -/
theorem hashed_determined_of_two :
    let packetId : PacketId := Vector.replicate 16 7
    let digests : Digest × Digest := (Vector.replicate 32 1, Vector.replicate 32 2)
    let constant : List Byte → List Byte → Digest := fun _ _ => digests.1
    (∃ h h', HashedBy (.fragment packetId 2 3 [0x61, 0x62]) h ∧
      HashedBy (.fragment packetId 2 3 [0x61, 0x63]) h' ∧ h.fed ≠ h'.fed ∧
      constant rpcChunkContext h.fed = constant rpcChunkContext h'.fed) ∧
    ∃ h h', HashedBy (.manifest packetId 2 [(5, digests.1), (6, digests.2)]) h ∧
      HashedBy (.manifest packetId 2 [(6, digests.2), (5, digests.1)]) h' ∧ h.fed ≠ h'.fed ∧
      constant rpcRootContext h.fed = constant rpcRootContext h'.fed := by
  intro packetId digests constant
  refine ⟨?_, ?_⟩
  · have hchunk : chunkHasher (some packetId) 2 3
        { data := some [0x61, 0x62], len := 2, len_eq := by simp } = .ok _ := rfl
    have hchunk' : chunkHasher (some packetId) 2 3
        { data := some [0x61, 0x63], len := 2, len_eq := by simp } = .ok _ := rfl
    obtain ⟨-, -, -, -, hdigest⟩ := hashed_determined (.fragment hchunk) (.fragment hchunk')
    obtain ⟨hd, hd', hcollide⟩ := hdigest constant
    exact ⟨_, _, .fragment hchunk, .fragment hchunk', hcollide _ hd hd' (by simp [Payload.bytes])⟩
  · have hroot : rootHasher (some packetId) 2 (some #v[5, 6]) (some #v[digests.1, digests.2]) =
        .ok _ := rfl
    have hroot' : rootHasher (some packetId) 2 (some #v[6, 5]) (some #v[digests.2, digests.1]) =
        .ok _ := rfl
    obtain ⟨-, -, -, -, hdigest⟩ := hashed_determined (.manifest hroot) (.manifest hroot')
    obtain ⟨hd, hd', hcollide⟩ := hdigest constant
    exact ⟨_, _, .manifest hroot, .manifest hroot', hcollide _ hd hd' (by simp)⟩

end Blake3.Custody
