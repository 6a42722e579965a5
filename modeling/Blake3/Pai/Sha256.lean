import Blake3.Fc16.Fips180

/-!
The SHA-256 of `hash_sha256.c`, which is that of `rmr_fc16_sha256.c` but for its
counter: `pai_sha256_update` multiplies the length of its input by eight before it
widens it.
-/

namespace Blake3.Pai

/-! ### The compression function -/

/-- The numbers in `K[64]`. -/
def constants : List Word := [
  0x428a2f98, 0x71374491, 0xb5c0fbcf, 0xe9b5dba5, 0x3956c25b, 0x59f111f1, 0x923f82a4, 0xab1c5ed5,
  0xd807aa98, 0x12835b01, 0x243185be, 0x550c7dc3, 0x72be5d74, 0x80deb1fe, 0x9bdc06a7, 0xc19bf174,
  0xe49b69c1, 0xefbe4786, 0x0fc19dc6, 0x240ca1cc, 0x2de92c6f, 0x4a7484aa, 0x5cb0a9dc, 0x76f988da,
  0x983e5152, 0xa831c66d, 0xb00327c8, 0xbf597fc7, 0xc6e00bf3, 0xd5a79147, 0x06ca6351, 0x14292967,
  0x27b70a85, 0x2e1b2138, 0x4d2c6dfc, 0x53380d13, 0x650a7354, 0x766a0abb, 0x81c2c92e, 0x92722c85,
  0xa2bfe8a1, 0xa81a664b, 0xc24b8b70, 0xc76c51a3, 0xd192e819, 0xd6990624, 0xf40e3585, 0x106aa070,
  0x19a4c116, 0x1e376c08, 0x2748774c, 0x34b0bcb5, 0x391c0cb3, 0x4ed8aa4a, 0x5b9cca4f, 0x682e6ff3,
  0x748f82ee, 0x78a5636f, 0x84c87814, 0x8cc70208, 0x90befffa, 0xa4506ceb, 0xbef9a3f7, 0xc67178f2]

def K : Vector Word 64 := Vector.ofFn fun i => constants.getD i.val 0

def rotr (x n : Word) : Word := (x >>> n) ||| (x <<< (32 - n))
def ch (x y z : Word) : Word := (x &&& y) ^^^ (~~~x &&& z)
def maj (x y z : Word) : Word := (x &&& y) ^^^ (x &&& z) ^^^ (y &&& z)
def ep0 (x : Word) : Word := rotr x 2 ^^^ rotr x 13 ^^^ rotr x 22
def ep1 (x : Word) : Word := rotr x 6 ^^^ rotr x 11 ^^^ rotr x 25
def sig0 (x : Word) : Word := rotr x 7 ^^^ rotr x 18 ^^^ (x >>> 3)
def sig1 (x : Word) : Word := rotr x 17 ^^^ rotr x 19 ^^^ (x >>> 10)

/-- The two loops that fill `w[64]`, an array that holds anything before. -/
def fillSchedule (block : Block) (w : ℕ → Word) : ℕ → Word :=
  let at' := fun i => (block.toList.getD i 0).toUInt32
  let w := (List.range 16).foldl (fun w i => Function.update w i
    (at' (i * 4) <<< 24 ||| at' (i * 4 + 1) <<< 16 ||| at' (i * 4 + 2) <<< 8 ||| at' (i * 4 + 3))) w
  (List.range' 16 48).foldl (fun w i => Function.update w i
    (sig1 (w (i - 2)) + w (i - 7) + sig0 (w (i - 15)) + w (i - 16))) w

/-- The eight variables after one turn of the third loop. -/
def turn (w : ℕ → Word) (v : Sha256.State) (i : ℕ) : Sha256.State :=
  let t1 := v.h + ep1 v.e + ch v.e v.f v.g + K.toList.getD i 0 + w i
  let t2 := ep0 v.a + maj v.a v.b v.c
  { h := v.g, g := v.f, f := v.e, e := v.d + t1, d := v.c, c := v.b, b := v.a, a := t1 + t2 }

/-- What the eight variables are declared with. -/
def declared (h : Vector Word 8) : Sha256.State where
  a := h.toList.getD 0 0
  b := h.toList.getD 1 0
  c := h.toList.getD 2 0
  d := h.toList.getD 3 0
  e := h.toList.getD 4 0
  f := h.toList.getD 5 0
  g := h.toList.getD 6 0
  h := h.toList.getD 7 0

/-- `process_block` on the words `ctx->h`, where `w` is what the stack holds. -/
def processBlock (w : ℕ → Word) (h : Vector Word 8) (block : Block) : Vector Word 8 :=
  let w := fillSchedule block w
  let v := (List.range 64).foldl (turn w) (declared h)
  h.zipWith (· + ·) #v[v.a, v.b, v.c, v.d, v.e, v.f, v.g, v.h]

theorem toList_K : K.toList = Sha256.roundConstants := by
  rw [← Fc16.toList_k256]
  rfl

/-- A loop that stores the first `n` words of the schedule. -/
theorem fill_words (block : List Byte) (w : ℕ → Word) (n : ℕ) :
    ∀ t < n, (List.range n).foldl (fun w i => Function.update w i (Sha256.word block i)) w t =
      Sha256.word block t := by
  induction n with
  | zero => exact fun t ht => absurd ht t.not_lt_zero
  | succ n ih =>
      intro t ht
      rw [List.range_succ, List.foldl_append, List.foldl_cons, List.foldl_nil]
      rcases Nat.lt_or_ge t n with hlt | hge
      · rw [Function.update_of_ne hlt.ne, ih t hlt]
      · obtain rfl : t = n := by omega
        rw [Function.update_self]

/-- A loop that goes on from sixteen words: each word it stores needs only words that are
there already. -/
theorem expand_words {block : List Byte} {w : ℕ → Word}
    (hfirst : ∀ t < 16, w t = Sha256.schedule block t) (n : ℕ) :
    ∀ t < 16 + n, (List.range' 16 n).foldl (fun w i => Function.update w i
      (sig1 (w (i - 2)) + w (i - 7) + sig0 (w (i - 15)) + w (i - 16))) w t =
      Sha256.schedule block t := by
  induction n with
  | zero => exact hfirst
  | succ n ih =>
      intro t ht
      rw [List.range'_concat, List.foldl_append, List.foldl_cons, List.foldl_nil, Nat.one_mul]
      rcases Nat.lt_or_ge t (16 + n) with hlt | hge
      · rw [Function.update_of_ne hlt.ne, ih t hlt]
      · obtain rfl : t = 16 + n := by omega
        rw [Function.update_self, ih (16 + n - 2) (by omega), ih (16 + n - 7) (by omega),
          ih (16 + n - 15) (by omega), ih (16 + n - 16) (by omega),
          Sha256.schedule.eq_def block (16 + n), if_neg (by omega)]
        rfl

theorem fillSchedule_eq (block : Block) (w : ℕ → Word) {t : ℕ} (ht : t < 64) :
    fillSchedule block w t = Sha256.schedule block.toList t := by
  have hword : ∀ i, (block.toList.getD (i * 4) 0).toUInt32 <<< 24 |||
      (block.toList.getD (i * 4 + 1) 0).toUInt32 <<< 16 |||
      (block.toList.getD (i * 4 + 2) 0).toUInt32 <<< 8 |||
      (block.toList.getD (i * 4 + 3) 0).toUInt32 = Sha256.word block.toList i := by
    intro i
    rw [Sha256.word, Nat.mul_comm]
  have hfirst : ∀ t < 16, (List.range 16).foldl
      (fun w i => Function.update w i (Sha256.word block.toList i)) w t =
      Sha256.schedule block.toList t := by
    intro t ht
    rw [Sha256.schedule, if_pos ht, fill_words block.toList w 16 t ht]
  have hexpand := expand_words hfirst 48 t ht
  simpa only [fillSchedule, hword] using hexpand

theorem turns_eq {block : List Byte} {w : ℕ → Word}
    (hw : ∀ t < 64, w t = Sha256.schedule block t) (v : Sha256.State) {n : ℕ} (hn : n ≤ 64) :
    (List.range n).foldl (turn w) v = (List.range n).foldl
      (fun v t => v.round (Sha256.roundConstants.getD t 0) (Sha256.schedule block t)) v := by
  induction n with
  | zero => rw [List.range_zero, List.foldl_nil, List.foldl_nil]
  | succ n ih =>
      rw [List.range_succ, List.foldl_append, List.foldl_append, ih (by omega), List.foldl_cons,
        List.foldl_nil, List.foldl_cons, List.foldl_nil, turn, toList_K, hw n (by omega)]
      rfl

theorem declared_eq (h : Vector Word 8) : declared h = Fc16.stateOf h := by
  have hget : ∀ (i : Fin 8), h.toList.getD i.val 0 = h.get i := by
    intro i
    rw [List.getD_eq_getElem _ _ (by rw [Vector.length_toList]; exact i.isLt),
      Vector.getElem_toList]
    rfl
  exact Sha256.State.ext (hget 0) (hget 1) (hget 2) (hget 3) (hget 4) (hget 5) (hget 6) (hget 7)

theorem stateOf_words (v : Sha256.State) :
    Fc16.stateOf #v[v.a, v.b, v.c, v.d, v.e, v.f, v.g, v.h] = v := rfl

/-- `process_block` is the compression function of the standard. -/
theorem stateOf_processBlock (w : ℕ → Word) (h : Vector Word 8) (block : Block) :
    Fc16.stateOf (processBlock w h block) = (Fc16.stateOf h).compress block.toList := by
  have hturns := turns_eq (fun t ht => fillSchedule_eq block w ht) (Fc16.stateOf h) (n := 64) le_rfl
  rw [Sha256.State.compress, ← hturns, processBlock, Fc16.stateOf_add, stateOf_words, declared_eq]

/-- Whatever its array held, `process_block` is the compression function of
`rmr_fc16_sha256.c`. -/
theorem processBlock_eq (w : ℕ → Word) (h : Vector Word 8) (block : Block) :
    processBlock w h block = Fc16.block h block := by
  apply Fc16.stateOf_injective
  rw [stateOf_processBlock, Fc16.stateOf_block]

/-! ### The context -/

/-- `pai_sha256_ctx`, with `len` as `bitLen` and `buf` as `buffer`. -/
abbrev Sha256Ctx := Fc16.Sha256Ctx

namespace Sha256Ctx

/-- `pai_sha256_init`, which leaves the buffer as it is. -/
def init (buf : Block) : Sha256Ctx := { Fc16.Sha256Ctx.init with buffer := buf }

/-- `pai_sha256_update` where a `size_t` has `w` bits: `ctx->len += len * 8u`. Its
`process_block` is the `block` of `feed` (`processBlock_eq`). -/
def update (w : ℕ) (ctx : Sha256Ctx) (data : List Byte) : Result Sha256Ctx :=
  Fc16.Sha256Ctx.feed
    { ctx with bitLen := ctx.bitLen + UInt64.ofNat (data.length * 8 % 2 ^ w) } data

/-- `pai_sha256_final`, whose `process_block` is the `block` of `final`. -/
def final (ctx : Sha256Ctx) : Result (Sha256Ctx × Vector Byte 32) := Fc16.Sha256Ctx.final ctx

end Sha256Ctx

/-! ### The counter -/

/-- What successive calls add to the counter. -/
def counted (w : ℕ) (pieces : List (List Byte)) : ℕ :=
  (pieces.map fun p => p.length * 8 % 2 ^ w).sum

theorem counted_le (w : ℕ) (pieces : List (List Byte)) :
    counted w pieces ≤ 8 * pieces.flatten.length := by
  induction pieces with
  | nil => exact le_rfl
  | cons p pieces ih =>
      have hle := Nat.mod_le (p.length * 8) (2 ^ w)
      rw [counted, List.map_cons, List.sum_cons, List.flatten_cons, List.length_append]
      rw [counted] at ih
      omega

/-- The counter is right when no call wraps. -/
theorem counted_eq_iff {w : ℕ} {pieces : List (List Byte)} :
    counted w pieces = 8 * pieces.flatten.length ↔ ∀ p ∈ pieces, p.length * 8 < 2 ^ w := by
  induction pieces with
  | nil => exact iff_of_true rfl (by simp)
  | cons p pieces ih =>
      have hle := Nat.mod_le (p.length * 8) (2 ^ w)
      have hrest := counted_le w pieces
      have hmod : p.length * 8 % 2 ^ w = p.length * 8 ↔ p.length * 8 < 2 ^ w :=
        Nat.mod_eq_iff_lt (Nat.two_pow_pos w).ne'
      have hsplit : counted w (p :: pieces) = p.length * 8 % 2 ^ w + counted w pieces :=
        List.sum_cons
      rw [hsplit, List.flatten_cons, List.length_append, List.forall_mem_cons, ← ih, ← hmod]
      omega

theorem updates_eq {w : ℕ} {c : Sha256Ctx} {m done : List Byte} (pieces : List (List Byte))
    (h : Fc16.Sha256Ctx.Absorbed c m done) (hroom : c.bufferLen < 64) :
    ∃ c', pieces.foldlM (Sha256Ctx.update w) c = .ok c' ∧
      (∃ done, Fc16.Sha256Ctx.Absorbed c' (m ++ pieces.flatten) done) ∧ c'.bufferLen < 64 ∧
      c'.bitLen = c.bitLen + UInt64.ofNat (counted w pieces) := by
  induction pieces generalizing c m done with
  | nil =>
      refine ⟨c, rfl, ⟨done, ?_⟩, hroom, (UInt64.add_zero _).symm⟩
      rwa [List.flatten_nil, List.append_nil]
  | cons p pieces ih =>
      have hcount : Fc16.Sha256Ctx.Absorbed
          { c with bitLen := c.bitLen + UInt64.ofNat (p.length * 8 % 2 ^ w) } m done :=
        ⟨h.message, h.whole, h.chained, h.bounded⟩
      obtain ⟨c₁, hupdate, hroom₁⟩ := Fc16.Sha256Ctx.feed_of_lt p
        (c := { c with bitLen := c.bitLen + UInt64.ofNat (p.length * 8 % 2 ^ w) }) hroom
      obtain ⟨⟨done₁, h₁⟩, hlen₁⟩ := hcount.feed hupdate
      obtain ⟨c', hrest, habsorbed, hroom', hlen'⟩ := ih h₁ hroom₁
      refine ⟨c', ?_, ?_, hroom', ?_⟩
      · rw [List.foldlM_cons, Sha256Ctx.update, hupdate, Result.ok_bind, hrest]
      · rwa [List.flatten_cons, ← List.append_assoc]
      · rw [hlen', hlen₁, UInt64.add_assoc, ← UInt64.ofNat_add]
        rfl

/-- What a message, in pieces, leaves: a digest of the message padded with what the
counter says. No store is outside of the buffer. -/
theorem digest_eq (w : ℕ) (buf : Block) (pieces : List (List Byte)) :
    ∃ c c' digest, pieces.foldlM (Sha256Ctx.update w) (Sha256Ctx.init buf) = .ok c ∧
      c.final = .ok (c', digest) ∧ c.bitLen.toNat = counted w pieces % 2 ^ 64 ∧
      digest.toList =
        (Sha256.absorb .initial (Sha256.padWith pieces.flatten c.bitLen.toNat)).digest := by
  obtain ⟨c, hupdates, ⟨done, habsorbed⟩, hroom, hlen⟩ :=
    updates_eq (w := w) pieces (Fc16.Sha256Ctx.absorbed_init buf) (show 0 < 64 by decide)
  rw [List.nil_append] at habsorbed
  obtain ⟨c', digest, hfinal, hdigest⟩ := habsorbed.final hroom
  refine ⟨c, c', digest, hupdates, hfinal, ?_, hdigest⟩
  rw [hlen, show Fc16.Sha256Ctx.init.bitLen = 0 from rfl, UInt64.zero_add, UInt64.toNat_ofNat']

/-! ### The digest -/

/-- The updates and the end of a message never fail. The message is padded as the standard
has it exactly if a `size_t` has 64 bits or every call gets fewer than `2 ^ 29` bytes;
the digest is then that of the standard. -/
theorem paiSha256_spec {w : ℕ} (hw : w = 32 ∨ w = 64) (buf : Block) (pieces : List (List Byte))
    (h : pieces.flatten.length < 2 ^ 61) :
    ∃ c c' digest, pieces.foldlM (Sha256Ctx.update w) (Sha256Ctx.init buf) = .ok c ∧
      c.final = .ok (c', digest) ∧
      digest.toList =
        (Sha256.absorb .initial (Sha256.padWith pieces.flatten c.bitLen.toNat)).digest ∧
      (Sha256.padWith pieces.flatten c.bitLen.toNat = Sha256.pad pieces.flatten ↔
        w = 64 ∨ ∀ p ∈ pieces, p.length < 2 ^ 29) ∧
      ((w = 64 ∨ ∀ p ∈ pieces, p.length < 2 ^ 29) →
        digest.toList = Sha256.hash pieces.flatten) := by
  obtain ⟨c, c', digest, hupdates, hfinal, hlen, hdigest⟩ := digest_eq w buf pieces
  have hle := counted_le w pieces
  rw [Nat.mod_eq_of_lt (by omega)] at hlen
  have hfits : (∀ p ∈ pieces, p.length * 8 < 2 ^ w) ↔ w = 64 ∨ ∀ p ∈ pieces, p.length < 2 ^ 29 := by
    rcases hw with rfl | rfl
    · rw [or_iff_right (by decide)]
      exact forall₂_congr fun p _ => by omega
    · refine iff_of_true (fun p hp => ?_) (.inl rfl)
      have hlength := (List.sublist_flatten_of_mem hp).length_le
      omega
  have hpadded : Sha256.padWith pieces.flatten c.bitLen.toNat = Sha256.pad pieces.flatten ↔
      w = 64 ∨ ∀ p ∈ pieces, p.length < 2 ^ 29 := by
    rw [Sha256.pad, hlen, Sha256.padWith_inj (by omega) (by omega), counted_eq_iff, hfits]
  refine ⟨c, c', digest, hupdates, hfinal, hdigest, hpadded, fun hwidth => ?_⟩
  rw [hdigest, hpadded.mpr hwidth, Sha256.hash]

/-- A message of two blocks and a half, on a platform of 32 bits. -/
theorem paiSha256_spec_pieces :
    ∃ c c' digest, [List.replicate 60 0x61, [0x62, 0x63], [], List.replicate 100 0x64].foldlM
        (Sha256Ctx.update 32) (Sha256Ctx.init (Vector.replicate 64 0xff)) = .ok c ∧
      c.final = .ok (c', digest) ∧
      digest.toList =
        Sha256.hash (List.replicate 60 0x61 ++ [0x62, 0x63] ++ List.replicate 100 0x64) := by
  obtain ⟨c, c', digest, hupdates, hfinal, -, -, hdigest⟩ :=
    paiSha256_spec (w := 32) (.inl rfl) (Vector.replicate 64 0xff)
      [List.replicate 60 0x61, [0x62, 0x63], [], List.replicate 100 0x64] (by
        simp only [List.flatten_cons, List.flatten_nil, List.length_append, List.length_replicate,
          List.length_cons, List.length_nil]
        omega)
  refine ⟨c, c', digest, hupdates, hfinal, ?_⟩
  simpa only [List.flatten_cons, List.flatten_nil, List.append_nil, List.nil_append,
    List.append_assoc] using hdigest (.inr (by decide))

/-! ### A call that is too long -/

/-- The last block behind whole blocks. -/
def lastBlock (bits : ℕ) : List Byte :=
  0x80 :: (List.replicate 55 0 ++ (LittleEndian.toBytes 8 bits).reverse)

theorem absorb_padWith {m : List Byte} (hm : m.length % 64 = 0) (bits : ℕ) :
    Sha256.absorb .initial (Sha256.padWith m bits) =
      (Sha256.absorb .initial m).compress (lastBlock bits) := by
  have hzeros : Sha256.zeros m.length = 55 := by
    rw [Sha256.zeros, hm]
  rw [Sha256.padWith, hzeros, Sha256.absorb_append _ hm, Sha256.absorb_block]
  · rfl
  · rw [List.length_cons, List.length_append, List.length_replicate, List.length_reverse,
      LittleEndian.length_toBytes]

theorem digest_of_long {m : List Byte} (hm : m.length = 2 ^ 29) (buf : Block) :
    ∃ c c' digest, [m].foldlM (Sha256Ctx.update 32) (Sha256Ctx.init buf) = .ok c ∧
      c.final = .ok (c', digest) ∧
      digest.toList = ((Sha256.absorb .initial m).compress (lastBlock 0)).digest ∧
      Sha256.hash m = ((Sha256.absorb .initial m).compress (lastBlock (2 ^ 32))).digest ∧
      lastBlock 0 ≠ lastBlock (2 ^ 32) ∧
      (digest.toList = Sha256.hash m → (Sha256.absorb .initial m).compress (lastBlock 0) =
        (Sha256.absorb .initial m).compress (lastBlock (2 ^ 32))) := by
  obtain ⟨c, c', digest, hupdates, hfinal, hlen, hdigest⟩ := digest_eq 32 buf [m]
  have hflatten : [m].flatten = m := List.append_nil m
  have hzero : c.bitLen.toNat = 0 := by
    rw [hlen, counted, List.map_singleton, List.sum_singleton, hm]
    rfl
  rw [hzero, hflatten, absorb_padWith (by rw [hm]; rfl)] at hdigest
  have hstandard : Sha256.hash m =
      ((Sha256.absorb .initial m).compress (lastBlock (2 ^ 32))).digest := by
    rw [Sha256.hash, Sha256.pad, hm, absorb_padWith (by rw [hm]; rfl)]
    rfl
  refine ⟨c, c', digest, hupdates, hfinal, hdigest, hstandard, by decide, fun hsame => ?_⟩
  rw [hdigest, hstandard] at hsame
  exact Sha256.State.digest_inj hsame

/-- Half a gibibyte in one call, where a `size_t` has 32 bits: the last block that is
compressed tells a length of zero, and not of `2 ^ 32` bits. The digest is that of the
standard only if the compression function does not tell the two blocks apart. -/
theorem digest_of_half_gibibyte :
    ∃ c c' digest, [List.replicate (2 ^ 29) 0].foldlM (Sha256Ctx.update 32)
        (Sha256Ctx.init (Vector.replicate 64 0)) = .ok c ∧
      c.final = .ok (c', digest) ∧
      digest.toList = ((Sha256.absorb .initial (List.replicate (2 ^ 29) 0)).compress
        (lastBlock 0)).digest ∧
      Sha256.hash (List.replicate (2 ^ 29) 0) =
        ((Sha256.absorb .initial (List.replicate (2 ^ 29) 0)).compress
          (lastBlock (2 ^ 32))).digest ∧
      lastBlock 0 ≠ lastBlock (2 ^ 32) ∧
      (digest.toList = Sha256.hash (List.replicate (2 ^ 29) 0) →
        (Sha256.absorb .initial (List.replicate (2 ^ 29) 0)).compress (lastBlock 0) =
          (Sha256.absorb .initial (List.replicate (2 ^ 29) 0)).compress (lastBlock (2 ^ 32))) :=
  digest_of_long List.length_replicate (Vector.replicate 64 0)

end Blake3.Pai
