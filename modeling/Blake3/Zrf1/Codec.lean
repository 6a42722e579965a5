import Blake3.Memory

/-!
The ZRF1 container of `zipraf_free.c`: a header of 46 bytes with the digest of
the contents, followed by the contents or by runs and literals. Sizes and
positions are 32-bit words. Those of the packer are all below twice the limit of
3 MiB, so that they are plain numbers here; the two subtractions of the unpacker
that the container could make wrap are made in a build.
-/

namespace Blake3.Zrf1

abbrev Digest := CVBytes

def zMax : ℕ := 3 * 1024 * 1024
def zHdr : ℕ := 46

/-- `z_put32`. -/
def zPut32 (mem : List Byte) (p : ℕ) (v : Word) : Result (List Byte) :=
  Memory.storeAll mem p
    [v.toUInt8, (v >>> 8).toUInt8, (v >>> 16).toUInt8, (v >>> 24).toUInt8]

/-- `z_hash`: the digest of `n` bytes. -/
def zHash (hash : List Byte → Digest) (mem : List Byte) (n : ℕ) : Result Digest := do
  let bytes ← Memory.region mem 0 n
  pure (hash bytes)

/-! ### Runs and literals -/

/-- The loop of `z_run`, which starts with one byte. -/
def zRunFrom (src : List Byte) (n pos m : ℕ) (hm : 0 < m) : Result {m : ℕ // 0 < m} :=
  if m < 130 ∧ pos + m < n then do
    let next ← Memory.load src (pos + m)
    let first ← Memory.load src pos
    if next = first then zRunFrom src n pos (m + 1) (Nat.succ_pos m)
    else pure ⟨m, hm⟩
  else .ok ⟨m, hm⟩
termination_by 130 - m

/-- `z_run`: how often the byte at `pos` is repeated, up to 130 times. -/
def zRun (src : List Byte) (n pos : ℕ) : Result {m : ℕ // 0 < m} :=
  zRunFrom src n pos 1 Nat.one_pos

/-- The inner loop of `z_rle`: where the literal that starts at `s` ends. -/
def literalEnd (src : List Byte) (n s i : ℕ) : Result {e : ℕ // i ≤ e} :=
  if i < n ∧ i - s < 128 then do
    let ⟨count, _⟩ ← zRun src n i
    if 4 ≤ count ∨ 128 < i - s + count then pure ⟨i, le_rfl⟩
    else
      let ⟨e, he⟩ ← literalEnd src n s (i + count)
      pure ⟨e, (Nat.le_add_right i count).trans he⟩
  else .ok ⟨i, le_rfl⟩
termination_by n - i

/-- The loop of `z_rle`, at position `i` of the source and `o` of the output,
which starts at position `base` of the buffer if there is one. -/
def zRleFrom (src : List Byte) (n : ℕ) (dst : Option (List Byte)) (base i o : ℕ) :
    Result (ℕ × Option (List Byte)) :=
  if i < n then do
    let ⟨count, _⟩ ← zRun src n i
    if 4 ≤ count then
      let dst ← dst.mapM fun dst => do
        let dst ← Memory.store dst (base + o) (UInt8.ofNat (0x80 ||| (count - 3)))
        Memory.store dst (base + (o + 1)) (← Memory.load src i)
      zRleFrom src n dst base (i + count) (o + 2)
    else
      let ⟨e, he⟩ ← literalEnd src n i (i + count)
      let dst ← dst.mapM fun dst => do
        let dst ← Memory.store dst (base + o) (UInt8.ofNat (e - i - 1))
        Memory.copy dst (base + (o + 1)) src i (e - i)
      zRleFrom src n dst base e (o + (e - i + 1))
  else .ok (o, dst)
termination_by n - i

/-- `z_rle`: the length of the output, and the buffer when there is one. -/
def zRle (src : List Byte) (n : ℕ) (dst : Option (List Byte)) (base : ℕ) :
    Result (ℕ × Option (List Byte)) :=
  zRleFrom src n dst base 0 0

/-! ### Packing -/

/-- What a call returns, and what its two pointers point to then. -/
structure Outcome where
  code : ℤ
  dst : Option (List Byte)
  written : Option ℕ

def rmrZrf1Digest (hash : List Byte → Digest) (src : Option (List Byte)) (n : ℕ) :
    Result (ℤ × Option Digest) :=
  if (src = none ∧ n ≠ 0) ∨ zMax + zHdr < n then .ok (-1, none)
  else do
    let digest ← zHash hash (src.getD []) n
    pure (0, some digest)

def rmrZrf1Pack (hash : List Byte → Digest) (src : Option (List Byte)) (n : ℕ)
    (dst : Option (List Byte)) (cap : ℕ) (written : Option ℕ) : Result Outcome :=
  match dst, written with
  | some out, some _ =>
      if (src = none ∧ n ≠ 0) ∨ zMax < n then .ok { code := -1, dst := dst, written := written }
      else do
        let bytes := src.getD []
        let (encoded, _) ← zRle bytes n none 0
        let mode : Byte := if encoded < n then 1 else 0
        let payload := if mode ≠ 0 then encoded else n
        if cap < zHdr ∨ cap - zHdr < payload then
          pure { code := -2, dst := dst, written := written }
        else
          let out ← Memory.storeAll out 0 [0x5a, 0x52, 0x46, 0x31, 1, mode]
          let out ← zPut32 out 6 (UInt32.ofNat n)
          let out ← zPut32 out 10 (UInt32.ofNat payload)
          let digest ← zHash hash bytes n
          let out ← Memory.storeAll out 14 digest.toList
          let out ←
            (if mode ≠ 0 then do
              let (_, filled) ← zRle bytes n (some out) zHdr
              pure filled
            else if n ≠ 0 then some <$> Memory.copy out zHdr bytes 0 n
            else pure (some out))
          pure { code := 0, dst := out, written := some (zHdr + payload) }
  | _, _ => .ok { code := -1, dst := dst, written := written }

/-! ### Unpacking -/

/-- The loop that writes `count` copies of the byte at `ip`. -/
def repeatByte (src : List Byte) (ip : ℕ) (dst : List Byte) (op : ℕ) : ℕ → Result (List Byte)
  | 0 => .ok dst
  | count + 1 => do
      let dst ← Memory.store dst op (← Memory.load src ip)
      repeatByte src ip dst (op + 1) count

/-- The token loop of `rmr_zrf1_unpack`: the end of the output, or nothing for `-3`. -/
def tokensFrom (b : Build) (src : List Byte) (n raw ip op : ℕ) (dst : List Byte) :
    Result (Option ℕ × List Byte) :=
  if ip < n then do
    let token ← Memory.load src ip
    if token &&& 0x80 ≠ 0 then
      let count := (token &&& 0x7f).toNat + 3
      if n ≤ ip + 1 then pure (none, dst)
      else
        let room ← b.subU32 raw op
        if room < count then pure (none, dst)
        else
          let dst ← repeatByte src (ip + 1) dst op count
          tokensFrom b src n raw (ip + 2) (op + count) dst
    else
      let count := token.toNat + 1
      let left ← b.subU32 n (ip + 1)
      if left < count then pure (none, dst)
      else
        let room ← b.subU32 raw op
        if room < count then pure (none, dst)
        else
          let dst ← Memory.copy dst op src (ip + 1) count
          tokensFrom b src n raw (ip + 1 + count) (op + count) dst
  else .ok (some op, dst)
termination_by n - ip

/-- The accumulated difference between a digest and the one in the header. -/
def digestDiff (digest : Digest) (src : List Byte) : Result Word :=
  (List.finRange 32).foldlM (fun diff (k : Fin 32) => do
    let expected ← Memory.load src (14 + k)
    pure (diff ||| (digest.get k ^^^ expected).toUInt32)) 0

/-- The end of `rmr_zrf1_unpack`: the digest of the output is compared. -/
def checkDigest (hash : List Byte → Digest) (src dst : List Byte) (raw written : ℕ) :
    Result Outcome := do
  let digest ← zHash hash dst raw
  let diff ← digestDiff digest src
  if diff ≠ 0 then pure { code := -4, dst := some dst, written := some written }
  else pure { code := 0, dst := some dst, written := some raw }

def rmrZrf1Unpack (b : Build) (hash : List Byte → Digest) (src : Option (List Byte)) (n : ℕ)
    (dst : Option (List Byte)) (cap : ℕ) (written : Option ℕ) : Result Outcome :=
  match src, dst, written with
  | some src, some out, some old =>
      let failed (code : ℤ) (out : List Byte) : Result Outcome :=
        .ok { code := code, dst := some out, written := some old }
      if n < zHdr then failed (-1) out
      else do
        if (← Memory.load src 0) ≠ 0x5a ∨ (← Memory.load src 1) ≠ 0x52 ∨
            (← Memory.load src 2) ≠ 0x46 ∨ (← Memory.load src 3) ≠ 0x31 ∨
            (← Memory.load src 4) ≠ 1 then failed (-2) out
        else
          let mode ← Memory.load src 5
          if 1 < mode then failed (-2) out
          else
            let raw := (← Memory.load32 src 6).toNat
            let plen := (← Memory.load32 src 10).toNat
            if zMax < raw ∨ cap < raw ∨ plen ≠ n - zHdr then failed (-2) out
            else if mode = 0 then
              if plen ≠ raw then failed (-2) out
              else
                let out ← Memory.copy out 0 src zHdr raw
                checkDigest hash src out raw old
            else
              let (last, out) ← tokensFrom b src n raw zHdr 0 out
              match last with
              | none => failed (-3) out
              | some op =>
                  if op ≠ raw then failed (-3) out
                  else checkDigest hash src out raw old
  | _, _, _ => .ok { code := -1, dst := dst, written := written }

end Blake3.Zrf1
