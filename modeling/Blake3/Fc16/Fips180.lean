import Blake3.Fc16.Sha256
import Blake3.Lib.Sha256
import Mathlib.Data.List.GetD

/-!
`rmr_fc16_sha256.c` and the standard. A context has taken in a message when its
chaining value is that of the whole blocks and its buffer holds the rest.
-/

namespace Blake3.Fc16

open Sha256 (State)

/-- The eight words of a hash value. -/
def stateOf (v : Vector Word 8) : State where
  a := v.get 0
  b := v.get 1
  c := v.get 2
  d := v.get 3
  e := v.get 4
  f := v.get 5
  g := v.get 6
  h := v.get 7

theorem toList_k256 : k256.toList = Sha256.roundConstants := by
  decide +kernel

theorem stateOf_injective : Function.Injective stateOf := by
  intro v v' h
  simp only [stateOf, Sha256.State.mk.injEq] at h
  obtain ⟨ha, hb, hc, hd, he, hf, hg, hh⟩ := h
  refine Vector.ext fun i hi => ?_
  have hcases : i = 0 ∨ i = 1 ∨ i = 2 ∨ i = 3 ∨ i = 4 ∨ i = 5 ∨ i = 6 ∨ i = 7 := by omega
  rcases hcases with rfl | rfl | rfl | rfl | rfl | rfl | rfl | rfl <;> assumption

theorem stateOf_initialWords : stateOf ⟨Sha256Ctx.initialWords, rfl⟩ = State.initial := by
  decide +kernel

theorem stateOf_round (v : Vector Word 8) (k w : Word) :
    stateOf (round v k w) = (stateOf v).round k w := rfl

/-! ### The schedule -/

theorem length_schedule_loop (first : List Word) (n : ℕ) :
    ((List.range' 16 n).foldl (fun w i =>
      w ++ [s1 (w.getD (i - 2) 0) + w.getD (i - 7) 0 + s0 (w.getD (i - 15) 0) + w.getD (i - 16) 0])
      first).length = first.length + n := by
  induction n with
  | zero => rfl
  | succ n ih =>
      rw [List.range'_concat, List.foldl_append, List.foldl_cons, List.foldl_nil,
        List.length_append, ih]
      rfl

theorem schedule_loop {block : List Byte} {first : List Word} (hlength : first.length = 16)
    (hfirst : ∀ t < 16, first.getD t 0 = Sha256.schedule block t) (n : ℕ) :
    ∀ t < 16 + n, ((List.range' 16 n).foldl (fun w i =>
      w ++ [s1 (w.getD (i - 2) 0) + w.getD (i - 7) 0 + s0 (w.getD (i - 15) 0) + w.getD (i - 16) 0])
      first).getD t 0 = Sha256.schedule block t := by
  induction n with
  | zero => exact hfirst
  | succ n ih =>
      intro t ht
      have hloop := length_schedule_loop first n
      rw [hlength] at hloop
      rw [List.range'_concat, List.foldl_append, List.foldl_cons, List.foldl_nil, Nat.one_mul]
      generalize (List.range' 16 n).foldl _ first = w at *
      rcases Nat.lt_or_ge t (16 + n) with hlt | hge
      · rw [List.getD_append _ _ _ _ (by omega), ih t hlt]
      · obtain rfl : t = 16 + n := by omega
        rw [Sha256.schedule.eq_def block (16 + n), if_neg (by omega),
          List.getD_append_right _ _ _ _ (by omega), hloop, Nat.sub_self, List.getD_cons_zero,
          ih (16 + n - 2) (by omega), ih (16 + n - 7) (by omega), ih (16 + n - 15) (by omega),
          ih (16 + n - 16) (by omega)]
        rfl

theorem length_schedule (b : Block) : (schedule b).length = 64 := by
  rw [schedule, length_schedule_loop, List.length_map, List.length_finRange]

theorem getD_schedule (b : Block) {t : ℕ} (ht : t < 64) :
    (schedule b).getD t 0 = Sha256.schedule b.toList t := by
  have hbyte : ∀ i (hi : i < 64), b[i] = b.toList.getD i 0 := by
    intro i hi
    rw [List.getD_eq_getElem _ _ (by rwa [Vector.length_toList]), Vector.getElem_toList]
  rw [schedule]
  apply schedule_loop
  · rw [List.length_map, List.length_finRange]
  · intro t ht
    rw [List.getD_eq_getElem _ _ (by rwa [List.length_map, List.length_finRange]), List.getElem_map,
      List.getElem_finRange, Sha256.schedule, if_pos ht, Sha256.word]
    simp only [hbyte]
    rfl
  · exact ht

/-! ### Blocks -/

theorem stateOf_rounds (rounds : List (Word × Word)) (v : Vector Word 8) :
    stateOf (rounds.foldl (fun v (k, w) => round v k w) v) =
      rounds.foldl (fun s kw => s.round kw.1 kw.2) (stateOf v) := by
  induction rounds generalizing v with
  | nil => rfl
  | cons kw rounds ih => rw [List.foldl_cons, List.foldl_cons, ih, stateOf_round]

theorem stateOf_add (v w : Vector Word 8) :
    stateOf (v.zipWith (· + ·) w) = (stateOf v).add (stateOf w) := by
  apply State.ext <;> exact Vector.getElem_zipWith ..

/-- `block` is the compression function of the standard. -/
theorem stateOf_block (h : Vector Word 8) (b : Block) :
    stateOf (block h b) = (stateOf h).compress b.toList := by
  have hrounds : k256.toList.zip (schedule b) = (List.range 64).map fun t =>
      (Sha256.roundConstants.getD t 0, Sha256.schedule b.toList t) := by
    apply List.ext_getElem
    · rw [List.length_zip, Vector.length_toList, length_schedule, List.length_map,
        List.length_range]
      rfl
    · intro t ht ht'
      rw [List.length_map, List.length_range] at ht'
      have hk : t < k256.toList.length := by rwa [Vector.length_toList]
      have hw : t < (schedule b).length := by rwa [length_schedule]
      rw [List.getElem_zip, List.getElem_map, List.getElem_range, ← getD_schedule b ht',
        ← toList_k256, List.getD_eq_getElem _ _ hk, List.getD_eq_getElem _ _ hw]
  rw [block, stateOf_add, stateOf_rounds, hrounds, List.foldl_map, State.compress]

theorem toList_digest (h : Vector Word 8) :
    (Sha256Ctx.digest h).toList = (stateOf h).digest := by
  rw [Sha256Ctx.digest, Vector.toList_ofFn]
  rfl

namespace Sha256Ctx

theorem bigEndian64_eq (v : UInt64) :
    bigEndian64 v = (LittleEndian.toBytes 8 v.toNat).reverse := by
  rw [← LittleEndian.toBytes_doubleWord]
  rfl

/-- The context has taken in a message: its chaining value is that of the whole blocks
`done`, and its buffer holds what follows. -/
structure Absorbed (c : Sha256Ctx) (m done : List Byte) : Prop where
  message : m = done ++ c.buffer.toList.take c.bufferLen
  whole : done.length % 64 = 0
  chained : stateOf c.h = Sha256.absorb .initial done
  bounded : c.bufferLen ≤ 64

variable {c c' : Sha256Ctx} {m done : List Byte} {b : Byte}

theorem absorbed_init (buffer : Block) : Absorbed { init with buffer } [] [] where
  message := rfl
  whole := rfl
  chained := stateOf_initialWords.trans (Sha256.absorb_of_lt _ (by decide)).symm
  bounded := Nat.zero_le _

theorem Absorbed.put (h : Absorbed c m done) (hput : c.put b = .ok c') :
    Absorbed c' (m ++ [b]) done ∧ c'.bitLen = c.bitLen := by
  rw [Sha256Ctx.put] at hput
  split_ifs at hput with hlt
  obtain rfl := Except.ok.inj hput
  refine ⟨⟨?_, h.whole, h.chained, hlt⟩, rfl⟩
  have hset : (c.buffer.set c.bufferLen b hlt).toList.take (c.bufferLen + 1) =
      c.buffer.toList.take c.bufferLen ++ [b] := by
    rw [Vector.toList_set, List.take_set, List.take_succ_eq_append_getElem (by simpa using hlt),
      List.set_append_right _ _ (by rw [List.length_take]; omega), List.length_take,
      Nat.min_eq_left (by simpa using hlt.le), Nat.sub_self]
    rfl
  rw [hset, h.message, List.append_assoc]

theorem Absorbed.flush (h : Absorbed c m done) : ∃ done, Absorbed c.flush m done := by
  rw [Sha256Ctx.flush]
  split_ifs with hfull
  · have hbuffer : c.buffer.toList.take c.bufferLen = c.buffer.toList := by
      rw [hfull]
      exact List.take_of_length_le (Vector.length_toList).le
    refine ⟨done ++ c.buffer.toList, ?_, ?_, ?_, Nat.zero_le _⟩
    · rw [h.message, hbuffer, List.take_zero, List.append_nil]
    · have hwhole := h.whole
      rw [List.length_append, Vector.length_toList]
      omega
    · rw [stateOf_block, h.chained, Sha256.absorb_append _ h.whole,
        Sha256.absorb_block _ Vector.length_toList]
  · exact ⟨done, h⟩

theorem bitLen_flush (c : Sha256Ctx) : c.flush.bitLen = c.bitLen := by
  rw [flush]
  split_ifs <;> rfl

theorem Absorbed.feed {p : List Byte} (h : Absorbed c m done) (hfeed : c.feed p = .ok c') :
    (∃ done, Absorbed c' (m ++ p) done) ∧ c'.bitLen = c.bitLen := by
  induction p generalizing c m done with
  | nil =>
      obtain rfl := Except.ok.inj hfeed
      rw [List.append_nil]
      exact ⟨⟨done, h⟩, rfl⟩
  | cons b p ih =>
      rw [Sha256Ctx.feed] at hfeed
      obtain ⟨c₁, hput, hfeed⟩ := Result.bind_eq_ok.mp hfeed
      obtain ⟨hput, hlen⟩ := h.put hput
      obtain ⟨done, hflush⟩ := hput.flush
      obtain ⟨habsorbed, hlen'⟩ := ih hflush hfeed
      rw [List.append_assoc] at habsorbed
      exact ⟨habsorbed, by rw [hlen', bitLen_flush, hlen]⟩

theorem Absorbed.putAll {p : List Byte} (h : Absorbed c m done) (hall : c.putAll p = .ok c') :
    Absorbed c' (m ++ p) done := by
  induction p generalizing c m with
  | nil =>
      obtain rfl := Except.ok.inj hall
      rwa [List.append_nil]
  | cons b p ih =>
      rw [Sha256Ctx.putAll, List.foldlM_cons] at hall
      obtain ⟨c₁, hput, hall⟩ := Result.bind_eq_ok.mp hall
      have hrest := ih (h.put hput).1 hall
      rwa [List.append_assoc] at hrest

/-- The padding loop writes zeros. -/
theorem Absorbed.pad (h : Absorbed c m done) (hpad : c.pad = .ok c') :
    (∃ done, Absorbed c' (m ++ List.replicate (unpadded c.bufferLen) 0) done) ∧
      c'.bitLen = c.bitLen := by
  induction c using pad.induct generalizing m done with
  | case1 c h56 =>
      rw [Sha256Ctx.pad, if_pos h56] at hpad
      obtain rfl := Except.ok.inj hpad
      have hnone : unpadded c.bufferLen = 0 := by
        rw [h56]
        rfl
      rw [hnone, List.replicate_zero, List.append_nil]
      exact ⟨⟨done, h⟩, rfl⟩
  | case2 c h56 e hput =>
      obtain ⟨c₁, hok, _⟩ := put_of_lt 0 (bufferLen_flush_lt h.bounded)
      rw [hput] at hok
      cases hok
  | case3 c h56 c₁ hput ih =>
      have hstep : c₁.pad = .ok c' := by
        rw [Sha256Ctx.pad, if_neg h56] at hpad
        split at hpad
        · cases hpad
        · rename_i heq
          rw [hput] at heq
          rwa [Except.ok.inj heq]
      obtain ⟨done, hflush⟩ := h.flush
      obtain ⟨habsorbed, hlen⟩ := hflush.put hput
      obtain ⟨hrest, hlen'⟩ := ih habsorbed hstep
      have hone : unpadded c.bufferLen = unpadded c₁.bufferLen + 1 := by
        obtain ⟨hlt, hlen⟩ := bufferLen_put hput
        have hbounded := h.bounded
        rw [bufferLen_flush] at hlt hlen
        rw [hlen, unpadded, unpadded]
        split_ifs at * <;> omega
      rw [List.append_assoc] at hrest
      rw [hone, List.replicate_succ]
      exact ⟨hrest, by rw [hlen', hlen, bitLen_flush]⟩

/-- What `final` returns is the digest of the message behind which the padding and the
counter stand. -/
theorem Absorbed.final (h : Absorbed c m done) (hlt : c.bufferLen < 64) :
    ∃ c' digest, c.final = .ok (c', digest) ∧ digest.toList =
      (Sha256.absorb .initial (Sha256.padWith m c.bitLen.toNat)).digest := by
  obtain ⟨c', digest, hfinal, -⟩ := final_of_lt hlt
  refine ⟨c', digest, hfinal, ?_⟩
  rw [Sha256Ctx.final] at hfinal
  obtain ⟨c₁, hput, hfinal⟩ := Result.bind_eq_ok.mp hfinal
  obtain ⟨c₂, hpad, hfinal⟩ := Result.bind_eq_ok.mp hfinal
  obtain ⟨c₃, hall, hfinal⟩ := Result.bind_eq_ok.mp hfinal
  obtain ⟨h₁, hlen₁⟩ := h.put hput
  obtain ⟨⟨done₂, h₂⟩, hlen₂⟩ := h₁.pad hpad
  have h₃ := h₂.putAll hall
  have hfull : c₃.bufferLen = 64 := by
    obtain ⟨c₄, hpad', h56⟩ := pad_of_le (c := c₁) h₁.bounded
    rw [hpad] at hpad'
    obtain rfl := Except.ok.inj hpad'
    obtain ⟨c₅, hall', hend⟩ := putAll_of_le (c := c₂) (bigEndian64 c₂.bitLen) (by rw [h56]; rfl)
    rw [hall] at hall'
    obtain rfl := Except.ok.inj hall'
    rw [hend, h56]
    rfl
  have hmod : c.bufferLen = m.length % 64 := by
    have hwhole := h.whole
    rw [h.message, List.length_append, List.length_take, Vector.length_toList,
      Nat.min_eq_left hlt.le]
    omega
  have hzeros : unpadded c₁.bufferLen = Sha256.zeros m.length := by
    rw [(bufferLen_put hput).2, hmod, unpadded, Sha256.zeros]
    split_ifs <;> omega
  have hpadded : m ++ [0x80] ++ List.replicate (unpadded c₁.bufferLen) 0 ++ bigEndian64 c₂.bitLen =
      Sha256.padWith m c.bitLen.toNat := by
    rw [hzeros, hlen₂, hlen₁, bigEndian64_eq, Sha256.padWith]
    simp only [List.append_assoc, List.cons_append, List.nil_append]
  have hbuffer : c₃.buffer.toList.take c₃.bufferLen = c₃.buffer.toList := by
    rw [hfull]
    exact List.take_of_length_le Vector.length_toList.le
  obtain ⟨-, rfl⟩ := Prod.mk.inj (Except.ok.inj hfinal)
  rw [toList_digest, stateOf_block, h₃.chained, ← Sha256.absorb_block _ Vector.length_toList,
    ← Sha256.absorb_append _ h₃.whole, ← hpadded, h₃.message, hbuffer]

/-! ### The digest -/

theorem bitLen_count (c : Sha256Ctx) {k n : ℕ} (h : c.bitLen = UInt64.ofNat (8 * k)) :
    (c.count n).bitLen = UInt64.ofNat (8 * (k + n)) := by
  rw [count, h, Nat.mul_add, UInt64.ofNat_add, UInt64.ofNat_mul, Nat.mul_comm 8 n, UInt64.ofNat_mul]
  rfl

/-- The context after a message: what it has taken in, and how much. -/
structure Reads (c : Sha256Ctx) (m : List Byte) : Prop where
  absorbed : ∃ done, Absorbed c m done
  counted : c.bitLen = UInt64.ofNat (8 * m.length)
  room : c.bufferLen < 64

theorem Reads.update (h : Reads c m) (p : List Byte) :
    ∃ c', c.update p = .ok c' ∧ Reads c' (m ++ p) := by
  obtain ⟨done, habsorbed⟩ := h.absorbed
  obtain ⟨c', hupdate, hroom⟩ := update_of_lt p h.room
  have hcount : Absorbed (c.count p.length) m done :=
    ⟨habsorbed.message, habsorbed.whole, habsorbed.chained, habsorbed.bounded⟩
  obtain ⟨hrest, hlen⟩ := hcount.feed hupdate
  refine ⟨c', hupdate, hrest, ?_, hroom⟩
  rw [hlen, bitLen_count c h.counted, List.length_append]

theorem Reads.updates (h : Reads c m) (pieces : List (List Byte)) :
    ∃ c', pieces.foldlM Sha256Ctx.update c = .ok c' ∧ Reads c' (m ++ pieces.flatten) := by
  induction pieces generalizing c m with
  | nil => exact ⟨c, rfl, by rwa [List.flatten_nil, List.append_nil]⟩
  | cons p pieces ih =>
      obtain ⟨c₁, hupdate, h₁⟩ := h.update p
      obtain ⟨c', hrest, h'⟩ := ih h₁
      refine ⟨c', by rw [List.foldlM_cons, hupdate, Result.ok_bind, hrest], ?_⟩
      rwa [List.flatten_cons, ← List.append_assoc]

theorem Reads.final (h : Reads c m) (hm : m.length < 2 ^ 61) :
    ∃ c' digest, c.final = .ok (c', digest) ∧ digest.toList = Sha256.hash m := by
  obtain ⟨done, habsorbed⟩ := h.absorbed
  obtain ⟨c', digest, hfinal, hdigest⟩ := habsorbed.final h.room
  refine ⟨c', digest, hfinal, ?_⟩
  rw [hdigest, h.counted, UInt64.toNat_ofNat', Nat.mod_eq_of_lt (by omega)]
  rfl

theorem reads_init (buffer : Block) : Reads { init with buffer } [] where
  absorbed := ⟨[], absorbed_init buffer⟩
  counted := rfl
  room := show 0 < 64 by decide

/-- Whatever is in the buffer at first, and however a message is split, the digest is
that of the standard. -/
theorem sha256_spec (buffer : Block) (pieces : List (List Byte))
    (h : pieces.flatten.length < 2 ^ 61) :
    ∃ c c' digest, pieces.foldlM update { init with buffer } = .ok c ∧
      c.final = .ok (c', digest) ∧ digest.toList = Sha256.hash pieces.flatten := by
  obtain ⟨c, hupdates, hreads⟩ := (reads_init buffer).updates pieces
  rw [List.nil_append] at hreads
  obtain ⟨c', digest, hfinal, hdigest⟩ := hreads.final h
  exact ⟨c, c', digest, hupdates, hfinal, hdigest⟩

/-- A message of two blocks and a half, in pieces that end inside of them. -/
theorem sha256_spec_pieces :
    ∃ c c' digest, [List.replicate 60 0x61, [0x62, 0x63], [], List.replicate 100 0x64].foldlM update
        { init with buffer := Vector.replicate 64 0xff } = .ok c ∧
      c.final = .ok (c', digest) ∧
      digest.toList =
        Sha256.hash (List.replicate 60 0x61 ++ [0x62, 0x63] ++ List.replicate 100 0x64) := by
  have h := sha256_spec (Vector.replicate 64 0xff)
    [List.replicate 60 0x61, [0x62, 0x63], [], List.replicate 100 0x64] (by
      simp only [List.flatten_cons, List.flatten_nil, List.length_append, List.length_replicate,
        List.length_cons, List.length_nil]
      omega)
  simpa only [List.flatten_cons, List.flatten_nil, List.append_nil, List.nil_append,
    List.append_assoc] using h

end Sha256Ctx

end Blake3.Fc16
