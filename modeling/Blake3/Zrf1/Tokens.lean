import Blake3.Zrf1.Codec

/-!
What a stream of tokens stands for. The packer writes a stream that stands for
its source, in as many bytes as it measured, and the unpacker writes what the
stream it reads stands for, if there is room.
-/

namespace Blake3.Zrf1

/-- `Decodes stream out`: the tokens of `stream` stand for `out`. -/
inductive Decodes : List Byte → List Byte → Prop
  | nil : Decodes [] []
  | run {token b : Byte} {stream out : List Byte} (htoken : token &&& 0x80 ≠ 0)
      (rest : Decodes stream out) :
      Decodes (token :: b :: stream) (List.replicate ((token &&& 0x7f).toNat + 3) b ++ out)
  | literal {token : Byte} {bytes stream out : List Byte} (htoken : token &&& 0x80 = 0)
      (hlength : bytes.length = token.toNat + 1) (rest : Decodes stream out) :
      Decodes (token :: (bytes ++ stream)) (bytes ++ out)

/-! ### The packer -/

section Pack

variable {src : List Byte} {pos i s : ℕ}

/-- The bytes of a run are the first one. -/
theorem zRunFrom_eq {m : ℕ} (hm : 0 < m) (hm' : m ≤ 130) (hpos : pos + m ≤ src.length)
    (b : Byte) (hb : src[pos]? = some b) (hrun : (src.drop pos).take m = List.replicate m b) :
    ∃ count, zRunFrom src src.length pos m hm = .ok count ∧ count.1 ≤ 130 ∧
      pos + count.1 ≤ src.length ∧ (src.drop pos).take count.1 = List.replicate count.1 b := by
  fun_induction zRunFrom src src.length pos m hm with
  | case1 m hm hlt ih =>
      have hfirst : pos < src.length := by omega
      rw [Memory.load_of_lt hlt.2, Memory.load_of_lt hfirst, Result.ok_bind, Result.ok_bind]
      have hbyte : src[pos] = b := by
        rw [List.getElem?_eq_getElem hfirst] at hb
        exact Option.some.inj hb
      split_ifs with heq
      · refine ih (by omega) (by omega) ?_
        rw [List.take_add_one, hrun, List.getElem?_drop, List.getElem?_eq_getElem hlt.2, heq, hbyte,
          List.replicate_succ']
        rfl
      · exact ⟨_, rfl, hm', by omega, hrun⟩
  | case2 m hm hge => exact ⟨_, rfl, hm', hpos, hrun⟩

theorem zRun_eq (hpos : pos < src.length) :
    ∃ count, zRun src src.length pos = .ok count ∧ count.1 ≤ 130 ∧ pos + count.1 ≤ src.length ∧
      (src.drop pos).take count.1 = List.replicate count.1 src[pos] := by
  apply zRunFrom_eq Nat.one_pos (by omega) (by omega)
  · exact List.getElem?_eq_getElem hpos
  · rw [List.drop_eq_getElem_cons hpos]
    rfl

/-- A literal has at most 128 bytes. -/
theorem literalEnd_eq (hs : s ≤ i) (hlen : i ≤ s + 128) (hi : i ≤ src.length) :
    ∃ e, literalEnd src src.length s i = .ok e ∧ e.1 ≤ s + 128 ∧ e.1 ≤ src.length := by
  fun_induction literalEnd src src.length s i with
  | case1 i hlt ih =>
      obtain ⟨count, hcount, -, hle, -⟩ := zRun_eq hlt.1
      rw [hcount, Result.ok_bind]
      dsimp only
      split_ifs with hstop
      · exact ⟨_, rfl, hlen, hi⟩
      · obtain ⟨e, he, hbound⟩ := ih count.1 count.2 hstop (by omega) (by omega) hle
        rw [he, Result.ok_bind]
        exact ⟨_, rfl, hbound⟩
  | case2 i hge => exact ⟨_, rfl, hlen, hi⟩

theorem run_token {count : ℕ} (h4 : 4 ≤ count) (h130 : count ≤ 130) :
    UInt8.ofNat (0x80 ||| (count - 3)) &&& 0x80 ≠ 0 ∧
      (UInt8.ofNat (0x80 ||| (count - 3)) &&& 0x7f).toNat + 3 = count := by
  have hall : ∀ k < 128, UInt8.ofNat (0x80 ||| k) &&& 0x80 ≠ 0 ∧
      (UInt8.ofNat (0x80 ||| k) &&& 0x7f).toNat = k := by decide
  obtain ⟨hhigh, hlow⟩ := hall (count - 3) (by omega)
  exact ⟨hhigh, by omega⟩

theorem literal_token {count : ℕ} (h0 : 0 < count) (h128 : count ≤ 128) :
    UInt8.ofNat (count - 1) &&& 0x80 = 0 ∧ (UInt8.ofNat (count - 1)).toNat + 1 = count := by
  have hall : ∀ k < 128, UInt8.ofNat k &&& 0x80 = 0 ∧ (UInt8.ofNat k).toNat = k := by decide
  obtain ⟨hhigh, hlow⟩ := hall (count - 1) (by omega)
  exact ⟨hhigh, by omega⟩

/-- From position `i` of the source on, `stream` is measured and written. -/
structure Emits (src : List Byte) (i : ℕ) (stream : List Byte) : Prop where
  measure : ∀ base o, zRleFrom src src.length none base i o = .ok (o + stream.length, none)
  emit : ∀ buf base o, base + o + stream.length ≤ buf.length →
    zRleFrom src src.length (some buf) base i o =
      .ok (o + stream.length, some (Buffer.overwrite buf (base + o) stream))

/-- The rest of the stream after a token that has been written. -/
theorem Emits.rest {stream token buf : List Byte} {base o o' : ℕ} (h : Emits src i stream)
    (hroom : base + o + (token ++ stream).length ≤ buf.length) (ho : o' = o + token.length) :
    zRleFrom src src.length (some (Buffer.overwrite buf (base + o) token)) base i o' =
      .ok (o + (token ++ stream).length,
        some (Buffer.overwrite buf (base + o) (token ++ stream))) := by
  subst ho
  rw [List.length_append] at hroom ⊢
  have hlength := Buffer.length_overwrite (show base + o + token.length ≤ buf.length by omega)
  rw [h.emit _ _ _ (by rw [hlength]; omega), ← Nat.add_assoc base, ← Nat.add_assoc o,
    Buffer.overwrite_overwrite (by omega)]

theorem emits_end (hi : src.length ≤ i) : Emits src i [] := by
  constructor
  · intro base o
    rw [zRleFrom, if_neg (by omega)]
    rfl
  · intro buf base o _
    rw [zRleFrom, if_neg (by omega), Buffer.overwrite_nil]
    rfl

theorem emits_run {stream : List Byte} {count : {m : ℕ // 0 < m}} (hlt : i < src.length)
    (hcount : zRun src src.length i = .ok count) (h4 : 4 ≤ count.1)
    (hrest : Emits src (i + count.1) stream) :
    Emits src i (UInt8.ofNat (0x80 ||| (count.1 - 3)) :: src[i] :: stream) := by
  constructor
  · intro base o
    rw [zRleFrom, if_pos hlt, hcount, Result.ok_bind]
    dsimp only
    rw [if_pos h4, Option.mapM_none, Result.pure_eq, Result.ok_bind, hrest.measure,
      List.length_cons, List.length_cons]
    congr 2
    omega
  · intro buf base o hroom
    have hlength := hroom
    rw [List.length_cons, List.length_cons] at hlength
    have hfirst : base + o + [UInt8.ofNat (0x80 ||| (count.1 - 3))].length ≤ buf.length := by
      rw [List.length_singleton]
      omega
    have hpair : Buffer.overwrite (Buffer.overwrite buf (base + o)
        [UInt8.ofNat (0x80 ||| (count.1 - 3))]) (base + o + 1) [src[i]] =
          Buffer.overwrite buf (base + o) [UInt8.ofNat (0x80 ||| (count.1 - 3)), src[i]] :=
      Buffer.overwrite_overwrite hfirst
    rw [zRleFrom, if_pos hlt, hcount, Result.ok_bind]
    dsimp only
    rw [if_pos h4, Option.mapM_some, Memory.store_eq _ (by omega), Result.ok_bind,
      Memory.load_of_lt hlt, Result.ok_bind,
      Memory.store_eq _ (by rw [Buffer.length_overwrite hfirst]; omega)]
    exact (congrArg (fun buf => zRleFrom src src.length (some buf) base (i + count.1) (o + 2))
      hpair).trans (hrest.rest hroom rfl)

theorem emits_literal {stream : List Byte} {count : {m : ℕ // 0 < m}}
    {e : {e : ℕ // i + count.1 ≤ e}} (hlt : i < src.length)
    (hcount : zRun src src.length i = .ok count) (h4 : count.1 < 4)
    (he : literalEnd src src.length i (i + count.1) = .ok e) (hend : e.1 ≤ src.length)
    (hrest : Emits src e.1 stream) :
    Emits src i (UInt8.ofNat (e.1 - i - 1) :: ((src.drop i).take (e.1 - i) ++ stream)) := by
  have hie := e.2
  have hcopied : ((src.drop i).take (e.1 - i)).length = e.1 - i := by
    rw [List.length_take, List.length_drop]
    omega
  constructor
  · intro base o
    rw [zRleFrom, if_pos hlt, hcount, Result.ok_bind]
    dsimp only
    rw [if_neg (by omega), he, Result.ok_bind, Option.mapM_none, Result.pure_eq, Result.ok_bind,
      hrest.measure, List.length_cons, List.length_append, hcopied]
    congr 2
    omega
  · intro buf base o hroom
    have hlength := hroom
    rw [List.length_cons, List.length_append, hcopied] at hlength
    have hfirst : base + o + [UInt8.ofNat (e.1 - i - 1)].length ≤ buf.length := by
      rw [List.length_singleton]
      omega
    have hpair : Buffer.overwrite (Buffer.overwrite buf (base + o) [UInt8.ofNat (e.1 - i - 1)])
        (base + o + 1) ((src.drop i).take (e.1 - i)) =
          Buffer.overwrite buf (base + o)
            (UInt8.ofNat (e.1 - i - 1) :: (src.drop i).take (e.1 - i)) :=
      Buffer.overwrite_overwrite hfirst
    rw [zRleFrom, if_pos hlt, hcount, Result.ok_bind]
    dsimp only
    rw [if_neg (by omega), he, Result.ok_bind, Option.mapM_some, Memory.store_eq _ (by omega),
      Result.ok_bind, Memory.copy_eq (by omega) (by rw [Buffer.length_overwrite hfirst]; omega)]
    refine (congrArg (fun buf => zRleFrom src src.length (some buf) base e.1 (o + (e.1 - i + 1)))
      hpair).trans ?_
    refine hrest.rest hroom ?_
    rw [List.length_cons, hcopied]

/-- From every position on, one stream stands for what is left of the source: it is measured, and
it is written. -/
theorem zRleFrom_eq (hi : i ≤ src.length) :
    ∃ stream, Decodes stream (src.drop i) ∧ Emits src i stream := by
  induction hleft : src.length - i using Nat.strong_induction_on generalizing i with
  | _ left ih =>
  have hsplit : ∀ k, src.drop i = (src.drop i).take k ++ src.drop (i + k) := by
    intro k
    rw [← List.drop_drop, List.take_append_drop]
  rcases Nat.lt_or_ge i src.length with hlt | hge
  · obtain ⟨count, hcount, h130, hle, hbytes⟩ := zRun_eq hlt
    have hpos := count.2
    rcases Nat.lt_or_ge count.1 4 with h4 | h4
    · obtain ⟨e, he, h128, hend⟩ := literalEnd_eq (s := i) (i := i + count.1) (by omega) (by omega)
        hle
      have hie := e.2
      obtain ⟨stream, hdecodes, hemits⟩ := ih _ (by omega) hend rfl
      refine ⟨_, ?_, emits_literal hlt hcount h4 he hend hemits⟩
      obtain ⟨hhigh, hlow⟩ := literal_token (show 0 < e.1 - i by omega) (by omega)
      have hlength : ((src.drop i).take (e.1 - i)).length = e.1 - i := by
        rw [List.length_take, List.length_drop]
        omega
      have hliteral := Decodes.literal hhigh (hlength.trans hlow.symm) hdecodes
      have hjoin := hsplit (e.1 - i)
      rw [Nat.add_sub_cancel' (show i ≤ e.1 by omega)] at hjoin
      rwa [← hjoin] at hliteral
    · obtain ⟨stream, hdecodes, hemits⟩ := ih _ (by omega) hle rfl
      refine ⟨_, ?_, emits_run hlt hcount h4 hemits⟩
      obtain ⟨hhigh, hlow⟩ := run_token h4 h130
      have hrun := Decodes.run (b := src[i]) hhigh hdecodes
      rw [hsplit count.1, hbytes]
      rwa [hlow] at hrun
  · refine ⟨[], ?_, emits_end hge⟩
    rw [List.drop_eq_nil_of_le hge]
    exact .nil

end Pack

/-! ### The unpacker -/

section Unpack

variable {src dst stream out : List Byte} {token : Byte} {ip op raw : ℕ}

theorem Decodes.of_run (htoken : token &&& 0x80 ≠ 0) (h : Decodes (token :: stream) out) :
    ∃ b rest out', stream = b :: rest ∧
      out = List.replicate ((token &&& 0x7f).toNat + 3) b ++ out' ∧ Decodes rest out' := by
  cases h with
  | run _ rest => exact ⟨_, _, _, rfl, rfl, rest⟩
  | literal hliteral _ _ => exact absurd hliteral htoken

theorem Decodes.of_literal (htoken : token &&& 0x80 = 0) (h : Decodes (token :: stream) out) :
    token.toNat + 1 ≤ stream.length ∧ ∃ out', out = stream.take (token.toNat + 1) ++ out' ∧
      Decodes (stream.drop (token.toNat + 1)) out' := by
  cases h with
  | run hrun _ => exact absurd htoken hrun
  | @literal _ bytes stream out' _ hlength rest =>
      refine ⟨by rw [List.length_append]; omega, out', ?_, ?_⟩
      · rw [List.take_left' hlength]
      · rwa [List.drop_left' hlength]

/-- How the token loop ends, and with which output. -/
inductive Unpacked (raw op : ℕ) (stream dst : List Byte) : Option ℕ → List Byte → Prop
  | done {out : List Byte} (h : Decodes stream out) (hroom : op + out.length ≤ raw) :
      Unpacked raw op stream dst (some (op + out.length)) (Buffer.overwrite dst op out)
  | failed {dst' : List Byte} (hlength : dst'.length = dst.length)
      (hdrop : dst'.drop raw = dst.drop raw)
      (hno : ∀ out, Decodes stream out → raw < op + out.length) :
      Unpacked raw op stream dst none dst'

/-- A token that has been written is followed by what the rest of the stream gives. -/
theorem Unpacked.cons {stream' bytes dst' : List Byte} {last : Option ℕ}
    (hinto : ∀ out, Decodes stream' out → Decodes stream (bytes ++ out))
    (hfrom : ∀ out, Decodes stream out → ∃ out', out = bytes ++ out' ∧ Decodes stream' out')
    (hroom : op + bytes.length ≤ raw) (hraw : raw ≤ dst.length)
    (h : Unpacked raw (op + bytes.length) stream' (Buffer.overwrite dst op bytes) last dst') :
    Unpacked raw op stream dst last dst' := by
  cases h with
  | @done out hdecodes hrest =>
      rw [Buffer.overwrite_overwrite (by omega), Nat.add_assoc, ← List.length_append]
      rw [Nat.add_assoc, ← List.length_append] at hrest
      exact .done (hinto _ hdecodes) hrest
  | failed hlength hdrop hno =>
      refine .failed ?_ ?_ ?_
      · rw [hlength, Buffer.length_overwrite (by omega)]
      · rw [hdrop, Buffer.drop_overwrite (by omega) hroom]
      · intro out hout
        obtain ⟨out', rfl, hout'⟩ := hfrom out hout
        have hlong := hno out' hout'
        rw [List.length_append]
        omega

theorem Unpacked.run {b : Byte} {dst' : List Byte} {last : Option ℕ} {count : ℕ}
    (htoken : token &&& 0x80 ≠ 0) (hcount : count = (token &&& 0x7f).toNat + 3)
    (hroom : op + count ≤ raw) (hraw : raw ≤ dst.length)
    (h : Unpacked raw (op + count) stream (Buffer.overwrite dst op (List.replicate count b)) last
      dst') :
    Unpacked raw op (token :: b :: stream) dst last dst' := by
  have hlength : (List.replicate count b).length = count := List.length_replicate
  refine .cons ?_ ?_ (by rw [hlength]; exact hroom) hraw (by rw [hlength]; exact h)
  · intro out hout
    rw [hcount]
    exact .run htoken hout
  · intro out hout
    obtain ⟨_, _, out', heq, rfl, hrest⟩ := hout.of_run htoken
    obtain ⟨rfl, rfl⟩ := List.cons.inj heq
    exact ⟨out', by rw [hcount], hrest⟩

theorem Unpacked.literal {dst' : List Byte} {last : Option ℕ} {count : ℕ}
    (htoken : token &&& 0x80 = 0) (hcount : count = token.toNat + 1) (hleft : count ≤ stream.length)
    (hroom : op + count ≤ raw) (hraw : raw ≤ dst.length)
    (h : Unpacked raw (op + count) (stream.drop count)
      (Buffer.overwrite dst op (stream.take count)) last dst') :
    Unpacked raw op (token :: stream) dst last dst' := by
  have hlength : (stream.take count).length = count := by
    rw [List.length_take, Nat.min_eq_left hleft]
  refine .cons ?_ ?_ (by rw [hlength]; exact hroom) hraw (by rw [hlength]; exact h)
  · intro out hout
    have hliteral := Decodes.literal htoken (hlength.trans hcount) hout
    rwa [List.take_append_drop] at hliteral
  · intro out hout
    obtain ⟨-, hrest⟩ := hout.of_literal htoken
    rwa [← hcount] at hrest

theorem repeatByte_eq {count : ℕ} (hip : ip < src.length) (hroom : op + count ≤ dst.length) :
    repeatByte src ip dst op count =
      .ok (Buffer.overwrite dst op (List.replicate count src[ip])) := by
  induction count generalizing dst op with
  | zero => rw [repeatByte, List.replicate_zero, Buffer.overwrite_nil]
  | succ count ih =>
      have hfirst : op + [src[ip]].length ≤ dst.length := by
        rw [List.length_singleton]
        omega
      rw [repeatByte, Memory.load_of_lt hip, Result.ok_bind, Memory.store_eq _ (by omega),
        Result.ok_bind, ih (by rw [Buffer.length_overwrite hfirst]; omega), List.replicate_succ]
      exact congrArg Except.ok (Buffer.overwrite_overwrite hfirst)

/-- In every build the token loop writes what the stream stands for when that fits, and stops
otherwise. -/
theorem tokensFrom_unpacked (b : Build) (hip : ip ≤ src.length) (hop : op ≤ raw)
    (hraw : raw ≤ dst.length) :
    ∃ last dst', tokensFrom b src src.length raw ip op dst = .ok (last, dst') ∧
      Unpacked raw op (src.drop ip) dst last dst' := by
  -- on what is left of the stream: a token takes at least one byte of it
  induction hleft : src.length - ip using Nat.strong_induction_on generalizing ip op dst with
  | _ left ih =>
  have hnext : ∀ {ip' op' : ℕ} {bytes : List Byte}, ip < ip' → ip' ≤ src.length →
      op' ≤ raw → op + bytes.length ≤ raw →
      ∃ last dst', tokensFrom b src src.length raw ip' op' (Buffer.overwrite dst op bytes) =
        .ok (last, dst') ∧
        Unpacked raw op' (src.drop ip') (Buffer.overwrite dst op bytes) last dst' := by
    intro ip' op' bytes hlt hle hop' hbytes
    exact ih _ (by omega) hle hop' (by rw [Buffer.length_overwrite (by omega)]; exact hraw) rfl
  rcases Nat.lt_or_ge ip src.length with hlt | hge
  · rw [tokensFrom, if_pos hlt, Memory.load_of_lt hlt, Result.ok_bind,
      List.drop_eq_getElem_cons hlt]
    generalize src[ip] = token
    dsimp only
    split_ifs with htoken hend
    · -- the byte to be repeated is missing
      rw [List.drop_eq_nil_of_le hend]
      refine ⟨_, _, rfl, .failed rfl rfl ?_⟩
      intro out hout
      obtain ⟨_, _, _, hnil, -⟩ := hout.of_run htoken
      cases hnil
    · have hbyte : ip + 1 < src.length := by omega
      rw [Build.subU32_of_le b hop, Result.ok_bind, List.drop_eq_getElem_cons hbyte]
      split_ifs with hroom
      · refine ⟨_, _, rfl, .failed rfl rfl ?_⟩
        intro out hout
        obtain ⟨_, _, _, _, rfl, -⟩ := hout.of_run htoken
        rw [List.length_append, List.length_replicate]
        omega
      · rw [repeatByte_eq hbyte (by omega), Result.ok_bind]
        obtain ⟨last, dst', hrun, hrest⟩ := hnext (show ip < ip + 2 by omega) hbyte
          (show op + ((token &&& 0x7f).toNat + 3) ≤ raw by omega)
          (show op + (List.replicate ((token &&& 0x7f).toNat + 3) src[ip + 1]).length ≤ raw by
            rw [List.length_replicate]; omega)
        exact ⟨last, dst', hrun, .run htoken rfl (by omega) hraw hrest⟩
    · -- a literal, whose bytes may be missing or may not fit
      rw [not_not] at htoken
      rw [Build.subU32_of_le b (show ip + 1 ≤ src.length by omega), Result.ok_bind]
      split_ifs with hshort
      · refine ⟨_, _, rfl, .failed rfl rfl ?_⟩
        intro out hout
        have hlong := (hout.of_literal htoken).1
        rw [List.length_drop] at hlong
        omega
      · rw [Build.subU32_of_le b hop, Result.ok_bind]
        have hleft : token.toNat + 1 ≤ (src.drop (ip + 1)).length := by
          rw [List.length_drop]
          omega
        have hlength : ((src.drop (ip + 1)).take (token.toNat + 1)).length = token.toNat + 1 := by
          rw [List.length_take, Nat.min_eq_left hleft]
        split_ifs with hroom
        · refine ⟨_, _, rfl, .failed rfl rfl ?_⟩
          intro out hout
          obtain ⟨-, _, rfl, -⟩ := hout.of_literal htoken
          rw [List.length_append, hlength]
          omega
        · rw [Memory.copy_eq (by omega) (by omega), Result.ok_bind]
          obtain ⟨last, dst', hrun, hrest⟩ := hnext
            (show ip < ip + 1 + (token.toNat + 1) by omega) (by omega)
            (show op + (token.toNat + 1) ≤ raw by omega)
            (show op + ((src.drop (ip + 1)).take (token.toNat + 1)).length ≤ raw by omega)
          rw [← List.drop_drop] at hrest
          exact ⟨last, dst', hrun, .literal htoken rfl hleft (by omega) hraw hrest⟩
  · rw [tokensFrom, if_neg (by omega), List.drop_eq_nil_of_le hge]
    have hdone : Unpacked raw op [] dst (some (op + 0)) (Buffer.overwrite dst op []) :=
      .done .nil hop
    rw [Buffer.overwrite_nil] at hdone
    exact ⟨_, _, rfl, hdone⟩

end Unpack

end Blake3.Zrf1
