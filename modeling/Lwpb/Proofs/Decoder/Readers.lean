/-
What the readers compute.

`Moves.lean` says how far a reader gets; here is what it reads. The
word of shifts and ors that `lwpb_decode_varint` builds is the number of
the varint (`decodeVarint_of_at`), the two fixed-width readers are the
little-endian numbers, and a payload that is complete and stands in the
frame is read to its end (`readWireValue_of_at`). `Carries` is the link:
what the union holds once a payload has been read into it.

The converse is `readWireValue_inv`: a wire value that was read is a
complete payload, unless one of its varints was longer than ten bytes.
-/
import Lwpb.Wire.Tree
import Lwpb.Proofs.Decoder.Inside

namespace Lwpb

open Machine Base128 Slice TwosComplement

variable {sch : Schema} {root : MsgRef} {data : Bytes}

-- ============================================================ bits as sums

/-- An `or` with bits above is a sum. -/
theorem nat_or_shift {a c k : Nat} (ha : a < 2 ^ k) (hk : k ≤ 64) :
    a ||| c <<< k % 2 ^ 64 = (a + c * 2 ^ k) % 2 ^ 64 := by
  have hpow : 2 ^ 64 = 2 ^ (64 - k) * 2 ^ k := by
    rw [← Nat.pow_add]
    congr 1
    omega
  have hmod : c * 2 ^ k % 2 ^ 64 = c % 2 ^ (64 - k) * 2 ^ k := by
    rw [hpow, Nat.mul_mod_mul_right]
  have hlt : c % 2 ^ (64 - k) * 2 ^ k + a < 2 ^ 64 := by
    have hc : c % 2 ^ (64 - k) < 2 ^ (64 - k) :=
      Nat.mod_lt _ (Nat.pow_pos (by omega))
    calc c % 2 ^ (64 - k) * 2 ^ k + a
        < c % 2 ^ (64 - k) * 2 ^ k + 2 ^ k := by omega
      _ = (c % 2 ^ (64 - k) + 1) * 2 ^ k := by ring
      _ ≤ 2 ^ (64 - k) * 2 ^ k := Nat.mul_le_mul_right _ hc
      _ = 2 ^ 64 := hpow.symm
  rw [Nat.shiftLeft_eq, hmod, Nat.or_comm, Nat.mul_comm,
    ← Nat.two_pow_add_eq_or_of_lt ha, Nat.add_mod, hmod,
    Nat.mul_comm (2 ^ k)]
  by_cases hak : a < 2 ^ 64
  · rw [Nat.mod_eq_of_lt hak, Nat.add_comm a, Nat.mod_eq_of_lt hlt]
  · omega

/-- The same in 64-bit words. -/
theorem word_or_shift {acc c : UInt64} {k : Nat} (ha : acc.toNat < 2 ^ k)
    (hk : k < 64) :
    acc ||| (c <<< UInt64.ofNat k)
      = UInt64.ofNat (acc.toNat + c.toNat * 2 ^ k) := by
  apply UInt64.toNat_inj.mp
  rw [UInt64.toNat_or, UInt64.toNat_shiftLeft, UInt64.toNat_ofNat',
    UInt64.toNat_ofNat', Nat.mod_eq_of_lt (by omega : k < 2 ^ 64),
    Nat.mod_eq_of_lt hk]
  exact nat_or_shift ha (by omega)

/-- The seven low bits of a byte. -/
theorem low_bits (b : UInt8) : (b &&& 0x7f).toUInt64.toNat = b.toNat % 128 := by
  rw [UInt8.toNat_toUInt64, UInt8.toNat_and]
  exact Nat.and_two_pow_sub_one_eq_mod b.toNat 7

/-- The continuation bit, as a comparison. -/
theorem high_bit (b : UInt8) : b &&& 0x80 = 0 ↔ b.toNat < 128 := by
  have hall : ∀ n < 256, (n &&& 128 = 0 ↔ n < 128) := by
    decide +kernel
  rw [← UInt8.toNat_inj, UInt8.toNat_and]
  exact hall b.toNat b.toNat_lt

-- ================================================================= varints

/-- The loop reads a varint that stands before `stop` and has no more
bytes than rounds. -/
theorem decodeVarintLoop_of_at {stop : Nat} :
    ∀ {v : Bytes} {rounds bitpos pos : Nat} (acc : UInt64),
      Terminated v → At data pos v → pos + v.length ≤ stop →
      v.length ≤ rounds → bitpos + 7 * rounds = 70 →
      acc.toNat < 2 ^ bitpos →
      decodeVarintLoop data stop rounds bitpos pos acc
        = .ok (UInt64.ofNat (acc.toNat + 2 ^ bitpos * value v),
            pos + v.length) := by
  intro v
  induction v with
  | nil => intro rounds bitpos pos acc hv; exact hv.elim
  | cons b v ih =>
      intro rounds bitpos pos acc hv hat hstop hlen hbit hacc
      obtain ⟨hb, htail⟩ := at_cons.mp hat
      rw [List.length_cons] at hstop hlen ⊢
      obtain ⟨n, rfl⟩ : ∃ n, rounds = n + 1 := ⟨rounds - 1, by omega⟩
      have hput : varintPut acc bitpos b
          = UInt64.ofNat (acc.toNat + b.toNat % 128 * 2 ^ bitpos) := by
        rw [← low_bits]
        exact word_or_shift (c := (b &&& 0x7f).toUInt64) hacc
          (by omega : bitpos < 64)
      by_cases hlow : b.toNat < 128
      · rw [terminated_cons_lt hlow] at hv
        subst hv
        rw [decodeVarintLoop_last hb (.inl ((high_bit b).mpr hlow)), hput,
          value, value, Nat.mul_comm (2 ^ bitpos)]
        rfl
      · rw [terminated_cons_ge (by omega)] at hv
        have hpos := hv.length_pos
        rw [decodeVarintLoop_next hb (by rw [ne_eq, high_bit]; exact hlow)
          (by omega), hput]
        have hsum : acc.toNat + b.toNat % 128 * 2 ^ bitpos
            < 2 ^ (bitpos + 7) := by
          have hmod : b.toNat % 128 + 1 ≤ 128 := by omega
          have := Nat.mul_le_mul_right (2 ^ bitpos) hmod
          rw [Nat.pow_add]
          have h7 : (2 : Nat) ^ 7 = 128 := rfl
          rw [h7, Nat.mul_comm (2 ^ bitpos)]
          rw [Nat.add_mul, Nat.one_mul] at this
          omega
        -- the sum is a word: more bytes follow, so `bitpos + 7 < 64`
        have hword : (UInt64.ofNat
            (acc.toNat + b.toNat % 128 * 2 ^ bitpos)).toNat
            = acc.toNat + b.toNat % 128 * 2 ^ bitpos := by
          rw [UInt64.toNat_ofNat']
          apply Nat.mod_eq_of_lt
          have := Nat.pow_le_pow_right (n := 2) (by omega)
            (by omega : bitpos + 7 ≤ 64)
          omega
        rw [ih _ hv htail (by omega) (by omega) (by omega)
          (by rw [hword]; exact hsum), hword, value]
        congr 2
        · congr 1
          rw [Nat.pow_add]
          ring
        · omega

/-- A varint of at most ten bytes inside its frame is read as its value modulo
`2 ^ 64`. -/
theorem decodeVarint_of_at {v : Bytes} {buf : Buf} (hv : IsVarint v)
    (hat : At data buf.pos v) (hstop : buf.pos + v.length ≤ buf.stop) :
    decodeVarint data buf
      = .ok (varintWord v, { buf with pos := buf.pos + v.length }) := by
  have hloop := decodeVarintLoop_of_at 0 hv.1 hat hstop
    hv.2 rfl (by simp)
  unfold decodeVarint
  rw [hloop, Outcome.ok_bind]
  simp [varintWord]

/-- A varint of more than ten bytes stands at `pos`, as the loop reads
it: after ten continuation bytes the eleventh byte is the last. -/
def Overlong (data : Bytes) (pos : Nat) : Prop :=
  ∃ bs, At data pos bs ∧ bs.length = 11 ∧ Open (bs.take 10)

/-- A varint of more than ten bytes stands within the buffer. -/
def OverlongIn (data : Bytes) (buf : Buf) : Prop :=
  Overlong data buf.pos ∧ buf.pos + 11 ≤ buf.stop

/-- What the loop has read is a varint, or it has used up its rounds; past
the first byte it only reads bytes in front of `stop`. -/
theorem decodeVarintLoop_inv {stop rounds bitpos pos : Nat}
    {acc v : UInt64} {pos' : Nat}
    (h : decodeVarintLoop data stop rounds bitpos pos acc = .ok (v, pos')) :
    ∃ bs, At data pos bs ∧ pos' = pos + bs.length ∧
      ((Terminated bs ∧ bs.length ≤ rounds) ∨
        (bs.length = rounds + 1 ∧ Open (bs.take rounds) ∧
          (0 < rounds → pos + bs.length ≤ stop))) := by
  induction rounds generalizing bitpos pos acc with
  | zero =>
      obtain ⟨b, hb, ⟨-, hr⟩ | ⟨n, hn, -⟩⟩ := decodeVarintLoop_cases h
      · cases hr
        exact ⟨[b], at_cons.mpr ⟨hb, at_nil⟩, rfl,
          .inr ⟨rfl, fun c hc => absurd hc List.not_mem_nil,
            fun hpos => absurd hpos (Nat.lt_irrefl 0)⟩⟩
      · cases hn
  | succ n ih =>
      obtain ⟨b, hb, ⟨hend, hr⟩ | ⟨n, hn, hhigh, hroom, hrest⟩⟩ :=
        decodeVarintLoop_cases h
      · cases hr
        have hlow := hend.resolve_right (Nat.succ_ne_zero n)
        rw [high_bit] at hlow
        exact ⟨[b], at_cons.mpr ⟨hb, at_nil⟩, rfl,
          .inl ⟨(terminated_cons_lt hlow).mpr rfl, by simp⟩⟩
      · cases hn
        rw [ne_eq, high_bit] at hhigh
        obtain ⟨bs, hat, rfl, hcase⟩ := ih hrest
        refine ⟨b :: bs, at_cons.mpr ⟨hb, hat⟩, ?_, ?_⟩
        · rw [List.length_cons]
          omega
        · rcases hcase with ⟨hterm, hle⟩ | ⟨hlen, hopen, hstop⟩
          · refine .inl ⟨(terminated_cons_ge (by omega)).mpr hterm, ?_⟩
            rw [List.length_cons]
            omega
          · refine .inr ⟨by rw [List.length_cons, hlen], ?_, fun _ => ?_⟩
            · intro c hc
              rw [List.take_succ_cons] at hc
              rcases List.mem_cons.mp hc with rfl | hc
              · omega
              · exact hopen c hc
            · rw [List.length_cons]
              rcases Nat.eq_zero_or_pos n with rfl | hpos
              · omega
              · have := hstop hpos
                omega

/-- Room behind a varint does not change how it is read. -/
theorem decodeVarintLoop_mono {stop stop' : Nat} (hle : stop ≤ stop')
    {rounds bitpos pos : Nat} {acc : UInt64} {r : UInt64 × Nat}
    (h : decodeVarintLoop data stop rounds bitpos pos acc = .ok r) :
    decodeVarintLoop data stop' rounds bitpos pos acc = .ok r := by
  induction rounds generalizing bitpos pos acc with
  | zero =>
      obtain ⟨b, hb, ⟨hend, rfl⟩ | ⟨n, hn, -⟩⟩ := decodeVarintLoop_cases h
      · exact decodeVarintLoop_last hb hend
      · cases hn
  | succ n ih =>
      obtain ⟨b, hb, ⟨hend, rfl⟩ | ⟨n, hn, hhigh, hroom, hrest⟩⟩ :=
        decodeVarintLoop_cases h
      · exact decodeVarintLoop_last hb hend
      · cases hn
        rw [decodeVarintLoop_next hb hhigh (Nat.le_trans hroom hle)]
        exact ih hrest

/-- A varint that was read stands where it was read, unless it is one of
more than ten bytes that the buffer holds. -/
theorem decodeVarint_inv_at {buf buf' : Buf} {w : UInt64}
    (h : decodeVarint data buf = .ok (w, buf'))
    (hno : ¬ OverlongIn data buf) :
    ∃ v, IsVarint v ∧ At data buf.pos v ∧ w = varintWord v ∧
      buf' = { buf with pos := buf.pos + v.length } := by
  obtain ⟨pos', rfl, hloop⟩ := decodeVarint_inv h
  obtain ⟨v, hat, rfl, hcase⟩ := decodeVarintLoop_inv hloop
  rcases hcase with ⟨hterm, hlen⟩ | ⟨hlen, hopen, hstop⟩
  · refine ⟨v, ⟨hterm, hlen⟩, hat, ?_, rfl⟩
    have hwide := decodeVarintLoop_mono
      (Nat.le_max_left buf.stop (buf.pos + v.length)) hloop
    rw [decodeVarintLoop_of_at 0 hterm hat (Nat.le_max_right ..) hlen rfl
      (by simp)] at hwide
    simp only [Outcome.ok.injEq, Prod.mk.injEq] at hwide
    rw [← hwide.1, UInt64.toNat_zero, Nat.zero_add, Nat.pow_zero,
      Nat.one_mul]
    rfl
  · have hroom := hstop (by decide)
    rw [hlen] at hroom
    exact absurd ⟨⟨v, hat, hlen, hopen⟩, hroom⟩ hno

-- ============================================================= fixed width

/-- In 32-bit words, as long as nothing is shifted out. -/
theorem word32_or_shift {acc c : UInt32} {k : Nat} (ha : acc.toNat < 2 ^ k)
    (hk : k < 32) (hc : c.toNat * 2 ^ k < 2 ^ 32) :
    (acc ||| (c <<< UInt32.ofNat k)).toNat = acc.toNat + c.toNat * 2 ^ k := by
  rw [UInt32.toNat_or, UInt32.toNat_shiftLeft, UInt32.toNat_ofNat',
    Nat.mod_eq_of_lt (by omega : k < 2 ^ 32), Nat.mod_eq_of_lt hk,
    Nat.shiftLeft_eq, Nat.mod_eq_of_lt hc, Nat.or_comm, Nat.mul_comm,
    ← Nat.two_pow_add_eq_or_of_lt ha, Nat.add_comm]

/-- Four bytes are read as a little-endian word. -/
theorem decode32bit_of_at {b : Bytes} {buf : Buf} (hb : b.length = 4)
    (hat : At data buf.pos b) (hleft : 4 ≤ bufLeft buf) :
    decode32bit data buf
      = .ok (UInt32.ofNat (le b), { buf with pos := buf.pos + 4 }) := by
  obtain ⟨b0, b1, b2, b3, rfl⟩ : ∃ b0 b1 b2 b3, b = [b0, b1, b2, b3] := by
    match b, hb with
    | [b0, b1, b2, b3], _ => exact ⟨b0, b1, b2, b3, rfl⟩
  obtain ⟨h0, hat⟩ := at_cons.mp hat
  obtain ⟨h1, hat⟩ := at_cons.mp hat
  obtain ⟨h2, hat⟩ := at_cons.mp hat
  obtain ⟨h3, -⟩ := at_cons.mp hat
  have hword : b0.toUInt32 ||| (b1.toUInt32 <<< 8) ||| (b2.toUInt32 <<< 16)
      ||| (b3.toUInt32 <<< 24) = UInt32.ofNat (le [b0, b1, b2, b3]) := by
    apply UInt32.toNat_inj.mp
    have l0 := b0.toNat_lt
    have l1 := b1.toNat_lt
    have l2 := b2.toNat_lt
    have l3 := b3.toNat_lt
    have h0 : b0.toUInt32.toNat < 2 ^ 8 := by
      rw [UInt8.toNat_toUInt32]
      exact l0
    have s1 := word32_or_shift (c := b1.toUInt32) h0 (by omega)
      (by rw [UInt8.toNat_toUInt32]; omega)
    have s2 := word32_or_shift (c := b2.toUInt32) (k := 16)
      (by rw [s1, UInt8.toNat_toUInt32, UInt8.toNat_toUInt32]; omega)
      (by omega) (by rw [UInt8.toNat_toUInt32]; omega)
    have s3 := word32_or_shift (c := b3.toUInt32) (k := 24)
      (by rw [s2, s1]; simp only [UInt8.toNat_toUInt32]; omega)
      (by omega) (by rw [UInt8.toNat_toUInt32]; omega)
    refine Eq.trans s3 ?_
    rw [s2, s1]
    simp only [UInt8.toNat_toUInt32, UInt32.toNat_ofNat', le]
    omega
  unfold decode32bit byteAt
  rw [if_neg (by omega), h0, h1, h2, h3]
  simp only [Outcome.ok_bind]
  rw [hword]

/-- The loop takes the bytes from the last to the first: by induction on how
many are left. -/
theorem decode64bitLoop_of_at {pos : Nat} :
    ∀ {n : Nat} {bs : Bytes} (acc : UInt64), bs.length = n →
      At data pos bs → acc.toNat * 256 ^ n + le bs < 2 ^ 64 →
      decode64bitLoop data pos n acc
        = .ok (UInt64.ofNat (acc.toNat * 256 ^ n + le bs)) := by
  intro n
  induction n with
  | zero =>
      intro bs acc hlen hat hlt
      rw [List.length_eq_zero_iff.mp hlen, le]
      unfold decode64bitLoop
      simp
  | succ n ih =>
      intro bs acc hlen hat hlt
      have hne : bs ≠ [] := by
        intro h
        subst h
        cases hlen
      obtain ⟨init, b, rfl⟩ : ∃ init b, bs = init ++ [b] :=
        ⟨bs.dropLast, bs.getLast hne, (List.dropLast_append_getLast hne).symm⟩
      rw [List.length_append, List.length_singleton] at hlen
      have hlen' : init.length = n := by omega
      obtain ⟨hinit, hb⟩ := at_append.mp hat
      rw [hlen'] at hb
      obtain ⟨hb, -⟩ := at_cons.mp hb
      have hb' := b.toNat_lt
      rw [le_append, hlen', le, le, Nat.pow_succ] at hlt ⊢
      have hsum : acc.toNat * (256 ^ n * 256)
          + (le init + 256 ^ n * (b.toNat + 256 * 0))
          = (acc.toNat * 256 + b.toNat) * 256 ^ n + le init := by ring
      rw [hsum] at hlt ⊢
      have hacc : acc.toNat * 256 + b.toNat < 2 ^ 64 := by
        have := Nat.le_mul_of_pos_right (acc.toNat * 256 + b.toNat)
          (Nat.pow_pos (n := n) (by omega : 0 < 256))
        omega
      have hword : (acc <<< 8 ||| b.toUInt64).toNat
          = acc.toNat * 256 + b.toNat := by
        have h8 : (8 : UInt64).toNat % 64 = 8 := rfl
        have hshift : acc.toNat * 2 ^ 8 < 2 ^ 64 :=
          Nat.lt_of_le_of_lt (Nat.le_add_right _ b.toNat) hacc
        rw [UInt64.toNat_or, UInt64.toNat_shiftLeft, UInt8.toNat_toUInt64,
          h8, Nat.shiftLeft_eq, Nat.mod_eq_of_lt hshift, Nat.mul_comm,
          ← Nat.two_pow_add_eq_or_of_lt (i := 8) hb', Nat.mul_comm]
      unfold decode64bitLoop byteAt
      rw [hb]
      dsimp only
      rw [Outcome.ok_bind, ih _ hlen' hinit (by rw [hword]; exact hlt), hword]

/-- So eight bytes are read as one. -/
theorem decode64bit_of_at {b : Bytes} {buf : Buf} (hb : b.length = 8)
    (hat : At data buf.pos b) (hleft : 8 ≤ bufLeft buf) :
    decode64bit data buf
      = .ok (UInt64.ofNat (le b), { buf with pos := buf.pos + 8 }) := by
  have hlt : (0 : UInt64).toNat * 256 ^ 8 + le b < 2 ^ 64 := by
    have hle := le_lt b
    rw [hb] at hle
    rw [UInt64.toNat_zero, Nat.zero_mul, Nat.zero_add]
    calc le b < 256 ^ 8 := hle
      _ = 2 ^ 64 := by norm_num
  have hloop := decode64bitLoop_of_at 0 hb hat hlt
  rw [UInt64.toNat_zero, Nat.zero_mul, Nat.zero_add] at hloop
  unfold decode64bit
  rw [if_neg (by omega), hloop, Outcome.ok_bind]

-- ================================================================ payloads

/-- The union after payload `p` was read into it. -/
def Carries (data : Bytes) (wv : WireValue) : Payload → Prop
  | .varint v => wv.word = varintWord v
  | .bit64 b => wv.word = UInt64.ofNat (le b)
  | .string len content => wv.word = varintWord len ∧
      ∃ q, wv.data = some q ∧ At data q content ∧
        q + content.length ≤ data.length
  | .bit32 b => wv.word.toUInt32 = UInt32.ofNat (le b)

/-- A 32-bit value is written in the low half of the union. -/
theorem setInt32_low (wv : WireValue) (v : UInt32) :
    (wv.setInt32 v).word.toUInt32 = v :=
  low_half wv.word v

/-- The low half of a word, from its number. -/
theorem word_low (n : Nat) : (UInt64.ofNat n).toUInt32 = UInt32.ofNat n := by
  apply UInt32.toNat_inj.mp
  rw [UInt64.toNat_toUInt32, UInt64.toNat_ofNat', UInt32.toNat_ofNat']
  omega

/-- A complete payload that stands in the buffer is read to its end. -/
theorem readWireValue_of_at {p : Payload} {buf : Buf} (wv : WireValue)
    (hp : p.Complete) (hord : buf.Ordered) (hat : At data buf.pos p.bytes)
    (hend : buf.pos + p.bytes.length ≤ buf.stop)
    (hstop : buf.stop ≤ data.length) :
    ∃ wv', readWireValue data p.wireType wv buf
        = .ok (wv', { buf with pos := buf.pos + p.bytes.length }) ∧
      Carries data wv' p := by
  have hleft := hord.left
  cases p with
  | varint v =>
      refine ⟨{ wv with word := varintWord v }, ?_, rfl⟩
      have hread : decodeVarint data buf
          = .ok (varintWord v, { buf with pos := buf.pos + v.length }) :=
        decodeVarint_of_at hp hat hend
      unfold readWireValue Payload.wireType
      dsimp only
      rw [hread, Outcome.ok_bind]
      rfl
  | bit64 b =>
      have hb : b.length = 8 := hp
      have hend' : buf.pos + b.length ≤ buf.stop := hend
      refine ⟨{ wv with word := UInt64.ofNat (le b) }, ?_, rfl⟩
      unfold readWireValue Payload.wireType Payload.bytes
      dsimp only
      rw [decode64bit_of_at hb hat (by omega), Outcome.ok_bind, hb]
  | string len content =>
      obtain ⟨hlen, hcontent⟩ := hp
      obtain ⟨hatl, hatc⟩ := at_append.mp hat
      have hend' : buf.pos + (len ++ content).length ≤ buf.stop := hend
      rw [List.length_append] at hend'
      have hleft' : bufLeft { buf with pos := buf.pos + len.length }
          = buf.stop - (buf.pos + len.length) := ptrDiff_of_le (by
        show buf.pos + len.length ≤ buf.stop
        omega)
      refine ⟨⟨varintWord len, some (buf.pos + len.length)⟩, ?_, rfl,
        buf.pos + len.length, rfl, hatc, by omega⟩
      unfold readWireValue Payload.wireType Payload.bytes
      dsimp only
      rw [decodeVarint_of_at hlen hatl (by omega), Outcome.ok_bind]
      dsimp only
      rw [if_neg (by rw [hleft']; omega), if_neg (by omega), hcontent,
        List.length_append, Nat.add_assoc]
  | bit32 b =>
      have hb : b.length = 4 := hp
      have hend' : buf.pos + b.length ≤ buf.stop := hend
      refine ⟨wv.setInt32 (UInt32.ofNat (le b)), ?_, setInt32_low ..⟩
      unfold readWireValue Payload.wireType Payload.bytes
      dsimp only
      rw [decode32bit_of_at hb hat (by omega), Outcome.ok_bind, hb]

/-- A wire value that was read is a complete payload, if its varint is not
longer than ten bytes. -/
theorem readWireValue_inv {wt : WireType} {wv wv' : WireValue}
    {buf buf' : Buf} (hwt : ∀ code, wt ≠ .unknown code)
    (hno : (wt = .varint ∨ wt = .string) → ¬ OverlongIn data buf)
    (h : readWireValue data wt wv buf = .ok (wv', buf')) :
    ∃ p : Payload, p.wireType = wt ∧ p.Complete ∧
      At data buf.pos p.bytes ∧
      buf' = { buf with pos := buf.pos + p.bytes.length } ∧
      Carries data wv' p := by
  cases wt with
  | varint =>
      obtain ⟨⟨w, b⟩, hread, h⟩ := Outcome.bind_eq_ok.mp h
      obtain ⟨v, hvar, hat, rfl, rfl⟩ :=
        decodeVarint_inv_at hread (hno (.inl rfl))
      cases h
      exact ⟨.varint v, rfl, hvar, hat, rfl, rfl⟩
  | bit64 =>
      obtain ⟨⟨w, b⟩, hread, h⟩ := Outcome.bind_eq_ok.mp h
      obtain ⟨-, hle, hleft⟩ := decode64bit_ok hread
      obtain ⟨bs, hbs, hat⟩ := exists_at hle
      rw [decode64bit_of_at hbs hat hleft] at hread
      cases hread
      cases h
      exact ⟨.bit64 bs, rfl, hbs, hat, by rw [Payload.bytes, hbs], rfl⟩
  | string =>
      obtain ⟨len, b, hread, -, hfit, rfl, rfl⟩ := readWireValue_string h
      obtain ⟨v, hvar, hat, rfl, rfl⟩ :=
        decodeVarint_inv_at hread (hno (.inr rfl))
      have hfit' : buf.pos + v.length + (varintWord v).toNat ≤ data.length :=
        hfit
      obtain ⟨content, hlen, hatc⟩ := exists_at hfit'
      refine ⟨.string v content, rfl, ⟨hvar, hlen.symm⟩,
        at_append.mpr ⟨hat, hatc⟩, ?_, rfl, buf.pos + v.length, rfl,
        hatc, by omega⟩
      rw [Payload.bytes, List.length_append, hlen, Nat.add_assoc]
  | bit32 =>
      obtain ⟨⟨w, b⟩, hread, h⟩ := Outcome.bind_eq_ok.mp h
      obtain ⟨-, hle, hleft⟩ := decode32bit_ok hread
      obtain ⟨bs, hbs, hat⟩ := exists_at hle
      rw [decode32bit_of_at hbs hat hleft] at hread
      cases hread
      cases h
      exact ⟨.bit32 bs, rfl, hbs, hat, by rw [Payload.bytes, hbs],
        setInt32_low ..⟩
  | unknown code => exact absurd rfl (hwt code)

/-- The low half of a word, as the signed number it is the residue of. -/
theorem toInt32_eq {word : UInt64} {n : Int}
    (h : word.toNat % 2 ^ 32 = residue 32 n) :
    word.toUInt32.toInt32 = Int32.ofInt n := by
  apply Int32.toBitVec_inj.mp
  apply BitVec.eq_of_toNat_eq
  show word.toUInt32.toNat = (BitVec.ofInt 32 n).toNat
  rw [UInt64.toNat_toUInt32, h, BitVec.toNat_ofInt]
  rfl

/-- A word, as the signed number it is the residue of. -/
theorem toInt64_eq {word : UInt64} {n : Int}
    (h : word.toNat = residue 64 n) : word.toInt64 = Int64.ofInt n := by
  apply Int64.toBitVec_inj.mp
  apply BitVec.eq_of_toNat_eq
  show word.toNat = (BitVec.ofInt 64 n).toNat
  rw [h, BitVec.toNat_ofInt]
  rfl

/-- The decoder negates the low bit as a signed number of its own
width. -/
theorem neg_bit32 (word : UInt64) :
    (-(word &&& 1).toUInt32.toInt32).toInt64.toUInt64 = -(word &&& 1) := by
  have hbit : word &&& 1 = 0 ∨ word &&& 1 = 1 := by
    have hnat : (word &&& 1).toNat = word.toNat % 2 := by
      rw [UInt64.toNat_and]
      exact Nat.and_one_is_mod _
    rcases Nat.mod_two_eq_zero_or_one word.toNat with h | h
    · exact .inl (UInt64.toNat_inj.mp (hnat.trans h))
    · exact .inr (UInt64.toNat_inj.mp (hnat.trans h))
  rcases hbit with h | h
  · rw [h]
    rfl
  · rw [h]
    rfl

/-- The shifts of the decoder are the number of the zig-zag code. -/
theorem unzigzag_word (word : UInt64) :
    ((word >>> 1) ^^^ -(word &&& 1)).toNat
      = residue 64 (unzigzag word.toNat) :=
  toNat_unzigzag word.toBitVec (by decide)

/-- The conversions of the decoder are those of the wire format. -/
theorem convert_eq {typ : FieldType} (hnum : typ.isNumeric = true)
    (word : UInt64) (addr : Option Nat) :
    (convert typ ⟨word, addr⟩).map (spanBytes data)
      = .ofNumber typ word.toNat := by
  have hlt := word.toNat_lt
  have hcut : word.toUInt32 = UInt32.ofNat word.toNat := by
    rw [← word_low, UInt64.ofNat_toNat]
  have hint32 : word.toUInt32.toInt32 = Int32.ofInt word.toNat :=
    toInt32_eq (residue_natCast _).symm
  have hint64 : word.toInt64 = Int64.ofInt word.toNat := by
    refine toInt64_eq ?_
    rw [residue_natCast, Nat.mod_eq_of_lt hlt]
  have hzigzag := unzigzag_word word
  cases typ with
  | double => exact congrArg Value.double UInt64.ofNat_toNat.symm
  | float => exact congrArg Value.float hcut
  | int32 | sfixed32 => exact congrArg Value.int32 hint32
  | int64 | sfixed64 => exact congrArg Value.int64 hint64
  | uint32 | fixed32 => exact congrArg Value.uint32 hcut
  | uint64 | fixed64 => exact congrArg Value.uint64 UInt64.ofNat_toNat.symm
  | bool => exact congrArg Value.bool hint32
  | enum => exact congrArg Value.enum hint32
  | sint32 =>
      refine congrArg Value.int32 (toInt32_eq ?_)
      show ((word >>> 1) ^^^ _).toNat % 2 ^ 32 = _
      rw [neg_bit32, hzigzag, residue_mod (by decide)]
  | sint64 => exact congrArg Value.int64 (toInt64_eq hzigzag)
  | string | bytes | message | group => cases hnum

/-- The conversion of the decoder on the wire value of a payload is the
value of that payload, if the field declares the payload's wire type. -/
theorem convert_of_carries {typ : FieldType} {wv : WireValue} {p : Payload}
    (htyp : fieldWireType typ = some p.wireType) (hp : p.Complete)
    (hwv : Carries data wv p) :
    (convert typ wv).map (spanBytes data) = p.read typ := by
  obtain ⟨word, addr⟩ := wv
  cases p with
  | varint v =>
      have hw : word = varintWord v := hwv
      have hnum : typ.isNumeric = true := by
        cases typ <;> first | rfl | cases htyp
      rw [convert_eq hnum, hw]
      rfl
  | bit64 b =>
      have hw : word = UInt64.ofNat (le b) := hwv
      have hnum : typ.isNumeric = true := by
        cases typ <;> first | rfl | cases htyp
      rw [convert_eq hnum, hw]
      rfl
  | string len content =>
      obtain ⟨hw, q, hq, hat, -⟩ := hwv
      have hspan : spanBytes data ⟨addr, word.toNat⟩ = content := by
        unfold spanBytes
        have hlen : word.toNat = content.length := by
          rw [← hp.2]
          exact congrArg UInt64.toNat hw
        rw [show addr = some q from hq, hlen]
        exact hat.take
      cases typ with
      | string => exact congrArg Value.string hspan
      | bytes | message => exact congrArg Value.bytes hspan
      | _ => cases htyp
  | bit32 b =>
      have hw : word.toUInt32 = (UInt64.ofNat (le b)).toUInt32 := by
        rw [word_low]
        exact hwv
      -- only the low half is looked at
      have hlow : convert typ ⟨word, addr⟩
          = convert typ ⟨UInt64.ofNat (le b), addr⟩ := by
        cases typ with
        | float => exact congrArg Value.float hw
        | fixed32 => exact congrArg Value.uint32 hw
        | sfixed32 => exact congrArg (fun w => Value.int32 w.toInt32) hw
        | _ => cases htyp
      have hnum : typ.isNumeric = true := by
        cases typ <;> first | rfl | cases htyp
      rw [hlow, convert_eq hnum]
      rfl

/-- A string of a complete payload is a range of the input. -/
theorem inInput_of_carries {typ : FieldType} {wv : WireValue} {p : Payload}
    (htyp : fieldWireType typ = some p.wireType) (hp : p.Complete)
    (hwv : Carries data wv p) : (convert typ wv).InInput data := by
  cases p with
  | string len content =>
      obtain ⟨hword, q, hq, -, hle⟩ := hwv
      have hin : ∃ q, wv.data = some q ∧
          q + wv.word.toNat ≤ data.length := by
        refine ⟨q, hq, ?_⟩
        rw [hword, hp.2]
        exact hle
      cases typ with
      | string | bytes | message => exact hin
      | _ => cases htyp
  | varint | bit64 | bit32 =>
      cases typ with
      | string | bytes | message => cases htyp
      | group => cases htyp
      | _ => trivial

end Lwpb
