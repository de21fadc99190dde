/-
The methods for single numbers, in both directions.

Encoding is exact for every number, in the length one expects. Decoding
takes an encoding apart again wherever the argument fits an `int` and the
number a `long` (`roundTrips_iff`), and asks for more on what is cut off,
except for an empty string at `decode_varint`: its loop reads a byte before
it looks for the end, and finds the NUL behind the string
(`waits_iff`).

The three pairs of methods are one `Codec` with parameters: how wide its
numbers are, how long an encoding is, which function of the core reads it.
What differs is where the number goes: a `long` is signed, so a decoder
makes a negative number of the upper half of the 64-bit words
(`codecNumber_eq_iff`).
-/
import Lwpb.Python.Codecs
import Lwpb.Proofs.Python.Records
import Lwpb.Proofs.Python.Stream
import Lwpb.Proofs.Decoder.Varint
import Lwpb.Proofs.RoundTrip
import Mathlib.Data.Nat.Size

namespace Lwpb.Python

open Machine Memory Slice Base128

-- ================================================================= vocabulary

/-- The pairs of methods. -/
inductive Codec where
  | varint
  | bits32
  | bits64
  deriving Repr, DecidableEq

namespace Codec

/-- `encode_varint`, `encode_32bit`, `encode_64bit`. -/
def encode : Codec → Nat → Option Bytes
  | .varint => encoderEncodeVarint
  | .bits32 => encoderEncode32bit
  | .bits64 => encoderEncode64bit

/-- `decode_varint`, `decode_32bit`, `decode_64bit`. -/
def decode : Codec → Bytes → VarintRet
  | .varint => decoderDecodeVarint
  | .bits32 => decoderDecode32bitArg
  | .bits64 => decoderDecode64bit

/-- The bits of a number the pair is for. -/
def width : Codec → Nat
  | .varint => 64
  | .bits32 => 32
  | .bits64 => 64

/-- The length of an encoding: seven bits a byte, one byte at least, or
fixed. -/
def size : Codec → Nat → Nat
  | .varint, v => max 1 ((v.size + 6) / 7)
  | .bits32, _ => 4
  | .bits64, _ => 8

/-- An encoding with anything behind it is decoded. -/
def RoundTrips (c : Codec) (v : Nat) (t : Bytes) : Prop :=
  ∃ e, c.encode v = some e ∧ c.decode (e ++ t) = .tuple (some v) e.length

/-- The encoding has the length it should have. -/
def Sized (c : Codec) (v : Nat) : Prop :=
  ∃ e, c.encode v = some e ∧ e.length = c.size v

/-- The string is a strict prefix of an encoding. -/
def Cut (c : Codec) (v : Nat) (p : Bytes) : Prop :=
  ∃ e, c.encode v = some e ∧ p <+: e ∧ p ≠ e

/-- Nothing is decoded, and nothing taken. -/
def Waits (c : Codec) (p : Bytes) : Prop := c.decode p = .tuple none 0

end Codec

-- =================================================================== encoding

/-- The bytes of an encoding. -/
def codecBytes : Codec → Nat → Bytes
  | .varint, v => encode v
  | .bits32, v => leBytes 4 v
  | .bits64, v => leBytes 8 v

theorem codec_encode {c : Codec} {v : Nat} (hv : v < 2 ^ c.width) :
    c.encode v = some (codecBytes c v) := by
  cases c with
  | varint =>
      have hword : (UInt64.ofNat v).toNat = v :=
        UInt64.toNat_ofNat_of_lt' hv
      show encodeMethod Encoder2.encodeVarint UInt64.ofNat v = some (encode v)
      unfold encodeMethod
      rw [Encoder2.encodeVarint_eq, hword]
      apply local_read
      have := (isVarint_encode hv).2
      omega
  | bits32 => exact encoderEncode32bit_eq hv
  | bits64 =>
      have hword : (UInt64.ofNat v).toNat = v :=
        UInt64.toNat_ofNat_of_lt' hv
      show encodeMethod Encoder2.encode64bit UInt64.ofNat v
        = some (leBytes 8 v)
      unfold encodeMethod
      rw [Encoder2.encode64bit_eq, hword]
      apply local_read
      rw [leBytes_length]
      omega

/-- The shortest varint, in bits: a number of `k` bits has `k` sevenths,
rounded up, and zero has one byte. -/
theorem encode_length (v : Nat) :
    (encode v).length = max 1 ((v.size + 6) / 7) := by
  have hpow : ∀ k, 128 ^ k = 2 ^ (7 * k) := fun k => by
    rw [Nat.pow_mul]
  have hpos := encode_length_pos v
  have hupper : v.size ≤ 7 * (encode v).length := by
    rw [Nat.size_le, ← hpow]
    calc v = value (encode v) := (value_encode v).symm
      _ < 128 ^ (encode v).length := value_lt _
  have hlower : 2 ≤ (encode v).length →
      7 * ((encode v).length - 1) < v.size := by
    intro htwo
    rw [Nat.lt_size, ← hpow]
    by_contra hlt
    have hk : (encode v).length - 1 = (encode v).length - 2 + 1 := by omega
    rw [hk] at hlt
    have := encode_length_le_of_lt (Nat.lt_of_not_le hlt)
    omega
  by_cases htwo : 2 ≤ (encode v).length
  · have := hlower htwo
    omega
  · omega

theorem codecBytes_length {c : Codec} {v : Nat} :
    (codecBytes c v).length = c.size v := by
  cases c with
  | varint => exact encode_length v
  | bits32 => exact leBytes_length 4 v
  | bits64 => exact leBytes_length 8 v

theorem codec_sized {c : Codec} {v : Nat} (hv : v < 2 ^ c.width) :
    c.Sized v :=
  ⟨_, codec_encode hv, codecBytes_length⟩

-- =================================================================== decoding

theorem toInt64_eq_iff {v : Nat} (hv : v < 2 ^ 64) :
    (UInt64.ofNat v).toInt64.toInt = v ↔ v < 2 ^ 63 := by
  have hword : (UInt64.ofNat v).toNat = v := UInt64.toNat_ofNat_of_lt' hv
  have hint : (UInt64.ofNat v).toInt64.toInt
      = (UInt64.ofNat v).toBitVec.toInt := rfl
  have hbits : (UInt64.ofNat v).toBitVec.toNat = v := hword
  rw [hint, BitVec.toInt_eq_toNat_cond, hbits]
  split
  · omega
  · omega

/-- The number a decoder makes of a number that was encoded. -/
def codecNumber : Codec → Nat → Int
  | .varint, v => (UInt64.ofNat v).toInt64.toInt
  | .bits32, v => v
  | .bits64, v => (UInt64.ofNat v).toInt64.toInt

theorem codecNumber_eq_iff {c : Codec} {v : Nat} (hv : v < 2 ^ c.width) :
    codecNumber c v = v ↔ (c = .bits32 ∨ v < 2 ^ 63) := by
  cases c with
  | varint =>
      rw [or_iff_right (fun h => by cases h)]
      exact toInt64_eq_iff hv
  | bits32 => exact iff_of_true rfl (.inl rfl)
  | bits64 =>
      rw [or_iff_right (fun h => by cases h)]
      exact toInt64_eq_iff hv

/-- An argument that is too long for an `int`. -/
theorem codec_long {c : Codec} {buf : Bytes} (h : 2 ^ 31 ≤ buf.length) :
    c.decode buf = .null ⟨.overflowError, "size does not fit in an int"⟩ := by
  cases c with
  | varint => exact if_pos h
  | bits32 => exact if_pos h
  | bits64 => exact if_pos h

/-- A method whose function of the core reads the front of the string. -/
theorem decodeMethod_front {α : Type} (text : String)
    {read : Bytes → Buf → Outcome (α × Buf)} (number : α → Int)
    {buf : Bytes} {word : α} {n : Nat} (h : buf.length < 2 ^ 31)
    (hread : read (buf ++ [0]) ⟨0, 0, buf.length⟩
      = .ok (word, ⟨0, n, buf.length⟩)) :
    decodeMethod text read number buf
      = .tuple (some (number word)) n := by
  unfold decodeMethod
  rw [if_neg (by omega), hread]

theorem decodeMethod_short {α : Type} {text : String}
    {read : Bytes → Buf → Outcome (α × Buf)} {number : α → Int}
    {buf : Bytes} (h : buf.length < 2 ^ 31)
    (hread : read (buf ++ [0]) ⟨0, 0, buf.length⟩ = .err .endOfBuf) :
    decodeMethod text read number buf = .tuple none 0 := by
  unfold decodeMethod
  rw [if_neg (by omega), hread]

/-- What a method makes of an encoding in front of a string. -/
theorem codec_decode {c : Codec} {v : Nat} {t : Bytes}
    (hv : v < 2 ^ c.width) (h : (codecBytes c v ++ t).length < 2 ^ 31) :
    c.decode (codecBytes c v ++ t)
      = .tuple (some (codecNumber c v)) (codecBytes c v).length := by
  have hat : At (codecBytes c v ++ t ++ [0]) 0 (codecBytes c v) := by
    rw [List.append_assoc]
    exact List.prefix_append _ _
  have hroom : 0 + (codecBytes c v).length
      ≤ (codecBytes c v ++ t).length := by
    rw [List.length_append]
    omega
  have hleft : (codecBytes c v).length
      ≤ bufLeft ⟨0, 0, (codecBytes c v ++ t).length⟩ := by
    show _ ≤ ptrDiff (codecBytes c v ++ t).length 0
    rw [ptrDiff_of_le (Nat.zero_le _)]
    omega
  cases c with
  | varint =>
      have hread := @decodeVarint_of_at _ _ ⟨0, 0, _⟩ (isVarint_encode hv)
        hat hroom
      rw [varintWord_encode, Nat.zero_add] at hread
      exact decodeMethod_front _ _ h hread
  | bits32 =>
      have hword : (UInt32.ofNat (le (leBytes 4 v))).toNat = v := by
        have hv32 : v < 2 ^ 32 := hv
        rw [le_leBytes, UInt32.toNat_ofNat']
        omega
      have hread := @decode32bit_of_at _ _ ⟨0, 0, _⟩
        (leBytes_length 4 v) hat (by
          rw [codecBytes, leBytes_length] at hleft
          exact hleft)
      have hdec := decodeMethod_front "decode_varint error: "
        (fun w => (w.toNat : Int)) h hread
      rw [hword] at hdec
      rw [codecBytes, leBytes_length]
      exact hdec
  | bits64 =>
      have hword : UInt64.ofNat (le (leBytes 8 v)) = UInt64.ofNat v := by
        have hv64 : v < 2 ^ 64 := hv
        rw [le_leBytes, Nat.mod_eq_of_lt (by omega)]
      have hread := @decode64bit_of_at _ _ ⟨0, 0, _⟩
        (leBytes_length 8 v) hat (by
          rw [codecBytes, leBytes_length] at hleft
          exact hleft)
      have hdec := decodeMethod_front "decode_64bit error: "
        (fun w => w.toInt64.toInt) h hread
      rw [hword] at hdec
      rw [codecBytes, leBytes_length]
      exact hdec

/-- An encoding is decoded exactly if the argument fits an `int` and the
number fits what Python makes of it. -/
theorem roundTrips_iff {c : Codec} {v : Nat} {t : Bytes}
    (hv : v < 2 ^ c.width) :
    c.RoundTrips v t ↔
      (c = .bits32 ∨ v < 2 ^ 63) ∧ c.size v + t.length < 2 ^ 31 := by
  have hlen : (codecBytes c v ++ t).length = c.size v + t.length := by
    rw [List.length_append, codecBytes_length]
  have hform : c.RoundTrips v t ↔ c.decode (codecBytes c v ++ t)
      = .tuple (some v) (codecBytes c v).length := by
    unfold Codec.RoundTrips
    rw [codec_encode hv]
    simp
  rw [hform]
  by_cases hfits : (codecBytes c v ++ t).length < 2 ^ 31
  · rw [codec_decode hv hfits, ← codecNumber_eq_iff hv, ← hlen]
    simp only [VarintRet.tuple.injEq, Option.some.injEq, and_true,
      and_iff_left hfits]
  · rw [codec_long (Nat.le_of_not_lt hfits), ← hlen]
    exact iff_of_false (fun h => by cases h) fun h => hfits h.2

-- ==================================================================== cut off

/-- A varint that is cut off is all continuation bytes. -/
theorem open_of_cut {e p : Bytes} (he : Terminated e) (hp : p <+: e)
    (hne : p ≠ e) : Open p := by
  rcases split_or_open p with ⟨u, rest, rfl, hu⟩ | hopen
  · obtain ⟨more, hmore⟩ := hp
    rw [List.append_assoc] at hmore
    obtain ⟨rfl, hrest⟩ :=
      hu.prefix_free he (hmore.trans (List.append_nil e).symm)
    rw [List.append_eq_nil_iff] at hrest
    rw [hrest.1, List.append_nil] at hne
    exact absurd rfl hne
  · exact hopen

/-- Continuation bytes alone, no more than ten of them: the end of the
buffer is found. -/
theorem decodeVarint_open {p more : Bytes} (hopen : Open p) (hne : p ≠ [])
    (hlen : p.length ≤ 10) :
    decodeVarint (p ++ more) ⟨0, 0, p.length⟩ = .err .endOfBuf := by
  have hpos : 0 < p.length := List.length_pos_iff.mpr hne
  have hin : p.length ≤ (p ++ more).length := by
    rw [List.length_append]
    omega
  have hrest : Buf.rest (p ++ more) ⟨0, 0, p.length⟩ = p := by
    unfold Buf.rest
    rw [List.drop_zero, Nat.sub_zero, List.take_left]
  obtain ⟨out, r, hrun, hcomes⟩ :=
    decodeVarint_halts (p ++ more) ⟨0, 0, p.length⟩
  have hexact := decodes_exactly hpos hin (fun hlong => by
    have hten := hlong.1
    rw [hrest] at hten
    omega) hrun hcomes
  obtain ⟨e, rfl, herr⟩ := hexact.refuses fun v hv hat => by
    rw [hrest] at hat
    obtain ⟨rest, rfl⟩ := hat
    exact hopen.not_terminated_prefix hv.1
  obtain ⟨err, varint, pos⟩ := e
  have hloop : decodeVarint (p ++ more) ⟨0, 0, p.length⟩ = .err err := by
    rw [hcomes]
    cases err with
    | ok => exact absurd rfl herr
    | _ => rfl
  have hend : err = .endOfBuf := by
    unfold decodeVarint at hloop
    cases hl : decodeVarintLoop (p ++ more) p.length 10 0 0 0 with
    | ok a => rw [hl] at hloop; cases hloop
    | err e =>
        rw [hl] at hloop
        cases hloop
        exact decodeVarintLoop_err hl
    | fault f => rw [hl] at hloop; cases hloop
  rw [hloop, hend]

theorem bufLeft_lt {n k : Nat} (h : n < k) : bufLeft ⟨0, 0, n⟩ < k := by
  show ptrDiff n 0 < k
  rw [ptrDiff_of_le (Nat.zero_le n)]
  exact h

/-- What is cut off is waited for, but for the empty string at
`decode_varint`. -/
theorem waits_iff {c : Codec} {v : Nat} {p : Bytes} (hv : v < 2 ^ c.width)
    (hcut : c.Cut v p) : c.Waits p ↔ (c ≠ .varint ∨ p ≠ []) := by
  obtain ⟨e, he, hp, hne⟩ := hcut
  rw [codec_encode hv] at he
  cases he
  have hlt : p.length < (codecBytes c v).length := by
    have hle := hp.length_le
    by_contra hge
    exact hne (hp.eq_of_length (by omega))
  cases c with
  | varint =>
      have hten := (isVarint_encode hv).2
      have hopen := open_of_cut (encode_terminated v) hp hne
      change p.length < (encode v).length at hlt
      by_cases hempty : p = []
      · subst hempty
        refine iff_of_false ?_ (by simp)
        intro hwaits
        have hread : Codec.varint.decode [] = .tuple (some 0) 1 := by
          decide +kernel
        unfold Codec.Waits at hwaits
        rw [hread] at hwaits
        cases hwaits
      · refine iff_of_true ?_ (.inr hempty)
        exact decodeMethod_short (by omega)
          (decodeVarint_open hopen hempty (by omega))
  | bits32 =>
      refine iff_of_true ?_ (.inl (fun h => by cases h))
      rw [codecBytes, leBytes_length] at hlt
      apply decodeMethod_short (by omega)
      unfold decode32bit
      rw [if_pos (bufLeft_lt hlt)]
  | bits64 =>
      refine iff_of_true ?_ (.inl (fun h => by cases h))
      rw [codecBytes, leBytes_length] at hlt
      apply decodeMethod_short (by omega)
      unfold decode64bit
      rw [if_pos (bufLeft_lt hlt)]

-- ================================================================== the whole

/-- The methods of a pair are inverse and incremental: on a number, what
stands behind its encoding, and what its encoding may be cut to. -/
structure Primitive (c : Codec) (v : Nat) (t p : Bytes) : Prop where
  roundTrips : c.RoundTrips v t
  sized : c.Sized v
  waits : c.Waits p

/-- Exactly if the number fits a `long`, the whole fits an `int`, and
`decode_varint` is not given an empty string. -/
theorem primitive_iff (c : Codec) (v : Nat) (t p : Bytes)
    (hv : v < 2 ^ c.width) (hcut : c.Cut v p) :
    Primitive c v t p ↔
      (c = .bits32 ∨ v < 2 ^ 63) ∧ c.size v + t.length < 2 ^ 31 ∧
        (c ≠ .varint ∨ p ≠ []) := by
  constructor
  · intro h
    obtain ⟨hfits, hlen⟩ := (roundTrips_iff hv).mp h.roundTrips
    exact ⟨hfits, hlen, (waits_iff hv hcut).mp h.waits⟩
  · rintro ⟨hfits, hlen, hne⟩
    exact {
      roundTrips := (roundTrips_iff hv).mpr ⟨hfits, hlen⟩
      sized := codec_sized hv
      waits := (waits_iff hv hcut).mpr hne }

/-- The number 300 with a byte behind it, and its first byte alone. -/
theorem primitive_300 : Primitive .varint 300 [7] [0xac] :=
  (primitive_iff .varint 300 [7] [0xac] (by decide)
    ⟨[0xac, 0x02], codec_encode (c := .varint) (by decide),
      ⟨[0x02], rfl⟩, by decide⟩).mpr
    ⟨.inr (by decide), by decide, .inr (by decide)⟩

/-- The greatest word comes back as `-1`, and of an empty string the number
0 is decoded, from one byte. -/
theorem primitive_fails :
    ¬ Codec.RoundTrips .varint (2 ^ 64 - 1) [] ∧
      Codec.Cut .varint (2 ^ 64 - 1) [] ∧ ¬ Codec.Waits .varint [] := by
  have hword : Codec.encode .varint (2 ^ 64 - 1)
      = some (encode (2 ^ 64 - 1)) :=
    codec_encode (c := .varint) (by decide)
  have hcut : Codec.Cut .varint (2 ^ 64 - 1) [] :=
    ⟨_, hword, List.nil_prefix, (encode_terminated _).ne_nil.symm⟩
  refine ⟨?_, hcut, ?_⟩
  · rw [roundTrips_iff (c := .varint) (by decide)]
    rintro ⟨hfits, -⟩
    exact absurd hfits (by decide)
  · rw [waits_iff (c := .varint) (by decide) hcut]
    rintro (h | h)
    · exact h rfl
    · exact h rfl

end Lwpb.Python
