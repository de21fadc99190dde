/-
The writers of the encoder, against the bytes they write.

`spill mem buf bs` is what writing the bytes `bs` one at a time comes to:
all of them if they fit, else as many as fit and an error. `encode_varint`
is exactly that with the shortest varint of its word
(`encodeVarint_eq_spill`); the fixed-width writers test for room first.

`Writes mem buf w` is what holds of every writer whatever it returns: the
position has moved forward inside the buffer, and nothing outside the
room the buffer had left has changed. `lwpb_encoder_add_field` behind its
checks is a writer on the top frame in this sense (`encodeField_writes`).
-/
import Lwpb.Core.Encoder
import Lwpb.Lib.Base128
import Lwpb.Lib.Slice
import Mathlib.Tactic.NormNum

namespace Lwpb

open Memory Base128 Slice

variable {mem : Mem} {buf : Buf}

-- ============================================================ any outcome

/-- What every writer leaves. -/
structure Writes (mem : Mem) (buf : Buf) (w : Written) : Prop where
  base : w.buf.base = buf.base
  stop : w.buf.stop = buf.stop
  pos_le : buf.pos ≤ w.buf.pos
  le_stop : w.buf.pos ≤ buf.stop
  within : Within mem w.mem buf.pos buf.stop

/-- Writing nothing, whatever is returned. -/
theorem Writes.refl (hb : buf.Ordered) (err : Err) :
    Writes mem buf ⟨err, mem, buf⟩ :=
  ⟨rfl, rfl, Nat.le_refl _, hb.pos_le_stop, .refl mem _ _⟩

/-- A writer leaves its buffer ordered. -/
theorem Writes.ordered {w : Written} (h : Writes mem buf w)
    (hb : buf.Ordered) : w.buf.Ordered := by
  refine ⟨?_, ?_⟩
  · rw [h.base]
    exact Nat.le_trans hb.base_le_pos h.pos_le
  · rw [h.stop]
    exact h.le_stop

/-- Two writers, one after the other. -/
theorem Writes.trans {w w' : Written} (h : Writes mem buf w)
    (h' : Writes w.mem w.buf w') : Writes mem buf w' where
  base := h'.base.trans h.base
  stop := h'.stop.trans h.stop
  pos_le := Nat.le_trans h.pos_le h'.pos_le
  le_stop := by
    have := h'.le_stop
    rwa [h.stop] at this
  within := h.within.trans (h'.within.mono h.pos_le (by rw [h.stop]))

/-- Bytes stored where there is room for them. -/
theorem Writes.store (bs : List UInt8) (err : Err)
    (hroom : buf.pos + bs.length ≤ buf.stop) :
    Writes mem buf ⟨err, Memory.store mem buf.pos bs,
      { buf with pos := buf.pos + bs.length }⟩ where
  base := rfl
  stop := rfl
  pos_le := Nat.le_add_right ..
  le_stop := hroom
  within := (store_within bs).mono (Nat.le_refl _) hroom

/-- Bytes copied where there is room for them. -/
theorem Writes.copy (len : Nat) (src : Nat → UInt8) (err : Err)
    (hroom : buf.pos + len ≤ buf.stop) :
    Writes mem buf ⟨err, Memory.copy mem buf.pos len src,
      { buf with pos := buf.pos + len }⟩ where
  base := rfl
  stop := rfl
  pos_le := Nat.le_add_right ..
  le_stop := hroom
  within := (copy_within src).mono (Nat.le_refl _) hroom

-- =========================================================== byte by byte

/-- Bytes written one at a time, as long as there is room. -/
def spill (mem : Mem) (buf : Buf) (bs : List UInt8) : Written :=
  if buf.pos + bs.length ≤ buf.stop then
    ⟨.ok, store mem buf.pos bs, { buf with pos := buf.pos + bs.length }⟩
  else
    ⟨.endOfBuf, store mem buf.pos (bs.take (buf.stop - buf.pos)),
      { buf with pos := buf.stop }⟩

/-- Bytes that there is room for are all written. -/
theorem spill_fits {bs : List UInt8}
    (hroom : buf.pos + bs.length ≤ buf.stop) :
    spill mem buf bs = ⟨.ok, store mem buf.pos bs,
      { buf with pos := buf.pos + bs.length }⟩ :=
  if_pos hroom

/-- A writer succeeds if there is room for all of its bytes. -/
theorem spill_ok {bs : List UInt8} :
    (spill mem buf bs).err = .ok ↔ buf.pos + bs.length ≤ buf.stop := by
  unfold spill
  split
  · next hroom => simp [hroom]
  · next hroom => simp [hroom]

/-- Bytes are written between the position and the end, as far as there is
room. -/
theorem spill_writes (hb : buf.Ordered) (bs : List UInt8) :
    Writes mem buf (spill mem buf bs) := by
  unfold spill
  split
  · next hroom => exact .store bs .ok hroom
  · next hroom =>
      have hle := hb.pos_le_stop
      have hlen : (bs.take (buf.stop - buf.pos)).length
          = buf.stop - buf.pos := by
        rw [List.length_take]
        omega
      have hstop : buf.pos + (buf.stop - buf.pos) = buf.stop := by omega
      have h : Writes mem buf _ := .store (bs.take (buf.stop - buf.pos))
        .endOfBuf (by rw [hlen]; omega)
      rwa [hlen, hstop] at h

/-- The first byte, then the others. -/
theorem spill_cons {b : UInt8} {bs : List UInt8}
    (hroom : buf.pos < buf.stop) :
    spill mem buf (b :: bs)
      = spill (put mem buf.pos b) { buf with pos := buf.pos + 1 } bs := by
  unfold spill
  have hlen : buf.pos + (b :: bs).length = buf.pos + 1 + bs.length := by
    rw [List.length_cons]
    omega
  have htake : buf.stop - buf.pos = (buf.stop - (buf.pos + 1)) + 1 := by
    omega
  rw [hlen]
  split
  · rfl
  · rw [htake, List.take_succ_cons]
    rfl

/-- In a full buffer not one byte is written. -/
theorem spill_full {bs : List UInt8} (hb : buf.Ordered) (hne : bs ≠ [])
    (hfull : ¬ buf.pos < buf.stop) :
    spill mem buf bs = ⟨.endOfBuf, mem, buf⟩ := by
  have hle := hb.pos_le_stop
  have hpos := List.length_pos_iff.mpr hne
  have hstop : buf.stop = buf.pos := by omega
  unfold spill
  rw [if_neg (by omega), hstop, Nat.sub_self]
  cases buf
  cases hstop
  rfl

-- ================================================================ varints

/-- A shift by seven bits takes the lowest digit off. -/
theorem varint_shift (varint : UInt64) :
    (varint >>> 7).toNat = varint.toNat / 128 := by
  rw [UInt64.toNat_shiftRight]
  exact Nat.shiftRight_eq_div_pow varint.toNat 7

/-- No bits are left behind the last group. -/
theorem varint_shift_eq_zero {varint : UInt64} :
    varint >>> 7 = 0 ↔ varint.toNat < 128 := by
  rw [← UInt64.toNat_inj, varint_shift]
  show varint.toNat / 128 = 0 ↔ _
  omega

/-- A round takes one group. -/
theorem varint_shift_lt {varint : UInt64} {n : Nat}
    (h : varint.toNat < 128 ^ (n + 1)) :
    (varint >>> 7).toNat < 128 ^ n := by
  rw [varint_shift, Nat.div_lt_iff_lt_mul (by omega), ← Nat.pow_succ]
  exact h

/-- The byte of a round: the low group, marked if more follow. -/
theorem varint_byte (varint : UInt64) :
    (if varint > 127 then 0x80 ||| (varint &&& 0x7f)
      else varint &&& 0x7f).toUInt8
      = UInt8.ofNat (if varint.toNat < 128 then varint.toNat
          else varint.toNat % 128 + 128) := by
  have hmask : (varint &&& 0x7f).toNat = varint.toNat % 128 := by
    rw [UInt64.toNat_and]
    exact Nat.and_two_pow_sub_one_eq_mod varint.toNat 7
  have hgt : varint > 127 ↔ ¬ varint.toNat < 128 := by
    rw [gt_iff_lt, UInt64.lt_iff_toNat_lt]
    show 127 < varint.toNat ↔ _
    omega
  apply UInt8.toNat_inj.mp
  rw [UInt64.toNat_toUInt8, UInt8.toNat_ofNat']
  by_cases hlt : varint.toNat < 128
  · rw [if_neg (fun h => hgt.mp h hlt), if_pos hlt, hmask,
      Nat.mod_eq_of_lt hlt]
  · have hor : 128 ||| varint.toNat % 128 = 128 * 1 + varint.toNat % 128 :=
      (Nat.two_pow_add_eq_or_of_lt (i := 7)
        (Nat.mod_lt varint.toNat (by omega)) 1).symm
    rw [if_pos (hgt.mpr hlt), if_neg hlt, UInt64.toNat_or, hmask]
    show (128 ||| varint.toNat % 128) % 2 ^ 8 = _
    rw [hor, Nat.mul_one, Nat.add_comm]

/-- The loop writes the digits one by one until it runs out of room. By
induction on its rounds; ten are enough for 64 bits. -/
theorem encodeVarintLoop_eq_spill {rounds : Nat} {varint : UInt64}
    (hb : buf.Ordered) (hpos : 0 < rounds)
    (hlt : varint.toNat < 128 ^ rounds) :
    encodeVarintLoop rounds mem buf varint
      = spill mem buf (encode varint.toNat) := by
  induction rounds generalizing mem buf varint with
  | zero => omega
  | succ n ih =>
      rw [encodeVarintLoop]
      have hle := hb.pos_le_stop
      by_cases hroom : buf.pos < buf.stop
      · rw [if_neg (by rw [hb.left]; omega)]
        simp only [varint_byte]
        by_cases hone : varint.toNat < 128
        · rw [if_pos (varint_shift_eq_zero.mpr hone), if_pos hone,
            encode_of_lt hone,
            spill_fits (by rw [List.length_singleton]; omega)]
          rfl
        · rw [if_neg (mt varint_shift_eq_zero.mp hone), if_neg hone,
            encode_of_ge (by omega), spill_cons hroom, ← varint_shift]
          refine ih ⟨?_, hroom⟩ ?_ ?_
          · exact Nat.le_succ_of_le hb.base_le_pos
          · rcases Nat.eq_zero_or_pos n with rfl | hn
            · exact absurd (by simpa using hlt) hone
            · exact hn
          · exact varint_shift_lt hlt
      · rw [if_pos (by rw [hb.left]; omega),
          spill_full hb (encode_terminated _).ne_nil hroom]

/-- `encode_varint` writes the shortest varint. -/
theorem encodeVarint_eq_spill (hb : buf.Ordered) (varint : UInt64) :
    encodeVarint mem buf varint = spill mem buf (encode varint.toNat) := by
  refine encodeVarintLoop_eq_spill hb (by omega) ?_
  calc varint.toNat < 2 ^ 64 := varint.toNat_lt
    _ ≤ 128 ^ 10 := by norm_num

/-- So a varint is written between the position and the end. -/
theorem encodeVarint_writes (hb : buf.Ordered) (varint : UInt64) :
    Writes mem buf (encodeVarint mem buf varint) := by
  rw [encodeVarint_eq_spill hb]
  exact spill_writes hb _

-- ============================================================ fixed widths

/-- `encode_32bit` writes its word, least significant byte first. -/
theorem encode32bit_bytes (value : UInt32) :
    [value.toUInt8, (value >>> 8).toUInt8, (value >>> 16).toUInt8,
      (value >>> 24).toUInt8] = leBytes 4 value.toNat := by
  have hbyte : ∀ w : UInt32, w.toUInt8 = UInt8.ofNat w.toNat := by
    intro w
    apply UInt8.toNat_inj.mp
    rw [UInt32.toNat_toUInt8, UInt8.toNat_ofNat']
  have hshift : ∀ k : UInt32, k.toNat < 32 →
      (value >>> k).toNat = value.toNat / 2 ^ k.toNat := by
    intro k hk
    rw [UInt32.toNat_shiftRight, Nat.mod_eq_of_lt hk,
      Nat.shiftRight_eq_div_pow]
  have h8 : (8 : UInt32).toNat = 8 := rfl
  have h16 : (16 : UInt32).toNat = 16 := rfl
  have h24 : (24 : UInt32).toNat = 24 := rfl
  simp only [leBytes, hbyte, hshift 8 (by decide), hshift 16 (by decide),
    hshift 24 (by decide), Nat.div_div_eq_div_mul, h8, h16, h24]
  norm_num

/-- `encode_64bit` writes its word, least significant byte first. -/
theorem encode64bit_bytes (value : UInt64) :
    [value.toUInt8, (value >>> 8).toUInt8, (value >>> 16).toUInt8,
      (value >>> 24).toUInt8, (value >>> 32).toUInt8,
      (value >>> 32 >>> 8).toUInt8, (value >>> 32 >>> 16).toUInt8,
      (value >>> 32 >>> 24).toUInt8] = leBytes 8 value.toNat := by
  have hbyte : ∀ w : UInt64, w.toUInt8 = UInt8.ofNat w.toNat := by
    intro w
    apply UInt8.toNat_inj.mp
    rw [UInt64.toNat_toUInt8, UInt8.toNat_ofNat']
  have hshift : ∀ w k : UInt64, k.toNat < 64 →
      (w >>> k).toNat = w.toNat / 2 ^ k.toNat := by
    intro w k hk
    rw [UInt64.toNat_shiftRight, Nat.mod_eq_of_lt hk,
      Nat.shiftRight_eq_div_pow]
  have h8 : (8 : UInt64).toNat = 8 := rfl
  have h16 : (16 : UInt64).toNat = 16 := rfl
  have h24 : (24 : UInt64).toNat = 24 := rfl
  have h32 : (32 : UInt64).toNat = 32 := rfl
  simp only [leBytes, hbyte, hshift _ 8 (by decide),
    hshift _ 16 (by decide), hshift _ 24 (by decide),
    hshift _ 32 (by decide), Nat.div_div_eq_div_mul, h8, h16, h24, h32]
  norm_num

/-- `encode_32bit` with room. -/
theorem encode32bit_fits (hb : buf.Ordered) (value : UInt32)
    (hroom : buf.pos + 4 ≤ buf.stop) :
    encode32bit mem buf value = ⟨.ok, store mem buf.pos
      (leBytes 4 value.toNat), { buf with pos := buf.pos + 4 }⟩ := by
  rw [encode32bit, if_neg (by rw [hb.left]; omega), encode32bit_bytes]

/-- `encode_64bit` with room. -/
theorem encode64bit_fits (hb : buf.Ordered) (value : UInt64)
    (hroom : buf.pos + 8 ≤ buf.stop) :
    encode64bit mem buf value = ⟨.ok, store mem buf.pos
      (leBytes 8 value.toNat), { buf with pos := buf.pos + 8 }⟩ := by
  rw [encode64bit, if_neg (by rw [hb.left]; omega)]
  show Written.mk _ (store mem buf.pos [_, _, _, _, _, _, _, _]) _ = _
  rw [encode64bit_bytes]

/-- Four bytes are written there, or none. -/
theorem encode32bit_writes (hb : buf.Ordered) (value : UInt32) :
    Writes mem buf (encode32bit mem buf value) := by
  have hle := hb.pos_le_stop
  by_cases hroom : buf.pos + 4 ≤ buf.stop
  · rw [encode32bit_fits hb value hroom]
    simpa using Writes.store (leBytes 4 value.toNat) .ok
      (by rw [leBytes_length]; exact hroom)
  · rw [encode32bit, if_pos (by rw [hb.left]; omega)]
    exact .refl hb .endOfBuf

/-- Eight bytes are written there, or none. -/
theorem encode64bit_writes (hb : buf.Ordered) (value : UInt64) :
    Writes mem buf (encode64bit mem buf value) := by
  have hle := hb.pos_le_stop
  by_cases hroom : buf.pos + 8 ≤ buf.stop
  · rw [encode64bit_fits hb value hroom]
    simpa using Writes.store (leBytes 8 value.toNat) .ok
      (by rw [leBytes_length]; exact hroom)
  · rw [encode64bit, if_pos (by rw [hb.left]; omega)]
    exact .refl hb .endOfBuf

-- =============================================================== the frame

namespace Enc

variable {s : Enc} {w w' : Written}

@[simp] theorem written_depth : (s.written w).depth = s.depth := rfl
@[simp] theorem written_packed : (s.written w).packed = s.packed := rfl
@[simp] theorem written_mem : (s.written w).mem = w.mem := rfl
@[simp] theorem written_data : (s.written w).data = s.data := rfl
@[simp] theorem written_len : (s.written w).len = s.len := rfl

/-- A writer gives the top frame its buffer, and changes nothing else of it.
-/
@[simp] theorem written_top :
    (s.written w).top = { s.top with buf := w.buf } :=
  if_pos rfl

/-- The frames below the current one stay as they are. -/
theorem written_below {i : Nat} (h : i ≠ s.depth - 1) :
    (s.written w).stack i = s.stack i :=
  if_neg h

/-- The frame that was pushed is the top one. -/
@[simp] theorem push_top (frame : EncFrame) (packed : Bool) :
    (s.push frame packed).top = frame :=
  if_pos (Nat.add_sub_cancel ..)

/-- The frames under a new one stay as they are. -/
theorem push_below (frame : EncFrame) (packed : Bool) {i : Nat}
    (h : i < s.depth) : (s.push frame packed).stack i = s.stack i :=
  if_neg (Nat.ne_of_lt h)

/-- Of two writers the second counts. -/
@[simp] theorem written_written :
    (s.written w).written w' = s.written w' := by
  have hstack : ((s.written w).written w').stack = (s.written w').stack := by
    funext i
    by_cases hi : i = s.depth - 1
    · subst hi
      show ((s.written w).written w').top = (s.written w').top
      rw [written_top, written_top, written_top]
    · have hw : ((s.written w).written w').stack i = (s.written w).stack i :=
        written_below hi
      rw [hw, written_below hi, written_below hi]
  exact Enc.ext hstack rfl rfl rfl rfl rfl

/-- A writer that writes nothing. -/
theorem written_self (err : Err) : s.written ⟨err, s.mem, s.top.buf⟩ = s := by
  have hstack : (s.written ⟨err, s.mem, s.top.buf⟩).stack = s.stack := by
    funext i
    by_cases hi : i = s.depth - 1
    · subst hi
      exact written_top
    · exact written_below hi
  exact Enc.ext hstack rfl rfl rfl rfl rfl

end Enc

/-- The payload is a writer on the top frame. -/
theorem encodePayload_writes {s : Enc} (hs : s.top.buf.Ordered)
    (wt : WireType) (wv : WireOut) :
    ∃ w, Writes s.mem s.top.buf w ∧
      encodePayload s wt wv = .ret w.err (s.written w) := by
  cases wt with
  | varint => exact ⟨_, encodeVarint_writes hs wv.word, rfl⟩
  | bit64 => exact ⟨_, encode64bit_writes hs wv.word, rfl⟩
  | bit32 => exact ⟨_, encode32bit_writes hs wv.word.toUInt32, rfl⟩
  | unknown code => exact ⟨_, .refl hs .ok, by
      rw [Enc.written_self]
      rfl⟩
  | string =>
      have hw := @encodeVarint_writes s.mem _ hs wv.word
      simp only [encodePayload]
      split
      · exact ⟨_, hw, rfl⟩
      · next hok =>
          split
          · exact ⟨⟨.endOfBuf, _, _⟩, ⟨hw.base, hw.stop, hw.pos_le,
              hw.le_stop, hw.within⟩, rfl⟩
          · next hroom =>
              rw [(hw.ordered hs).left] at hroom
              have hle := hw.le_stop
              have hstop := hw.stop
              exact ⟨_, hw.trans (.copy wv.word.toNat _ .ok (by omega)), rfl⟩

/-- A key and its payload are written between the position and the end of the
top frame, one behind the other, until one of the two does not fit. -/
theorem encodeKeyed_writes {s : Enc} (hs : s.top.buf.Ordered)
    (desc : FieldDesc) (wt : WireType) (wv : WireOut) :
    ∃ w, Writes s.mem s.top.buf w ∧
      encodeKeyed s desc wt wv = .ret w.err (s.written w) := by
  have hkey := @encodeVarint_writes s.mem _ hs (fieldKey desc wt)
  simp only [encodeKeyed]
  generalize encodeVarint s.mem s.top.buf (fieldKey desc wt) = k at hkey ⊢
  split
  · exact ⟨k, hkey, rfl⟩
  · obtain ⟨w, hw, hret⟩ := encodePayload_writes (s := s.written k)
      (by rw [Enc.written_top]; exact hkey.ordered hs) wt wv
    rw [Enc.written_top, Enc.written_mem] at hw
    rw [Enc.written_written] at hret
    exact ⟨w, hkey.trans hw, hret⟩

/-- So is `lwpb_encoder_add_field` behind its checks. -/
theorem encodeField_writes {sch : Schema} {uninit : UInt64} {s : Enc}
    (hs : s.top.buf.Ordered) (f : FieldRef) (value : RawValue) :
    ∃ w, Writes s.mem s.top.buf w ∧
      encodeField sch uninit s f value = .ret w.err (s.written w) := by
  simp only [encodeField]
  split
  · exact encodePayload_writes hs _ _
  · split
    · exact encodeKeyed_writes hs _ _ _
    · exact encodeKeyed_writes hs _ _ _

end Lwpb
