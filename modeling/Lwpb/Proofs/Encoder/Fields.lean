/-
One field, exactly: which bytes `lwpb_encoder_add_field` appends.

`Emits mem buf w bs` is the specification of a writer: it succeeds
exactly if the bytes fit, and then they stand behind the old position and
nothing else has changed (`Puts`). Writers compose (`Emits.seq`), so a
field emits its key and its payload (`encodeKeyed_emits`).

The payload of a finished frame is copied from the buffer itself, from
behind the reserve. `Payload.Ready` asks that it survives the header
written in front of it.
-/
import Lwpb.Proofs.Encoder.Values

namespace Lwpb

open Memory Base128 Slice

variable {mem : Mem} {buf : Buf} {sch : Schema}

-- ============================================================ one writer

/-- The bytes have been appended to the buffer. -/
structure Puts (mem : Mem) (buf : Buf) (w : Written) (bs : Bytes) :
    Prop where
  buf_eq : w.buf = { buf with pos := buf.pos + bs.length }
  room : buf.pos + bs.length ≤ buf.stop
  written : read w.mem buf.pos bs.length = bs
  within : Within mem w.mem buf.pos (buf.pos + bs.length)

/-- The writer appends the bytes if they fit, and fails if not. -/
structure Emits (mem : Mem) (buf : Buf) (w : Written) (bs : Bytes) :
    Prop where
  ok_iff : w.err = .ok ↔ buf.pos + bs.length ≤ buf.stop
  puts : w.err = .ok → Puts mem buf w bs

/-- A store at the cursor puts its bytes. -/
theorem puts_store {bs : Bytes} (err : Err)
    (hroom : buf.pos + bs.length ≤ buf.stop) :
    Puts mem buf ⟨err, store mem buf.pos bs,
      { buf with pos := buf.pos + bs.length }⟩ bs :=
  ⟨rfl, hroom, read_store bs, store_within bs⟩

/-- What does not fit is refused. -/
theorem emits_full {w : Written} {bs : Bytes} (herr : w.err ≠ .ok)
    (hfull : ¬ buf.pos + bs.length ≤ buf.stop) : Emits mem buf w bs :=
  ⟨⟨fun h => absurd h herr, fun h => absurd h hfull⟩,
    fun h => absurd h herr⟩

/-- Two writes put their bytes one behind the other. -/
theorem Puts.trans {w w' : Written} {bs cs : Bytes}
    (h : Puts mem buf w bs) (h' : Puts w.mem w.buf w' cs) :
    Puts mem buf w' (bs ++ cs) := by
  have hpos : w.buf.pos = buf.pos + bs.length := by rw [h.buf_eq]
  have hroom := h'.room
  have hread := h'.written
  have hin := h'.within
  rw [hpos] at hroom hread hin
  rw [h.buf_eq] at hroom
  refine ⟨?_, ?_, ?_, ?_⟩
  · rw [h'.buf_eq, h.buf_eq, List.length_append, Nat.add_assoc]
  · rw [List.length_append, ← Nat.add_assoc]
    exact hroom
  · rw [List.length_append, read_append, hread,
      hin.read (.inl (Nat.le_refl _)), h.written]
  · rw [List.length_append]
    refine (h.within.mono (Nat.le_refl _) (by omega)).trans
      (hin.mono (by omega) (by omega))

/-- A writer that fails fails for anything longer. -/
theorem Emits.fail {w : Written} {bs : Bytes} (h : Emits mem buf w bs)
    (hbad : w.err ≠ .ok) (cs : Bytes) : Emits mem buf w (bs ++ cs) := by
  refine emits_full hbad fun hroom => ?_
  rw [List.length_append] at hroom
  exact hbad (h.ok_iff.mpr (by omega))

/-- One writer after the other. -/
theorem Emits.next {w w' : Written} {bs cs : Bytes}
    (h : Emits mem buf w bs) (hok : w.err = .ok)
    (h' : Emits w.mem w.buf w' cs) : Emits mem buf w' (bs ++ cs) := by
  have hput := h.puts hok
  refine ⟨?_, fun hok' => hput.trans (h'.puts hok')⟩
  rw [h'.ok_iff, hput.buf_eq, List.length_append, Nat.add_assoc]

/-- A varint of a word. -/
theorem encodeVarint_emits (hb : buf.Ordered) (varint : UInt64) :
    Emits mem buf (encodeVarint mem buf varint)
      (encode varint.toNat) := by
  rw [encodeVarint_eq_spill hb]
  refine ⟨spill_ok, fun hok => ?_⟩
  have hroom := spill_ok.mp hok
  rw [spill_fits hroom]
  exact puts_store .ok hroom

/-- A word of four bytes. -/
theorem encode32bit_emits (hb : buf.Ordered) (value : UInt32) :
    Emits mem buf (encode32bit mem buf value)
      (leBytes 4 value.toNat) := by
  have hle := hb.pos_le_stop
  by_cases hroom : buf.pos + 4 ≤ buf.stop
  · rw [encode32bit_fits hb value hroom]
    have hput : Puts mem buf _ (leBytes 4 value.toNat) :=
      puts_store .ok (by rwa [leBytes_length])
    rw [leBytes_length] at hput
    exact ⟨by simpa using hroom, fun _ => hput⟩
  · rw [encode32bit, if_pos (by rw [hb.left]; omega)]
    exact emits_full Err.noConfusion (by rwa [leBytes_length])

/-- A word of eight. -/
theorem encode64bit_emits (hb : buf.Ordered) (value : UInt64) :
    Emits mem buf (encode64bit mem buf value)
      (leBytes 8 value.toNat) := by
  have hle := hb.pos_le_stop
  by_cases hroom : buf.pos + 8 ≤ buf.stop
  · rw [encode64bit_fits hb value hroom]
    have hput : Puts mem buf _ (leBytes 8 value.toNat) :=
      puts_store .ok (by rwa [leBytes_length])
    rw [leBytes_length] at hput
    exact ⟨by simpa using hroom, fun _ => hput⟩
  · rw [encode64bit, if_pos (by rw [hb.left]; omega)]
    exact emits_full Err.noConfusion (by rwa [leBytes_length])

/-- The content of a string, copied if there is room for it. -/
def copyOut (mem : Mem) (buf : Buf) (len : Nat) (src : Nat → UInt8) :
    Written :=
  if bufLeft buf < len then ⟨.endOfBuf, mem, buf⟩
  else ⟨.ok, copy mem buf.pos len src, { buf with pos := buf.pos + len }⟩

/-- The bytes of a string. -/
theorem copyOut_emits {content : Bytes} {src : Nat → UInt8}
    (hb : buf.Ordered)
    (hsrc : (List.range content.length).map src = content) :
    Emits mem buf (copyOut mem buf content.length src) content := by
  have hle := hb.pos_le_stop
  unfold copyOut
  rw [hb.left]
  split
  · next hfull => exact emits_full Err.noConfusion (by omega)
  · next hroom =>
      refine ⟨by simp; omega, fun _ => ⟨rfl, by omega, ?_, ?_⟩⟩
      · rw [read_copy, hsrc]
      · exact copy_within src

-- ================================================================ payloads

/-- Written out, the wire value is this payload, also after `header`
bytes were written behind the position of the frame. -/
def Payload.Ready (s : Enc) (header : Nat) (wv : WireOut) :
    Payload → Prop
  | .string len content =>
      wv.word.toNat = content.length ∧ len = encode content.length ∧
        ∀ m, Within s.mem m s.top.buf.pos
            (s.top.buf.pos + header + len.length) →
          (List.range content.length).map (wv.src.bytes m) = content
  | p => p.Out wv

/-- A value of the caller's is not in the buffer. -/
theorem Payload.Out.ready {wv : WireOut} {p : Payload} (h : p.Out wv)
    (s : Enc) (header : Nat) : p.Ready s header wv := by
  cases p with
  | string len content =>
      obtain ⟨hlen, henc, src, hsrc, hcontent⟩ := h
      refine ⟨hlen, henc, fun m _ => ?_⟩
      rw [hsrc]
      exact hcontent
  | varint v => exact h
  | bit64 b => exact h
  | bit32 b => exact h

/-- A value, in the wire type it is written with. -/
theorem encodePayload_emits {s : Enc} {wv : WireOut} {p : Payload}
    (hs : s.top.buf.Ordered) (hp : p.Ready s 0 wv) :
    ∃ w, encodePayload s p.wireType wv = .ret w.err (s.written w) ∧
      Emits s.mem s.top.buf w p.bytes := by
  cases p with
  | varint v =>
      have hv : v = encode wv.word.toNat := hp
      subst hv
      exact ⟨_, rfl, encodeVarint_emits hs wv.word⟩
  | bit64 b =>
      have hb : b = leBytes 8 wv.word.toNat := hp
      subst hb
      exact ⟨_, rfl, encode64bit_emits hs wv.word⟩
  | bit32 b =>
      have hb : b = leBytes 4 wv.word.toUInt32.toNat := hp
      subst hb
      exact ⟨_, rfl, encode32bit_emits hs wv.word.toUInt32⟩
  | string len content =>
      obtain ⟨hlen, rfl, hcontent⟩ := hp
      have hw : Emits s.mem s.top.buf
          (encodeVarint s.mem s.top.buf wv.word)
          (encode content.length) := by
        rw [← hlen]
        exact encodeVarint_emits hs wv.word
      have hk := @encodeVarint_writes s.mem _ hs wv.word
      simp only [encodePayload, Payload.wireType, hlen]
      generalize encodeVarint s.mem s.top.buf wv.word = k at hw hk ⊢
      by_cases hok : k.err = .ok
      · rw [if_neg (by simpa using hok)]
        have hcopy := @copyOut_emits k.mem _ _ _ (hk.ordered hs)
          (hcontent k.mem (by
            rw [Nat.add_zero]
            exact (hw.puts hok).within))
        refine ⟨_, ?_, hw.next hok hcopy⟩
        unfold copyOut
        split
        · rfl
        · rfl
      · rw [if_pos hok]
        exact ⟨k, rfl, hw.fail hok content⟩

/-- `number * 8 + wire type`. -/
theorem fieldKey_toNat {desc : FieldDesc} {wt : WireType}
    (hnum : desc.number.toNat < 2 ^ 29) (hwt : wt.code < 8) :
    (fieldKey desc wt).toNat = desc.number.toNat * 8 + wt.code := by
  have hshift : (desc.number <<< 3).toNat = 8 * desc.number.toNat := by
    rw [UInt32.toNat_shiftLeft, Nat.shiftLeft_eq]
    show desc.number.toNat * 2 ^ 3 % 2 ^ 32 = _
    omega
  have hcode : (UInt32.ofNat wt.code).toNat = wt.code :=
    UInt32.toNat_ofNat_of_lt' (by show _ < 2 ^ 32; omega)
  unfold fieldKey
  have hor : 8 * desc.number.toNat + wt.code
      = 8 * desc.number.toNat ||| wt.code :=
    Nat.two_pow_add_eq_or_of_lt (i := 3) hwt _
  rw [UInt32.toNat_toUInt64, UInt32.toNat_or, hshift, hcode, Nat.or_comm,
    ← hor, Nat.mul_comm]

/-- The wire type takes three bits of the key. -/
theorem Payload.code_lt (p : Payload) : p.wireType.code < 8 := by
  cases p with
  | varint v => exact (by decide : 0 < 8)
  | bit64 b => exact (by decide : 1 < 8)
  | string len content => exact (by decide : 2 < 8)
  | bit32 b => exact (by decide : 5 < 8)

/-- A key and the value behind it. -/
theorem encodeKeyed_emits {s : Enc} {desc : FieldDesc} {wv : WireOut}
    {p : Payload} (hs : s.top.buf.Ordered)
    (hnum : desc.number.toNat < 2 ^ 29)
    (hp : p.Ready s (desc.key p.wireType).length wv) :
    ∃ w, encodeKeyed s desc p.wireType wv = .ret w.err (s.written w) ∧
      Emits s.mem s.top.buf w (desc.key p.wireType ++ p.bytes) := by
  have hkey : Emits s.mem s.top.buf
      (encodeVarint s.mem s.top.buf (fieldKey desc p.wireType))
      (desc.key p.wireType) := by
    unfold FieldDesc.key
    rw [← fieldKey_toNat hnum p.code_lt]
    exact encodeVarint_emits hs _
  have hw := @encodeVarint_writes s.mem _ hs (fieldKey desc p.wireType)
  simp only [encodeKeyed]
  generalize encodeVarint s.mem s.top.buf (fieldKey desc p.wireType) = k
    at hkey hw ⊢
  have hready : k.err = .ok → p.Ready (s.written k) 0 wv := by
    intro hok
    cases p with
    | varint v => exact hp
    | bit64 b => exact hp
    | bit32 b => exact hp
    | string len content =>
        obtain ⟨hlen, henc, hcontent⟩ := hp
        refine ⟨hlen, henc, fun m hm => hcontent m ?_⟩
        have hput := hkey.puts hok
        rw [Enc.written_top, Enc.written_mem, hput.buf_eq] at hm
        exact (hput.within.mono (Nat.le_refl _) (by omega)).trans
          (hm.mono (Nat.le_add_right ..) (by rw [Nat.add_zero]))
  by_cases hok : k.err = .ok
  · obtain ⟨w, hret, hemits⟩ := @encodePayload_emits (s.written k) _ _
      (by rw [Enc.written_top]; exact hw.ordered hs) (hready hok)
    rw [if_neg (by simpa using hok), hret, Enc.written_written]
    rw [Enc.written_top, Enc.written_mem] at hemits
    exact ⟨w, rfl, hkey.next hok hemits⟩
  · rw [if_pos hok]
    exact ⟨k, rfl, hkey.fail hok p.bytes⟩

end Lwpb
