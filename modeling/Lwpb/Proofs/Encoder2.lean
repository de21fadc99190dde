/-
The writers of `core/encoder2.c`.

Each of them comes down to bytes that are put one behind the other
(`Heap.puts`), so what is said here are equations: with room they are
there, without room it is a fault, and without a buffer only the length
is left. A payload that lies in the block itself is the one thing that is
moved.

The equations are stated bottom up, a writer, a payload, a key with its
payload, a field, and each for the two uses that the Python encoder makes
of it: with a block, where the result is bytes and a length (`emit`), and
with none, where it is the length alone (`addField_none`), so that the
sizing pass and the writing pass are the same computation. Two more facts
matter above: that nothing but the contents of the block changes
(`addField_sameBlock`), and that a failed length, which is `2 ^ 64 - 1` by
then, leaves every block (`addField_failed`).
-/
import Lwpb.Core.Encoder2
import Lwpb.Proofs.Encoder.Fields

namespace Lwpb

open Memory Base128 Slice

-- ================================================================== memory

namespace Heap

variable {h h' : Heap} {a n k : Nat} {buf : Option Nat}

/-- A block owns a range if it owns both parts of it. -/
theorem owns_append : h.Owns a (n + k) ↔ h.Owns a n ∧ h.Owns (a + n) k := by
  unfold Owns
  omega

/-- Without a buffer nothing is stored. -/
@[simp] theorem puts_none (h : Heap) (bs : Bytes) :
    h.puts none bs = some h := rfl

/-- Nor is anything moved. -/
@[simp] theorem move_none (h : Heap) (src : Source) (n : Nat) :
    h.move none src n = some h := rfl

/-- What is stored inside the block is there. -/
theorem puts_of_owns {bs : Bytes} (ha : h.Owns a bs.length) :
    h.puts (some a) bs = some { h with mem := store h.mem a bs } :=
  if_pos ha

/-- A store that leaves the block is a bad access. -/
theorem puts_of_not_owns {bs : Bytes} (ha : ¬ h.Owns a bs.length) :
    h.puts (some a) bs = none :=
  if_neg ha

/-- What is moved inside the block, from a place that can be read, is copied
as it was. -/
theorem move_of_owns {src : Source} (ha : h.Owns a n)
    (hsrc : h.Readable src n) :
    h.move (some a) src n
      = some { h with mem := copy h.mem a n (src.bytes h.mem) } :=
  if_pos ⟨ha, hsrc⟩

/-- A move that leaves the block is a bad access, wherever it comes from. -/
theorem move_of_not_owns {src : Source} (ha : ¬ h.Owns a n) :
    h.move (some a) src n = none :=
  if_neg fun hboth => ha hboth.1

/-- Bytes behind bytes. -/
theorem puts_append (h : Heap) (buf : Option Nat) (bs cs : Bytes) :
    ((h.puts buf bs).bind fun h => h.puts (buf.map (· + bs.length)) cs)
      = h.puts buf (bs ++ cs) := by
  cases buf with
  | none => rfl
  | some a =>
      have happ := owns_append (h := h) (a := a) (n := bs.length)
        (k := cs.length)
      rw [← List.length_append] at happ
      by_cases hbs : h.Owns a bs.length
      · rw [puts_of_owns hbs, Option.bind_some, Option.map_some]
        by_cases hcs : h.Owns (a + bs.length) cs.length
        · rw [puts_of_owns (happ.mpr ⟨hbs, hcs⟩), store_append]
          exact puts_of_owns (h := { h with mem := store h.mem a bs }) hcs
        · rw [puts_of_not_owns fun hall => hcs (happ.mp hall).2]
          exact puts_of_not_owns (h := { h with mem := store h.mem a bs })
            hcs
      · rw [puts_of_not_owns hbs,
          puts_of_not_owns fun hall => hbs (happ.mp hall).1]
        rfl

/-- Bytes from elsewhere, moved in, are put. -/
theorem move_ext {bs : Bytes} {src : Nat → UInt8}
    (hsrc : (List.range bs.length).map src = bs) :
    h.move buf (.ext src) bs.length = h.puts buf bs := by
  cases buf with
  | none => rfl
  | some a =>
      by_cases ha : h.Owns a bs.length
      · rw [puts_of_owns ha, ← copy_eq_store hsrc]
        exact move_of_owns ha trivial
      · rw [puts_of_not_owns ha, move_of_not_owns ha]

/-- The block stays where it is. -/
def SameBlock (h h' : Heap) : Prop := h'.base = h.base ∧ h'.size = h.size

/-- A store leaves the block where it is, and as large. -/
theorem puts_sameBlock {bs : Bytes} (hput : h.puts buf bs = some h') :
    h.SameBlock h' := by
  cases buf with
  | none =>
      cases hput
      exact ⟨rfl, rfl⟩
  | some a =>
      by_cases ha : h.Owns a bs.length
      · rw [puts_of_owns ha] at hput
        cases hput
        exact ⟨rfl, rfl⟩
      · rw [puts_of_not_owns ha] at hput
        cases hput

/-- So does a move. -/
theorem move_sameBlock {src : Source} (hmove : h.move buf src n = some h') :
    h.SameBlock h' := by
  cases buf with
  | none =>
      cases hmove
      exact ⟨rfl, rfl⟩
  | some a =>
      by_cases hboth : h.Owns a n ∧ h.Readable src n
      · rw [move_of_owns hboth.1 hboth.2] at hmove
        cases hmove
        exact ⟨rfl, rfl⟩
      · cases (show none = some h' from (if_neg hboth).symm.trans hmove)

end Heap

namespace Encoder2

variable {h : Heap} {buf : Option Nat} {desc : FieldDesc}

-- ================================================================= writers

/-- A pointer advances by a length, unless it is NULL. -/
theorem advance_eq {n : Nat} (buf : Option Nat) (hn : n < 2 ^ 64) :
    advance buf (UInt64.ofNat n) = buf.map (· + n) := by
  unfold advance
  rw [UInt64.toNat_ofNat_of_lt' hn]

/-- A writer's result: the bytes are put, and counted. -/
def emit (h : Heap) (buf : Option Nat) (len : UInt64) (bs : Bytes) :
    Option (Heap × UInt64) :=
  (h.puts buf bs).map (·, len + UInt64.ofNat bs.length)

/-- Without a buffer the bytes are counted only. -/
theorem emit_none (h : Heap) (len : UInt64) (bs : Bytes) :
    emit h none len bs = some (h, len + UInt64.ofNat bs.length) := rfl

/-- A writer behind a writer. -/
theorem emit_append (h : Heap) (buf : Option Nat) (len : UInt64)
    (bs cs : Bytes) :
    ((h.puts buf bs).bind fun h => emit h (buf.map (· + bs.length))
        (len + UInt64.ofNat bs.length) cs)
      = emit h buf len (bs ++ cs) := by
  have hlen : len + UInt64.ofNat bs.length + UInt64.ofNat cs.length
      = len + UInt64.ofNat (bs ++ cs).length := by
    rw [List.length_append, UInt64.ofNat_add, UInt64.add_assoc]
  unfold emit
  rw [← Heap.puts_append]
  cases h.puts buf bs with
  | none => rfl
  | some h =>
      rw [hlen]
      rfl

/-- The loop of `lwpb_encode_varint` writes the base-128 number, if it has the
rounds for its digits. -/
theorem encodeVarintLoop_eq {rounds : Nat} {varint len : UInt64}
    (hpos : 0 < rounds) (hlt : varint.toNat < 128 ^ rounds) :
    encodeVarintLoop rounds h buf varint len
      = emit h buf len (encode varint.toNat) := by
  induction rounds generalizing h buf varint len with
  | zero => omega
  | succ n ih =>
      simp only [encodeVarintLoop, varint_byte]
      by_cases hone : varint.toNat < 128
      · rw [if_pos hone, encode_of_lt hone]
        unfold emit
        cases h.puts buf [UInt8.ofNat varint.toNat] with
        | none => rfl
        | some h => exact if_pos (varint_shift_eq_zero.mpr hone)
      · have hn : 0 < n := by
          rcases Nat.eq_zero_or_pos n with rfl | hn
          · exact absurd (by simpa using hlt) hone
          · exact hn
        rw [if_neg hone, encode_of_ge (by omega)]
        refine Eq.trans ?_ (emit_append h buf len [_] _)
        refine Option.bind_congr fun h _ => ?_
        rw [if_neg (mt varint_shift_eq_zero.mp hone),
          ih hn (varint_shift_lt hlt), varint_shift]
        rfl

/-- The shortest varint. -/
theorem encodeVarint_eq (h : Heap) (buf : Option Nat) (varint : UInt64) :
    encodeVarint h buf varint = emit h buf 0 (encode varint.toNat) := by
  refine encodeVarintLoop_eq (by omega) ?_
  calc varint.toNat < 2 ^ 64 := varint.toNat_lt
    _ ≤ 128 ^ 10 := by norm_num

/-- Four bytes, the lowest first. -/
theorem encode32bit_eq (h : Heap) (buf : Option Nat) (value : UInt32) :
    encode32bit h buf value = emit h buf 0 (leBytes 4 value.toNat) := by
  unfold encode32bit emit
  rw [encode32bit_bytes, leBytes_length]
  cases h.puts buf (leBytes 4 value.toNat) <;> rfl

/-- Eight bytes, the lowest first. -/
theorem encode64bit_eq (h : Heap) (buf : Option Nat) (value : UInt64) :
    encode64bit h buf value = emit h buf 0 (leBytes 8 value.toNat) := by
  simp only [encode64bit]
  unfold emit
  rw [encode64bit_bytes, leBytes_length]
  cases h.puts buf (leBytes 8 value.toNat) <;> rfl

-- ================================================================ payloads

/-- No varint of a word is longer than ten bytes. -/
theorem encode_word_length (word : UInt64) :
    (encode word.toNat).length ≤ 10 :=
  encode_length_le_of_lt (k := 9) (calc
    word.toNat < 2 ^ 64 := word.toNat_lt
    _ ≤ 128 ^ 10 := by norm_num)

/-- The bytes of a writer, behind `len` others. -/
theorem emit_bind {β : Type} (h : Heap) (buf : Option Nat) (bs : Bytes)
    (next : Heap → UInt64 → Option β) :
    ((emit h buf 0 bs).bind fun r => next r.1 r.2)
      = (h.puts buf bs).bind fun h => next h (UInt64.ofNat bs.length) := by
  unfold emit
  rw [UInt64.zero_add]
  cases h.puts buf bs <;> rfl

/-- Bytes are counted after they are stored. -/
theorem emit_eq_bind (h : Heap) (buf : Option Nat) (len : UInt64)
    (bs : Bytes) :
    emit h buf len bs
      = (h.puts buf bs).bind fun h =>
          some (h, len + UInt64.ofNat bs.length) := by
  unfold emit
  cases h.puts buf bs <;> rfl

/-- A length, and as many bytes moved behind it. -/
theorem encodePayload_string (h : Heap) (buf : Option Nat) (len : UInt64)
    (wv : WireOut) :
    encodePayload h buf len .string wv
      = (h.puts buf (encode wv.word.toNat)).bind fun h =>
          (h.move (buf.map (· + (encode wv.word.toNat).length)) wv.src
            wv.word.toNat).bind fun h =>
          some (h, len + UInt64.ofNat (encode wv.word.toNat).length
            + wv.word) := by
  have hlen := encode_word_length wv.word
  simp only [encodePayload, encodeVarint_eq]
  refine (emit_bind h buf _ fun h size =>
    (h.move (advance buf size) wv.src wv.word.toNat).bind fun h =>
      some (h, len + size + wv.word)).trans ?_
  rw [advance_eq buf (by omega)]

/-- A payload that lies outside of the block. -/
theorem encodePayload_eq {p : Payload} {wv : WireOut} (hp : p.Out wv)
    (h : Heap) (buf : Option Nat) (len : UInt64) :
    encodePayload h buf len p.wireType wv = emit h buf len p.bytes := by
  cases p with
  | varint v =>
      cases hp
      simp only [Payload.wireType, encodePayload, encodeVarint_eq]
      rw [emit_eq_bind h buf len]
      exact emit_bind h buf _ fun h size => some (h, len + size)
  | bit64 b =>
      cases hp
      simp only [Payload.wireType, encodePayload, encode64bit_eq]
      rw [emit_eq_bind h buf len]
      exact emit_bind h buf _ fun h size => some (h, len + size)
  | bit32 b =>
      cases hp
      simp only [Payload.wireType, encodePayload, encode32bit_eq]
      rw [emit_eq_bind h buf len]
      exact emit_bind h buf _ fun h size => some (h, len + size)
  | string count content =>
      obtain ⟨hword, rfl, src, hsrc, hcontent⟩ := hp
      have hofNat : UInt64.ofNat content.length = wv.word := by
        rw [← hword, UInt64.ofNat_toNat]
      rw [Payload.wireType, encodePayload_string, hword, hsrc,
        Payload.bytes, ← emit_append]
      refine Option.bind_congr fun h _ => ?_
      rw [Heap.move_ext hcontent, emit_eq_bind, hofNat]

/-- The key, and the payload behind it. -/
theorem encodeKeyed_eq (h : Heap) (buf : Option Nat) (desc : FieldDesc)
    (wt : WireType) (wv : WireOut) :
    encodeKeyed h buf desc wt wv
      = (h.puts buf (encode (fieldKey desc wt).toNat)).bind fun h =>
          encodePayload h
            (buf.map (· + (encode (fieldKey desc wt).toNat).length))
            (UInt64.ofNat (encode (fieldKey desc wt).toNat).length) wt wv := by
  have hlen := encode_word_length (fieldKey desc wt)
  simp only [encodeKeyed, encodeVarint_eq]
  refine (emit_bind h buf _ fun h size =>
    encodePayload h (advance buf size) size wt wv).trans ?_
  rw [advance_eq buf (by omega)]

/-- The key that is computed is the key of the field, for a number of 29 bits.
-/
theorem key_eq {wt : WireType} (hnum : desc.number.toNat < 2 ^ 29)
    (hwt : wt.code < 8) :
    encode (fieldKey desc wt).toNat = desc.key wt := by
  rw [fieldKey_toNat hnum hwt]
  rfl

-- ================================================================== fields

/-- A field whose payload lies outside of the block. -/
theorem encodeKeyed_out {p : Payload} {wv : WireOut} (hp : p.Out wv)
    (hnum : desc.number.toNat < 2 ^ 29) (h : Heap) (buf : Option Nat) :
    encodeKeyed h buf desc p.wireType wv
      = emit h buf 0 (desc.key p.wireType ++ p.bytes) := by
  rw [encodeKeyed_eq, key_eq hnum p.code_lt, ← emit_append]
  refine Option.bind_congr fun h _ => ?_
  rw [encodePayload_eq hp, UInt64.zero_add]

/-- A field whose payload is moved down inside of the block. -/
theorem encodeKeyed_frame (hnum : desc.number.toNat < 2 ^ 29) (h : Heap)
    (buf : Option Nat) (wv : WireOut) :
    encodeKeyed h buf desc .string wv
      = (h.puts buf (desc.key .string ++ encode wv.word.toNat)).bind fun h =>
          (h.move (buf.map (· + (desc.key .string
            ++ encode wv.word.toNat).length)) wv.src wv.word.toNat).bind
          fun h => some (h, UInt64.ofNat (desc.key .string
            ++ encode wv.word.toNat).length + wv.word) := by
  have hbuf : (buf.map (· + (desc.key .string).length)).map
      (· + (encode wv.word.toNat).length)
        = buf.map (· + (desc.key .string ++ encode wv.word.toNat).length) := by
    cases buf with
    | none => rfl
    | some a =>
        rw [List.length_append]
        exact congrArg some (Nat.add_assoc ..)
  rw [encodeKeyed_eq, key_eq hnum (by decide), ← Heap.puts_append,
    Option.bind_assoc]
  refine Option.bind_congr fun h _ => ?_
  rw [encodePayload_string, hbuf, List.length_append, UInt64.ofNat_add]

/-- A message has no case of its own in packed mode. -/
theorem addField_message {packed : Bool} {uninit : UInt64} {val : RawValue}
    (htyp : desc.opts.typ = .message) (h : Heap) (buf : Option Nat) :
    addField packed uninit h desc val buf
      = if packed then encodePayload h buf 0 .string ⟨val.len, val.src⟩
        else encodeKeyed h buf desc .string ⟨val.len, val.src⟩ := by
  simp only [addField, htyp, encodeWireValue]
  cases packed with
  | true => rfl
  | false => exact ite_self _

/-- A value of a field that is not packed. -/
theorem addField_scalar {uninit : UInt64} {val : RawValue} {v : Value Bytes}
    (hnum : desc.number.toNat < 2 ^ 29)
    (hrun : desc.isPackedRepeated = false)
    (hv : Stands desc.opts.typ val v) (h : Heap) (buf : Option Nat) :
    addField false uninit h desc val buf
      = emit h buf 0 (desc.key (v.payload desc.opts.typ).wireType
          ++ (v.payload desc.opts.typ).bytes) := by
  obtain ⟨hwt, hout⟩ := hv uninit
  rw [← encodeKeyed_out hout hnum, ← hwt]
  simp only [addField, hrun, Bool.false_eq_true, if_false]

/-- An element of a packed run. -/
theorem addField_elem {uninit : UInt64} {val : RawValue} {v : Value Bytes}
    (hv : Stands desc.opts.typ val v) (h : Heap) (buf : Option Nat) :
    addField true uninit h desc val buf
      = emit h buf 0 (v.payload desc.opts.typ).bytes := by
  obtain ⟨hwt, hout⟩ := hv uninit
  rw [← encodePayload_eq hout, ← hwt]
  simp only [addField, if_true]

/-- A message, or a whole packed run. -/
theorem addField_frame {uninit : UInt64} {val : RawValue}
    (hframe : desc.opts.typ = .message ∨ desc.isPackedRepeated = true)
    (h : Heap) (buf : Option Nat) :
    addField false uninit h desc val buf
      = encodeKeyed h buf desc .string ⟨val.len, val.src⟩ := by
  rcases hframe with htyp | hrun
  · exact addField_message htyp h buf
  · simp only [addField, hrun, Bool.false_eq_true, if_false, if_true]

-- =================================================================== blocks

section

variable {h' : Heap} {len n uninit : UInt64} {wt : WireType} {wv : WireOut}
  {packed : Bool} {val : RawValue}

/-- Writing bytes keeps the block. -/
theorem emit_sameBlock {bs : Bytes} (he : emit h buf len bs = some (h', n)) :
    h.SameBlock h' := by
  obtain ⟨g, hput, hg⟩ := Option.map_eq_some_iff.mp he
  cases hg
  exact Heap.puts_sameBlock hput

/-- So does writing a payload. -/
theorem encodePayload_sameBlock
    (he : encodePayload h buf len wt wv = some (h', n)) :
    h.SameBlock h' := by
  cases wt with
  | varint =>
      obtain ⟨g, hg, hr⟩ := Option.bind_eq_some_iff.mp he
      rw [encodeVarint_eq] at hg
      cases hr
      exact emit_sameBlock hg
  | bit64 =>
      obtain ⟨g, hg, hr⟩ := Option.bind_eq_some_iff.mp he
      rw [encode64bit_eq] at hg
      cases hr
      exact emit_sameBlock hg
  | bit32 =>
      obtain ⟨g, hg, hr⟩ := Option.bind_eq_some_iff.mp he
      rw [encode32bit_eq] at hg
      cases hr
      exact emit_sameBlock hg
  | string =>
      rw [encodePayload_string] at he
      obtain ⟨g, hput, he⟩ := Option.bind_eq_some_iff.mp he
      obtain ⟨g', hmove, hr⟩ := Option.bind_eq_some_iff.mp he
      cases hr
      obtain ⟨hbase, hsize⟩ := Heap.puts_sameBlock hput
      obtain ⟨hbase', hsize'⟩ := Heap.move_sameBlock hmove
      exact ⟨hbase'.trans hbase, hsize'.trans hsize⟩
  | unknown code =>
      cases he
      exact ⟨rfl, rfl⟩

/-- So does writing a key with its payload. -/
theorem encodeKeyed_sameBlock
    (he : encodeKeyed h buf desc wt wv = some (h', n)) : h.SameBlock h' := by
  rw [encodeKeyed_eq] at he
  obtain ⟨g, hput, he⟩ := Option.bind_eq_some_iff.mp he
  obtain ⟨hbase, hsize⟩ := Heap.puts_sameBlock hput
  obtain ⟨hbase', hsize'⟩ := encodePayload_sameBlock he
  exact ⟨hbase'.trans hbase, hsize'.trans hsize⟩

/-- So does adding a field. -/
theorem addField_sameBlock
    (he : addField packed uninit h desc val buf = some (h', n)) :
    h.SameBlock h' := by
  simp only [addField] at he
  split at he
  · exact encodePayload_sameBlock he
  · split at he
    · exact encodeKeyed_sameBlock he
    · exact encodeKeyed_sameBlock he

/-- Without a buffer nothing is written, and nothing goes wrong. -/
theorem encodePayload_none (h : Heap) (len : UInt64) (wt : WireType)
    (wv : WireOut) : ∃ n, encodePayload h none len wt wv = some (h, n) := by
  cases wt with
  | varint =>
      simp only [encodePayload, encodeVarint_eq]
      exact ⟨_, rfl⟩
  | bit64 =>
      simp only [encodePayload, encode64bit_eq]
      exact ⟨_, rfl⟩
  | bit32 =>
      simp only [encodePayload, encode32bit_eq]
      exact ⟨_, rfl⟩
  | string =>
      rw [encodePayload_string]
      exact ⟨_, rfl⟩
  | unknown code => exact ⟨_, rfl⟩

/-- Without a buffer a field is counted, whatever it is. -/
theorem encodeKeyed_none (h : Heap) (desc : FieldDesc) (wt : WireType)
    (wv : WireOut) : ∃ n, encodeKeyed h none desc wt wv = some (h, n) := by
  rw [encodeKeyed_eq]
  exact encodePayload_none h _ wt wv

/-- So every field is added to no buffer. -/
theorem addField_none (packed : Bool) (uninit : UInt64) (h : Heap)
    (desc : FieldDesc) (val : RawValue) :
    ∃ n, addField packed uninit h desc val none = some (h, n) := by
  simp only [addField]
  split
  · exact encodePayload_none h 0 _ _
  · split
    · exact encodeKeyed_none h desc _ _
    · exact encodeKeyed_none h desc _ _

/-- No block has room for a payload of length -1 behind its prefix. -/
theorem encodePayload_failed {a : Nat} (hsize : h.size < 2 ^ 64)
    (hword : wv.word = -1) :
    encodePayload h (some a) len .string wv = none := by
  have hnat : (-1 : UInt64).toNat = 2 ^ 64 - 1 := rfl
  have hpos := encode_length_pos (2 ^ 64 - 1)
  rw [encodePayload_string, hword, hnat]
  by_cases ha : h.Owns a (encode (2 ^ 64 - 1)).length
  · rw [Heap.puts_of_owns ha, Option.bind_some, Option.map_some]
    rw [Heap.move_of_not_owns]
    · rfl
    · intro hown
      unfold Heap.Owns at ha hown
      simp only at hown
      omega
  · rw [Heap.puts_of_not_owns ha]
    rfl

/-- A failed length makes the copy leave any block: there is none of `2 ^ 64 -
1` bytes behind a header. -/
theorem addField_failed {a : Nat} (hsize : h.size < 2 ^ 64)
    (htyp : desc.opts.typ = .message) (hlen : val.len = -1) :
    addField packed uninit h desc val (some a) = none := by
  rw [addField_message htyp]
  split
  · exact encodePayload_failed hsize hlen
  · rw [encodeKeyed_eq]
    refine Option.bind_eq_none_iff.mpr fun g hg => ?_
    obtain ⟨-, hsame⟩ := Heap.puts_sameBlock hg
    exact encodePayload_failed (hsame ▸ hsize) hlen

end

end Encoder2

end Lwpb
