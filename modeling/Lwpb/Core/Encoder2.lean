/-
The encoder without a stack: `core/encoder2.c`.

Its functions take a buffer that may be NULL, and return a length either
way: with NULL they only count. The one thing an encoder remembers is
whether it is in packed mode.

A buffer has no end here. `Heap` is the memory together with the block
that may be written, so that a byte written or moved outside of the block
is a fault (`none`).
-/
import Lwpb.Core.Encoder

namespace Lwpb

open Memory

-- ================================================================== memory

/-- The memory, and the block a buffer points into. -/
structure Heap where
  mem : Mem
  base : Nat
  size : Nat

namespace Heap

/-- The bytes from `a` on lie in the block, as many as are touched. -/
def Owns (h : Heap) (a n : Nat) : Prop :=
  n = 0 ∨ (h.base ≤ a ∧ a + n ≤ h.base + h.size)

instance (h : Heap) (a n : Nat) : Decidable (h.Owns a n) :=
  inferInstanceAs (Decidable (_ ∨ _))

/-- Bytes written one after the other, if there is a buffer. -/
def puts (h : Heap) (buf : Option Nat) (bs : Bytes) : Option Heap :=
  match buf with
  | none => some h
  | some a =>
      if h.Owns a bs.length then some { h with mem := store h.mem a bs }
      else none

/-- The bytes at `src` may be read. -/
def Readable (h : Heap) (src : Source) (n : Nat) : Prop :=
  match src with
  | .ext _ => True
  | .buf a => h.Owns a n

instance (h : Heap) (src : Source) (n : Nat) :
    Decidable (h.Readable src n) :=
  match src with
  | .ext _ => inferInstanceAs (Decidable True)
  | .buf a => inferInstanceAs (Decidable (h.Owns a n))

/-- `memmove`, if there is a buffer. -/
def move (h : Heap) (buf : Option Nat) (src : Source) (n : Nat) :
    Option Heap :=
  match buf with
  | none => some h
  | some a =>
      if h.Owns a n ∧ h.Readable src n then
        some { h with mem := copy h.mem a n (src.bytes h.mem) }
      else none

end Heap

/-- `if (buf) buf += size`. -/
def advance (buf : Option Nat) (size : UInt64) : Option Nat :=
  buf.map (· + size.toNat)

-- ================================================================= writers

namespace Encoder2

/-- The loop of `lwpb_encode_varint`. A word has at most ten groups of
seven bits, so ten rounds are all it makes. -/
def encodeVarintLoop : (rounds : Nat) → Heap → (buf : Option Nat) →
    (varint len : UInt64) → Option (Heap × UInt64)
  | 0, h, _, _, len => some (h, len)
  | rounds + 1, h, buf, varint, len => do
      let byte := if varint > 127 then 0x80 ||| (varint &&& 0x7f)
        else varint &&& 0x7f
      let h ← h.puts buf [byte.toUInt8]
      if varint >>> 7 = 0 then some (h, len + 1)
      else encodeVarintLoop rounds h (advance buf 1) (varint >>> 7) (len + 1)

/-- `lwpb_encode_varint`. -/
def encodeVarint (h : Heap) (buf : Option Nat) (varint : UInt64) :
    Option (Heap × UInt64) :=
  encodeVarintLoop 10 h buf varint 0

/-- `lwpb_encode_32bit`. -/
def encode32bit (h : Heap) (buf : Option Nat) (value : UInt32) :
    Option (Heap × UInt64) := do
  let h ← h.puts buf [value.toUInt8, (value >>> 8).toUInt8,
    (value >>> 16).toUInt8, (value >>> 24).toUInt8]
  some (h, 4)

/-- `lwpb_encode_64bit`. -/
def encode64bit (h : Heap) (buf : Option Nat) (value : UInt64) :
    Option (Heap × UInt64) := do
  let high := value >>> 32
  let h ← h.puts buf [value.toUInt8, (value >>> 8).toUInt8,
    (value >>> 16).toUInt8, (value >>> 24).toUInt8,
    high.toUInt8, (high >>> 8).toUInt8,
    (high >>> 16).toUInt8, (high >>> 24).toUInt8]
  some (h, 8)

-- =================================================================== calls

/-- `lwpb_encoder2_start`: the packed flag. -/
def start : Bool := false

/-- `lwpb_encoder2_packed_repeated_start`, and `none` for a failed
assertion. -/
def packedRepeatedStart (packed : Bool) (desc : FieldDesc) : Option Bool :=
  if !desc.isPackedRepeated then none
  else if packed then none
  else some true

/-- `lwpb_encoder2_packed_repeated_end`. -/
def packedRepeatedEnd (packed : Bool) : Option Bool :=
  if !packed then none else some false

/-- The second switch of `lwpb_encoder2_add_field`: the payload, behind
`len` bytes of key. What a string points at is copied with `memcpy`; it
is never in the buffer, unless the field is a message or packed. -/
def encodePayload (h : Heap) (buf : Option Nat) (len : UInt64)
    (wt : WireType) (wv : WireOut) : Option (Heap × UInt64) :=
  match wt with
  | .varint => do
      let (h, size) ← encodeVarint h buf wv.word
      some (h, len + size)
  | .bit64 => do
      let (h, size) ← encode64bit h buf wv.word
      some (h, len + size)
  | .string => do
      let (h, size) ← encodeVarint h buf wv.word
      let h ← h.move (advance buf size) wv.src wv.word.toNat
      some (h, len + size + wv.word)
  | .bit32 => do
      let (h, size) ← encode32bit h buf wv.word.toUInt32
      some (h, len + size)
  | .unknown _ => some (h, len)

/-- The key, then the payload. -/
def encodeKeyed (h : Heap) (buf : Option Nat) (desc : FieldDesc)
    (wt : WireType) (wv : WireOut) : Option (Heap × UInt64) := do
  let (h, size) ← encodeVarint h buf (fieldKey desc wt)
  encodePayload h (advance buf size) size wt wv

/-- `lwpb_encoder2_add_field`. -/
def addField (packed : Bool) (uninit : UInt64) (h : Heap)
    (desc : FieldDesc) (value : RawValue) (buf : Option Nat) :
    Option (Heap × UInt64) :=
  let (wt, wv) := encodeWireValue desc.opts.typ value uninit
  if packed then encodePayload h buf 0 wt wv
  else if desc.isPackedRepeated then
    encodeKeyed h buf desc .string ⟨value.len, value.src⟩
  else encodeKeyed h buf desc wt wv

end Encoder2

end Lwpb
