/-
`lwpb_decode_varint` of `core/decoder.c`, access by access.

The decoder's machine uses `decodeVarint`, which says what a call comes
to. Here is the same loop with what it does on the way: a pass through
the test of the loop is a move, and its outputs are the bytes it reads and
the counts by which it shifts a 64-bit word. A call also leaves
`buf->pos` and `*varint` behind when it returns an error.
-/
import Lwpb.Core.Decoder

namespace Lwpb

open Machine

/-- What a pass does to the buffer and to words. -/
inductive VarintAccess where
  /-- `*buf->pos` is read. -/
  | read (pos : Nat)
  /-- A 64-bit word is shifted to the left. -/
  | shift (count : Nat)
  deriving Repr, DecidableEq

/-- The locals at the test of the loop, with `buf->pos` and `*varint`. -/
structure VarintLoop where
  bitpos : Nat
  pos : Nat
  varint : UInt64
  deriving Repr, DecidableEq

/-- What a call leaves: its code, `*varint` and `buf->pos`. -/
structure VarintEnd where
  err : Err
  varint : UInt64
  pos : Nat
  deriving Repr, DecidableEq

/-- The locals at the first test. -/
def varintEntry (buf : Buf) : VarintLoop := ⟨0, buf.pos, 0⟩

/-- A pass through the test of the loop. -/
def varintStep (data : Bytes) (stop : Nat) (s : VarintLoop) :
    Move VarintLoop VarintAccess (Except Fault VarintEnd) :=
  match data[s.pos]? with
  | none => .halt (.error (.read s.pos)) [.read s.pos]
  | some b =>
      let varint := s.varint
        ||| ((b &&& 0x7f).toUInt64 <<< UInt64.ofNat s.bitpos)
      let out := [.read s.pos, .shift s.bitpos]
      if b &&& 0x80 ≠ 0 ∧ s.bitpos < 64 then
        -- `buf->end - buf->pos` is signed here
        if stop < s.pos + 2 then .halt (.ok ⟨.endOfBuf, varint, s.pos⟩) out
        else .next ⟨s.bitpos + 7, s.pos + 1, varint⟩ out
      else .halt (.ok ⟨.ok, varint, s.pos + 1⟩) out

end Lwpb
