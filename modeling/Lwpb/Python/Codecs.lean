/-
The methods for single numbers: `encode_varint` and its siblings of
`python/encoder.c` and `python/decoder.c`.

The siblings differ in the function of the core they call, in how the
number crosses into Python, and in a text. `encode_32bit` and
`decode_32bit` are the two that streams use, and stand in
`Python/Stream.lean`; what is here of them is the parsing of the argument
around `decode_32bit`.

`PyLong_FromLong` takes a `long` of 64 bits: a word from `2 ^ 63` on
becomes a negative number. A string has a NUL behind its bytes, which is
not counted in its length but can be read.
-/
import Lwpb.Python.Stream

namespace Lwpb.Python

-- =================================================================== encoding

/-- The form of the three methods: a number is written into a local buffer
of 64 bytes. `K` and `I` keep the low bits of a number. -/
def encodeMethod {α : Type}
    (write : Heap → Option Nat → α → Option (Heap × UInt64))
    (word : Nat → α) (value : Nat) : Option Bytes := do
  let (heap, len) ← write ⟨fun _ => 0, 0, 64⟩ (some 0) (word value)
  some (Memory.read heap.mem 0 len.toNat)

/-- `Encoder_encode_varint`. -/
def encoderEncodeVarint : Nat → Option Bytes :=
  encodeMethod Encoder2.encodeVarint UInt64.ofNat

/-- `Encoder_encode_64bit`. -/
def encoderEncode64bit : Nat → Option Bytes :=
  encodeMethod Encoder2.encode64bit UInt64.ofNat

-- =================================================================== decoding

/-- What a method for a number comes to: the number, or None, and the bytes
it took. -/
inductive VarintRet where
  | tuple (value : Option Int) (bytes : Nat)
  | null (error : PyErr)
  | fault
  deriving Repr, DecidableEq

/-- The form of the three methods. -/
def decodeMethod {α : Type} (text : String)
    (read : Bytes → Buf → Outcome (α × Buf)) (number : α → Int)
    (buf : Bytes) : VarintRet :=
  -- the length that `s#` stores is an `int`
  if 2 ^ 31 ≤ buf.length then
    .null ⟨.overflowError, "size does not fit in an int"⟩
  else
    match read (buf ++ [0]) ⟨0, 0, buf.length⟩ with
    | .ok (value, lbuf) => .tuple (some (number value)) lbuf.pos
    | .err .endOfBuf => .tuple none 0
    | .err e => .null ⟨.runtimeError, text ++ toString (errCode e)⟩
    | .fault _ => .fault

/-- `Decoder_decode_varint`. -/
def decoderDecodeVarint : Bytes → VarintRet :=
  decodeMethod "decode_varint error: " decodeVarint (·.toInt64.toInt)

/-- `Decoder_decode_32bit`, its argument included. Its text is that of
`decode_varint`. -/
def decoderDecode32bitArg : Bytes → VarintRet :=
  decodeMethod "decode_varint error: " decode32bit (·.toNat)

/-- `Decoder_decode_64bit`. -/
def decoderDecode64bit : Bytes → VarintRet :=
  decodeMethod "decode_64bit error: " decode64bit (·.toInt64.toInt)

end Lwpb.Python
