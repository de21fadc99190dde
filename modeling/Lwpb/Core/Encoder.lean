/-
The streaming encoder: `core/encoder.c`.

# The state

The caller drives the encoder call by call, so the state is the encoder
object between two calls together with the memory it writes to. The stack
is an array of slots, of which the first `depth` are in use; a slot that
is not in use keeps whatever it held, and a call that fails early may
leave such a slot in use. `data` and `len` are the arguments of the last
`lwpb_encoder_start`: no C code reads them, the properties do.

# Calls

A call returns an error code, and a state with every error code: partial
output and pushed frames stay. It can also fail an `LWPB_ASSERT`
(`abort`) or follow a NULL descriptor (`fault`).

Values are the union `lwpb_value` seen as raw bytes (`RawValue`), so that
a call that reads another member than was set is a call like any other.
A pointer member comes with the bytes it points at: bytes of the caller's,
or a range of the encoder's own buffer.
-/
import Lwpb.Core.Decoder
import Lwpb.Lib.Memory

namespace Lwpb

open Memory

-- ================================================================= writers

/-- What a writer leaves: its error code, the memory, and the buffer. -/
structure Written where
  err : Err
  mem : Mem
  buf : Buf

/-- The loop of `encode_varint`. A word has at most ten groups of seven
bits, so ten rounds are all it makes. -/
def encodeVarintLoop : (rounds : Nat) → Mem → Buf → UInt64 → Written
  | 0, mem, buf, _ => ⟨.ok, mem, buf⟩
  | rounds + 1, mem, buf, varint =>
      if bufLeft buf < 1 then ⟨.endOfBuf, mem, buf⟩
      else
        let byte := if varint > 127 then 0x80 ||| (varint &&& 0x7f)
          else varint &&& 0x7f
        let mem := put mem buf.pos byte.toUInt8
        let buf := { buf with pos := buf.pos + 1 }
        if varint >>> 7 = 0 then ⟨.ok, mem, buf⟩
        else encodeVarintLoop rounds mem buf (varint >>> 7)

/-- `encode_varint`. -/
def encodeVarint (mem : Mem) (buf : Buf) (varint : UInt64) : Written :=
  encodeVarintLoop 10 mem buf varint

/-- `encode_32bit`. -/
def encode32bit (mem : Mem) (buf : Buf) (value : UInt32) : Written :=
  if bufLeft buf < 4 then ⟨.endOfBuf, mem, buf⟩
  else ⟨.ok, store mem buf.pos [value.toUInt8, (value >>> 8).toUInt8,
    (value >>> 16).toUInt8, (value >>> 24).toUInt8],
    { buf with pos := buf.pos + 4 }⟩

/-- `encode_64bit`. -/
def encode64bit (mem : Mem) (buf : Buf) (value : UInt64) : Written :=
  if bufLeft buf < 8 then ⟨.endOfBuf, mem, buf⟩
  else
    let high := value >>> 32
    ⟨.ok, store mem buf.pos [value.toUInt8, (value >>> 8).toUInt8,
      (value >>> 16).toUInt8, (value >>> 24).toUInt8,
      high.toUInt8, (high >>> 8).toUInt8,
      (high >>> 16).toUInt8, (high >>> 24).toUInt8],
      { buf with pos := buf.pos + 8 }⟩

-- ================================================================== values

/-- What a pointer in a value points at. -/
inductive Source where
  /-- Memory of the caller. -/
  | ext (bytes : Nat → UInt8)
  /-- The encoder's own buffer. -/
  | buf (addr : Nat)

/-- The bytes a pointer points at. -/
def Source.bytes (mem : Mem) : Source → Nat → UInt8
  | .ext bytes => bytes
  | .buf addr => fun i => mem (addr + i)

/-- `union lwpb_value`: its first eight bytes, where the numbers and the
pointers lie (`src` is what a pointer there points at), and the lengths
behind them. -/
structure RawValue where
  word : UInt64
  src : Source
  len : UInt64

/-- `union wire_value`, as `lwpb_encoder_add_field` fills it. -/
structure WireOut where
  word : UInt64
  src : Source

/-- "Encode wire value": the switch on the declared type. A group has no
case, so `wire_type` keeps its initial zero and `wire_value` is
uninitialised (`uninit`). -/
def encodeWireValue (typ : FieldType) (value : RawValue)
    (uninit : UInt64) : WireType × WireOut :=
  let low := value.word.toUInt32
  match typ with
  | .double => (.bit64, ⟨value.word, value.src⟩)
  | .float => (.bit32, ⟨low.toUInt64, value.src⟩)
  | .int32 => (.varint, ⟨low.toInt32.toInt64.toUInt64, value.src⟩)
  | .uint32 => (.varint, ⟨low.toUInt64, value.src⟩)
  | .sint32 => (.varint,
      ⟨((low.toInt32 <<< 1) ^^^ (low.toInt32 >>> 31)).toUInt32.toUInt64,
        value.src⟩)
  | .int64 => (.varint, ⟨value.word, value.src⟩)
  | .uint64 => (.varint, ⟨value.word, value.src⟩)
  | .sint64 => (.varint,
      ⟨((value.word.toInt64 <<< 1) ^^^ (value.word.toInt64 >>> 63)).toUInt64,
        value.src⟩)
  | .fixed32 => (.bit32, ⟨low.toUInt64, value.src⟩)
  | .fixed64 => (.bit64, ⟨value.word, value.src⟩)
  | .sfixed32 => (.bit32, ⟨low.toUInt64, value.src⟩)
  | .sfixed64 => (.bit64, ⟨value.word, value.src⟩)
  | .bool => (.varint, ⟨low.toInt32.toInt64.toUInt64, value.src⟩)
  | .enum => (.varint, ⟨low.toInt32.toInt64.toUInt64, value.src⟩)
  | .string | .bytes | .message => (.string, ⟨value.len, value.src⟩)
  | .group => (.varint, ⟨uninit, value.src⟩)

/-- `wire_type | (field_desc->number << 3)`, computed in 32 bits. -/
def fieldKey (desc : FieldDesc) (wt : WireType) : UInt64 :=
  (UInt32.ofNat wt.code ||| (desc.number <<< 3)).toUInt64

-- =============================================================== the state

/-- `struct lwpb_encoder_stack_frame`. -/
structure EncFrame where
  buf : Buf
  fieldDesc : Option FieldRef
  msgDesc : Option MsgRef

/-- `struct lwpb_encoder`, and the memory. -/
@[ext] structure Enc where
  stack : Nat → EncFrame
  depth : Nat
  packed : Bool
  mem : Mem
  /-- The buffer of the last `lwpb_encoder_start`. -/
  data : Nat
  len : Nat

/-- What a call comes to. -/
inductive Ret where
  | ret (err : Err) (s : Enc)
  | abort
  | fault

namespace Enc

/-- `encoder->stack[encoder->depth - 1]`. -/
def top (s : Enc) : EncFrame := s.stack (s.depth - 1)

/-- Write a slot of the stack. -/
def setSlot (s : Enc) (i : Nat) (frame : EncFrame) : Enc :=
  { s with stack := fun j => if j = i then frame else s.stack j }

/-- The state after a writer has run on the current frame's buffer. -/
def written (s : Enc) (w : Written) : Enc :=
  { s.setSlot (s.depth - 1) { s.top with buf := w.buf } with mem := w.mem }

/-- `push_stack_frame`, and what its callers write to the new frame. -/
def push (s : Enc) (frame : EncFrame) (packed : Bool) : Enc :=
  { s.setSlot s.depth frame with depth := s.depth + 1, packed := packed }

end Enc

-- =================================================================== calls

/-- The first word of a call: `lwpb_encoder_start`. -/
def encoderStart (s : Enc) (msgDesc : MsgRef) (data len : Nat) : Enc :=
  { s.setSlot 0 ⟨bufInit data len, none, some msgDesc⟩ with
    depth := 1
    packed := false
    data := data
    len := len }

/-- `lwpb_encoder_finish`. -/
def encoderFinish (s : Enc) : Nat := bufUsed (s.stack 0).buf

/-- The second switch of `lwpb_encoder_add_field`: the payload. -/
def encodePayload (s : Enc) (wt : WireType) (wv : WireOut) : Ret :=
  match wt with
  | .varint =>
      let w := encodeVarint s.mem s.top.buf wv.word
      .ret w.err (s.written w)
  | .bit64 =>
      let w := encode64bit s.mem s.top.buf wv.word
      .ret w.err (s.written w)
  | .string =>
      let w := encodeVarint s.mem s.top.buf wv.word
      if w.err ≠ .ok then .ret w.err (s.written w)
      else if bufLeft w.buf < wv.word.toNat then
        .ret .endOfBuf (s.written w)
      else
        .ret .ok (s.written ⟨.ok,
          copy w.mem w.buf.pos wv.word.toNat (wv.src.bytes w.mem),
          { w.buf with pos := w.buf.pos + wv.word.toNat }⟩)
  | .bit32 =>
      let w := encode32bit s.mem s.top.buf wv.word.toUInt32
      .ret w.err (s.written w)
  | .unknown _ => .ret .ok s

/-- The key, then the payload. -/
def encodeKeyed (s : Enc) (desc : FieldDesc) (wt : WireType)
    (wv : WireOut) : Ret :=
  let w := encodeVarint s.mem s.top.buf (fieldKey desc wt)
  if w.err ≠ .ok then .ret w.err (s.written w)
  else encodePayload (s.written w) wt wv

/-- `lwpb_encoder_add_field` behind its checks. An element of a packed run
has no key; outside of a run the value of a packed field is the whole
run. -/
def encodeField (sch : Schema) (uninit : UInt64) (s : Enc) (f : FieldRef)
    (value : RawValue) : Ret :=
  let desc := sch.field f
  let (wt, wv) := encodeWireValue desc.opts.typ value uninit
  if s.packed then encodePayload s wt wv
  else if desc.isPackedRepeated then
    encodeKeyed s desc .string ⟨value.len, value.src⟩
  else encodeKeyed s desc wt wv

/-- The field is one of the message's: `field_desc` is the address of an
element of its field array. -/
def Schema.owns (sch : Schema) (m : MsgRef) (f : FieldRef) : Bool :=
  f.msg == m && f.idx < (sch.msg m).fields.length

/-- `lwpb_encoder_add_field`. -/
def addField (sch : Schema) (uninit : UInt64) (s : Enc) (f : FieldRef)
    (value : RawValue) : Ret :=
  if s.depth = 0 then .abort
  else if s.packed then
    if s.top.fieldDesc ≠ some f then .abort
    else encodeField sch uninit s f value
  else
    match s.top.msgDesc with
    | none => .fault
    | some m =>
        if sch.owns m f then encodeField sch uninit s f value
        else .ret .unknownField s

/-- The push of a new frame, behind the assertions of its caller, and the
reserve for its header. `entered` is the state if there is room. -/
def pushReserve (s : Enc) (frame : EncFrame) (packed : Bool) : Ret :=
  if s.depth = 0 then .fault
  else if maxDepth < s.depth + 1 then .abort
  else
    let parent := s.top
    if bufLeft parent.buf < 10 then
      .ret .endOfBuf (s.push frame s.packed)
    else
      .ret .ok (s.push { frame with
        buf := bufInit (parent.buf.pos + 10) (bufLeft parent.buf - 10) }
        packed)

/-- `lwpb_encoder_nested_start`. The new slot keeps its buffer until it
is initialised. -/
def nestedStart (sch : Schema) (s : Enc) (f : FieldRef) : Ret :=
  if (sch.field f).opts.typ ≠ .message then .abort
  else pushReserve s
    ⟨(s.stack s.depth).buf, some f, (sch.field f).msgDesc⟩ s.packed

/-- `lwpb_encoder_packed_repeated_start`. -/
def packedRepeatedStart (sch : Schema) (s : Enc) (f : FieldRef) : Ret :=
  if !(sch.field f).isPackedRepeated then .abort
  else if s.packed then .abort
  else pushReserve s ⟨(s.stack s.depth).buf, some f, none⟩ true

/-- The tail of the two ends: the pop, and the finished frame added to
its parent as a field. -/
def popAdd (sch : Schema) (uninit : UInt64) (s : Enc) (packed : Bool) :
    Ret :=
  let frame := s.top
  if s.depth - 1 = 0 then .abort
  else
    let s := { s with depth := s.depth - 1, packed := packed }
    match frame.fieldDesc with
    | none => .fault
    | some f => addField sch uninit s f
        ⟨UInt64.ofNat frame.buf.base, .buf frame.buf.base,
          UInt64.ofNat (bufUsed frame.buf)⟩

/-- `lwpb_encoder_nested_end`. -/
def nestedEnd (sch : Schema) (uninit : UInt64) (s : Enc) : Ret :=
  popAdd sch uninit s s.packed

/-- `lwpb_encoder_packed_repeated_end`. -/
def packedRepeatedEnd (sch : Schema) (uninit : UInt64) (s : Enc) : Ret :=
  if !s.packed then .abort else popAdd sch uninit s false

-- ================================================================= setters

/-- `value.int32 = v` and its like: the other four bytes stay. -/
def RawValue.set32 (raw : RawValue) (v : UInt32) : RawValue :=
  { raw with word := (raw.word &&& 0xffffffff00000000) ||| v.toUInt64 }

/-- `value.int64 = v` and its like. -/
def RawValue.set64 (raw : RawValue) (v : UInt64) : RawValue :=
  { raw with word := v }

/-- `value.string.str = data` and `value.string.len = len`. -/
def RawValue.setString (raw : RawValue) (data : Nat → UInt8)
    (len : UInt64) : RawValue :=
  { raw with src := .ext data, len := len }

/-- `LWPB_STRLEN`, of the bytes from a pointer on. -/
def strlen (str : Bytes) : Nat := (str.takeWhile (· != 0)).length

/-- The uninitialised locals of a call: `value` in the setters and
`wire_value` in `lwpb_encoder_add_field`. -/
structure Scratch where
  value : RawValue
  wireValue : UInt64

section

variable (sch : Schema) (u : Scratch) (s : Enc) (f : FieldRef)

/-- `lwpb_encoder_add_double`, on the bits of its argument. -/
def addDouble (double : UInt64) : Ret :=
  addField sch u.wireValue s f (u.value.set64 double)

/-- `lwpb_encoder_add_float`, on the bits of its argument. -/
def addFloat (float : UInt32) : Ret :=
  addField sch u.wireValue s f (u.value.set32 float)

/-- `lwpb_encoder_add_int32`. -/
def addInt32 (int32 : Int32) : Ret :=
  addField sch u.wireValue s f (u.value.set32 int32.toUInt32)

/-- `lwpb_encoder_add_uint32`. -/
def addUint32 (uint32 : UInt32) : Ret :=
  addField sch u.wireValue s f (u.value.set32 uint32)

/-- `lwpb_encoder_add_int64`. -/
def addInt64 (int64 : Int64) : Ret :=
  addField sch u.wireValue s f (u.value.set64 int64.toUInt64)

/-- `lwpb_encoder_add_uint64`. -/
def addUint64 (uint64 : UInt64) : Ret :=
  addField sch u.wireValue s f (u.value.set64 uint64)

/-- `lwpb_encoder_add_bool`. -/
def addBool (bool : Int32) : Ret :=
  addField sch u.wireValue s f (u.value.set32 bool.toUInt32)

/-- `lwpb_encoder_add_enum`. -/
def addEnum (enum : Int32) : Ret :=
  addField sch u.wireValue s f (u.value.set32 enum.toUInt32)

/-- `lwpb_encoder_add_string`. Behind the bytes of `str` is a NUL. -/
def addString (str : Bytes) : Ret :=
  addField sch u.wireValue s f
    (u.value.setString (fun i => str.getD i 0) (UInt64.ofNat (strlen str)))

/-- `lwpb_encoder_add_bytes`. -/
def addBytes (data : Nat → UInt8) (len : UInt64) : Ret :=
  addField sch u.wireValue s f (u.value.setString data len)

/-- The setter for a C value. -/
def addValue : Value Bytes → Ret
  | .double b => addDouble sch u s f b
  | .float b => addFloat sch u s f b
  | .int32 v => addInt32 sch u s f v
  | .int64 v => addInt64 sch u s f v
  | .uint32 v => addUint32 sch u s f v
  | .uint64 v => addUint64 sch u s f v
  | .bool v => addBool sch u s f v
  | .enum v => addEnum sch u s f v
  | .string str => addString sch u s f str
  | .bytes data =>
      addBytes sch u s f (fun i => data.getD i 0) (UInt64.ofNat data.length)

end

-- ==================================================================== runs

/-- A call on the encoder. -/
inductive Call where
  | start (msgDesc : MsgRef) (data len : Nat)
  | nestedStart (f : FieldRef)
  | nestedEnd
  | packedRepeatedStart (f : FieldRef)
  | packedRepeatedEnd
  | addField (f : FieldRef) (value : RawValue)

/-- Make a call. -/
def Call.run (sch : Schema) (uninit : UInt64) (s : Enc) : Call → Ret
  | .start msgDesc data len => .ret .ok (encoderStart s msgDesc data len)
  | .nestedStart f => Lwpb.nestedStart sch s f
  | .nestedEnd => Lwpb.nestedEnd sch uninit s
  | .packedRepeatedStart f => Lwpb.packedRepeatedStart sch s f
  | .packedRepeatedEnd => Lwpb.packedRepeatedEnd sch uninit s
  | .addField f value => Lwpb.addField sch uninit s f value

end Lwpb
