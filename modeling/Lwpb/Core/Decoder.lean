/-
The stream decoder: `core/decoder.c`.

# The machine

`lwpb_decoder_decode` is two nested loops with a `goto` from the inner
one into the outer one. Its states are the points where control stands
at the label `decode_nested` or at the test of the inner loop, with the
frame stack, the `packed` flag and the locals that survive from one
iteration to the next: `field_desc` and `wire_value`. The two survivors
are part of the state on purpose. The C code resets neither when a new
key is read, and several of its behaviours depend on what is left in
them.

One move is one pass through the inner loop, one entry of a frame, or
one pop. Notifications are the outputs of the moves.

# Undefined behaviour

The model reads memory through the input list and stops with a `Fault`
where the C program has no defined behaviour: reading a byte outside the
input, moving a pointer past the input, using a `string.data` that was
never set, following a NULL descriptor, or falling off the end of
`field_wire_type`. A failing `LWPB_ASSERT` is the result `abort`.

Pointers are offsets into the input. A 64-bit shift by 64 or more is the
shift by the count modulo 64, as the target does it.
-/
import Lwpb.Core.Types
import Lwpb.Lib.Machine

namespace Lwpb

open Machine

-- ================================================================ outcomes

/-- Why a run has no defined continuation. -/
inductive Fault where
  /-- A byte outside the input is read. -/
  | read (i : Nat)
  /-- A pointer leaves the input or was never set. -/
  | pointer
  /-- A NULL descriptor is followed. -/
  | nullDesc
  /-- `field_wire_type` returns no value. -/
  | noWireType
  deriving Repr, DecidableEq

/-- What a reading step comes to. -/
inductive Outcome (α : Type) where
  | ok (a : α)
  | err (e : Err)
  | fault (f : Fault)
  deriving Repr, DecidableEq

namespace Outcome

/-- Sequencing: the first error or fault is the result. -/
def bind {α β : Type} : Outcome α → (α → Outcome β) → Outcome β
  | .ok a, k => k a
  | .err e, _ => .err e
  | .fault f, _ => .fault f

instance : Monad Outcome where
  pure := .ok
  bind := Outcome.bind

@[simp] theorem ok_bind {α β : Type} (a : α) (k : α → Outcome β) :
    (Outcome.ok a >>= k) = k a := rfl

@[simp] theorem err_bind {α β : Type} (e : Err) (k : α → Outcome β) :
    ((Outcome.err e : Outcome α) >>= k) = .err e := rfl

@[simp] theorem fault_bind {α β : Type} (f : Fault) (k : α → Outcome β) :
    ((Outcome.fault f : Outcome α) >>= k) = .fault f := rfl

/-- A sequence that comes to a value: both steps did. -/
theorem bind_eq_ok {α β : Type} {x : Outcome α} {k : α → Outcome β}
    {b : β} : (x >>= k) = .ok b ↔ ∃ a, x = .ok a ∧ k a = .ok b := by
  cases x with
  | ok a => simp
  | err e => simp
  | fault f => simp

/-- Taking the step decides what holds of its value. -/
instance decidableOk {α : Type} {P : α → Prop} [DecidablePred P] :
    (x : Outcome α) → Decidable (∃ a, x = .ok a ∧ P a)
  | .ok a => decidable_of_iff (P a) (by simp)
  | .err e => isFalse (by simp)
  | .fault f => isFalse (by simp)

/-- A sequence that faults: the first step did, or the second. -/
theorem bind_eq_fault {α β : Type} {x : Outcome α} {k : α → Outcome β}
    {f : Fault} : (x >>= k) = .fault f ↔
      x = .fault f ∨ ∃ a, x = .ok a ∧ k a = .fault f := by
  cases x with
  | ok a => simp
  | err e => simp
  | fault g => simp

end Outcome

-- ============================================================= the readers

/-- `*p` for a byte of the input. -/
def byteAt (data : Bytes) (p : Nat) : Outcome UInt8 :=
  match data[p]? with
  | some b => .ok b
  | none => .fault (.read p)

/-- The loop of `lwpb_decode_varint` and the byte behind it. `rounds` is
how often `bitpos < 64` still holds as `bitpos` runs 0, 7, .., 63, 70. -/
def decodeVarintLoop (data : Bytes) (stop : Nat) :
    (rounds bitpos pos : Nat) → (varint : UInt64) → Outcome (UInt64 × Nat)
  | rounds, bitpos, pos, varint => do
      let b ← byteAt data pos
      let varint := varint ||| ((b &&& 0x7f).toUInt64 <<< UInt64.ofNat bitpos)
      match rounds with
      | 0 => .ok (varint, pos + 1)
      | rounds + 1 =>
          if b &&& 0x80 = 0 then .ok (varint, pos + 1)
          -- `buf->end - buf->pos` is signed here
          else if stop < pos + 2 then .err .endOfBuf
          else decodeVarintLoop data stop rounds (bitpos + 7) (pos + 1) varint

/-- `lwpb_decode_varint`. -/
def decodeVarint (data : Bytes) (buf : Buf) : Outcome (UInt64 × Buf) := do
  let (varint, pos) ← decodeVarintLoop data buf.stop 10 0 buf.pos 0
  .ok (varint, { buf with pos := pos })

/-- `lwpb_decode_32bit`. -/
def decode32bit (data : Bytes) (buf : Buf) : Outcome (UInt32 × Buf) := do
  if bufLeft buf < 4 then .err .endOfBuf
  else
    let b0 ← byteAt data buf.pos
    let b1 ← byteAt data (buf.pos + 1)
    let b2 ← byteAt data (buf.pos + 2)
    let b3 ← byteAt data (buf.pos + 3)
    .ok (b0.toUInt32 ||| (b1.toUInt32 <<< 8) ||| (b2.toUInt32 <<< 16)
        ||| (b3.toUInt32 <<< 24), { buf with pos := buf.pos + 4 })

/-- The loop of `lwpb_decode_64bit`, from byte `i - 1` down to byte 0. -/
def decode64bitLoop (data : Bytes) (pos : Nat) :
    Nat → UInt64 → Outcome UInt64
  | 0, value => .ok value
  | i + 1, value => do
      let b ← byteAt data (pos + i)
      decode64bitLoop data pos i ((value <<< 8) ||| b.toUInt64)

/-- `lwpb_decode_64bit`. -/
def decode64bit (data : Bytes) (buf : Buf) : Outcome (UInt64 × Buf) := do
  if bufLeft buf < 8 then .err .endOfBuf
  else
    let value ← decode64bitLoop data buf.pos 8 0
    .ok (value, { buf with pos := buf.pos + 8 })

/-- `field_wire_type`. Groups have no case in the C switch. -/
def fieldWireType : FieldType → Option WireType
  | .double => some .bit64
  | .float => some .bit32
  | .int32 | .int64 | .uint32 | .uint64 | .sint32 | .sint64 => some .varint
  | .fixed32 => some .bit32
  | .fixed64 => some .bit64
  | .sfixed32 => some .bit32
  | .sfixed64 => some .bit64
  | .bool | .enum => some .varint
  | .string | .bytes | .message => some .string
  | .group => none

-- =============================================================== the state

/-- A string reported by the decoder: where it lies in the input (`none`
for a pointer that was never set) and its length. -/
structure Span where
  data : Option Nat
  len : Nat
  deriving Repr, DecidableEq

/-- `union wire_value`. `word` is its first eight bytes, where `varint`,
`int64` and `string.len` lie, with `int32` in the low half; `data` is
`string.data` behind them. -/
structure WireValue where
  word : UInt64
  data : Option Nat
  deriving Repr, DecidableEq

/-- `wire_value.int32 = value`: the other half keeps its bytes. -/
def WireValue.setInt32 (wv : WireValue) (value : UInt32) : WireValue :=
  { wv with word := (wv.word &&& 0xffffffff00000000) ||| value.toUInt64 }

/-- `struct lwpb_decoder_stack_frame`. -/
structure Frame where
  buf : Buf
  msgDesc : Option MsgRef
  deriving Repr, DecidableEq

/-- A call of one of the three handlers, with `decoder->packed` as the
handler can read it. -/
inductive Event (σ : Type) where
  | msgStart (desc : MsgRef) (packed : Bool)
  | msgEnd (desc : MsgRef) (packed : Bool)
  | field (desc : MsgRef) (field : FieldRef) (value : Option (Value σ))
      (packed : Bool)
  deriving Repr, DecidableEq

/-- Where control stands: at `decode_nested`, or at the test of the loop
that processes a buffer. -/
inductive Point where
  | nested
  | loop
  deriving Repr, DecidableEq

/-- The decoder between two moves. `frame` is
`stack[depth - 1]` and `below` holds the slots under it, so a stack is
never empty. -/
structure Dec where
  frame : Frame
  below : List Frame
  packed : Bool
  fieldDesc : Option FieldRef
  wireValue : WireValue
  point : Point
  deriving Repr, DecidableEq

/-- `decoder->depth`. -/
def Dec.depth (s : Dec) : Nat := s.below.length + 1

/-- How a call ends. -/
inductive Result where
  /-- `LWPB_ERR_OK`, with `*used`. -/
  | ok (used : Nat)
  | err (e : Err)
  /-- A failing `LWPB_ASSERT`. -/
  | abort
  | fault (f : Fault)
  deriving Repr, DecidableEq

-- =============================================================== one pass

/-- The first half of a pass: the wire type to read and the field it is
read for. A number without a descriptor leaves `field_desc` as it is. -/
def readKey (sch : Schema) (data : Bytes) (s : Dec) :
    Outcome (WireType × Option FieldRef × Buf) :=
  if s.packed then
    match s.fieldDesc with
    | none => .fault .nullDesc
    | some f =>
        match fieldWireType (sch.field f).opts.typ with
        | none => .fault .noWireType
        | some wt => .ok (wt, some f, s.frame.buf)
  else do
    let (key, buf) ← decodeVarint data s.frame.buf
    match s.frame.msgDesc with
    | none => .fault .nullDesc
    | some m =>
        let number := (key >>> 3).toUInt32
        .ok (WireType.ofKey key, (sch.find m number).or s.fieldDesc, buf)

/-- The wire value switch of a pass. The default case asserts `1`. -/
def readWireValue (data : Bytes) (wt : WireType) (wv : WireValue)
    (buf : Buf) : Outcome (WireValue × Buf) :=
  match wt with
  | .varint => do
      let (v, buf) ← decodeVarint data buf
      .ok ({ wv with word := v }, buf)
  | .bit64 => do
      let (v, buf) ← decode64bit data buf
      .ok ({ wv with word := v }, buf)
  | .string => do
      let (len, buf) ← decodeVarint data buf
      if bufLeft buf < len.toNat then .err .endOfBuf
      else if data.length < buf.pos + len.toNat then .fault .pointer
      else .ok (⟨len, some buf.pos⟩, { buf with pos := buf.pos + len.toNat })
  | .bit32 => do
      let (v, buf) ← decode32bit data buf
      .ok (wv.setInt32 v, buf)
  | .unknown _ => .ok (wv, buf)

/-- The conversion switch of a pass, for every type but messages. -/
def convert (typ : FieldType) (wv : WireValue) : Value Span :=
  match typ with
  | .double => .double wv.word
  | .float => .float wv.word.toUInt32
  | .int32 => .int32 wv.word.toUInt32.toInt32
  | .int64 => .int64 wv.word.toInt64
  | .uint32 => .uint32 wv.word.toUInt32
  | .uint64 => .uint64 wv.word
  | .sint32 =>
      .int32 ((wv.word >>> 1) ^^^
        (-(wv.word &&& 1).toUInt32.toInt32).toInt64.toUInt64).toUInt32.toInt32
  | .sint64 =>
      .int64 ((wv.word >>> 1) ^^^ (-(wv.word &&& 1).toInt64).toUInt64).toInt64
  | .fixed32 => .uint32 wv.word.toUInt32
  | .fixed64 => .uint64 wv.word
  | .sfixed32 => .int32 wv.word.toUInt32.toInt32
  | .sfixed64 => .int64 wv.word.toInt64
  | .bool => .bool wv.word.toUInt32.toInt32
  | .enum => .enum wv.word.toUInt32.toInt32
  | .string => .string ⟨wv.data, wv.word.toNat⟩
  | .bytes | .message | .group => .bytes ⟨wv.data, wv.word.toNat⟩

/-- `default:` of the conversion switch: the field opens a frame of its
own. -/
def FieldType.isMessage : FieldType → Bool
  | .message | .group => true
  | _ => false

/-- `push_stack_frame` and `lwpb_buf_init` on the wire value, for a frame
with descriptor `desc`; then `goto decode_nested`. -/
def pushStackFrame (data : Bytes) (s : Dec) (desc : Option MsgRef)
    (packed : Bool) (out : List (Event Span)) :
    Move Dec (Event Span) Result :=
  if s.depth + 1 ≤ maxDepth then
    match s.wireValue.data with
    | none => .halt (.fault .pointer) out
    | some p =>
        if data.length < p + s.wireValue.word.toNat then
          .halt (.fault .pointer) out
        else
          .next { s with
            frame := ⟨bufInit p s.wireValue.word.toNat, desc⟩
            below := s.frame :: s.below
            packed := packed
            point := .nested } out
  else .halt .abort out

/-- The second half of a pass: skip, open a packed run, open a submessage,
or report a value. -/
def dispatch (sch : Schema) (root : MsgRef) (data : Bytes) (wt : WireType)
    (s : Dec) : Move Dec (Event Span) Result :=
  match s.fieldDesc with
  | none => .next s []
  | some f =>
      let desc := sch.field f
      if wt = .string && desc.isPackedRepeated then
        pushStackFrame data s s.frame.msgDesc true []
      else if desc.opts.typ.isMessage then
        -- the handler gets the descriptor of the root message
        pushStackFrame data s desc.msgDesc s.packed
          [.field root f none s.packed]
      else
        match s.frame.msgDesc with
        | none => .halt (.fault .nullDesc) []
        | some m => .next s
            [.field m f (some (convert desc.opts.typ s.wireValue)) s.packed]

/-- The decoder after the first half of a pass. -/
def Dec.read (s : Dec) (fieldDesc : Option FieldRef) (wireValue : WireValue)
    (buf : Buf) : Dec :=
  { s with
    frame := { s.frame with buf := buf }
    fieldDesc := fieldDesc
    wireValue := wireValue }

/-- The body of the loop that processes a buffer. -/
def pass (sch : Schema) (root : MsgRef) (data : Bytes) (s : Dec) :
    Move Dec (Event Span) Result :=
  match readKey sch data s with
  | .err e => .halt (.err e) []
  | .fault f => .halt (.fault f) []
  | .ok (wt, fieldDesc, buf) =>
      match readWireValue data wt s.wireValue buf with
      | .err e => .halt (.err e) []
      | .fault f => .halt (.fault f) []
      | .ok (wireValue, buf) =>
          dispatch sch root data wt (s.read fieldDesc wireValue buf)

/-- "Notify start message": only for a buffer of which nothing was used. -/
def notifyStart (s : Dec) : List (Event Span) :=
  match s.frame.msgDesc with
  | some m => if bufUsed s.frame.buf = 0 then [.msgStart m s.packed] else []
  | none => []

/-- "Notify end message". -/
def notifyEnd (s : Dec) : List (Event Span) :=
  match s.frame.msgDesc with
  | some m => [.msgEnd m s.packed]
  | none => []

/-- The end of a frame: the end notification, the pop, and `packed` off.
Popping the last frame ends the call. -/
def leave (s : Dec) : Move Dec (Event Span) Result :=
  match s.below with
  | [] => .halt (.ok (bufUsed s.frame.buf)) (notifyEnd s)
  | frame :: below =>
      .next { s with
        frame := frame
        below := below
        packed := false
        point := .nested } (notifyEnd s)

/-- One move of `lwpb_decoder_decode`. -/
def decodeMove (sch : Schema) (root : MsgRef) (data : Bytes) (s : Dec) :
    Move Dec (Event Span) Result :=
  match s.point with
  | .nested => .next { s with point := .loop } (notifyStart s)
  | .loop =>
      if 0 < bufLeft s.frame.buf then pass sch root data s else leave s

/-- The decoder as `lwpb_decoder_decode` sets it up. `wire_value` is an
uninitialised local: `uninit` is whatever its first eight bytes hold. -/
def decodeInit (root : MsgRef) (data : Bytes) (uninit : UInt64) : Dec where
  frame := ⟨bufInit 0 data.length, some root⟩
  below := []
  packed := false
  fieldDesc := none
  wireValue := ⟨uninit, none⟩
  point := .nested

/-- `lwpb_decoder_decode` on `data` halts with result `r` after the
notifications `out`. -/
def Decodes (sch : Schema) (root : MsgRef) (data : Bytes) (uninit : UInt64)
    (out : List (Event Span)) (r : Result) : Prop :=
  Halts (decodeMove sch root data) (decodeInit root data uninit) out r

/-- `lwpb_decoder_decode`, evaluated: what the handlers are called with,
and the result. It takes no more moves than these. -/
def decode (sch : Schema) (root : MsgRef) (data : Bytes)
    (uninit : UInt64) : List (Event Span) × Result :=
  (eval (decodeMove sch root data)
    ((2 * data.length + 3) ^ maxDepth)
    (decodeInit root data uninit)).getD ([], .abort)

/-- The states `lwpb_decoder_decode` passes through on `data`. -/
def DecReach (sch : Schema) (root : MsgRef) (data : Bytes)
    (uninit : UInt64) (s : Dec) : Prop :=
  Reach (decodeMove sch root data) (decodeInit root data uninit) s

end Lwpb
