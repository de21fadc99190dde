/-
The struct decoder: `utils/struct_decoder.c`, and the maps it goes by:
`utils/struct_map.h`.

`lwpb_struct_decoder_decode` runs the stream decoder with handlers that
store the values of a message into a C struct. The handlers keep a stack
of their own, in step with the decoder's by its start and end calls. They
never read the struct, so what they do to it is a list of stores
(`Store`), and `storeAll` makes them.

`size_t` and addresses are numbers. `field_index` is an `int`: to count
behind `2 ^ 31 - 1` is undefined (`bump`). The program's own handlers are
not set, and the host is little-endian.
-/
import Lwpb.Core.Decoder
import Lwpb.Lib.Memory
import Lwpb.Lib.Slice

namespace Lwpb

open Memory Slice

-- ==================================================================== maps

/-- `struct lwpb_struct_map_field`: an array of slots in the struct. The
field of a submessage has the address of another map in `len`. -/
structure MapField where
  fieldDesc : FieldRef
  ofs : Nat
  len : Nat
  count : Nat
  deriving Repr, DecidableEq

/-- `struct lwpb_struct_map`, without the entry that ends it. -/
structure StructMap where
  msgDesc : MsgRef
  structSize : Nat
  fields : List MapField
  deriving Repr, DecidableEq

/-- The maps in memory, by address. -/
abbrev Maps := Nat → Option StructMap

/-- `find_map_field`. It falls off its end without a value if there is no
such entry. -/
def findMapField (map : StructMap) (f : FieldRef) : Option MapField :=
  map.fields.find? fun field => field.fieldDesc = f

/-- `FIELD_BASE`. -/
def fieldBase (field : MapField) (base index : Nat) : Nat :=
  base + field.ofs + field.len * index

-- =================================================================== frames

/-- `struct lwpb_struct_decoder_stack_frame`. -/
structure StructFrame where
  map : StructMap
  base : Nat
  lastField : Option MapField
  fieldIndex : Nat
  deriving Repr, DecidableEq

/-- The frames from `stack[depth]` down, and `stack[0]` as it is while
`depth` is -1. -/
structure StructDec where
  stack : List StructFrame
  bottom : StructFrame
  deriving Repr, DecidableEq

/-- How a handler stops the program: a failed assertion, or undefined
behaviour. -/
inductive Stop where
  | abort
  | fault
  deriving Repr, DecidableEq

/-- "Reset field index if a new field is encountered". -/
def StructFrame.enter (frame : StructFrame) (field : MapField) :
    StructFrame :=
  { frame with
    lastField := some field
    fieldIndex := if frame.lastField = some field then frame.fieldIndex
      else 0 }

/-- `field_index++`. -/
def StructFrame.bump (frame : StructFrame) : Except Stop StructFrame :=
  if frame.fieldIndex + 1 < 2 ^ 31 then
    .ok { frame with fieldIndex := frame.fieldIndex + 1 }
  else .error .fault

-- =================================================================== stores

/-- Bytes stored for an element of a field. -/
structure Store where
  field : MapField
  index : Nat
  /-- The submessages around it: each an element of a field too, the
  innermost first. -/
  outer : List (MapField × Nat)
  /-- `FIELD_BASE`. -/
  slot : Nat
  dst : Nat
  bytes : Bytes
  /-- Where in the input they are copied from, if they are. -/
  src : Option Nat
  deriving Repr, DecidableEq

/-- What the stores leave in memory. -/
def storeAll (mem : Mem) (stores : List Store) : Mem :=
  stores.foldl (fun mem s => store mem s.dst s.bytes) mem

/-- The elements that frames are in: the last one of each. -/
def outerOf (below : List StructFrame) : List (MapField × Nat) :=
  below.filterMap fun frame =>
    frame.lastField.map fun field => (field, frame.fieldIndex - 1)

/-- The size of the C type of a field, where slots are of that size. -/
def FieldType.storedSize : FieldType → Nat
  | .double | .int64 | .sint64 | .sfixed64 | .uint64 | .fixed64 => 8
  | .float | .int32 | .sint32 | .sfixed32 | .uint32 | .fixed32 => 4
  | .bool | .enum => 4
  | .string | .bytes | .message | .group => 0

/-- A value as it lies in memory. The union is read through the member
that the type names. -/
def stored {σ : Type} (typ : FieldType) (v : Value σ) : Option Bytes :=
  match typ, v with
  | .double, .double b => some (leBytes 8 b.toNat)
  | .float, .float b => some (leBytes 4 b.toNat)
  | .int32, .int32 v | .sint32, .int32 v | .sfixed32, .int32 v
  | .bool, .bool v | .enum, .enum v => some (leBytes 4 v.toUInt32.toNat)
  | .uint32, .uint32 v | .fixed32, .uint32 v => some (leBytes 4 v.toNat)
  | .int64, .int64 v | .sint64, .int64 v | .sfixed64, .int64 v =>
      some (leBytes 8 v.toUInt64.toNat)
  | .uint64, .uint64 v | .fixed64, .uint64 v => some (leBytes 8 v.toNat)
  | _, _ => none

section

variable (data : Bytes) (behind : Nat → UInt8)

/-- `n` bytes from place `q` of the input on. `behind` is what lies behind
the input. -/
def copied (q n : Nat) : Bytes :=
  (List.range n).map fun i => data.getD (q + i) (behind (q + i))

/-- `LWPB_MEMCPY` from a string to a slot, as a store of these bytes. To
copy no byte is fine with any pointer. -/
def memcpyFrom (str : Span) (len : Nat) :
    Except Stop (Bytes × Option Nat) :=
  match str.data with
  | some q => .ok (copied data behind q len, some q)
  | none => if len = 0 then .ok ([], none) else .error .fault

-- ================================================================= handlers

/-- `len` in the string case: `value->string.len + 1` is a `size_t`, and
behind the greatest one it is 0. -/
def stringLen (field : MapField) (str : Span) : Nat :=
  min field.len ((str.len + 1) % 2 ^ 64)

/-- `unpack_field`. The guard in front of its switch,
`field->count >= field->count`, always holds. -/
def unpackField (typ : FieldType) (below : List StructFrame)
    (frame : StructFrame) (field : MapField) (value : Option (Value Span)) :
    Except Stop (StructFrame × List Store) :=
  let frame := frame.enter field
  let slot := fieldBase field frame.base frame.fieldIndex
  let put := Store.mk field frame.fieldIndex (outerOf below) slot
  match typ, value with
  | .message, _ | .group, _ => .ok (frame, [])
  | .string, some (.string str) => do
      let len := stringLen field str
      let (bytes, src) ← memcpyFrom data behind str len
      -- `[len - 1]` is `[2 ^ 64 - 1]`, which is no place in the struct
      if len = 0 then .error .fault
      else
        let frame ← frame.bump
        .ok (frame, [put slot bytes src, put (slot + len - 1) [0] none])
  | .bytes, some (.bytes str) => do
      let (bytes, src) ← memcpyFrom data behind str (min field.len str.len)
      let frame ← frame.bump
      .ok (frame, [put slot bytes src])
  | .string, _ | .bytes, _ | _, none => .error .fault
  | typ, some v =>
      if field.len ≠ typ.storedSize then .error .abort
      else
        match stored typ v with
        | none => .error .fault
        | some bytes => do
            let frame ← frame.bump
            .ok (frame, [put slot bytes none])

variable (maps : Maps) (sch : Schema)

/-- `sdecoder_msg_start_handler`. -/
def sdecoderMsgStartHandler (m : MsgRef) (s : StructDec) :
    Except Stop StructDec :=
  match s.stack with
  | [] =>
      if s.bottom.map.msgDesc = m then .ok { s with stack := [s.bottom] }
      else .error .abort
  | last :: below =>
      if maxDepth ≤ s.stack.length then .error .fault
      else
        match last.lastField with
        | none => .error .fault
        | some field =>
            match maps field.len with
            | none => .error .fault
            | some map => do
                let base := last.base + field.ofs
                  + map.structSize * last.fieldIndex
                let last ← last.bump
                if map.msgDesc = m then
                  .ok { s with
                    stack := ⟨map, base, none, 0⟩ :: last :: below }
                else .error .abort

/-- `sdecoder_msg_end_handler`. -/
def sdecoderMsgEndHandler (s : StructDec) : Except Stop StructDec :=
  match s.stack with
  | [] => .error .fault
  | [frame] => .ok { stack := [], bottom := frame }
  | _ :: below => .ok { s with stack := below }

/-- `sdecoder_field_handler`. -/
def sdecoderFieldHandler (f : FieldRef) (value : Option (Value Span))
    (s : StructDec) : Except Stop (StructDec × List Store) :=
  match s.stack with
  | [] => .error .fault
  | frame :: below =>
      match findMapField frame.map f with
      | none => .error .fault
      | some field => do
          let (frame, stores) ← unpackField data behind
            (sch.field f).opts.typ below frame field value
          .ok ({ s with stack := frame :: below }, stores)

/-- The call of a handler. -/
def StructDec.handle (s : StructDec) :
    Event Span → Except Stop (StructDec × List Store)
  | .msgStart m _ => (sdecoderMsgStartHandler maps m s).map (·, [])
  | .msgEnd _ _ => (sdecoderMsgEndHandler s).map (·, [])
  | .field _ f value _ => sdecoderFieldHandler data behind sch f value s

/-- The calls of a run: what was stored, and the decoder at the end or what
stopped it. -/
def StructDec.handleAll : StructDec → List (Event Span) →
    List Store × Except Stop StructDec
  | s, [] => ([], .ok s)
  | s, e :: es =>
      match s.handle data behind maps sch e with
      | .error stop => ([], .error stop)
      | .ok (s, stores) =>
          let (later, final) := handleAll s es
          (stores ++ later, final)

-- =================================================================== decode

/-- The struct decoder as `lwpb_struct_decoder_decode` sets it up. -/
def structInit (map : StructMap) (base : Nat) : StructDec :=
  ⟨[], ⟨map, base, none, 0⟩⟩

/-- `lwpb_struct_decoder_decode`: what it stores, and its result. -/
def structDecoderDecode (map : StructMap) (base : Nat) (uninit : UInt64) :
    List Store × Result :=
  let (out, ret) := decode sch map.msgDesc data uninit
  match (structInit map base).handleAll data behind maps sch out with
  | (stores, .ok _) => (stores, ret)
  | (stores, .error .abort) => (stores, .abort)
  | (stores, .error .fault) => (stores, .fault .pointer)

end

end Lwpb
