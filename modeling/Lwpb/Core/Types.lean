/-
Descriptors, values and buffers: the data of `core/types.h`,
`core/private.h` and `core/buf.c`.

A C descriptor is a graph of pointers: a message points at an array of
field descriptors, and a message-typed field points at a message again,
possibly the one it stands in. Here a `Schema` is the list of message
descriptors and a pointer is an index (`MsgRef`, `FieldRef`), so recursive
schemas are ordinary values and pointer equality is equality of indices.

What no modelled function reads is left out: default values, the
deprecated flag, and the name of a message.
-/
import Mathlib.Data.List.Basic
import Mathlib.Tactic.Ring

namespace Lwpb

/-- Bytes of a message, a buffer or a string. -/
abbrev Bytes := List UInt8

/-- `LWPB_MAX_DEPTH`: slots of the decoder and encoder stacks. -/
def maxDepth : Nat := 32

/-- `lwpb_err_t`. -/
inductive Err where
  | ok
  | cancel
  | unknownField
  | invalidField
  | endOfBuf
  | mem
  | netInit
  deriving Repr, DecidableEq

/-- Field labels. -/
inductive Label where
  | optional
  | required
  | repeated
  deriving Repr, DecidableEq

/-- Field value types, `LWPB_DOUBLE` to `LWPB_SINT64`. -/
inductive FieldType where
  | double
  | float
  | int64
  | uint64
  | int32
  | fixed64
  | fixed32
  | bool
  | string
  | group
  | message
  | bytes
  | uint32
  | enum
  | sfixed32
  | sfixed64
  | sint32
  | sint64
  deriving Repr, DecidableEq

/-- Types whose value is no length-delimited payload: the ones a packed
field may have. -/
def FieldType.isNumeric : FieldType → Bool
  | .string | .bytes | .message | .group => false
  | _ => true

/-- `LWPB_IS_PACKED`, bit 1 of a field's flags. -/
def flagPacked : UInt8 := 2

/-- `lwpb_field_opts_t`. -/
structure FieldOpts where
  label : Label
  typ : FieldType
  flags : UInt8
  deriving Repr, DecidableEq

/-- A pointer to a message descriptor. -/
abbrev MsgRef := Nat

/-- A pointer to a field descriptor: `&msg_desc->fields[idx]`. -/
structure FieldRef where
  msg : MsgRef
  idx : Nat
  deriving Repr, DecidableEq

/-- `struct lwpb_field_desc`. -/
structure FieldDesc where
  number : UInt32
  opts : FieldOpts
  /-- Descriptor of the nested message; NULL for other fields. -/
  msgDesc : Option MsgRef
  name : String
  deriving Repr, DecidableEq

/-- `struct lwpb_msg_desc`: `num_fields` is the length of `fields`. -/
structure MsgDesc where
  fields : List FieldDesc
  deriving Repr, DecidableEq

/-- All message descriptors a program was built with. -/
structure Schema where
  msgs : List MsgDesc
  deriving Repr, DecidableEq

/-- `LWPB_IS_PACKED_REPEATED`. -/
def FieldDesc.isPackedRepeated (f : FieldDesc) : Bool :=
  f.opts.label == .repeated && (f.opts.flags &&& flagPacked) != 0

-- ============================================================= descriptors

namespace Schema

variable (sch : Schema)

/-- The descriptor a message pointer points at. -/
def msg (m : MsgRef) : MsgDesc := sch.msgs.getD m ⟨[]⟩

/-- The descriptor a field pointer points at. Only pointers into a
message's field array are ever followed. -/
def field (f : FieldRef) : FieldDesc :=
  (sch.msg f.msg).fields.getD f.idx ⟨0, ⟨.optional, .double, 0⟩, none, ""⟩

/-- The field lookup of the decoder: the first field of `m` with this
number. -/
def find (m : MsgRef) (number : UInt32) : Option FieldRef :=
  ((sch.msg m).fields.findIdx? fun f => f.number == number).map (⟨m, ·⟩)

end Schema

-- ================================================================== values

/-- `union lwpb_value`, seen through the member that was set. Strings and
byte arrays are a pointer and a length in C; `σ` is what stands for
them. -/
inductive Value (σ : Type) where
  | double (bits : UInt64)
  | float (bits : UInt32)
  | int32 (v : Int32)
  | int64 (v : Int64)
  | uint32 (v : UInt32)
  | uint64 (v : UInt64)
  | bool (v : Int32)
  | enum (v : Int32)
  | string (s : σ)
  | bytes (s : σ)
  deriving Repr, DecidableEq

/-- Change what stands for strings. -/
def Value.map {σ τ : Type} (g : σ → τ) : Value σ → Value τ
  | .double b => .double b
  | .float b => .float b
  | .int32 v => .int32 v
  | .int64 v => .int64 v
  | .uint32 v => .uint32 v
  | .uint64 v => .uint64 v
  | .bool v => .bool v
  | .enum v => .enum v
  | .string s => .string (g s)
  | .bytes s => .bytes (g s)

/-- `enum wire_type`, the low three bits of a key. Codes without a name
are possible values of the C variable. -/
inductive WireType where
  | varint
  | bit64
  | string
  | bit32
  | unknown (code : Nat)
  deriving Repr, DecidableEq

/-- `key & 0x07`, read as an `enum wire_type`. -/
def WireType.ofKey (key : UInt64) : WireType :=
  match key.toNat % 8 with
  | 0 => .varint
  | 1 => .bit64
  | 2 => .string
  | 5 => .bit32
  | code => .unknown code

/-- The code of a wire type inside a key. -/
def WireType.code : WireType → Nat
  | .varint => 0
  | .bit64 => 1
  | .string => 2
  | .bit32 => 5
  | .unknown code => code

/-- The low half of a word, after it was set. -/
theorem low_half (word : UInt64) (v : UInt32) :
    ((word &&& 0xffffffff00000000) ||| v.toUInt64).toUInt32 = v := by
  have hv := v.toNat_lt
  have hmask : (0xffffffff00000000 : UInt64).toNat % 2 ^ 32 = 0 := rfl
  apply UInt32.toNat_inj.mp
  rw [UInt64.toNat_toUInt32, UInt64.toNat_or, UInt64.toNat_and,
    UInt32.toNat_toUInt64, Nat.or_mod_two_pow, Nat.and_mod_two_pow, hmask,
    Nat.and_zero, Nat.zero_or, Nat.mod_eq_of_lt hv]

-- ================================================================= buffers

/-- `struct lwpb_buf`: addresses of the first byte, the current byte and
the first byte behind the buffer. -/
structure Buf where
  base : Nat
  pos : Nat
  stop : Nat
  deriving Repr, DecidableEq

/-- A pointer difference, converted to `size_t`: a negative one wraps. -/
def ptrDiff (p q : Nat) : Nat := if q ≤ p then p - q else 2 ^ 64 - (q - p)

/-- `lwpb_buf_init`. -/
def bufInit (data len : Nat) : Buf := ⟨data, data, data + len⟩

/-- `lwpb_buf_used`. -/
def bufUsed (b : Buf) : Nat := ptrDiff b.pos b.base

/-- `lwpb_buf_left`. -/
def bufLeft (b : Buf) : Nat := ptrDiff b.stop b.pos

/-- The invariant of a buffer: `base <= pos <= end`. -/
structure Buf.Ordered (b : Buf) : Prop where
  base_le_pos : b.base ≤ b.pos
  pos_le_stop : b.pos ≤ b.stop

theorem ptrDiff_of_le {p q : Nat} (h : q ≤ p) : ptrDiff p q = p - q :=
  if_pos h

@[simp] theorem ptrDiff_self (p : Nat) : ptrDiff p p = 0 := by
  rw [ptrDiff_of_le (Nat.le_refl p), Nat.sub_self]

theorem Buf.Ordered.left {b : Buf} (h : b.Ordered) :
    bufLeft b = b.stop - b.pos :=
  ptrDiff_of_le h.pos_le_stop

theorem Buf.Ordered.used {b : Buf} (h : b.Ordered) :
    bufUsed b = b.pos - b.base :=
  ptrDiff_of_le h.base_le_pos

theorem bufInit_ordered (data len : Nat) : (bufInit data len).Ordered :=
  ⟨Nat.le_refl _, Nat.le_add_right ..⟩

end Lwpb
