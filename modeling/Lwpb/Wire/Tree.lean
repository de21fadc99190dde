/-
The wire format, as trees.

This is the abstract side: what a protocol buffer is, said without the
decoder. A `Wire` is an encoded message taken apart into its fields, with
every byte kept: keys and lengths are the bytes that stand in the
message, so a tree has exactly one serialisation (`Wire.bytes`), and a
message that spells a key in a longer way is another tree.

# Readings

- `WellFormed` says that a tree is a message of a descriptor. What a
  scalar occurrence must agree with is a parameter: `typed` asks for the
  declared wire type, `untyped` for nothing.
- `notifs` is what a reader should be told about a tree, in order.
- `nesting` counts the frames open at the deepest point, submessages and
  packed runs alike.

Field numbers are compared exactly, as numbers. The decoder compares
them modulo `2 ^ 32`.
-/
import Lwpb.Core.Decoder
import Lwpb.Lib.Base128
import Lwpb.Lib.Slice
import Lwpb.Lib.TwosComplement

namespace Lwpb

open Base128 Slice TwosComplement

-- ================================================================= fields

/-- The bytes are one varint of at most ten bytes. -/
def IsVarint (v : Bytes) : Prop := Terminated v ∧ v.length ≤ 10

instance (v : Bytes) : Decidable (IsVarint v) :=
  inferInstanceAs (Decidable (Terminated v ∧ v.length ≤ 10))

/-- The 64-bit word a varint is read as. -/
def varintWord (v : Bytes) : UInt64 := UInt64.ofNat (value v)

/-- The field number of a key. -/
def keyNumber (key : Bytes) : Nat := (varintWord key).toNat / 8

/-- The value that a number on the wire stands for in a field of this type:
the number itself, or the one it is the zig-zag code of, in the bits that the
type has. -/
def Value.ofNumber (typ : FieldType) (n : Nat) : Value Bytes :=
  match typ with
  | .double => .double (UInt64.ofNat n)
  | .float => .float (UInt32.ofNat n)
  | .int32 | .sfixed32 => .int32 (Int32.ofInt n)
  | .sint32 => .int32 (Int32.ofInt (unzigzag n))
  | .int64 | .sfixed64 => .int64 (Int64.ofInt n)
  | .sint64 => .int64 (Int64.ofInt (unzigzag n))
  | .uint32 | .fixed32 => .uint32 (UInt32.ofNat n)
  | .uint64 | .fixed64 => .uint64 (UInt64.ofNat n)
  | .bool => .bool (Int32.ofInt n)
  | .enum => .enum (Int32.ofInt n)
  | .string => .string []
  | .bytes | .message | .group => .bytes []

/-- The payload of a field, taken apart. -/
inductive Payload where
  | varint (v : Bytes)
  | bit64 (b : Bytes)
  | string (len content : Bytes)
  | bit32 (b : Bytes)
  deriving Repr, DecidableEq

namespace Payload

def wireType : Payload → WireType
  | .varint _ => .varint
  | .bit64 _ => .bit64
  | .string _ _ => .string
  | .bit32 _ => .bit32

def bytes : Payload → Bytes
  | .varint v => v
  | .bit64 b => b
  | .string len content => len ++ content
  | .bit32 b => b

/-- The payload is whole: nothing of it is missing. -/
def Complete : Payload → Prop
  | .varint v => IsVarint v
  | .bit64 b => b.length = 8
  | .string len content =>
      IsVarint len ∧ (varintWord len).toNat = content.length
  | .bit32 b => b.length = 4

instance : (p : Payload) → Decidable p.Complete
  | .varint v => inferInstanceAs (Decidable (IsVarint v))
  | .bit64 b => inferInstanceAs (Decidable (b.length = 8))
  | .string len content => inferInstanceAs
      (Decidable (IsVarint len ∧ (varintWord len).toNat = content.length))
  | .bit32 b => inferInstanceAs (Decidable (b.length = 4))

/-- The number in a payload, as a 64-bit word. -/
def word : Payload → UInt64
  | .varint v => varintWord v
  | .bit64 b => UInt64.ofNat (le b)
  | .string len _ => varintWord len
  | .bit32 b => UInt64.ofNat (le b)

/-- The value of a payload read as a field of this type. -/
def read (typ : FieldType) : Payload → Value Bytes
  | .string _ content =>
      match typ with
      | .string => .string content
      | _ => .bytes content
  | p => .ofNumber typ p.word.toNat

end Payload

-- ================================================================== trees

/-- An encoded message, field by field. A `scalar` is an occurrence of a
known field that is no frame of its own, strings included; `run` is a
packed run. -/
inductive Wire where
  | nil
  | unknown (key : Bytes) (p : Payload) (rest : Wire)
  | scalar (f : FieldRef) (key : Bytes) (p : Payload) (rest : Wire)
  | sub (f : FieldRef) (key len : Bytes) (body rest : Wire)
  | run (f : FieldRef) (key len : Bytes) (elems : List Payload) (rest : Wire)
  deriving Repr, DecidableEq

/-- The elements of a packed run, one after the other. -/
def elemBytes (elems : List Payload) : Bytes := elems.flatMap Payload.bytes

namespace Wire

/-- The message a tree takes apart. -/
def bytes : Wire → Bytes
  | .nil => []
  | .unknown key p rest => key ++ p.bytes ++ bytes rest
  | .scalar _ key p rest => key ++ p.bytes ++ bytes rest
  | .sub _ key len body rest => key ++ (len ++ bytes body) ++ bytes rest
  | .run _ key len elems rest => key ++ (len ++ elemBytes elems) ++ bytes rest

/-- Frames open at the deepest point of a message, its own among them. -/
def nesting : Wire → Nat
  | .nil => 1
  | .unknown _ _ rest => nesting rest
  | .scalar _ _ _ rest => nesting rest
  | .sub _ _ _ body rest => max (nesting body + 1) (nesting rest)
  | .run _ _ _ _ rest => max 2 (nesting rest)

theorem nesting_pos (w : Wire) : 1 ≤ w.nesting := by
  induction w with
  | nil => exact Nat.le_refl 1
  | unknown key p rest ih => exact ih
  | scalar f key p rest ih => exact ih
  | sub f key len body rest ihb ihr => exact le_max_of_le_right ihr
  | run f key len elems rest ih => exact le_max_of_le_right ih

end Wire

-- ======================================================= trees of a schema

/-- The field of `m` with this number, compared as a number. -/
def Schema.known (sch : Schema) (m : MsgRef) (n : Nat) : Option FieldRef :=
  ((sch.msg m).fields.findIdx? fun f => f.number.toNat == n).map (⟨m, ·⟩)

/-- The descriptor of a field's nested message. -/
def Schema.subDesc (sch : Schema) (f : FieldRef) : MsgRef :=
  (sch.field f).msgDesc.getD 0

theorem Schema.subDesc_eq {sch : Schema} {f : FieldRef} {d : MsgRef}
    (h : (sch.field f).msgDesc = some d) : sch.subDesc f = d := by
  unfold Schema.subDesc
  rw [h]
  rfl

/-- Occurrences carry the wire type their field declares, and no field of
strings is packed. -/
def typed (d : FieldDesc) (wt : WireType) : Prop :=
  fieldWireType d.opts.typ = some wt ∧
    (wt = .string → d.isPackedRepeated = false)

/-- Occurrences carry any wire type. -/
def untyped (_ : FieldDesc) (_ : WireType) : Prop := True

/-- The occurrence of a known field that opens a frame of its own. -/
def FieldDesc.opens (d : FieldDesc) (wt : WireType) : Prop :=
  wt = .string ∧ (d.isPackedRepeated = true ∨ d.opts.typ.isMessage = true)

namespace Wire

variable (sch : Schema) (rule : FieldDesc → WireType → Prop)

/-- The key is whole and announces this wire type. -/
def Announces (key : Bytes) (wt : WireType) : Prop :=
  IsVarint key ∧ WireType.ofKey (varintWord key) = wt

/-- The tree is a message of descriptor `m`. -/
def WellFormed (m : MsgRef) : Wire → Prop
  | .nil => True
  | .unknown key p rest =>
      Announces key p.wireType ∧ p.Complete ∧
        sch.known m (keyNumber key) = none ∧ WellFormed m rest
  | .scalar f key p rest =>
      Announces key p.wireType ∧ p.Complete ∧
        sch.known m (keyNumber key) = some f ∧
        ¬ (sch.field f).opens p.wireType ∧
        rule (sch.field f) p.wireType ∧ WellFormed m rest
  | .sub f key len body rest =>
      Announces key .string ∧
        (Payload.string len body.bytes).Complete ∧
        sch.known m (keyNumber key) = some f ∧
        (sch.field f).isPackedRepeated = false ∧
        (sch.field f).opts.typ.isMessage = true ∧
        rule (sch.field f) .string ∧
        (∃ m', (sch.field f).msgDesc = some m') ∧
        WellFormed (sch.subDesc f) body ∧ WellFormed m rest
  | .run f key len elems rest =>
      Announces key .string ∧
        (Payload.string len (elemBytes elems)).Complete ∧
        sch.known m (keyNumber key) = some f ∧
        (sch.field f).isPackedRepeated = true ∧
        (∀ e ∈ elems, e.Complete ∧ rule (sch.field f) e.wireType ∧
          fieldWireType (sch.field f).opts.typ = some e.wireType) ∧
        WellFormed m rest

/-- What a reader of `w` is told: the calls of the three handlers.
`root` is the descriptor of the outermost message, which the decoder
passes along with every submessage. -/
def notifs (root m : MsgRef) : Wire → List (Event Bytes)
  | .nil => []
  | .unknown _ _ rest => notifs root m rest
  | .scalar f _ p rest =>
      .field m f (some (p.read (sch.field f).opts.typ)) false
        :: notifs root m rest
  | .sub f _ _ body rest =>
      .field root f none false :: .msgStart (sch.subDesc f) false
        :: notifs root (sch.subDesc f) body
        ++ .msgEnd (sch.subDesc f) false :: notifs root m rest
  | .run f _ _ elems rest =>
      .msgStart m true
        :: elems.map (fun e =>
            .field m f (some (e.read (sch.field f).opts.typ)) true)
        ++ .msgEnd m true :: notifs root m rest

/-- The unknown fields of a message all stand in front of its first known
field, with numbers that are no known number modulo `2 ^ 32`; `seen` says
that a known field came before. -/
def Leading : (seen : Bool) → (m : MsgRef) → Wire → Prop
  | _, _, .nil => True
  | seen, m, .unknown key _ rest =>
      seen = false ∧ sch.find m (UInt32.ofNat (keyNumber key)) = none ∧
        Leading false m rest
  | _, m, .scalar _ _ _ rest => Leading true m rest
  | _, m, .sub f _ _ body rest =>
      Leading true (sch.subDesc f) body ∧ Leading true m rest
  | _, m, .run _ _ _ _ rest => Leading true m rest

end Wire

-- =============================================================== decisions

instance (d : FieldDesc) (wt : WireType) : Decidable (typed d wt) :=
  inferInstanceAs (Decidable (fieldWireType d.opts.typ = some wt ∧
    (wt = .string → d.isPackedRepeated = false)))

instance (d : FieldDesc) (wt : WireType) : Decidable (d.opens wt) :=
  inferInstanceAs (Decidable (wt = .string ∧
    (d.isPackedRepeated = true ∨ d.opts.typ.isMessage = true)))

instance (key : Bytes) (wt : WireType) : Decidable (Wire.Announces key wt) :=
  inferInstanceAs (Decidable
    (IsVarint key ∧ WireType.ofKey (varintWord key) = wt))

/-- Whether a pointer is not NULL. -/
instance decidableThere {α : Type} (p : Option α) :
    Decidable (∃ a, p = some a) :=
  decidable_of_iff _ Option.isSome_iff_exists

section

variable (sch : Schema) (rule : FieldDesc → WireType → Prop)
  [∀ d wt, Decidable (rule d wt)]

/-- Whether a tree is a message of a descriptor can be computed. -/
instance Wire.decidableWellFormed :
    (m : MsgRef) → (w : Wire) → Decidable (w.WellFormed sch rule m)
  | _, .nil => .isTrue trivial
  | m, .unknown key p rest =>
      have := decidableWellFormed m rest
      inferInstanceAs (Decidable (Announces key p.wireType ∧ p.Complete ∧
        sch.known m (keyNumber key) = none ∧ rest.WellFormed sch rule m))
  | m, .scalar f key p rest =>
      have := decidableWellFormed m rest
      inferInstanceAs (Decidable (Announces key p.wireType ∧ p.Complete ∧
        sch.known m (keyNumber key) = some f ∧
        ¬ (sch.field f).opens p.wireType ∧
        rule (sch.field f) p.wireType ∧ rest.WellFormed sch rule m))
  | m, .sub f key len body rest =>
      have := decidableWellFormed (sch.subDesc f) body
      have := decidableWellFormed m rest
      inferInstanceAs (Decidable (Announces key .string ∧
        (Payload.string len body.bytes).Complete ∧
        sch.known m (keyNumber key) = some f ∧
        (sch.field f).isPackedRepeated = false ∧
        (sch.field f).opts.typ.isMessage = true ∧
        rule (sch.field f) .string ∧
        (∃ m', (sch.field f).msgDesc = some m') ∧
        body.WellFormed sch rule (sch.subDesc f) ∧
        rest.WellFormed sch rule m))
  | m, .run f key len elems rest =>
      have := decidableWellFormed m rest
      inferInstanceAs (Decidable (Announces key .string ∧
        (Payload.string len (elemBytes elems)).Complete ∧
        sch.known m (keyNumber key) = some f ∧
        (sch.field f).isPackedRepeated = true ∧
        (∀ e ∈ elems, e.Complete ∧ rule (sch.field f) e.wireType ∧
          fieldWireType (sch.field f).opts.typ = some e.wireType) ∧
        rest.WellFormed sch rule m))

instance Wire.decidableLeading :
    (seen : Bool) → (m : MsgRef) → (w : Wire) →
      Decidable (w.Leading sch seen m)
  | _, _, .nil => .isTrue trivial
  | seen, m, .unknown key _ rest =>
      have := decidableLeading false m rest
      inferInstanceAs (Decidable (seen = false ∧
        sch.find m (UInt32.ofNat (keyNumber key)) = none ∧
        rest.Leading sch false m))
  | _, m, .scalar _ _ _ rest => decidableLeading true m rest
  | _, m, .sub f _ _ body rest =>
      have := decidableLeading true (sch.subDesc f) body
      have := decidableLeading true m rest
      inferInstanceAs (Decidable (body.Leading sch true (sch.subDesc f) ∧
        rest.Leading sch true m))
  | _, m, .run _ _ _ _ rest => decidableLeading true m rest

end

-- ============================================================== addresses

/-- The bytes a reported string points at. -/
def spanBytes (data : Bytes) (s : Span) : Bytes :=
  match s.data with
  | some p => (data.drop p).take s.len
  | none => []

/-- A string that lies in the input. -/
theorem spanBytes_length {data : Bytes} {s : Span} (h : ∃ q,
    s.data = some q ∧ q + s.len ≤ data.length) :
    (spanBytes data s).length = s.len := by
  obtain ⟨q, hq, hle⟩ := h
  rw [spanBytes, hq]
  show ((data.drop q).take s.len).length = s.len
  rw [List.length_take, List.length_drop]
  omega

/-- A handler call, with its strings read from the input. -/
def Event.resolve (data : Bytes) : Event Span → Event Bytes
  | .msgStart m packed => .msgStart m packed
  | .msgEnd m packed => .msgEnd m packed
  | .field m f v packed =>
      .field m f (v.map (Value.map (spanBytes data))) packed

/-- The handler calls of a run, with their strings read from the input. -/
def resolve (data : Bytes) (out : List (Event Span)) : List (Event Bytes) :=
  out.map (Event.resolve data)

/-- A reported string is a range of the input. -/
def Value.InInput (data : Bytes) : Value Span → Prop
  | .string s | .bytes s => ∃ q, s.data = some q ∧ q + s.len ≤ data.length
  | _ => True

def Event.InInput (data : Bytes) : Event Span → Prop
  | .field _ _ (some v) _ => v.InInput data
  | _ => True

/-- The handler calls of a run are these, their strings read from the
input, where they lie. -/
structure Reports (data : Bytes) (out : List (Event Span))
    (es : List (Event Bytes)) : Prop where
  resolves : resolve data out = es
  inInput : ∀ e ∈ out, e.InInput data

-- ================================================================= lookups

variable {sch : Schema} {m : MsgRef} {f : FieldRef} {n : Nat}

/-- A field number fits 32 bits. -/
theorem Schema.known_lt (h : sch.known m n = some f) :
    (sch.field f).number.toNat = n ∧ f.msg = m ∧
      f.idx < (sch.msg m).fields.length := by
  unfold Schema.known at h
  obtain ⟨i, hi, rfl⟩ := Option.map_eq_some_iff.mp h
  obtain ⟨hlt, heq, -⟩ := List.findIdx?_eq_some_iff_getElem.mp hi
  refine ⟨?_, rfl, hlt⟩
  unfold Schema.field
  rw [List.getD_eq_getElem?_getD, List.getElem?_eq_getElem hlt]
  simpa using heq

/-- Below `2 ^ 32` the decoder's lookup is the exact one. -/
theorem Schema.find_eq_known (h : n < 2 ^ 32) :
    sch.find m (UInt32.ofNat n) = sch.known m n := by
  have hpred : (fun d : FieldDesc => d.number == UInt32.ofNat n)
      = fun d => d.number.toNat == n := by
    funext d
    rw [Bool.eq_iff_iff, beq_iff_eq, beq_iff_eq]
    constructor
    · intro hd
      rw [hd, UInt32.toNat_ofNat']
      exact Nat.mod_eq_of_lt h
    · intro hd
      rw [← hd]
      exact (UInt32.ofNat_toNat).symm
  unfold Schema.find Schema.known
  rw [hpred]

theorem Schema.find_of_known (h : sch.known m n = some f) :
    sch.find m (UInt32.ofNat n) = some f := by
  obtain ⟨hn, -, -⟩ := Schema.known_lt h
  have hlt := (sch.field f).number.toNat_lt
  rw [Schema.find_eq_known (by omega), h]

/-- The number the decoder reads off a key. -/
theorem code_number (key : Bytes) :
    (varintWord key >>> 3).toUInt32 = UInt32.ofNat (keyNumber key) := by
  apply UInt32.toNat_inj.mp
  rw [UInt64.toNat_toUInt32, UInt64.toNat_shiftRight, UInt32.toNat_ofNat']
  show (varintWord key).toNat >>> 3 % 2 ^ 32 = keyNumber key % 2 ^ 32
  rw [Nat.shiftRight_eq_div_pow]
  rfl

end Lwpb
