/-
Messages as a caller sees them, and their serialisation.

A `Tree` is the contents of a message: its fields in the order they are
written, submessages and packed runs with their contents. It stands for
the calls that write it (`Tree.calls`) and for its protocol buffer
(`Tree.wire`), which is said without the encoder: a key is
`number * 8 + wire type`, every varint is the shortest one, a signed
number is its residue modulo `2 ^ 64` or its zig-zag code, and
submessages and runs are prefixed by the length of their contents.

`Conforms` is what a caller has to keep to: fields of the message at
hand, values of the fields' types, and values of packed fields in runs
only.
-/
import Lwpb.Core.Encoder
import Lwpb.Wire.Tree
import Lwpb.Lib.TwosComplement

namespace Lwpb

open Base128 Slice TwosComplement

-- ================================================================ messages

/-- The contents of a message. -/
inductive Tree where
  | nil
  | scalar (f : FieldRef) (v : Value Bytes) (rest : Tree)
  | message (f : FieldRef) (body rest : Tree)
  | packed (f : FieldRef) (elems : List (Value Bytes)) (rest : Tree)
  deriving Repr, DecidableEq

/-- A value a setter of the field's type takes. Strings end at their
first NUL, and lengths are `size_t`. -/
def Value.Fits : Value Bytes → FieldType → Prop
  | .double _, typ => typ = .double
  | .float _, typ => typ = .float
  | .int32 _, typ => typ = .int32 ∨ typ = .sint32 ∨ typ = .sfixed32
  | .int64 _, typ => typ = .int64 ∨ typ = .sint64 ∨ typ = .sfixed64
  | .uint32 _, typ => typ = .uint32 ∨ typ = .fixed32
  | .uint64 _, typ => typ = .uint64 ∨ typ = .fixed64
  | .bool _, typ => typ = .bool
  | .enum _, typ => typ = .enum
  | .string str, typ => typ = .string ∧ 0 ∉ str ∧ str.length < 2 ^ 64
  | .bytes data, typ => typ = .bytes ∧ data.length < 2 ^ 64

/-- A field of message `m`, with a number the wire format has room
for. -/
structure Schema.Numbers (sch : Schema) (m : MsgRef) (f : FieldRef) :
    Prop where
  owned : sch.owns m f = true
  number_pos : 1 ≤ (sch.field f).number.toNat
  number_lt : (sch.field f).number.toNat < 2 ^ 29

/-- The contents are those of a message `m`. -/
def Tree.Conforms (sch : Schema) (m : MsgRef) : Tree → Prop
  | .nil => True
  | .scalar f v rest =>
      sch.Numbers m f ∧ (sch.field f).isPackedRepeated = false ∧
        v.Fits (sch.field f).opts.typ ∧ Conforms sch m rest
  | .message f body rest =>
      sch.Numbers m f ∧ (sch.field f).opts.typ = .message ∧
        (∃ m', (sch.field f).msgDesc = some m') ∧
        Conforms sch (sch.subDesc f) body ∧ Conforms sch m rest
  | .packed f elems rest =>
      sch.Numbers m f ∧ (sch.field f).isPackedRepeated = true ∧
        (∀ v ∈ elems, v.Fits (sch.field f).opts.typ) ∧ Conforms sch m rest

/-- The same for a caller that gives lengths itself: strings are any
bytes. -/
def Value.OfType : Value Bytes → FieldType → Prop
  | .string str, typ => typ = .string ∧ str.length < 2 ^ 64
  | v, typ => v.Fits typ

/-- A field of message `m` whose keys have 32 bits. -/
structure Schema.Numbered (sch : Schema) (m : MsgRef) (f : FieldRef) :
    Prop where
  owned : sch.owns m f = true
  number_lt : (sch.field f).number.toNat < 2 ^ 29

/-- The contents are those of a message `m`, with values of this kind. -/
def Tree.Typed (kind : Value Bytes → FieldType → Prop) (sch : Schema)
    (m : MsgRef) : Tree → Prop
  | .nil => True
  | .scalar f v rest =>
      sch.Numbered m f ∧ (sch.field f).isPackedRepeated = false ∧
        kind v (sch.field f).opts.typ ∧ Typed kind sch m rest
  | .message f body rest =>
      sch.Numbered m f ∧ (sch.field f).opts.typ = .message ∧
        (∃ m', (sch.field f).msgDesc = some m') ∧
        Typed kind sch (sch.subDesc f) body ∧ Typed kind sch m rest
  | .packed f elems rest =>
      sch.Numbered m f ∧ (sch.field f).isPackedRepeated = true ∧
        (∀ v ∈ elems, kind v (sch.field f).opts.typ) ∧ Typed kind sch m rest

theorem Value.Fits.ofType {v : Value Bytes} {typ : FieldType}
    (h : v.Fits typ) : v.OfType typ := by
  cases v with
  | string str => exact ⟨h.1, h.2.2⟩
  | double b | float b | int32 v | int64 v | uint32 v | uint64 v | bool v
  | enum v | bytes data => exact h

theorem Schema.Numbers.numbered {sch : Schema} {m : MsgRef} {f : FieldRef}
    (h : sch.Numbers m f) : sch.Numbered m f :=
  ⟨h.owned, h.number_lt⟩

theorem Tree.Conforms.typed {sch : Schema} {m : MsgRef} {t : Tree}
    (h : t.Conforms sch m) : t.Typed Value.Fits sch m := by
  induction t generalizing m with
  | nil => trivial
  | scalar f v rest ih =>
      obtain ⟨hf, hrun, hv, hrest⟩ := h
      exact ⟨hf.numbered, hrun, hv, ih hrest⟩
  | message f body rest ihb ihr =>
      obtain ⟨hf, hmsg, hdesc, hbody, hrest⟩ := h
      exact ⟨hf.numbered, hmsg, hdesc, ihb hbody, ihr hrest⟩
  | packed f elems rest ih =>
      obtain ⟨hf, hrun, hv, hrest⟩ := h
      exact ⟨hf.numbered, hrun, hv, ih hrest⟩

theorem Tree.Typed.mono {kind kind' : Value Bytes → FieldType → Prop}
    {sch : Schema} {m : MsgRef} {t : Tree}
    (hkind : ∀ v typ, kind v typ → kind' v typ)
    (h : t.Typed kind sch m) : t.Typed kind' sch m := by
  induction t generalizing m with
  | nil => trivial
  | scalar f v rest ih =>
      obtain ⟨hf, hrun, hv, hrest⟩ := h
      exact ⟨hf, hrun, hkind v _ hv, ih hrest⟩
  | message f body rest ihb ihr =>
      obtain ⟨hf, hmsg, hdesc, hbody, hrest⟩ := h
      exact ⟨hf, hmsg, hdesc, ihb hbody, ihr hrest⟩
  | packed f elems rest ih =>
      obtain ⟨hf, hrun, hv, hrest⟩ := h
      exact ⟨hf, hrun, fun v hmem => hkind v _ (hv v hmem), ih hrest⟩

/-- Frames open at the deepest point, the message's own among them. -/
def Tree.nesting : Tree → Nat
  | .nil => 1
  | .scalar _ _ rest => nesting rest
  | .message _ body rest => max (nesting body + 1) (nesting rest)
  | .packed _ _ rest => max 2 (nesting rest)

theorem Tree.nesting_pos (t : Tree) : 1 ≤ t.nesting := by
  induction t with
  | nil => exact Nat.le_refl 1
  | scalar f v rest ih => exact ih
  | message f body rest ihb ihr => exact le_max_of_le_right ihr
  | packed f elems rest ih => exact le_max_of_le_right ih

-- =========================================================== serialisation

/-- The payload of a value, in a field of this type. -/
def Value.payload (typ : FieldType) : Value Bytes → Payload
  | .double b => .bit64 (leBytes 8 b.toNat)
  | .float b => .bit32 (leBytes 4 b.toNat)
  | .int32 v =>
      match typ with
      | .sint32 => .varint (encode (zigzag v.toInt))
      | .sfixed32 => .bit32 (leBytes 4 (residue 32 v.toInt))
      | _ => .varint (encode (residue 64 v.toInt))
  | .int64 v =>
      match typ with
      | .sint64 => .varint (encode (zigzag v.toInt))
      | .sfixed64 => .bit64 (leBytes 8 (residue 64 v.toInt))
      | _ => .varint (encode (residue 64 v.toInt))
  | .uint32 v =>
      match typ with
      | .fixed32 => .bit32 (leBytes 4 v.toNat)
      | _ => .varint (encode v.toNat)
  | .uint64 v =>
      match typ with
      | .fixed64 => .bit64 (leBytes 8 v.toNat)
      | _ => .varint (encode v.toNat)
  | .bool v => .varint (encode (residue 64 v.toInt))
  | .enum v => .varint (encode (residue 64 v.toInt))
  | .string str => .string (encode str.length) str
  | .bytes data => .string (encode data.length) data

/-- The key of a field. -/
def FieldDesc.key (d : FieldDesc) (wt : WireType) : Bytes :=
  encode (d.number.toNat * 8 + wt.code)

/-- A payload behind its key and its length. -/
def FieldDesc.framed (desc : FieldDesc) (body : Bytes) : Bytes :=
  desc.key .string ++ (encode body.length ++ body)

/-- The protocol buffer of a message. -/
def Tree.wire (sch : Schema) : Tree → Wire
  | .nil => .nil
  | .scalar f v rest =>
      let p := v.payload (sch.field f).opts.typ
      .scalar f ((sch.field f).key p.wireType) p (wire sch rest)
  | .message f body rest =>
      let body := wire sch body
      .sub f ((sch.field f).key .string) (encode body.bytes.length) body
        (wire sch rest)
  | .packed f elems rest =>
      let elems := elems.map (Value.payload (sch.field f).opts.typ)
      .run f ((sch.field f).key .string) (encode (elemBytes elems).length)
        elems (wire sch rest)

theorem Tree.nesting_wire (sch : Schema) (t : Tree) :
    (t.wire sch).nesting = t.nesting := by
  induction t with
  | nil => rfl
  | scalar f v rest ih => exact ih
  | message f body rest ihb ihr =>
      show max _ _ = max _ _
      rw [ihb, ihr]
  | packed f elems rest ih =>
      show max _ _ = max _ _
      rw [ih]

-- =================================================================== calls

/-- A call that writes a part of a message. -/
inductive Act where
  | nestedStart (f : FieldRef)
  | nestedEnd
  | packedRepeatedStart (f : FieldRef)
  | packedRepeatedEnd
  | add (f : FieldRef) (v : Value Bytes)
  deriving Repr, DecidableEq

/-- The calls that close a frame. -/
def Act.isEnd : Act → Bool
  | .nestedEnd | .packedRepeatedEnd => true
  | _ => false

/-- The calls that write a message. -/
def Tree.calls : Tree → List Act
  | .nil => []
  | .scalar f v rest => .add f v :: calls rest
  | .message f body rest =>
      .nestedStart f :: (calls body ++ .nestedEnd :: calls rest)
  | .packed f elems rest =>
      .packedRepeatedStart f ::
        (elems.map (.add f) ++ .packedRepeatedEnd :: calls rest)

/-- Make a call. -/
def Act.run (sch : Schema) (u : Scratch) (s : Enc) : Act → Ret
  | .nestedStart f => Lwpb.nestedStart sch s f
  | .nestedEnd => Lwpb.nestedEnd sch u.wireValue s
  | .packedRepeatedStart f => Lwpb.packedRepeatedStart sch s f
  | .packedRepeatedEnd => Lwpb.packedRepeatedEnd sch u.wireValue s
  | .add f v => addValue sch u s f v

/-- A call that was made: the state before it and the code it
returned. -/
structure Made where
  before : Enc
  act : Act
  err : Err

/-- Make the calls one after the other, whatever they return: the calls
that returned, and the last state unless one did not. `step` makes a
call. -/
def runSteps (step : Scratch → Enc → Act → Ret) :
    Enc → List (Scratch × Act) → List Made × Option Enc
  | s, [] => ([], some s)
  | s, (u, a) :: rest =>
      match step u s a with
      | .ret err t =>
          let r := runSteps step t rest
          (⟨s, a, err⟩ :: r.1, r.2)
      | .abort | .fault => ([], none)

/-- The same, with the setter of each value. -/
def runActs (sch : Schema) :
    Enc → List (Scratch × Act) → List Made × Option Enc :=
  runSteps fun u s a => a.run sch u s

/-- What the union holds behind a value that was put into it; of a string
the length is `len`. -/
def Value.put (len : Bytes → Nat) (garbage : RawValue) :
    Value Bytes → RawValue
  | .double b => garbage.set64 b
  | .float b => garbage.set32 b
  | .int32 v => garbage.set32 v.toUInt32
  | .int64 v => garbage.set64 v.toUInt64
  | .uint32 v => garbage.set32 v
  | .uint64 v => garbage.set64 v
  | .bool v => garbage.set32 v.toUInt32
  | .enum v => garbage.set32 v.toUInt32
  | .string s => garbage.setString (fun i => s.getD i 0)
      (UInt64.ofNat (len s))
  | .bytes s => garbage.setString (fun i => s.getD i 0)
      (UInt64.ofNat s.length)

/-- The union with this value in it, whatever else it holds. -/
def Value.union : RawValue → Value Bytes → RawValue := Value.put List.length

/-- Make a call, where a value is given to `lwpb_encoder_add_field` as a
union. -/
def Act.feed (sch : Schema) (u : Scratch) (s : Enc) : Act → Ret
  | .add f v => addField sch u.wireValue s f (v.union u.value)
  | a => a.run sch u s

/-- The calls one after the other, with unions. -/
def feedActs (sch : Schema) :
    Enc → List (Scratch × Act) → List Made × Option Enc :=
  runSteps fun u s a => a.feed sch u s

end Lwpb
