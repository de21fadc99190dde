/-
The decoder to dicts: `python/decoder.c`, and scalars converted to Python:
`python/primitives.c`.

`Decoder_decode` runs the stream decoder with handlers that build a dict.
The handlers keep a stack of the dicts of the messages that are open. They
are parts of the one dict that is built, `dst`, and are changed in place;
here such a part is referred to by the way to it from `dst` (`Ref`). No
dict is ever taken out of `dst` while it is on the stack.

Under the name of a field the dict may hold something else than the field
makes, where two fields have one name or the stream decoder takes one for
another. Then the top of the stack may be no dict, or a list that is to be
appended to no list. The runtime refuses to store there with a pending
exception, which the handlers do not look at: they go on, and a submessage
that could be stored nowhere is held by the stack alone (`Context.loose`).
-/
import Lwpb.Lib.Assoc
import Lwpb.Python.Primitives
import Lwpb.Wire.Tree

namespace Lwpb.Python

-- ================================================================= numbers

/-- The conversion of a float to a double, on bits. A NaN is quiet
afterwards. -/
def floatToDouble (bits : UInt32) : UInt64 :=
  let sign := bits.toNat / 2 ^ 31 * 2 ^ 63
  let exp := bits.toNat / 2 ^ 23 % 2 ^ 8
  let frac := bits.toNat % 2 ^ 23
  if exp = 0xff then
    UInt64.ofNat (sign + 0x7ff0000000000000
      + if frac = 0 then 0 else 0x8000000000000 ||| frac * 2 ^ 29)
  else if exp = 0 then
    if frac = 0 then UInt64.ofNat sign
    else
      -- a float without a leading one: the double has one
      let k := Nat.log2 frac
      UInt64.ofNat (sign + (k + 874) * 2 ^ 52
        + (frac - 2 ^ k) * 2 ^ (52 - k))
  else UInt64.ofNat (sign + (exp + 896) * 2 ^ 52 + frac * 2 ^ 29)

example : floatToDouble 0x3f800000 = 0x3ff0000000000000 := by decide

-- ============================================================= new objects

/-- The objects that the runtime makes: opaque ones, a number each. -/
structure PythonNew where
  /-- `PyFloat_FromDouble`, on the bits of the double. -/
  floatFromDouble : UInt64 → Nat
  /-- `PyLong_FromLongLong`. -/
  longFromLongLong : Int64 → Nat
  /-- `PyLong_FromUnsignedLongLong`. -/
  longFromUnsignedLongLong : UInt64 → Nat
  /-- `PyInt_FromLong`. -/
  intFromLong : Int64 → Nat
  /-- `PyLong_FromLong`. -/
  longFromLong : Int64 → Nat
  /-- `PyLong_FromUnsignedLong`. -/
  longFromUnsignedLong : UInt64 → Nat
  /-- `PyString_FromStringAndSize`. -/
  stringFromStringAndSize : Bytes → Nat

/-- `lwpb_to_py`. The union is read through the member that the type
names, which is the one that was set. -/
def lwpbToPy (new : PythonNew) (p : Value Bytes) (typ : FieldType) :
    Except PyErr PyObject :=
  match typ, p with
  | .double, .double b => .ok (.other (new.floatFromDouble b))
  | .float, .float b =>
      .ok (.other (new.floatFromDouble (floatToDouble b)))
  | .int64, .int64 v | .sint64, .int64 v | .sfixed64, .int64 v =>
      .ok (.other (new.longFromLongLong v))
  | .uint64, .uint64 v | .fixed64, .uint64 v =>
      .ok (.other (new.longFromUnsignedLongLong v))
  | .sfixed32, .int32 v | .sint32, .int32 v | .int32, .int32 v
  | .enum, .enum v => .ok (.other (new.intFromLong v.toInt64))
  | .fixed32, .uint32 v =>
      .ok (.other (new.longFromLong v.toUInt64.toInt64))
  | .uint32, .uint32 v =>
      .ok (.other (new.longFromUnsignedLong v.toUInt64))
  | .bool, .bool v => .ok (.bool (v ≠ 0))
  | .string, .string s | .bytes, .bytes s =>
      .ok (.other (new.stringFromStringAndSize s))
  | .message, _ => .error ⟨.other, "only converts primitives"⟩
  | _, _ => .error ⟨.runtimeError, "internal: unexpected type"⟩

-- ============================================================== references

/-- The items of a dict. -/
abbrev Items := List (String × PyObject)

/-- A place in a dict: the value under a name, or an element of the list
under it. -/
structure Slot where
  name : String
  idx : Option Nat
  deriving Repr, DecidableEq

/-- The way to a part of an object. -/
abbrev Path := List Slot

/-- What is at a place. -/
def Slot.get (items : Items) (slot : Slot) : Option PyObject :=
  match slot.idx, items.lookup slot.name with
  | none, held => held
  | some i, some (.list elems) => elems[i]?
  | some _, _ => none

/-- Something else at a place. -/
def Slot.put (items : Items) (slot : Slot) (pyval : PyObject) : Items :=
  match slot.idx, items.lookup slot.name with
  | none, _ => Assoc.set slot.name pyval items
  | some i, some (.list elems) =>
      Assoc.set slot.name (.list (elems.set i pyval)) items
  | some _, _ => items

/-- The dict that a way leads to. -/
def follow (items : Items) : Path → Option Items
  | [] => some items
  | slot :: path =>
      match slot.get items with
      | some (.dict inner) => follow inner path
      | _ => none

/-- The dict that a way leads to, changed in place. -/
def update (change : Items → Items) (items : Items) : Path → Items
  | [] => change items
  | slot :: path =>
      match slot.get items with
      | some (.dict inner) =>
          slot.put items (.dict (update change inner path))
      | _ => items

/-- What is on the stack: a part of the dict that is built, or of a loose
one. -/
structure Ref where
  loose : Option Nat
  path : Path
  deriving Repr, DecidableEq

-- ================================================================ handlers

/-- The dict that is built and the `DecoderContext`: references to the
dicts on the stack, the top first. The loose dicts could be stored nowhere.
And the pending exception. -/
structure Context where
  dst : Items
  loose : List Items
  stack : List Ref
  error : Option PyErr

/-- `Decoder_decode` before it decodes: a dict, and it is on the stack. -/
def startContext : Context := ⟨[], [], [⟨none, []⟩], none⟩

/-- The dict that is referred to, if it is one. -/
def Context.dict (c : Context) (ref : Ref) : Option Items :=
  match ref.loose with
  | none => follow c.dst ref.path
  | some i => c.loose[i]?.bind (follow · ref.path)

/-- The dict that is referred to, changed in place. -/
def Context.change (c : Context) (ref : Ref) (change : Items → Items) :
    Context :=
  match ref.loose with
  | none => { c with dst := update change c.dst ref.path }
  | some i =>
      { c with loose := c.loose.modify i (update change · ref.path) }

/-- Something on top of the stack. -/
def Context.push (c : Context) (ref : Ref) : Context :=
  { c with stack := ref :: c.stack }

/-- What `PyErr_BadInternalCall` leaves pending. Its text has the place in
the runtime in front. -/
def badInternalCall : PyErr :=
  ⟨.systemError, "bad argument to internal function"⟩

/-- A value that the runtime refuses to store. The new dict of a submessage
is on the stack all the same. -/
def Context.refused (c : Context) (value : Option (Value Bytes)) : Context :=
  let c' :=
    if value.isNone then
      { c with loose := c.loose ++ [[]] }.push ⟨some c.loose.length, []⟩
    else c
  { c' with error := some badInternalCall }

section

variable (new : PythonNew) (sch : Schema)

/-- The value a field is stored with, in the dict at the top: a scalar, or
the dict of a submessage. -/
def pyvalOf (desc : FieldDesc) (value : Option (Value Bytes)) (top : Items) :
    Except PyErr PyObject :=
  match value with
  | some v => lwpbToPy new v desc.opts.typ
  | none =>
      if desc.opts.label = .repeated then .ok (.dict [])
      else
        match top.lookup desc.name with
        | some curval => .ok curval
        | none => .ok (.dict [])

/-- `PyList_Append` is called for a repeated field only, and takes no other
object than a list. -/
def takes (desc : FieldDesc) (top : Items) : Bool :=
  if desc.opts.label = .repeated then
    match top.lookup desc.name with
    | some (.list _) | none => true
    | some _ => false
  else true

/-- The store: at the end of a list, or over any old value. -/
def store (desc : FieldDesc) (pyval : PyObject) (top : Items) : Items :=
  if desc.opts.label = .repeated then
    match top.lookup desc.name with
    | some (.list elems) =>
        Assoc.set desc.name (.list (elems ++ [pyval])) top
    | some _ => top
    | none => Assoc.set desc.name (.list [pyval]) top
  else Assoc.set desc.name pyval top

/-- The place of what is stored next. -/
def nextSlot (desc : FieldDesc) (top : Items) : Slot :=
  if desc.opts.label = .repeated then
    match top.lookup desc.name with
    | some (.list elems) => ⟨desc.name, some elems.length⟩
    | _ => ⟨desc.name, some 0⟩
  else ⟨desc.name, none⟩

/-- `field_handler`. `none` is a bad access. Nothing is found in what is no
dict. -/
def fieldHandler (f : FieldRef) (value : Option (Value Bytes))
    (c : Context) : Option Context :=
  let desc := sch.field f
  match c.stack with
  | [] =>
      -- the top is NULL, which only a failed conversion does not look into
      match value.map (lwpbToPy new · desc.opts.typ) with
      | some (.error e) => some { c with error := some e }
      | _ => none
  | ref :: _ =>
      match pyvalOf new desc value ((c.dict ref).getD []) with
      | .error e => some { c with error := some e }
      | .ok pyval =>
          match c.dict ref with
          | some top =>
              if takes desc top then
                let c' := c.change ref (store desc pyval)
                -- a NULL value starts a nested message
                some (if value.isNone
                  then c'.push ⟨ref.loose, ref.path ++ [nextSlot desc top]⟩
                  else c')
              else some (c.refused value)
          | none =>
              -- the new list, which is stored nowhere, is freed before it
              -- is appended to
              if desc.opts.label = .repeated then none
              else some (c.refused value)

/-- `msg_end_handler`. -/
def msgEndHandler (packed : Bool) (c : Context) : Context :=
  if packed then c else { c with stack := c.stack.drop 1 }

/-- The call of a handler; `msg_start_handler` does nothing. -/
def handle (c : Context) : Event Bytes → Option Context
  | .msgStart _ _ => some c
  | .msgEnd _ packed => some (msgEndHandler packed c)
  | .field _ f value _ => fieldHandler new sch f value c

/-- The calls of a run. -/
def handleAll : Context → List (Event Bytes) → Option Context
  | c, [] => some c
  | c, e :: es => (handle new sch c e).bind (handleAll · es)

end

-- =================================================================== decode

/-- What `Decoder_decode` comes to: a dict, with what is pending all the
same, None, or NULL with an exception. -/
inductive Decoded where
  | dict (items : Items) (pending : Option PyErr)
  | none
  | null (error : PyErr)
  | abort
  | fault

/-- The number of an error code. -/
def errCode : Err → Nat
  | .ok => 0
  | .cancel => 1
  | .unknownField => 2
  | .invalidField => 3
  | .endOfBuf => 4
  | .mem => 5
  | .netInit => 6

/-- `Decoder_decode`. The length that `s#` stores is an `int`: a longer
string is refused. -/
def decoderDecode (new : PythonNew) (sch : Schema) (uninit : UInt64)
    (buf : Bytes) (msgnum : UInt32) : Decoded :=
  if 2 ^ 31 ≤ buf.length then
    .null ⟨.overflowError, "size does not fit in an int"⟩
  else if sch.msgs.length ≤ msgnum.toNat then
    .null ⟨.indexError, "message type index out of range"⟩
  else
    let (out, ret) := decode sch msgnum.toNat buf uninit
    match handleAll new sch startContext (resolve buf out) with
    | Option.none => .fault
    | some c =>
        match ret with
        | .ok _ => .dict c.dst c.error
        | .err .endOfBuf => .none
        | .err e => .null ⟨.runtimeError,
            "decode error: " ++ toString (errCode e)⟩
        | .abort => .abort
        | .fault _ => .fault

end Lwpb.Python
