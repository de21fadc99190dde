/-
The encoder of dicts: `python/encoder.c`.

`pyobject_encode` walks the fields of a message descriptor and looks each
one up in the dict. It runs twice: without a buffer, to learn how many
bytes it needs, and then into a block of that size. A nested message is
encoded ten bytes further on than the field it is the payload of, and
moved down by `lwpb_encoder2_add_field`; so is a packed run.

Lengths are `size_t`, of 64 bits, and a failure is the length -1. The
index of the loop over a list has 32 bits: on a list of `2 ^ 32` values
it starts over and over (`runaway`).

Python's own allocations do not fail here; `calloc` may.
-/
import Lwpb.Core.Encoder2
import Lwpb.Python.Primitives

namespace Lwpb.Python

-- ================================================================= objects

namespace PyObject

/-- What is encoded under a field: the elements of a list, or the one
object itself. -/
def values : PyObject → List PyObject
  | .list elems => elems
  | pyval => [pyval]

mutual

/-- Dicts inside one another, counted along the deepest path: how many
calls of `pyobject_encode` an object needs at most at a time. -/
def depth : PyObject → Nat
  | .dict items => depthItems items + 1
  | .list elems => depthElems elems
  | .bool _ => 1
  | .other _ => 1

def depthItems : List (String × PyObject) → Nat
  | [] => 0
  | (_, pyval) :: items => max (depth pyval) (depthItems items)

def depthElems : List PyObject → Nat
  | [] => 1
  | pyval :: elems => max (depth pyval) (depthElems elems)

end

end PyObject

-- =================================================================== state

/-- What the calls work on: the flag of the `lwpb_encoder2`, the block,
and the pending exception. -/
structure State where
  packed : Bool
  heap : Heap
  error : Option PyErr
  /-- Calls of `pyobject_encode` so far: each has locals of its own. -/
  calls : Nat

/-- What a call comes to: a failed assertion, a bad access, and a loop
that does not end apart. -/
inductive Ret (α : Type) where
  | ret (a : α) (s : State)
  | abort
  | fault
  | runaway

/-- Go on with what a call returned. -/
def Ret.bind {α β : Type} : Ret α → (α → State → Ret β) → Ret β
  | .ret a s, next => next a s
  | .abort, _ => .abort
  | .fault, _ => .fault
  | .runaway, _ => .runaway

@[simp] theorem Ret.ret_bind {α β : Type} (a : α) (s : State)
    (next : α → State → Ret β) : (Ret.ret a s).bind next = next a s := rfl

@[simp] theorem Ret.fault_bind {α β : Type} (next : α → State → Ret β) :
    Ret.fault.bind next = .fault := rfl

/-- Go on, unless an error has broken a loop off (`none`). -/
def Ret.andThen {α β : Type} (r : Ret (Option α))
    (next : α → State → Ret (Option β)) : Ret (Option β) :=
  r.bind fun a s =>
    match a with
    | none => .ret none s
    | some a => next a s

/-- `MSG_RESERVE_BYTES`. -/
def msgReserveBytes : Nat := 10

/-- `p ? p + MSG_RESERVE_BYTES : 0`. -/
def reserve (p : Option Nat) : Option Nat := p.map (· + msgReserveBytes)

/-- `val.message.data = data` and `val.message.len = len`. -/
def setMessage (val : RawValue) (data : Option Nat) (len : UInt64) :
    RawValue :=
  { val with
    word := UInt64.ofNat (data.getD 0)
    src := .buf (data.getD 0)
    len := len }

-- ========================================================== the value loop

section

variable (py : PythonApi) (sch : Schema)

/-- The locals that the loop over the values of a field works on. -/
structure ValueLocals where
  extralen : UInt64
  val : RawValue
  valuebuf : Option Nat
  fieldlen : UInt64

/-- `lwpb_encoder2_add_field`, at the current place in the block. -/
def addField (uninit : UInt64) (desc : FieldDesc) (val : RawValue)
    (buf : Option Nat) (s : State) : Ret UInt64 :=
  match Encoder2.addField s.packed uninit s.heap desc val buf with
  | none => .fault
  | some (heap, len) => .ret len { s with heap := heap }

/-- The end of a round: the value is added. -/
def addValue (uninit : UInt64) (desc : FieldDesc) (l : ValueLocals)
    (s : State) : Ret ValueLocals :=
  (addField uninit desc l.val l.valuebuf s).bind fun valuelen s =>
    .ret { l with
      valuebuf := advance l.valuebuf valuelen
      fieldlen := l.fieldlen + valuelen } s

/-- One round of the loop, and `none` where it breaks off. `nested` is
`pyobject_encode`. -/
def encodeValue (uninit : UInt64)
    (nested : PyObject → Option MsgRef → Option Nat → State → Ret UInt64)
    (desc : FieldDesc) (pyval : PyObject) (l : ValueLocals) (s : State) :
    Ret (Option ValueLocals) :=
  if desc.opts.typ = .message then
    let nestedbuf := reserve l.valuebuf
    (nested pyval desc.msgDesc nestedbuf s).bind fun nestedlen s =>
      -- no `size_t` is negative
      if nestedlen < 0 then .ret none s
      else
        (addValue uninit desc { l with
          extralen := l.extralen + UInt64.ofNat msgReserveBytes
          val := setMessage l.val nestedbuf nestedlen } s).bind fun l s =>
        .ret (some l) s
  else
    match pyToLwpb py l.val pyval desc.opts.typ with
    | .error e => .ret none { s with error := some e }
    | .ok (val, pending) =>
        (addValue uninit desc { l with val := val }
          { s with error := pending.or s.error }).bind fun l s =>
        .ret (some l) s

/-- The loop over the values of a field. -/
def encodeValues (uninit : UInt64)
    (nested : PyObject → Option MsgRef → Option Nat → State → Ret UInt64)
    (desc : FieldDesc) :
    List PyObject → ValueLocals → State → Ret (Option ValueLocals)
  | [], l, s => .ret (some l) s
  | pyval :: values, l, s =>
      (encodeValue py uninit nested desc pyval l s).andThen
        (encodeValues uninit nested desc values)

/-- The same with its counter, which starts over behind `2 ^ 32` values. -/
def encodeList (uninit : UInt64)
    (nested : PyObject → Option MsgRef → Option Nat → State → Ret UInt64)
    (desc : FieldDesc) (values : List PyObject) (l : ValueLocals)
    (s : State) : Ret (Option ValueLocals) :=
  if values.length < 2 ^ 32 then
    encodeValues py uninit nested desc values l s
  else
    (encodeValues py uninit nested desc (values.take (2 ^ 32)) l s).andThen
      fun _ _ => .runaway

-- ========================================================== the field loop

/-- The locals of `pyobject_encode` that outlive a field. -/
structure FieldLocals where
  len : UInt64
  extralen : UInt64
  val : RawValue
  buf : Option Nat

/-- The values of a field that is not packed. -/
def encodePlain (uninit : UInt64)
    (nested : PyObject → Option MsgRef → Option Nat → State → Ret UInt64)
    (desc : FieldDesc) (values : List PyObject) (l : FieldLocals)
    (s : State) : Ret (Option FieldLocals) :=
  (encodeList py uninit nested desc values ⟨l.extralen, l.val, l.buf, 0⟩
      s).andThen fun v s =>
    .ret (some ⟨l.len + v.fieldlen, v.extralen, v.val,
      advance l.buf v.fieldlen⟩) s

/-- The values of a packed field: encoded behind room for the prefix, and
then encoded again as one value. -/
def encodePacked (uninit : UInt64)
    (nested : PyObject → Option MsgRef → Option Nat → State → Ret UInt64)
    (desc : FieldDesc) (values : List PyObject) (l : FieldLocals)
    (s : State) : Ret (Option FieldLocals) :=
  match Encoder2.packedRepeatedStart s.packed desc with
  | none => .abort
  | some packed =>
      let fieldbuf := reserve l.buf
      let extralen := l.extralen + UInt64.ofNat msgReserveBytes
      (encodeList py uninit nested desc values ⟨extralen, l.val, fieldbuf, 0⟩
          { s with packed := packed }).andThen fun v s =>
        match Encoder2.packedRepeatedEnd s.packed with
        | none => .abort
        | some packed =>
            let val := setMessage v.val fieldbuf v.fieldlen
            (addField uninit desc val l.buf
                { s with packed := packed }).bind fun fieldlen s =>
              .ret (some ⟨l.len + fieldlen, v.extralen, val,
                advance l.buf fieldlen⟩) s

/-- One round of the loop over the fields. -/
def encodeField (uninit : UInt64)
    (nested : PyObject → Option MsgRef → Option Nat → State → Ret UInt64)
    (items : List (String × PyObject)) (desc : FieldDesc) (l : FieldLocals)
    (s : State) : Ret (Option FieldLocals) :=
  match items.lookup desc.name with
  | none => .ret (some l) s
  | some pyval =>
      if desc.isPackedRepeated then
        encodePacked py uninit nested desc pyval.values l s
      else encodePlain py uninit nested desc pyval.values l s

/-- The loop over the fields. -/
def encodeFields (uninit : UInt64)
    (nested : PyObject → Option MsgRef → Option Nat → State → Ret UInt64)
    (items : List (String × PyObject)) :
    List FieldDesc → FieldLocals → State → Ret (Option FieldLocals)
  | [], l, s => .ret (some l) s
  | desc :: fields, l, s =>
      (encodeField py uninit nested items desc l s).andThen
        (encodeFields uninit nested items fields)

-- =========================================================== the recursion

/-- `pyobject_encode`, with room for so many calls on the stack. A call
starts with whatever its `val` holds. -/
def encodeObject (garbage : Nat → Scratch) :
    (stack : Nat) → PyObject → Option MsgRef → Option Nat → State →
    Ret UInt64
  | 0, _, _, _, _ => .fault
  | stack + 1, obj, msgDesc, buf, s =>
      match obj with
      | .dict items =>
          match msgDesc with
          | none => .fault
          | some m =>
              let locals := garbage s.calls
              (encodeFields py locals.wireValue (encodeObject garbage stack)
                  items (sch.msg m).fields ⟨0, 0, locals.value, buf⟩
                  { s with calls := s.calls + 1 }).bind fun l s =>
                match l with
                | none => .ret (-1) s
                | some l =>
                    .ret (if l.buf.isSome then l.len else l.len + l.extralen) s
      | _ => .ret (-1) { s with
          error := some ⟨.typeError, "encode expects a dict"⟩
          calls := s.calls + 1 }

/-- `pyobject_encode`. -/
def pyobjectEncode (garbage : Nat → Scratch) (obj : PyObject)
    (msgDesc : Option MsgRef) (buf : Option Nat) (s : State) : Ret UInt64 :=
  encodeObject py sch garbage obj.depth obj msgDesc buf s

-- ============================================================== two passes

/-- What `Encoder_encode` comes to: NULL with the pending exception, or a
string, and what is pending all the same. -/
inductive Encoded where
  | null (error : Option PyErr)
  | string (bytes : Bytes) (pending : Option PyErr)
  | abort
  | fault
  | runaway

/-- `PyString_FromStringAndSize`, of the start of the block. -/
def stringFromBlock (heap : Heap) (len : UInt64) (error : Option PyErr) :
    Encoded :=
  if len.toInt64 < 0 then
    .null (some ⟨.systemError,
      "Negative size passed to PyString_FromStringAndSize"⟩)
  else if heap.size < len.toNat then .fault
  else .string (Memory.read heap.mem heap.base len.toNat) error

/-- A pass of `Encoder_encode`: `done` is what follows it. -/
def encodePass (garbage : Nat → Scratch) (items : List (String × PyObject))
    (msgnum : UInt32) (buf : Option Nat) (s : State)
    (done : UInt64 → State → Encoded) : Encoded :=
  match pyobjectEncode py sch garbage (.dict items) (some msgnum.toNat) buf
      { s with packed := Encoder2.start } with
  | .abort => .abort
  | .fault => .fault
  | .runaway => .runaway
  | .ret len s => if len < 0 then .null s.error else done len s

/-- `Encoder_encode`. `calloc` is the address of a zeroed block of this
size, or NULL. -/
def encoderEncode (garbage : Nat → Scratch) (calloc : UInt64 → Option Nat)
    (items : List (String × PyObject)) (msgnum : UInt32) : Encoded :=
  if sch.msgs.length ≤ msgnum.toNat then
    .null (some ⟨.indexError, "message type index out of range"⟩)
  else
    encodePass py sch garbage items msgnum none
        ⟨Encoder2.start, ⟨fun _ => 0, 0, 0⟩, none, 0⟩ fun len s =>
      match calloc len with
      | none => .null (some ⟨.memoryError, "unable to allocate string"⟩)
      | some buf =>
          encodePass py sch garbage items msgnum (some buf)
              { s with heap := ⟨fun _ => 0, buf, len.toNat⟩ } fun len s =>
            stringFromBlock s.heap len s.error

end

end Lwpb.Python
