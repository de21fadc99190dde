/-
Descriptors from dicts: `Descriptor_init` and `lookup_enum` of
`python/descriptor.c`, and `pystring_to_lwpb` of `python/primitives.c`.

The dict is what a `FileDescriptorProto` decodes to. What `PyString_Check`
and `PyInt_Check` say of an object, and what is behind it, is a parameter;
so is what `sscanf` stores. The message descriptors are one array, and a
pointer to one of them is its index. What an entry of the wrong kind would
have set keeps the zero of `calloc`; memory is taken to be allocated.

A `%s` of NULL is a bad access.
-/
import Lwpb.Lib.Assoc
import Lwpb.Python.Primitives
import Lwpb.Rpc.Socket

namespace Lwpb.Python

-- ================================================================= objects

/-- What the type checks say of an object. -/
structure PyView where
  /-- `PyString_Check`, and the bytes of the string. -/
  string : PyObject → Option Bytes
  /-- `PyInt_Check`, and `PyInt_AsLong`. -/
  int : PyObject → Option Int64

/-- What `sscanf` with one conversion comes to: a number, or 0 conversions,
or the end of the string in front of any. -/
inductive Scan where
  | stored (word : UInt64)
  | failed
  | eof

/-- `sscanf`, by format. -/
abbrev Scanner := (format : String) → (str : Bytes) → Scan

/-- `PyDict_Check` and `PyList_Check`, with what is in them. -/
def PyObject.asDict : PyObject → Option (List (String × PyObject))
  | .dict items => some items
  | _ => none

def PyObject.asList : PyObject → Option (List PyObject)
  | .list elems => some elems
  | _ => none

/-- Bytes in a message. -/
def text (str : Bytes) : String :=
  String.ofList ((cstr str).map fun b => Char.ofNat b.toNat)

-- ============================================================= descriptors

/-- `struct lwpb_field_desc`: `typ` has six bits and `label` has two. -/
structure CField where
  number : UInt32
  label : Nat
  typ : Nat
  flags : Nat
  msgDesc : Option Nat
  name : Option Bytes
  defaultValue : RawValue

/-- A descriptor as `calloc` gives it. -/
def CField.zero : CField :=
  ⟨0, 0, 0, 0, none, none, ⟨0, .ext fun _ => 0, 0⟩⟩

/-- `struct lwpb_msg_desc`. -/
structure CMsg where
  fields : List CField
  name : Option Bytes

/-- `Descriptor`, and an exception that is pending. -/
structure Descriptor where
  msgDesc : List CMsg
  messageTypes : List (Bytes × Nat)
  pending : Option PyErr

/-- Why `Descriptor_init` does not come to a descriptor. -/
inductive Stop where
  | raised (error : PyErr)
  | fault

/-- `LWPB_HAS_DEFAULT`, `LWPB_IS_PACKED`, `LWPB_IS_DEPRECATED`. -/
def hasDefault : Nat := 1
def isPacked : Nat := 2
def isDeprecated : Nat := 4

/-- `LWPB_DOUBLE` to `LWPB_SINT64`. -/
def FieldType.ofCode (typ : Nat) : Option FieldType :=
  (none :: [.double, .float, .int64, .uint64, .int32, .fixed64, .fixed32,
    .bool, .string, .group, .message, .bytes, .uint32, .enum, .sfixed32,
    .sfixed64, .sint32, .sint64].map some).getD typ none

variable (v : PyView) (scan : Scanner)

-- ================================================================ defaults

/-- A value under a name of a dict, if it is an int. -/
def intItem (items : List (String × PyObject)) (name : String) :
    Option Int64 :=
  (items.lookup name).bind v.int

/-- A value under a name of a dict, if it is a string. -/
def stringItem (items : List (String × PyObject)) (name : String) :
    Option Bytes :=
  (items.lookup name).bind v.string

/-- A value under a name of a dict, if it is a list. -/
def listItem (items : List (String × PyObject)) (name : String) :
    Option (List PyObject) :=
  (items.lookup name).bind PyObject.asList

/-- The number of an enum value, if it has this name. -/
def enumNumber (name : Bytes) (enumvalue : PyObject) : Option Int64 := do
  let items ← enumvalue.asDict
  let enumname ← stringItem v items "name"
  if enumname ≠ name then none else intItem v items "number"

/-- The number of the first value of an enum with this name. -/
def enumValue (name : Bytes) (enumtype : PyObject) : Option Int64 := do
  let items ← enumtype.asDict
  let enumvalues ← listItem items "value"
  enumvalues.findSome? (enumNumber v name)

/-- `lookup_enum`, and the exception it leaves. -/
def lookupEnum (items : List (String × PyObject)) (name : Bytes) :
    Int64 × Option PyErr :=
  match items.lookup "enum_type" with
  | none => (-1, none)
  | some (.list enumtypes) =>
      ((enumtypes.findSome? (enumValue v name)).getD (-1), none)
  | some _ => (-1, some ⟨.runtimeError, "enum_type: list expected"⟩)

/-- `sscanf(str, format, &p->..) ? 0 : -1`. -/
def scanInto (format : String) (set : RawValue → UInt64 → RawValue)
    (p : RawValue) (str : Bytes) : Option RawValue :=
  match scan format (cstr str) with
  | .stored word => some (set p word)
  | .eof => some p
  | .failed => none

/-- `pystring_to_lwpb`; `none` is -1. -/
def pystringToLwpb (p : RawValue) (str : Bytes) :
    Option FieldType → Option RawValue
  | some .double => scanInto scan "%lf" .set64 p str
  | some .float => scanInto scan "%f" (fun p w => p.set32 w.toUInt32) p str
  | some .int64 | some .sint64 | some .sfixed64 =>
      scanInto scan "%d" (fun p w => p.set32 w.toUInt32) p str
  | some .uint64 | some .fixed64 => scanInto scan "%Lu" .set64 p str
  | some .sfixed32 | some .sint32 | some .int32 | some .enum =>
      scanInto scan "%d" (fun p w => p.set32 w.toUInt32) p str
  | some .fixed32 | some .uint32 =>
      scanInto scan "%u" (fun p w => p.set32 w.toUInt32) p str
  | some .bool =>
      if cstr str = [116, 114, 117, 101] then some (p.set32 1)
      else if cstr str = [102, 97, 108, 115, 101] then some (p.set32 0)
      else none
  | some .string =>
      some (p.setString (fun i => str.getD i 0) (UInt64.ofNat str.length))
  | some .bytes | some .group | some .message | none => none

/-- `f->def.int32 = lookup_enum(..)`, and whether it is at least 0. -/
def setEnum (p : RawValue) (number : Int64) : RawValue × Bool :=
  let int32 := number.toInt32
  (p.set32 int32.toUInt32, decide (0 ≤ int32))

/-- The default value of a field, converted: what is stored if it is in
order, and the exception that is left. -/
def convertDefault (dict msgtype : List (String × PyObject)) (f : CField)
    (prop : PyObject) : Option RawValue × Option PyErr :=
  match v.string prop with
  | none => (none, none)
  | some str =>
      match FieldType.ofCode f.typ with
      | some .enum =>
          let (number, error) := lookupEnum v msgtype str
          let (p, ok) := setEnum f.defaultValue number
          if ok then (some p, error)
          else
            let (number, error') := lookupEnum v dict str
            let (p, ok) := setEnum p number
            (if ok then some p else none, error'.or error)
      | typ => (pystringToLwpb scan f.defaultValue str typ, none)

/-- The names in a message about a field: `%s.%s.%s`. -/
def fieldText (package : Bytes) (mname fname : Option Bytes) :
    Except Stop String :=
  match mname, fname with
  | some mname, some fname =>
      .ok (text package ++ "." ++ text mname ++ "." ++ text fname)
  | _, _ => .error .fault

/-- The default of a field. -/
def initDefault (dict msgtype : List (String × PyObject)) (package : Bytes)
    (mname : Option Bytes) (f : CField)
    (field : List (String × PyObject)) :
    Except Stop (CField × Option PyErr) :=
  match field.lookup "default_value" with
  | none => .ok (f, none)
  | some prop =>
      match convertDefault v scan dict msgtype f prop with
      | (some p, error) =>
          .ok ({ f with defaultValue := p, flags := f.flags ||| hasDefault },
            error)
      | (none, _) => do
          let name ← fieldText package mname f.name
          .error (.raised ⟨.runtimeError,
            "invalid default value for field " ++ name⟩)

-- ============================================================== type names

/-- `".%s.%s"`. -/
def qualified (package name : Bytes) : Bytes :=
  46 :: cstr package ++ 46 :: cstr name

/-- The name of a message type, if it is a dict with a string for it. -/
def messageName (msgtype : PyObject) : Option Bytes := do
  let items ← msgtype.asDict
  stringItem v items "name"

/-- The search for a message type by its qualified name. -/
def findMessage (package : Bytes) (msgtypes : List PyObject)
    (typename : Bytes) : Option Nat :=
  msgtypes.findIdx? fun msgtype =>
    match messageName v msgtype with
    | none => false
    | some name => qualified package name = typename

/-- The message descriptor of a field, resolved. -/
def initMsgDesc (package : Bytes) (msgtypes : List PyObject)
    (mname : Option Bytes) (f : CField) (field : List (String × PyObject)) :
    Except Stop CField :=
  if FieldType.ofCode f.typ ≠ some .message then .ok f
  else
    let typename := stringItem v field "type_name"
    match typename.bind (findMessage v package msgtypes) with
    | some k => .ok { f with msgDesc := some k }
    | none => do
        let name ← fieldText package mname f.name
        .error (.raised ⟨.runtimeError,
          "could not resolve type_name for message field " ++ name ++ ": "
            ++ (typename.map text).getD "\"\""⟩)

-- ================================================================== passes

/-- A flag, if the option is `True`. -/
def optionFlag (options : Option (List (String × PyObject))) (name : String)
    (flag : Nat) : Nat :=
  match options.bind (·.lookup name) with
  | some (.bool true) => flag
  | _ => 0

/-- The properties of a field that are read from the field alone. -/
def fieldProps (items : List (String × PyObject)) : CField :=
  let options := (items.lookup "options").bind PyObject.asDict
  { CField.zero with
    number := ((intItem v items "number").map
      fun n => n.toUInt64.toUInt32).getD 0
    label := ((intItem v items "label").map
      fun n => n.toUInt64.toNat % 4).getD 0
    typ := ((intItem v items "type").map fun n => n.toUInt64.toNat % 64).getD 0
    flags := optionFlag options "packed" isPacked
      ||| optionFlag options "deprecated" isDeprecated
    name := stringItem v items "name" }

/-- The body of the loop over the fields in the second pass. -/
def initField (dict msgtype : List (String × PyObject)) (package : Bytes)
    (msgtypes : List PyObject) (mname : Option Bytes) (field : PyObject) :
    Except Stop (CField × Option PyErr) :=
  match field with
  | .dict items => do
      let f := fieldProps v items
      let (f, pending) ← initDefault v scan dict msgtype package mname f items
      let f ← initMsgDesc v package msgtypes mname f items
      .ok (f, pending)
  | _ => .ok (.zero, none)

/-- The items and the fields of a message type that is looked at. -/
def messageFields (msgtype : PyObject) :
    Option (List (String × PyObject) × List PyObject) := do
  let items ← msgtype.asDict
  let fields ← listItem items "field"
  some (items, fields)

/-- The first pass: a message descriptor with its name, and fields that are
zero. -/
def allocMessage (msgtype : PyObject) : CMsg :=
  match messageFields msgtype with
  | none => ⟨[], none⟩
  | some (items, fields) =>
      ⟨fields.map fun _ => .zero, stringItem v items "name"⟩

/-- The first pass: the index of a message type under its name, from `i`
on. -/
def nameMessages (package : Bytes) :
    (i : Nat) → List CMsg → List (Bytes × Nat) → List (Bytes × Nat)
  | _, [], types => types
  | i, m :: ms, types =>
      nameMessages package (i + 1) ms
        (match m.name with
          | none => types
          | some name =>
              Assoc.set (cstr package ++ 46 :: cstr name) i types)

/-- The second pass, for a message type. -/
def initMessage (dict : List (String × PyObject)) (package : Bytes)
    (msgtypes : List PyObject) (msgtype : PyObject) :
    Except Stop (CMsg × Option PyErr) :=
  let m := allocMessage v msgtype
  match messageFields msgtype with
  | none => .ok (m, none)
  | some (items, fields) => do
      let inits ← fields.mapM
        (initField v scan dict items package msgtypes m.name)
      .ok ({ m with fields := inits.map Prod.fst },
        (inits.map Prod.snd).foldl (fun pending error => error.or pending)
          none)

/-- `package`. -/
def packageOf (dict : List (String × PyObject)) : Bytes :=
  (stringItem v dict "package").getD []

/-- `Descriptor_init`. -/
def descriptorInit (dict : List (String × PyObject)) :
    Except Stop Descriptor :=
  match dict.lookup "message_type" with
  | none => .ok ⟨[], [], none⟩
  | some (.list msgtypes) => do
      let package := packageOf v dict
      let ms := msgtypes.map (allocMessage v)
      let inits ← msgtypes.mapM (initMessage v scan dict package msgtypes)
      .ok ⟨inits.map Prod.fst, nameMessages package 0 ms [],
        (inits.map Prod.snd).foldl (fun pending error => error.or pending)
          none⟩
  | some _ => .error (.raised
      ⟨.runtimeError, "message_type: list expected"⟩)

end Lwpb.Python
