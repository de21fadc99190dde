/-
The codec of a compiled schema: `lwpb/codec.py`, and the schema of schemas
in `lwpb/__init__.py`.

What the protobuf compiler writes is a message. `PROTOFILE_DEFINITION`
describes its type, as the dict of a file descriptor; `MessageCodec` makes a
descriptor of it, decodes the compiled file with that, and makes a second
descriptor, of a file that the first decoded. The decoder and the encoder
see a descriptor as the array of its message descriptors
(`Descriptor.schema`).

The literals of the Python source are a parameter. An exception that a call
leaves pending is raised there, and what aborts or follows a bad pointer
does not come back.
-/
import Lwpb.Python.Descriptor
import Lwpb.Python.Runtime

namespace Lwpb.Python

-- ================================================================= schemas

/-- A label, in two bits: all that is asked of it is whether it is
`LWPB_REPEATED`. -/
def Label.ofBits : Nat → Label
  | 2 => .required
  | 3 => .repeated
  | _ => .optional

/-- What the decoder and the encoder see of a field descriptor; none if its
type is none of theirs. -/
def CField.fieldDesc (f : CField) : Option FieldDesc := do
  let typ ← FieldType.ofCode f.typ
  some ⟨f.number, ⟨Label.ofBits f.label, typ, UInt8.ofNat f.flags⟩, f.msgDesc,
    (f.name.map text).getD ""⟩

def CMsg.msgDesc (m : CMsg) : Option MsgDesc := do
  let fields ← m.fields.mapM CField.fieldDesc
  some ⟨fields⟩

/-- The message descriptors of a descriptor. -/
def Descriptor.schema (d : Descriptor) : Option Schema := do
  let msgs ← d.msgDesc.mapM CMsg.msgDesc
  some ⟨msgs⟩

-- ====================================================== the schema of schemas

/-- The bytes of a literal. -/
def ascii (s : String) : Bytes := s.toList.map fun c => UInt8.ofNat c.toNat

def labelOptional : Nat := 1
def labelRepeated : Nat := 3
def typeInt32 : Nat := 5
def typeBool : Nat := 8
def typeString : Nat := 9
def typeMessage : Nat := 11
def typeEnum : Nat := 14

/-- A field: its name, number, label and type, and what else it has. -/
structure FieldRow where
  name : String
  number : Nat
  label : Nat
  typ : Nat
  more : List (String × String)
  deriving Repr, DecidableEq

/-- The message types of `PROTOFILE_DEFINITION`. -/
def protofileTypes : List (String × List FieldRow) := [
  ("FileDescriptorSet", [
    ⟨"file", 1, labelRepeated, typeMessage,
      [("type_name", ".google.protobuf.FileDescriptorProto")]⟩]),
  ("FileDescriptorProto", [
    ⟨"name", 1, labelOptional, typeString, []⟩,
    ⟨"package", 2, labelOptional, typeString, []⟩,
    ⟨"dependency", 3, labelRepeated, typeString, []⟩,
    ⟨"message_type", 4, labelRepeated, typeMessage,
      [("type_name", ".google.protobuf.DescriptorProto")]⟩,
    ⟨"enum_type", 5, labelRepeated, typeMessage,
      [("type_name", ".google.protobuf.EnumDescriptorProto")]⟩,
    ⟨"options", 8, labelOptional, typeMessage,
      [("type_name", ".google.protobuf.FileOptions")]⟩]),
  ("DescriptorProto", [
    ⟨"name", 1, labelOptional, typeString, []⟩,
    ⟨"field", 2, labelRepeated, typeMessage,
      [("type_name", ".google.protobuf.FieldDescriptorProto")]⟩,
    ⟨"nested_type", 3, labelRepeated, typeMessage,
      [("type_name", ".google.protobuf.DescriptorProto")]⟩,
    ⟨"enum_type", 4, labelRepeated, typeMessage,
      [("type_name", ".google.protobuf.EnumDescriptorProto")]⟩,
    ⟨"extension", 7, labelRepeated, typeMessage,
      [("type_name", ".google.protobuf.FileDescriptorProto")]⟩]),
  ("FieldDescriptorProto", [
    ⟨"name", 1, labelOptional, typeString, []⟩,
    ⟨"extendee", 2, labelOptional, typeString, []⟩,
    ⟨"number", 3, labelOptional, typeInt32, []⟩,
    ⟨"label", 4, labelOptional, typeEnum, []⟩,
    ⟨"type", 5, labelOptional, typeEnum, []⟩,
    ⟨"type_name", 6, labelOptional, typeString, []⟩,
    ⟨"default_value", 7, labelOptional, typeString, []⟩,
    ⟨"options", 8, labelOptional, typeMessage,
      [("type_name", ".google.protobuf.FieldOptions")]⟩]),
  ("FieldOptions", [
    ⟨"packed", 2, labelOptional, typeBool, []⟩,
    ⟨"deprecated", 3, labelOptional, typeBool,
      [("default_value", "false")]⟩]),
  ("EnumDescriptorProto", [
    ⟨"name", 1, labelOptional, typeString, []⟩,
    ⟨"value", 2, labelRepeated, typeMessage,
      [("type_name", ".google.protobuf.EnumValueDescriptorProto")]⟩]),
  ("EnumValueDescriptorProto", [
    ⟨"name", 1, labelOptional, typeString, []⟩,
    ⟨"number", 2, labelOptional, typeInt32, []⟩]),
  ("FileOptions", [
    ⟨"java_package", 1, labelOptional, typeString, []⟩,
    ⟨"java_outer_classname", 8, labelOptional, typeString, []⟩,
    ⟨"java_multiple_files", 10, labelOptional, typeBool,
      [("default_value", "false")]⟩])]

section

variable (lit : Scalar → PyObject)

/-- A string of the source. -/
def strLit (s : String) : PyObject := lit (.str (ascii s))

/-- A number of the source. -/
def intLit (n : Nat) : PyObject := lit (.int n)

/-- The dict of a field. -/
def fieldLit (row : FieldRow) : PyObject :=
  .dict ([("name", strLit lit row.name), ("number", intLit lit row.number),
    ("label", intLit lit row.label), ("type", intLit lit row.typ)]
      ++ row.more.map fun (key, s) => (key, strLit lit s))

/-- The dict of a message type. -/
def messageLit (name : String) (rows : List FieldRow) : PyObject :=
  .dict [("name", strLit lit name), ("field", .list (rows.map (fieldLit lit)))]

/-- `PROTOFILE_DEFINITION`. -/
def protofileDefinition : List (String × PyObject) :=
  [("name", strLit lit "descriptor.proto"),
    ("package", strLit lit "google.protobuf"),
    ("dependency", .list []),
    ("message_type", .list (protofileTypes.map fun (name, rows) =>
      messageLit lit name rows))]

end

-- ==================================================================== codecs

/-- Why `MessageCodec()` does not come to a codec. -/
inductive CodecError where
  | keyError
  | indexError
  | typeError
  | ioError
  | raised (error : PyErr)
  | fault

/-- A codec: the decoded definition, the descriptor of one file of it, the
index of the message type, and the enums of the file, each with the numbers
of its members. -/
structure MessageCodec where
  definition : Items
  descriptor : Descriptor
  messagetype : Nat
  enums : List (Bytes × List (Bytes × PyObject))

/-- What a lookup of `types`, or of a dict, comes to. -/
def orKeyError {α : Type} : Option α → Except CodecError α
  | some a => .ok a
  | none => .error .keyError

/-- `file(path).read()`. -/
abbrev Files := String → Option Bytes

/-- What is decoded: the file's content, unless the name is empty. The
default for the name is `None`, which is no name of a file. -/
def readPb2 (files : Files) (pb2 : Option Bytes) (pb2file : Option String) :
    Except CodecError Bytes :=
  match pb2file with
  | none => .error .typeError
  | some path =>
      if path ≠ "" then
        match files path with
        | none => .error .ioError
        | some content => .ok content
      else
        match pb2 with
        | none => .error .typeError
        | some content => .ok content

variable (v : PyView) (scan : Scanner) (new : PythonNew)

/-- `lwpb.Descriptor(obj)`. -/
def newDescriptor (obj : PyObject) : Except CodecError Descriptor :=
  match obj with
  | .dict items =>
      match descriptorInit v scan items with
      | .error (.raised e) => .error (.raised e)
      | .error .fault => .error .fault
      | .ok d =>
          match d.pending with
          | some e => .error (.raised e)
          | none => .ok d
  | _ => .error .typeError

/-- `decoder.decode(data, descriptor, types)`, where the result is to be a
dict. -/
def decodeWith (uninit : UInt64) (d : Descriptor) (data : Bytes)
    (msgnum : Nat) : Except CodecError Items :=
  match d.schema with
  | none => .error .fault
  | some sch =>
      match decoderDecode new sch uninit data (UInt32.ofNat msgnum) with
      | .dict items none => .ok items
      | .dict _ (some e) | .null e => .error (.raised e)
      -- `None` has no items
      | .none => .error .typeError
      | .abort | .fault => .error .fault

/-- `obj[name]`. -/
def subscript (obj : PyObject) (name : String) : Except CodecError PyObject :=
  match obj with
  | .dict items => orKeyError (items.lookup name)
  | _ => .error .typeError

/-- What a loop goes over. -/
def iterate : PyObject → Except CodecError (List PyObject)
  | .list elems => .ok elems
  | _ => .error .typeError

/-- `setattr(obj, name, value)`. -/
def setAttr {α : Type} (name : PyObject) (value : α)
    (attrs : List (Bytes × α)) : Except CodecError (List (Bytes × α)) :=
  match v.string name with
  | none => .error .typeError
  | some name => .ok (Assoc.set name value attrs)

/-- The loop over the members of an enum. -/
def enumMembers (attrs : List (Bytes × PyObject)) :
    List PyObject → Except CodecError (List (Bytes × PyObject))
  | [] => .ok attrs
  | member :: members => do
      let name ← subscript member "name"
      let number ← subscript member "number"
      let attrs ← setAttr v name number attrs
      enumMembers attrs members

/-- The loop over the enums of a file. -/
def exposeEnums (enums : List (Bytes × List (Bytes × PyObject))) :
    List PyObject → Except CodecError (List (Bytes × List (Bytes × PyObject)))
  | [] => .ok enums
  | e :: es => do
      let members ← iterate (← subscript e "value")
      let enum ← enumMembers v [] members
      let name ← subscript e "name"
      let enums ← setAttr v name enum enums
      exposeEnums enums es

/-- `definition['file'][filenum]`. -/
def definedFile (definition : Items) (filenum : Nat) :
    Except CodecError PyObject := do
  let files ← iterate (← orKeyError (definition.lookup "file"))
  match files[filenum]? with
  | none => .error .indexError
  | some file => .ok file

/-- `file.get('enum_type', [])`. -/
def enumTypes : PyObject → Except CodecError (List PyObject)
  | .dict items => iterate ((items.lookup "enum_type").getD (.list []))
  | _ => .error .typeError

/-- `MessageCodec.__init__`, once `pb2` is read. -/
def messageCodec (lit : Scalar → PyObject) (uninit : UInt64) (pb2 : Bytes)
    (filenum : Nat) (typename : Bytes) : Except CodecError MessageCodec := do
  let pb2Descriptor ← newDescriptor v scan (.dict (protofileDefinition lit))
  let pb2TypeFds ← orKeyError (pb2Descriptor.messageTypes.lookup
    (ascii "google.protobuf.FileDescriptorSet"))
  let definition ← decodeWith new uninit pb2Descriptor pb2 pb2TypeFds
  let file ← definedFile definition filenum
  let descriptor ← newDescriptor v scan file
  let messagetype ← orKeyError (descriptor.messageTypes.lookup typename)
  let enums ← exposeEnums v [] (← enumTypes file)
  .ok ⟨definition, descriptor, messagetype, enums⟩

/-- `MessageCodec()`. -/
def newMessageCodec (lit : Scalar → PyObject) (uninit : UInt64)
    (files : Files) (typename : Bytes) (pb2 : Option Bytes)
    (pb2file : Option String) (filenum : Nat) :
    Except CodecError MessageCodec := do
  let pb2 ← readPb2 files pb2 pb2file
  messageCodec v scan new lit uninit pb2 filenum typename

/-- `MessageCodec.encode`. -/
def MessageCodec.encode (codec : MessageCodec) (py : PythonApi)
    (garbage : Nat → Scratch) (calloc : UInt64 → Option Nat)
    (record : Items) : Encoded :=
  match codec.descriptor.schema with
  | none => .fault
  | some sch =>
      encoderEncode py sch garbage calloc record
        (UInt32.ofNat codec.messagetype)

/-- `MessageCodec.decode`. -/
def MessageCodec.decode (codec : MessageCodec) (uninit : UInt64)
    (data : Bytes) : Decoded :=
  match codec.descriptor.schema with
  | none => .fault
  | some sch =>
      decoderDecode new sch uninit data (UInt32.ofNat codec.messagetype)

end Lwpb.Python
