/-
Compiled files, and the dicts they are decoded to.

What the protobuf compiler writes for a file set is a message of the schema
of schemas, `protofile`. What a file of it declares is read off the tree of
the message (`FileDecl.ofTree`): the last string or number under a name, the
messages under it in their order, the options of a field however they are
split. The dict that the decoder makes of the tree describes just that
(`describes_file`), whatever the order of the fields.

The dict is not computed. What is known of it is what `Occurrences.lean`
says: under the name of a field stands the last value, or the list of the
submessages. For every kind of field of the schema of schemas there is one
lemma that reads it as the type checks do (`stringItem_proto`,
`intItem_proto`, `flag_proto`, `listItem_proto`), and the descriptions are
put together from these, a message type of the compiler at a time.
-/
import Lwpb.Proofs.Python.Compiled
import Lwpb.Proofs.Python.Occurrences

namespace Lwpb

open Python

-- ====================================================== the schema of schemas

/-- The message types of `descriptor.proto`, as far as the library describes
them. -/
def protofile : Schema := ⟨[
  -- FileDescriptorSet
  ⟨[⟨1, ⟨.repeated, .message, 0⟩, some 1, "file"⟩]⟩,
  -- FileDescriptorProto
  ⟨[⟨1, ⟨.optional, .string, 0⟩, none, "name"⟩,
    ⟨2, ⟨.optional, .string, 0⟩, none, "package"⟩,
    ⟨3, ⟨.repeated, .string, 0⟩, none, "dependency"⟩,
    ⟨4, ⟨.repeated, .message, 0⟩, some 2, "message_type"⟩,
    ⟨5, ⟨.repeated, .message, 0⟩, some 5, "enum_type"⟩,
    ⟨8, ⟨.optional, .message, 0⟩, some 7, "options"⟩]⟩,
  -- DescriptorProto
  ⟨[⟨1, ⟨.optional, .string, 0⟩, none, "name"⟩,
    ⟨2, ⟨.repeated, .message, 0⟩, some 3, "field"⟩,
    ⟨3, ⟨.repeated, .message, 0⟩, some 2, "nested_type"⟩,
    ⟨4, ⟨.repeated, .message, 0⟩, some 5, "enum_type"⟩,
    ⟨7, ⟨.repeated, .message, 0⟩, some 1, "extension"⟩]⟩,
  -- FieldDescriptorProto
  ⟨[⟨1, ⟨.optional, .string, 0⟩, none, "name"⟩,
    ⟨2, ⟨.optional, .string, 0⟩, none, "extendee"⟩,
    ⟨3, ⟨.optional, .int32, 0⟩, none, "number"⟩,
    ⟨4, ⟨.optional, .enum, 0⟩, none, "label"⟩,
    ⟨5, ⟨.optional, .enum, 0⟩, none, "type"⟩,
    ⟨6, ⟨.optional, .string, 0⟩, none, "type_name"⟩,
    ⟨7, ⟨.optional, .string, 0⟩, none, "default_value"⟩,
    ⟨8, ⟨.optional, .message, 0⟩, some 4, "options"⟩]⟩,
  -- FieldOptions
  ⟨[⟨2, ⟨.optional, .bool, 0⟩, none, "packed"⟩,
    ⟨3, ⟨.optional, .bool, 1⟩, none, "deprecated"⟩]⟩,
  -- EnumDescriptorProto
  ⟨[⟨1, ⟨.optional, .string, 0⟩, none, "name"⟩,
    ⟨2, ⟨.repeated, .message, 0⟩, some 6, "value"⟩]⟩,
  -- EnumValueDescriptorProto
  ⟨[⟨1, ⟨.optional, .string, 0⟩, none, "name"⟩,
    ⟨2, ⟨.optional, .int32, 0⟩, none, "number"⟩]⟩,
  -- FileOptions
  ⟨[⟨1, ⟨.optional, .string, 0⟩, none, "java_package"⟩,
    ⟨8, ⟨.optional, .string, 0⟩, none, "java_outer_classname"⟩,
    ⟨10, ⟨.optional, .bool, 1⟩, none, "java_multiple_files"⟩]⟩]⟩

/-- The built-in schema names its fields apart. -/
theorem protofile_names : protofile.DistinctNames := by decide

/-- It numbers them apart. -/
theorem protofile_distinct : protofile.Distinct := by decide

/-- It has no packed field at all. -/
theorem protofile_packed : protofile.PackedNumeric := by decide

-- ============================================================ declarations

/-- A string. -/
def Value.asString : Value Bytes → Option Bytes
  | .string s => some s
  | _ => none

/-- A number of 32 bits. -/
def Value.asInt : Value Bytes → Option Int32
  | .int32 n | .enum n => some n
  | _ => none

def Value.asFlag : Value Bytes → Option Bool
  | .bool b => some (b ≠ 0)
  | _ => none

namespace Tree

variable (t : Tree) (name : String)

/-- What a message of the compiler says under a name. -/
def stringNamed : Option Bytes :=
  (t.lastNamed protofile name).bind Value.asString

def intNamed : Option Int32 := (t.lastNamed protofile name).bind Value.asInt

def flagNamed : Bool :=
  ((t.lastNamed protofile name).bind Value.asFlag).getD false

def messagesNamed : List Tree := t.bodiesNamed protofile name

end Tree

end Lwpb

namespace Lwpb.Python

/-- `LABEL_OPTIONAL` and so on. -/
def Label.ofNumber (n : Int32) : Option Label :=
  if n = 1 then some .optional
  else if n = 2 then some .required
  else if n = 3 then some .repeated
  else none

/-- `TYPE_DOUBLE` and so on. -/
def FieldType.ofNumber (n : Int32) : Option FieldType :=
  if 0 ≤ n then FieldType.ofCode n.toInt.toNat else none

/-- The member of an enum, of an `EnumValueDescriptorProto`. -/
def memberOfTree (t : Tree) : Option (Bytes × Int32) := do
  let name ← t.stringNamed "name"
  let number ← t.intNamed "number"
  some (name, number)

/-- The enum of an `EnumDescriptorProto`. -/
def EnumDecl.ofTree (t : Tree) : Option EnumDecl := do
  let name ← t.stringNamed "name"
  let members ← (t.messagesNamed "value").mapM memberOfTree
  some ⟨name, members⟩

/-- The field of a `FieldDescriptorProto`. -/
def FieldDecl.ofTree (t : Tree) : Option FieldDecl := do
  let name ← t.stringNamed "name"
  let number ← t.intNamed "number"
  let label ← (t.intNamed "label").bind Label.ofNumber
  let typ ← (t.intNamed "type").bind FieldType.ofNumber
  let options := Tree.joined (t.messagesNamed "options")
  some {
    name := name
    number := number.toUInt32
    label := label
    typ := typ
    typeName := t.stringNamed "type_name"
    defaultValue := t.stringNamed "default_value"
    packed := options.flagNamed "packed"
    deprecated := options.flagNamed "deprecated" }

/-- The message type of a `DescriptorProto`. Nested types are no message
types of the file. -/
def MsgDecl.ofTree (t : Tree) : Option MsgDecl := do
  let name ← t.stringNamed "name"
  let fields ← (t.messagesNamed "field").mapM FieldDecl.ofTree
  let enums ← (t.messagesNamed "enum_type").mapM EnumDecl.ofTree
  some ⟨name, fields, enums⟩

/-- The file of a `FileDescriptorProto`. -/
def FileDecl.ofTree (t : Tree) : Option FileDecl := do
  let messages ← (t.messagesNamed "message_type").mapM MsgDecl.ofTree
  let enums ← (t.messagesNamed "enum_type").mapM EnumDecl.ofTree
  some ⟨(t.stringNamed "package").getD [], messages, enums⟩

-- ================================================================== objects

/-- The type checks know what the decoder makes, and the literals. -/
structure SeesObjects (v : PyView) (new : PythonNew)
    (lit : Scalar → PyObject) : Prop where
  newString : ∀ bytes,
    v.string (.other (new.stringFromStringAndSize bytes)) = some bytes
  newInt : ∀ n, v.int (.other (new.intFromLong n)) = some n
  litString : ∀ bytes, v.string (lit (.str bytes)) = some bytes
  litInt : ∀ n : Nat, n < 2 ^ 31 → v.int (lit (.int n)) = some (Int64.ofNat n)

variable {v : PyView} {new : PythonNew} {lit : Scalar → PyObject}
  {scan : Scanner}

/-- What the decoder makes of a string, a number or a flag. -/
theorem toPy_string (new : PythonNew) {val : Value Bytes}
    (h : val.OfType .string) :
    ∃ s, val.asString = some s ∧
      toPy new val .string = .other (new.stringFromStringAndSize s) := by
  cases val with
  | string s => exact ⟨s, rfl, rfl⟩
  | double _ | float _ | bool _ | enum _ => cases h
  | bytes _ => cases h.1
  | int32 _ | int64 _ => rcases h with h | h | h <;> cases h
  | uint32 _ | uint64 _ => rcases h with h | h <;> cases h

/-- A number of the protocol buffer becomes a Python integer. -/
theorem toPy_int (new : PythonNew) {val : Value Bytes} {typ : FieldType}
    (h : val.OfType typ) (htyp : typ = .int32 ∨ typ = .enum) :
    ∃ n, val.asInt = some n ∧
      toPy new val typ = .other (new.intFromLong n.toInt64) := by
  cases val with
  | int32 n =>
      rcases htyp with rfl | rfl
      · exact ⟨n, rfl, rfl⟩
      · rcases h with h | h | h <;> cases h
  | enum n =>
      obtain rfl : typ = .enum := h
      exact ⟨n, rfl, rfl⟩
  | double _ | float _ | bool _ =>
      cases h
      rcases htyp with htyp | htyp <;> cases htyp
  | string _ | bytes _ =>
      obtain ⟨rfl, -⟩ := h
      rcases htyp with htyp | htyp <;> cases htyp
  | int64 _ =>
      rcases h with rfl | rfl | rfl
      all_goals rcases htyp with htyp | htyp <;> cases htyp
  | uint32 _ | uint64 _ =>
      rcases h with rfl | rfl
      all_goals rcases htyp with htyp | htyp <;> cases htyp

/-- A bool becomes a Python bool. -/
theorem toPy_flag (new : PythonNew) {val : Value Bytes}
    (h : val.OfType .bool) :
    ∃ b, val.asFlag = some b ∧ toPy new val .bool = .bool b := by
  cases val with
  | bool b => exact ⟨_, rfl, rfl⟩
  | double _ | float _ | enum _ => cases h
  | string _ | bytes _ => cases h.1
  | int32 _ | int64 _ => rcases h with h | h | h <;> cases h
  | uint32 _ | uint64 _ => rcases h with h | h <;> cases h

section

variable {m : MsgRef} {desc : FieldDesc} {t : Tree}
  (hdesc : desc ∈ (protofile.msg m).fields)
  (ht : t.Typed Value.OfType protofile m)
include hdesc ht

/-- What a dict holds under the name of a field that is no message. -/
theorem lookup_proto (hrep : desc.opts.label ≠ .repeated)
    (htyp : desc.opts.typ ≠ .message) :
    (t.fill new protofile []).lookup desc.name
      = (t.lastNamed protofile desc.name).map (toPy new · desc.opts.typ) := by
  rw [lookup_single protofile_names hdesc hrep htyp ht]
  exact Option.or_none

/-- A string, as the type checks see it. -/
theorem string_proto (hsees : SeesObjects v new lit)
    (hrep : desc.opts.label ≠ .repeated) (htyp : desc.opts.typ = .string) :
    ((t.fill new protofile []).lookup desc.name).map v.string
      = (t.stringNamed desc.name).map some := by
  rw [lookup_proto hdesc ht hrep (by rw [htyp]; nofun), Tree.stringNamed]
  cases hlast : t.lastNamed protofile desc.name with
  | none => rfl
  | some val =>
      have hval := ofType_lastNamed protofile_names hdesc ht hlast
      rw [htyp] at hval
      obtain ⟨s, hs, hpy⟩ := toPy_string new hval
      rw [htyp, Option.map_some, Option.map_some, hpy, hsees.newString,
        Option.bind_some, hs]
      rfl

/-- What a decoded message holds under a string field is the last string of
that name. -/
theorem stringItem_proto (hsees : SeesObjects v new lit)
    (hrep : desc.opts.label ≠ .repeated) (htyp : desc.opts.typ = .string) :
    stringItem v (t.fill new protofile []) desc.name
      = t.stringNamed desc.name := by
  have hstring := string_proto hdesc ht hsees hrep htyp
  unfold stringItem
  cases hlook : (t.fill new protofile []).lookup desc.name with
  | none =>
      rw [hlook] at hstring
      exact (Option.map_eq_none_iff.mp hstring.symm).symm
  | some obj =>
      rw [hlook] at hstring
      obtain ⟨s, hs, heq⟩ := Option.map_eq_some_iff.mp hstring.symm
      rw [hs, Option.bind_some, heq]

/-- Under an integer field it holds the last number of that name. -/
theorem intItem_proto (hsees : SeesObjects v new lit)
    (hrep : desc.opts.label ≠ .repeated)
    (htyp : desc.opts.typ = .int32 ∨ desc.opts.typ = .enum) :
    intItem v (t.fill new protofile []) desc.name
      = (t.intNamed desc.name).map Int32.toInt64 := by
  have hmsg : desc.opts.typ ≠ .message := by
    rcases htyp with htyp | htyp <;> rw [htyp] <;> nofun
  unfold intItem
  rw [lookup_proto hdesc ht hrep hmsg, Tree.intNamed]
  cases hlast : t.lastNamed protofile desc.name with
  | none => rfl
  | some val =>
      have hval := ofType_lastNamed protofile_names hdesc ht hlast
      obtain ⟨n, hn, hpy⟩ := toPy_int new hval htyp
      rw [Option.map_some, Option.bind_some, Option.bind_some, hpy,
        hsees.newInt, hn]
      rfl

/-- A number that there is, as the type checks see it. -/
theorem intItem_some (hsees : SeesObjects v new lit)
    (hrep : desc.opts.label ≠ .repeated)
    (htyp : desc.opts.typ = .int32 ∨ desc.opts.typ = .enum) {n : Int32}
    (h : t.intNamed desc.name = some n) :
    intItem v (t.fill new protofile []) desc.name = some n.toInt64 := by
  rw [intItem_proto hdesc ht hsees hrep htyp, h]
  rfl

/-- Under a bool field it holds True if the last bool of that name does. -/
theorem flag_proto (hrep : desc.opts.label ≠ .repeated)
    (htyp : desc.opts.typ = .bool) :
    (t.fill new protofile []).lookup desc.name = some (.bool true) ↔
      t.flagNamed desc.name = true := by
  rw [lookup_proto hdesc ht hrep (by rw [htyp]; nofun), Tree.flagNamed]
  cases hlast : t.lastNamed protofile desc.name with
  | none => exact iff_of_false nofun nofun
  | some val =>
      have hval := ofType_lastNamed protofile_names hdesc ht hlast
      rw [htyp] at hval
      obtain ⟨b, hb, hpy⟩ := toPy_flag new hval
      rw [htyp, Option.map_some, hpy, Option.bind_some, hb]
      cases b
      · exact iff_of_false nofun nofun
      · exact iff_of_true rfl rfl

/-- The messages under a name, each in its dict. -/
theorem messages_proto (hrep : desc.opts.label = .repeated)
    (htyp : desc.opts.typ = .message) :
    Listed desc ((t.messagesNamed desc.name).map fun body =>
      .dict (body.fill new protofile [])) (t.fill new protofile []) :=
  have hempty : Listed desc [] [] := rfl
  lookup_messages protofile_names hdesc hrep htyp ht hempty

/-- Under a repeated message field it holds the list of all submessages of
that name, decoded. -/
theorem listItem_proto (hrep : desc.opts.label = .repeated)
    (htyp : desc.opts.typ = .message) :
    (listItem (t.fill new protofile []) desc.name).getD []
      = (t.messagesNamed desc.name).map fun body =>
        .dict (body.fill new protofile []) := by
  have hlisted : Listed desc _ (t.fill new protofile []) :=
    messages_proto hdesc ht hrep htyp
  unfold Listed at hlisted
  unfold listItem
  rw [hlisted]
  by_cases hnil : ((t.messagesNamed desc.name).map fun body =>
      PyObject.dict (body.fill new protofile [])) = []
  · rw [if_pos hnil, hnil]
    rfl
  · rw [if_neg hnil]
    rfl

/-- Messages that are described one by one. -/
theorem forall₂_proto (hrep : desc.opts.label = .repeated)
    (htyp : desc.opts.typ = .message) {sub : MsgRef}
    (hsub : desc.msgDesc = some sub) {β : Type} {P : PyObject → β → Prop}
    {ofTree : Tree → Option β}
    (hP : ∀ body b, body.Typed Value.OfType protofile sub →
      ofTree body = some b → P (.dict (body.fill new protofile [])) b)
    {bs : List β} (h : (t.messagesNamed desc.name).mapM ofTree = some bs) :
    List.Forall₂ P ((listItem (t.fill new protofile []) desc.name).getD [])
      bs := by
  have htyped : ∀ body ∈ t.messagesNamed desc.name,
      body.Typed Value.OfType protofile sub := by
    intro body hbody
    obtain ⟨f, hf, hname, hbody⟩ := ht.body _ _ body hbody
    rwa [Schema.subDesc, field_of_name protofile_names hdesc hf hname, hsub]
      at hbody
  rw [listItem_proto hdesc ht hrep htyp, List.forall₂_map_left_iff]
  have hall := (List.forall₂_and_left _ _).mpr
    ⟨htyped, Sequence.forall₂_of_mapM_some h⟩
  exact hall.imp fun body b hboth => hP body b hboth.1 hboth.2

end

-- ================================================================== numbers

/-- A number of 32 bits goes through a `long`. -/
theorem number_long (n : Int32) :
    n.toInt64.toUInt64.toUInt32 = n.toUInt32 := by
  have hn : n.toInt64.toInt = n.toInt := Int32.toInt_toInt64 n
  have hlo := n.le_toInt
  have hhi := n.toInt_lt
  have hlow := low_toInt (hn ▸ hlo) (hn ▸ hhi)
  rw [hn] at hlow
  have heq : n.toInt64.toUInt64.toUInt32.toInt32 = n := Int32.toInt_inj.mp hlow
  rw [← UInt32.toUInt32_toInt32 n.toInt64.toUInt64.toUInt32, heq]

/-- A label that is one is kept by the bit field that it is stored in. -/
theorem label_long {n : Int32} {label : Label}
    (h : Label.ofNumber n = some label) :
    Label.ofBits (n.toInt64.toUInt64.toNat % 4) = label := by
  unfold Label.ofNumber at h
  split at h
  · next heq =>
      rw [heq, ← Option.some.inj h]
      rfl
  · split at h
    · next heq =>
        rw [heq, ← Option.some.inj h]
        rfl
    · split at h
      · next heq =>
          rw [heq, ← Option.some.inj h]
          rfl
      · cases h

/-- There are codes up to 18. -/
theorem ofCode_none {n : Nat} (h : 18 < n) : FieldType.ofCode n = none := by
  have hbound : ∀ codes : List (Option FieldType), codes.length ≤ n →
      codes.getD n none = none := by
    intro codes hlen
    rw [List.getD_eq_getElem?_getD, List.getElem?_eq_none hlen]
    rfl
  exact hbound _ h

/-- So is a type. -/
theorem type_long {n : Int32} {typ : FieldType}
    (h : FieldType.ofNumber n = some typ) :
    FieldType.ofCode (n.toInt64.toUInt64.toNat % 64) = some typ := by
  unfold FieldType.ofNumber at h
  split at h
  · next hpos =>
      have hlong : n.toInt64.toUInt64.toNat = n.toInt.toNat := by
        have hpos' : 0 ≤ n.toInt64 := by
          rw [Int64.le_iff_toInt_le, Int32.toInt_toInt64]
          exact Int32.le_iff_toInt_le.mp hpos
        rw [Int64.toNat_toUInt64_of_le hpos', Int64.toNatClampNeg,
          Int32.toInt_toInt64]
      have hlt : n.toInt.toNat < 64 := by
        by_contra hge
        rw [ofCode_none (by omega)] at h
        cases h
      rwa [hlong, Nat.mod_eq_of_lt hlt]
  · cases h

-- ================================================================== options

/-- A flag is set by `True` alone. -/
theorem optionFlag_of {items : Items} {name : String} {flag : Nat} {b : Bool}
    (h : items.lookup name = some (.bool true) ↔ b = true) :
    optionFlag (some items) name flag = if b then flag else 0 := by
  unfold optionFlag
  rw [Option.bind_some]
  split
  · next heq => rw [if_pos (h.mp heq)]
  · next hne => rw [if_neg fun hb => hne (h.mpr hb)]

/-- An option of a field, whatever occurrences the options come in. -/
theorem optionFlag_proto {t : Tree}
    (ht : t.Typed Value.OfType protofile 3) {desc : FieldDesc}
    (hdesc : desc ∈ (protofile.msg 4).fields)
    (hrep : desc.opts.label ≠ .repeated) (htyp : desc.opts.typ = .bool)
    (flag : Nat) :
    optionFlag (((t.fill new protofile []).lookup "options").bind
        PyObject.asDict) desc.name flag
      = if (Tree.joined (t.messagesNamed "options")).flagNamed desc.name
        then flag else 0 := by
  have hbodies : ∀ body ∈ t.messagesNamed "options",
      body.Typed Value.OfType protofile 4 := by
    intro body hbody
    obtain ⟨f, hf, hname, hbody⟩ := ht.body _ _ body hbody
    have hfield := @field_of_name protofile 3 (protofile.field ⟨3, 7⟩)
      protofile_names (by decide) f hf hname
    rwa [Schema.subDesc, hfield] at hbody
  have hmerged := @lookup_merged new protofile 3 (protofile.field ⟨3, 7⟩) t
    [] protofile_names (by decide) (by decide) rfl ht
  change (t.fill new protofile []).lookup "options" = if t.messagesNamed
    "options" = [] then none else some (.dict _) at hmerged
  rw [hmerged]
  by_cases hnil : t.messagesNamed "options" = []
  · rw [if_pos hnil, hnil]
    rfl
  · rw [if_neg hnil]
    exact optionFlag_of (flag_proto hdesc (Tree.Typed.joined protofile hbodies)
      hrep htyp)

/-- An option is set in the decoded message if it is set in the protocol
buffer, where the occurrences of `options` count as one. -/
theorem optionTrue_proto {t : Tree} (ht : t.Typed Value.OfType protofile 3)
    {desc : FieldDesc} (hdesc : desc ∈ (protofile.msg 4).fields)
    (hrep : desc.opts.label ≠ .repeated) (htyp : desc.opts.typ = .bool) :
    OptionTrue (t.fill new protofile []) desc.name ↔
      (Tree.joined (t.messagesNamed "options")).flagNamed desc.name
        = true := by
  rw [optionTrue_iff, optionFlag_proto ht hdesc hrep htyp]
  split
  · next h => simp [h]
  · next h => simp [h]

-- ============================================================ decoded files

section

variable (hsees : SeesObjects v new lit) {t : Tree}
include hsees

/-- A decoded enum value describes the value. -/
theorem describes_member (ht : t.Typed Value.OfType protofile 6)
    {member : Bytes × Int32} (h : memberOfTree t = some member) :
    DescribesMember v (.dict (t.fill new protofile [])) member := by
  obtain ⟨name, hname, h⟩ := Option.bind_eq_some_iff.mp h
  obtain ⟨number, hnumber, h⟩ := Option.bind_eq_some_iff.mp h
  obtain rfl := Option.some.inj h
  have hstr : stringItem v (t.fill new protofile []) "name" = some name :=
    (@stringItem_proto v new lit 6 (protofile.field ⟨6, 0⟩) t (by decide) ht
      hsees nofun rfl).trans hname
  have hint : intItem v (t.fill new protofile []) "number"
      = some number.toInt64 := by
    have hitem := @intItem_proto v new lit 6 (protofile.field ⟨6, 1⟩) t
      (by decide) ht hsees nofun (.inl rfl)
    exact hitem.trans (congrArg (Option.map Int32.toInt64) hnumber)
  obtain ⟨nameObj, hnameObj, hnameStr⟩ := Option.bind_eq_some_iff.mp hstr
  obtain ⟨numObj, hnumObj, hnumInt⟩ := Option.bind_eq_some_iff.mp hint
  exact ⟨_, nameObj, numObj, rfl, hnameObj, hnameStr, hnumObj, hnumInt⟩

/-- A decoded enum describes the enum. -/
theorem describes_enum (ht : t.Typed Value.OfType protofile 5)
    {e : EnumDecl} (h : EnumDecl.ofTree t = some e) :
    DescribesEnum v (.dict (t.fill new protofile [])) e := by
  obtain ⟨name, hname, h⟩ := Option.bind_eq_some_iff.mp h
  obtain ⟨members, hmembers, h⟩ := Option.bind_eq_some_iff.mp h
  obtain rfl := Option.some.inj h
  have hstr : stringItem v (t.fill new protofile []) "name" = some name :=
    (@stringItem_proto v new lit 5 (protofile.field ⟨5, 0⟩) t (by decide) ht
      hsees nofun rfl).trans hname
  obtain ⟨nameObj, hnameObj, hnameStr⟩ := Option.bind_eq_some_iff.mp hstr
  have hall := @forall₂_proto new 5 (protofile.field ⟨5, 1⟩) t (by decide) ht
    rfl rfl 6 rfl _ (DescribesMember v) memberOfTree
    (fun body b hbody => describes_member hsees hbody) members hmembers
  exact ⟨_, nameObj, rfl, hnameObj, hnameStr, hall⟩

/-- The enums in a decoded scope, a file or a message type, describe the enums
of the scope. -/
theorem describes_scope {m : MsgRef} {desc : FieldDesc}
    (hdesc : desc ∈ (protofile.msg m).fields)
    (ht : t.Typed Value.OfType protofile m)
    (hrep : desc.opts.label = .repeated) (htyp : desc.opts.typ = .message)
    (hsub : desc.msgDesc = some 5) (hname : desc.name = "enum_type")
    {enums : List EnumDecl}
    (h : (t.messagesNamed "enum_type").mapM EnumDecl.ofTree = some enums) :
    DescribesScope v (t.fill new protofile []) enums where
  listed := by
    have hlisted : Listed desc _ (t.fill new protofile []) :=
      messages_proto hdesc ht hrep htyp
    unfold Listed at hlisted
    rw [← hname, hlisted]
    split
    · exact .inl rfl
    · exact .inr ⟨_, rfl⟩
  enums := by
    rw [← hname] at h
    have hall := forall₂_proto (P := DescribesEnum v) hdesc ht hrep htyp hsub
      (fun body b hbody => describes_enum hsees hbody) h
    rwa [hname] at hall

/-- A decoded field describes the field, with its type name, its default and
its options. -/
theorem describes_field (ht : t.Typed Value.OfType protofile 3)
    {f : FieldDecl} (h : FieldDecl.ofTree t = some f) :
    DescribesField v (.dict (t.fill new protofile [])) f := by
  obtain ⟨name, hname, h⟩ := Option.bind_eq_some_iff.mp h
  obtain ⟨number, hnumber, h⟩ := Option.bind_eq_some_iff.mp h
  obtain ⟨label, hlabel, h⟩ := Option.bind_eq_some_iff.mp h
  obtain ⟨typ, htyp, h⟩ := Option.bind_eq_some_iff.mp h
  obtain ⟨labelNum, hlabelNum, hlabel⟩ := Option.bind_eq_some_iff.mp hlabel
  obtain ⟨typNum, htypNum, htyp⟩ := Option.bind_eq_some_iff.mp htyp
  obtain rfl := Option.some.inj h
  have hnumItem := @intItem_some v new lit 3 (protofile.field ⟨3, 2⟩) t
    (by decide) ht hsees nofun (.inl rfl) _ hnumber
  have hlabelItem := @intItem_some v new lit 3 (protofile.field ⟨3, 3⟩) t
    (by decide) ht hsees nofun (.inr rfl) _ hlabelNum
  have htypItem := @intItem_some v new lit 3 (protofile.field ⟨3, 4⟩) t
    (by decide) ht hsees nofun (.inr rfl) _ htypNum
  have htwo : 2 ≤ 64 := by decide
  have hsix : 6 ≤ 64 := by decide
  refine ⟨_, rfl, ?_, ?_, ?_, ?_, ?_, ?_, ?_, ?_⟩
  · rw [← intItem_number, show intItem v _ "number" = _ from hnumItem]
    exact congrArg UInt32.toNat (number_long number)
  · rw [← intItem_residue htwo, show intItem v _ "label" = _ from hlabelItem]
    exact label_long hlabel
  · rw [← intItem_residue hsix, show intItem v _ "type" = _ from htypItem]
    exact type_long htyp
  · exact @optionTrue_proto new t ht (protofile.field ⟨4, 0⟩) (by decide)
      nofun rfl
  · exact @optionTrue_proto new t ht (protofile.field ⟨4, 1⟩) (by decide)
      nofun rfl
  · exact (@stringItem_proto v new lit 3 (protofile.field ⟨3, 0⟩) t
      (by decide) ht hsees nofun rfl).trans hname
  · exact @stringItem_proto v new lit 3 (protofile.field ⟨3, 5⟩) t
      (by decide) ht hsees nofun rfl
  · exact @string_proto v new lit 3 (protofile.field ⟨3, 6⟩) t (by decide) ht
      hsees nofun rfl

/-- A decoded message type describes the message type. -/
theorem describes_msg (ht : t.Typed Value.OfType protofile 2)
    {m : MsgDecl} (h : MsgDecl.ofTree t = some m) :
    DescribesMsg v (.dict (t.fill new protofile [])) m := by
  obtain ⟨name, hname, h⟩ := Option.bind_eq_some_iff.mp h
  obtain ⟨fields, hfields, h⟩ := Option.bind_eq_some_iff.mp h
  obtain ⟨enums, henums, h⟩ := Option.bind_eq_some_iff.mp h
  obtain rfl := Option.some.inj h
  have hstr : stringItem v (t.fill new protofile []) "name" = some name :=
    (@stringItem_proto v new lit 2 (protofile.field ⟨2, 0⟩) t (by decide) ht
      hsees nofun rfl).trans hname
  have hall := @forall₂_proto new 2 (protofile.field ⟨2, 1⟩) t (by decide) ht
    rfl rfl 3 rfl _ (DescribesField v) FieldDecl.ofTree
    (fun body b hbody => describes_field hsees hbody) fields hfields
  have hscope : DescribesScope v (t.fill new protofile []) enums :=
    @describes_scope v new lit hsees t 2 (protofile.field ⟨2, 3⟩) (by decide)
      ht rfl rfl rfl rfl enums henums
  refine ⟨_, rfl, hstr, ?_, hscope⟩
  rw [fieldList_dict]
  exact hall

/-- The dict that a compiled file is decoded to describes what the file
declares. -/
theorem describes_file (ht : t.Typed Value.OfType protofile 1)
    {file : FileDecl} (h : FileDecl.ofTree t = some file) :
    ∃ msgtypes, Describes v (t.fill new protofile []) msgtypes file := by
  obtain ⟨messages, hmessages, h⟩ := Option.bind_eq_some_iff.mp h
  obtain ⟨enums, henums, h⟩ := Option.bind_eq_some_iff.mp h
  obtain rfl := Option.some.inj h
  have hpackage : stringItem v (t.fill new protofile []) "package"
      = t.stringNamed "package" :=
    @stringItem_proto v new lit 1 (protofile.field ⟨1, 1⟩) t (by decide) ht
      hsees nofun rfl
  have hall := @forall₂_proto new 1 (protofile.field ⟨1, 3⟩) t (by decide) ht
    rfl rfl 2 rfl _ (DescribesMsg v) MsgDecl.ofTree
    (fun body b hbody => describes_msg hsees hbody) messages hmessages
  have hlisted : Listed (protofile.field ⟨1, 3⟩) _ (t.fill new protofile []) :=
    messages_proto (by decide) ht rfl rfl
  rw [listItem_proto (by decide) ht rfl rfl] at hall
  refine ⟨_, congrArg (·.getD []) hpackage, ?_, hall,
    @describes_scope v new lit hsees t 1 (protofile.field ⟨1, 4⟩) (by decide)
      ht rfl rfl rfl rfl enums henums⟩
  unfold Listed at hlisted
  split at hlisted
  · next hnil => exact .inr ⟨hlisted, hnil⟩
  · exact .inl hlisted

end

end Lwpb.Python
