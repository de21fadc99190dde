/-
Files, declared, and their descriptors.

A `FileDecl` is what a schema file declares: its package, its message types
with their fields, its enums. What it means to the codec is
`FileDecl.schema`, said without any dict. A dict `Describes` a declaration
if the type checks find everything in it; and of such a dict, if it is of a
file that the compiler accepts (`FileDecl.Compiled`), `Descriptor_init`
makes a descriptor with that schema, and an index of the message types that
have fields (`Describes.initialises`).

`Describes` goes by the type checks alone: a dict may have any other
items, in any order, and the objects are whatever the runtime takes for a
string or a number. So it is what the dict that a decoder makes and the
literal in the Python sources have in common. The proof follows
`Descriptor_init` from the inside out: a default, a field, a message type,
the file (`Describes.convertDefault`, `Describes.initField`,
`Describes.initMessage`, `Describes.descriptorInit`).
-/
import Lwpb.Proofs.Python.EnumDefaults
import Lwpb.Proofs.Python.MessageIndex
import Lwpb.Python.MessageCodec

namespace Lwpb.Python

open TwosComplement

-- ============================================================ declarations

/-- An enum: its members, with their numbers. -/
structure EnumDecl where
  name : Bytes
  members : List (Bytes × Int32)
  deriving Repr, DecidableEq

/-- A field: `typeName` is the name of its message type or enum. -/
structure FieldDecl where
  name : Bytes
  number : UInt32
  label : Label
  typ : FieldType
  typeName : Option Bytes
  defaultValue : Option Bytes
  packed : Bool
  deprecated : Bool
  deriving Repr, DecidableEq

/-- A message type. -/
structure MsgDecl where
  name : Bytes
  fields : List FieldDecl
  enums : List EnumDecl
  deriving Repr, DecidableEq

/-- A file. -/
structure FileDecl where
  package : Bytes
  messages : List MsgDecl
  enums : List EnumDecl
  deriving Repr, DecidableEq

/-- The members of all enums, in order. -/
def membersOf (enums : List EnumDecl) : List (Bytes × Int64) :=
  enums.flatMap fun e => e.members.map fun (name, n) => (name, n.toInt64)

/-- The flags that a field's options set. -/
def FieldDecl.options (f : FieldDecl) : Nat :=
  (if f.packed then isPacked else 0)
    ||| (if f.deprecated then isDeprecated else 0)

/-- The flags of a field. -/
def FieldDecl.flags (f : FieldDecl) : Nat :=
  if f.defaultValue.isSome then f.options ||| hasDefault else f.options

namespace FileDecl

variable (file : FileDecl)

/-- The message type that a field names. -/
def target (f : FieldDecl) : Option MsgRef :=
  f.typeName.bind fun typename => file.messages.findIdx? fun m =>
    fullName file.package m.name = typename

/-- A field as the codec sees it. -/
def fieldDesc (f : FieldDecl) : FieldDesc :=
  ⟨f.number, ⟨f.label, f.typ, UInt8.ofNat f.flags⟩,
    if f.typ = .message then file.target f else none, text f.name⟩

/-- The schema that the file declares. -/
def schema : Schema :=
  ⟨file.messages.map fun m => ⟨m.fields.map file.fieldDesc⟩⟩

end FileDecl

/-- A default that its type has a value for: for an enum, one of the symbols
in scope, of the message type first. -/
def FieldDecl.Defaults (scan : Scanner) (inner outer : List EnumDecl)
    (f : FieldDecl) : Prop :=
  ∀ str, f.defaultValue = some str →
    if f.typ = .enum then
      picked ((membersOf inner).lookup str) ((membersOf outer).lookup str)
        ≠ none
    else pystringToLwpb scan CField.zero.defaultValue str (some f.typ) ≠ none

/-- What the compiler makes sure of: names are distinct, a field of
`TYPE_MESSAGE` has the full name of a message type, defaults are values. The
file is one with a package. -/
structure FileDecl.Compiled (scan : Scanner) (file : FileDecl) : Prop where
  package : file.package ≠ [] ∧ 0 ∉ file.package
  names : ∀ m ∈ file.messages, 0 ∉ m.name
  distinct : (file.messages.map MsgDecl.name).Nodup
  resolved : ∀ m ∈ file.messages, ∀ f ∈ m.fields, f.typ = .message →
    ∃ target ∈ file.messages,
      f.typeName = some (fullName file.package target.name)
  defaults : ∀ m ∈ file.messages, ∀ f ∈ m.fields,
    f.Defaults scan m.enums file.enums

-- ============================================================= descriptions

variable {v : PyView} {scan : Scanner}

/-- The object describes the member of an enum. -/
def DescribesMember (v : PyView) (obj : PyObject)
    (member : Bytes × Int32) : Prop :=
  ∃ items name number, obj = .dict items ∧
    items.lookup "name" = some name ∧ v.string name = some member.1 ∧
    items.lookup "number" = some number ∧
    v.int number = some member.2.toInt64

/-- The object describes an enum. -/
def DescribesEnum (v : PyView) (obj : PyObject) (e : EnumDecl) : Prop :=
  ∃ items name, obj = .dict items ∧
    items.lookup "name" = some name ∧ v.string name = some e.name ∧
    List.Forall₂ (DescribesMember v) ((listItem items "value").getD [])
      e.members

/-- The enums of a message type or a file. -/
structure DescribesScope (v : PyView) (items : Items)
    (enums : List EnumDecl) : Prop where
  listed : items.lookup "enum_type" = none ∨
    ∃ elems, items.lookup "enum_type" = some (.list elems)
  enums : List.Forall₂ (DescribesEnum v) (enumList items) enums

/-- The object describes a field. -/
def DescribesField (v : PyView) (obj : PyObject) (f : FieldDecl) : Prop :=
  ∃ items, obj = .dict items ∧
    residue 32 (entryNumber v items "number") = f.number.toNat ∧
    Label.ofBits (residue 2 (entryNumber v items "label")) = f.label ∧
    FieldType.ofCode (residue 6 (entryNumber v items "type")) = some f.typ ∧
    (OptionTrue items "packed" ↔ f.packed = true) ∧
    (OptionTrue items "deprecated" ↔ f.deprecated = true) ∧
    (items.lookup "name").bind v.string = some f.name ∧
    stringItem v items "type_name" = f.typeName ∧
    (items.lookup "default_value").map v.string
      = f.defaultValue.map some

/-- The object describes a message type. -/
def DescribesMsg (v : PyView) (obj : PyObject) (m : MsgDecl) : Prop :=
  ∃ items, obj = .dict items ∧
    stringItem v items "name" = some m.name ∧
    List.Forall₂ (DescribesField v) (fieldList obj) m.fields ∧
    DescribesScope v items m.enums

/-- The dict describes a file, with these message types. -/
structure Describes (v : PyView) (dict : Items) (msgtypes : List PyObject)
    (file : FileDecl) : Prop where
  package : packageOf v dict = file.package
  listed : ListsTypes dict msgtypes
  messages : List.Forall₂ (DescribesMsg v) msgtypes file.messages
  scope : DescribesScope v dict file.enums

theorem fieldList_dict (items : Items) :
    fieldList (.dict items) = (listItem items "field").getD [] := by
  unfold fieldList messageFields
  cases hfields : listItem items "field" with
  | none => simp only [PyObject.asDict, hfields, Option.bind_eq_bind,
      Option.bind_some, Option.bind_none, Option.map_none]
  | some fields => simp only [PyObject.asDict, hfields, Option.bind_eq_bind,
      Option.bind_some, Option.map_some]

-- =================================================================== scopes

theorem DescribesMember.symbol {obj : PyObject} {member : Bytes × Int32}
    (h : DescribesMember v obj member) :
    symbolNumber v obj = some (member.1, member.2.toInt64) := by
  obtain ⟨items, name, number, rfl, hname, hstr, hnumber, hint⟩ := h
  simp only [symbolNumber, PyObject.asDict, stringItem, intItem, hname,
    hnumber, hstr, hint, Option.bind_some, Option.bind_eq_bind]

theorem DescribesEnum.values {obj : PyObject} {e : EnumDecl}
    (h : DescribesEnum v obj e) :
    enumValues v obj = e.members.map fun (name, n) => (name, n.toInt64) := by
  obtain ⟨items, name, rfl, -, -, hmembers⟩ := h
  show ((listItem items "value").getD []).filterMap (symbolNumber v) = _
  generalize (listItem items "value").getD [] = objs at hmembers
  generalize e.members = members at hmembers
  induction hmembers with
  | nil => rfl
  | cons hmember _ ih =>
      rw [List.filterMap_cons_some hmember.symbol, ih]
      rfl

theorem DescribesScope.values {items : Items} {enums : List EnumDecl}
    (h : DescribesScope v items enums) :
    scopeValues v items = membersOf enums := by
  obtain ⟨-, henums⟩ := h
  unfold scopeValues membersOf
  generalize enumList items = objs at henums
  induction henums with
  | nil => rfl
  | cons he _ ih => rw [List.flatMap_cons, List.flatMap_cons, he.values, ih]

theorem DescribesScope.isScope {items : Items} {enums : List EnumDecl}
    (h : DescribesScope v items enums) : IsScope v items := by
  refine ⟨h.listed, fun symbol number hmem => ?_⟩
  rw [h.values] at hmem
  obtain ⟨e, -, hmem⟩ := List.mem_flatMap.mp hmem
  obtain ⟨⟨name, n⟩, -, heq⟩ := List.mem_map.mp hmem
  obtain ⟨-, rfl⟩ := Prod.mk.inj heq
  exact congrArg Int32.toInt64 (Int32.toInt32_toInt64 n)

-- ================================================================== targets

theorem DescribesMsg.name {obj : PyObject} {m : MsgDecl}
    (h : DescribesMsg v obj m) : messageName v obj = some m.name := by
  obtain ⟨items, rfl, hname, -, -⟩ := h
  exact hname

/-- Elements that are told apart alike are found at one place. -/
theorem findIdx?_of_forall₂ {α β : Type} {R : α → β → Prop} {p : α → Bool}
    {q : β → Bool} {xs : List α} {ys : List β} (h : List.Forall₂ R xs ys)
    (hpq : ∀ x y, R x y → y ∈ ys → p x = q y) :
    xs.findIdx? p = ys.findIdx? q := by
  induction h with
  | nil => rfl
  | cons hxy _ ih =>
      rw [List.findIdx?_cons, List.findIdx?_cons,
        hpq _ _ hxy List.mem_cons_self,
        ih fun x y hxy hy => hpq x y hxy (List.mem_cons_of_mem _ hy)]

variable {dict : Items} {msgtypes : List PyObject} {file : FileDecl}

/-- The search for a message type finds the one that is named. -/
theorem Describes.findMessage (h : Describes v dict msgtypes file)
    (hcompiled : file.Compiled scan) (typename : Bytes) :
    findMessage v (packageOf v dict) msgtypes typename
      = file.messages.findIdx? fun m =>
        fullName file.package m.name = typename := by
  rw [h.package]
  refine findIdx?_of_forall₂ h.messages fun obj m hm hmem => ?_
  rw [hm.name]
  simp only [qualified_eq_fullName hcompiled.package.1 hcompiled.package.2
    (hcompiled.names m hmem)]

theorem FileDecl.Compiled.target_some (hcompiled : file.Compiled scan)
    {m : MsgDecl} (hm : m ∈ file.messages) {f : FieldDecl}
    (hf : f ∈ m.fields) (hmsg : f.typ = .message) :
    ∃ typename k, f.typeName = some typename ∧
      (file.messages.findIdx? fun m =>
        fullName file.package m.name = typename) = some k := by
  obtain ⟨target, htarget, hname⟩ := hcompiled.resolved m hm f hf hmsg
  refine ⟨_, _, hname, Option.eq_some_of_isSome ?_⟩
  rw [List.findIdx?_isSome, List.any_eq_true]
  exact ⟨target, htarget, decide_eq_true rfl⟩

-- =================================================================== fields

/-- The properties of a field that is described. -/
theorem props_of_described {v : PyView} {items : Items} {f : FieldDecl}
    (hnumber : residue 32 (entryNumber v items "number") = f.number.toNat)
    (hlabel : Label.ofBits (residue 2 (entryNumber v items "label")) = f.label)
    (htyp : FieldType.ofCode (residue 6 (entryNumber v items "type"))
      = some f.typ)
    (hpacked : OptionTrue items "packed" ↔ f.packed = true)
    (hold : OptionTrue items "deprecated" ↔ f.deprecated = true) :
    (fieldProps v items).number = f.number ∧
      Label.ofBits (fieldProps v items).label = f.label ∧
      FieldType.ofCode (fieldProps v items).typ = some f.typ ∧
      (fieldProps v items).flags = f.options := by
  have htwo : 2 ≤ 64 := by decide
  have hsix : 6 ≤ 64 := by decide
  rw [← intItem_number] at hnumber
  rw [← intItem_residue htwo] at hlabel
  rw [← intItem_residue hsix] at htyp
  refine ⟨UInt32.toNat_inj.mp hnumber, hlabel, htyp, ?_⟩
  unfold fieldProps FieldDecl.options
  dsimp only
  congr 1
  · rcases optionFlag_cases items "packed" isPacked with
      ⟨hset, heq⟩ | ⟨hset, heq⟩
    · rw [heq, if_pos (hpacked.mp hset)]
    · rw [heq, if_neg fun h => hset (hpacked.mpr h)]
  · rcases optionFlag_cases items "deprecated" isDeprecated with
      ⟨hset, heq⟩ | ⟨hset, heq⟩
    · rw [heq, if_pos (hold.mp hset)]
    · rw [heq, if_neg fun h => hset (hold.mpr h)]

section

variable (h : Describes v dict msgtypes file)
  (hcompiled : file.Compiled scan) {m : MsgDecl} (hm : m ∈ file.messages)
  {f : FieldDecl} (hf : f ∈ m.fields) {items fitems : Items}
  (hscope : DescribesScope v items m.enums)
include h hcompiled hm hf hscope

/-- A default that is described is converted. -/
theorem Describes.convertDefault {str : Bytes} {prop : PyObject}
    (htyp : FieldType.ofCode (fieldProps v fitems).typ = some f.typ)
    (hvalue : f.defaultValue = some str) (hstr : v.string prop = some str) :
    ∃ p, convertDefault v scan dict items (fieldProps v fitems) prop
      = (some p, none) := by
  have hok := hcompiled.defaults m hm f hf str hvalue
  by_cases henum : f.typ = .enum
  · rw [if_pos henum] at hok
    rw [henum] at htyp
    obtain ⟨value, hconvert, hpicked⟩ := convert_enum h.scope.isScope
      hscope.isScope htyp hstr
    rw [hscope.values, h.scope.values] at hpicked
    cases value with
    | none => exact absurd hpicked.symm hok
    | some p => exact ⟨p, hconvert⟩
  · rw [if_neg henum] at hok
    obtain ⟨p, hp⟩ := Option.ne_none_iff_exists'.mp hok
    refine ⟨p, ?_⟩
    unfold Python.convertDefault
    simp only [hstr, htyp]
    split
    · next heq => exact absurd (Option.some.inj heq) henum
    · exact congrArg (·, none) hp

/-- The flags of a field are those of its options, and that it has a
default. -/
theorem Describes.initDefault (mname : Option Bytes)
    (htyp : FieldType.ofCode (fieldProps v fitems).typ = some f.typ)
    (hflags : (fieldProps v fitems).flags = f.options)
    (hdefault : (fitems.lookup "default_value").map v.string
      = f.defaultValue.map some) :
    ∃ p, initDefault v scan dict items (packageOf v dict) mname
        (fieldProps v fitems) fitems
      = .ok ({ fieldProps v fitems with
          defaultValue := p, flags := f.flags }, none) := by
  unfold FieldDecl.flags
  cases hvalue : f.defaultValue with
  | none =>
      rw [hvalue, Option.map_none, Option.map_eq_none_iff] at hdefault
      refine ⟨(fieldProps v fitems).defaultValue, ?_⟩
      rw [initDefault_none hdefault, Option.isSome_none,
        if_neg Bool.false_ne_true, ← hflags]
  | some str =>
      rw [hvalue] at hdefault
      obtain ⟨prop, hlookup, hstr⟩ := Option.map_eq_some_iff.mp hdefault
      obtain ⟨p, hp⟩ := h.convertDefault hcompiled hm hf hscope htyp hvalue
        hstr
      refine ⟨p, ?_⟩
      unfold Python.initDefault
      simp only [hlookup, hp, Option.isSome_some, if_true, hflags]

/-- What is made of a field that is described. -/
theorem Describes.initField {obj : PyObject} (hobj : DescribesField v obj f)
    (mname : Option Bytes) :
    ∃ cf, initField v scan dict items (packageOf v dict) msgtypes mname obj
        = .ok (cf, none) ∧ cf.fieldDesc = some (file.fieldDesc f) := by
  obtain ⟨fitems, rfl, hnumber, hlabel, htyp, hpacked, hold, hname, htypename,
    hdefault⟩ := hobj
  obtain ⟨hnumber, hlabel, htyp, hflags⟩ :=
    props_of_described hnumber hlabel htyp hpacked hold
  have hname : (fieldProps v fitems).name = some f.name := hname
  obtain ⟨p, hinit⟩ := h.initDefault hcompiled hm hf hscope mname htyp hflags
    hdefault
  have hdesc : ∀ target, CField.fieldDesc { fieldProps v fitems with
      defaultValue := p, flags := f.flags, msgDesc := target }
        = some ⟨f.number, ⟨f.label, f.typ, UInt8.ofNat f.flags⟩, target,
          text f.name⟩ := by
    intro target
    simp only [CField.fieldDesc, htyp, hnumber, hlabel, hname,
      Option.bind_eq_bind, Option.bind_some, Option.map_some, Option.getD_some]
  by_cases hmsg : f.typ = .message
  · obtain ⟨typename, k, hgiven, hk⟩ := hcompiled.target_some hm hf hmsg
    have hfound : Python.findMessage v (packageOf v dict) msgtypes typename
        = some k := (h.findMessage hcompiled typename).trans hk
    have htypmsg : FieldType.ofCode (fieldProps v fitems).typ
        = some .message := hmsg ▸ htyp
    refine ⟨_, initField_of_steps hinit (initMsgDesc_found htypmsg
      (htypename.trans hgiven) hfound), ?_⟩
    rw [hdesc, FileDecl.fieldDesc, if_pos hmsg, FileDecl.target, hgiven,
      Option.bind_some, hk]
  · have hother : FieldType.ofCode (fieldProps v fitems).typ
        ≠ some .message := by
      rw [htyp]
      exact fun heq => hmsg (Option.some.inj heq)
    refine ⟨_, initField_of_steps hinit (initMsgDesc_other hother), ?_⟩
    rw [FileDecl.fieldDesc, if_neg hmsg]
    exact hdesc none

end

-- ================================================================= messages

section

variable (h : Describes v dict msgtypes file)
  (hcompiled : file.Compiled scan)
include h hcompiled

/-- What is made of a message type that is described. -/
theorem Describes.initMessage {m : MsgDecl} (hm : m ∈ file.messages)
    {obj : PyObject} (hobj : DescribesMsg v obj m) :
    ∃ r, initMessage v scan dict (packageOf v dict) msgtypes obj = .ok r ∧
      r.2 = none ∧ r.1.msgDesc = some ⟨m.fields.map file.fieldDesc⟩ := by
  obtain ⟨items, rfl, -, hfields, hscope⟩ := hobj
  have hok : ∀ field ∈ fieldList (.dict items), ∀ items' mname,
      PyObject.dict items = .dict items' → ∃ r, Python.initField v scan dict
        items' (packageOf v dict) msgtypes mname field = .ok r ∧
          r.2 = none := by
    intro field hfield items' mname heq
    obtain rfl := PyObject.dict.inj heq
    obtain ⟨f, hf, hdescribes⟩ := Sequence.mem_of_forall₂ hfields hfield
    obtain ⟨cf, hcf, -⟩ := h.initField hcompiled hm hf hscope hdescribes mname
    exact ⟨_, hcf, rfl⟩
  obtain ⟨r, hr, hpending⟩ := initMessage_ok hok
  obtain ⟨-, hinits⟩ := fields_of_initMessage hr
  have hdescs : List.Forall₂ (fun cf f =>
      CField.fieldDesc cf = some (file.fieldDesc f)) r.1.fields m.fields := by
    refine Sequence.forall₂_through hfields hinits
      fun field f cf hf hdescribes hinit => ?_
    obtain ⟨items', p, heq, hinit⟩ := hinit
    obtain rfl := PyObject.dict.inj heq
    obtain ⟨cf', hcf', hdesc⟩ :=
      h.initField hcompiled hm hf hscope hdescribes r.1.name
    rw [hinit] at hcf'
    rwa [(Prod.mk.inj (Except.ok.inj hcf')).1]
  refine ⟨r, hr, hpending, ?_⟩
  have hall := Sequence.mapM_of_forall₂
    (List.forall₂_map_right_iff.mpr hdescs)
  rw [CMsg.msgDesc, hall]
  rfl

/-- The descriptor of a file that is described has the file's schema. -/
theorem Describes.descriptorInit :
    ∃ d, descriptorInit v scan dict = .ok d ∧ d.pending = none ∧
      d.schema = some file.schema := by
  have hmessages : ∀ obj ∈ msgtypes, ∃ r, Python.initMessage v scan dict
      (packageOf v dict) msgtypes obj = .ok r ∧ r.2 = none := by
    intro obj hobj
    obtain ⟨m, hm, hdescribes⟩ := Sequence.mem_of_forall₂ h.messages hobj
    obtain ⟨r, hr, hpending, -⟩ := h.initMessage hcompiled hm hdescribes
    exact ⟨r, hr, hpending⟩
  obtain ⟨d, hd, hpending⟩ := descriptorInit_ok h.listed hmessages
  refine ⟨d, hd, hpending, ?_⟩
  have hdescs : List.Forall₂ (fun msg m => CMsg.msgDesc msg
      = some ⟨m.fields.map file.fieldDesc⟩) d.msgDesc file.messages := by
    rcases h.listed with hlist | ⟨hnone, hnil⟩
    · obtain ⟨rs, hrs, rfl⟩ := inits_of_descriptorInit hlist hd
      show List.Forall₂ _ (rs.map Prod.fst) _
      rw [List.forall₂_map_left_iff]
      refine Sequence.forall₂_through h.messages
        (Sequence.forall₂_of_mapM hrs) fun obj m r hm hdescribes hr => ?_
      obtain ⟨r', hr', -, hdesc⟩ := h.initMessage hcompiled hm hdescribes
      rw [hr] at hr'
      rwa [Except.ok.inj hr']
    · unfold Python.descriptorInit at hd
      rw [hnone] at hd
      obtain rfl := Except.ok.inj hd
      have hmsgs := h.messages
      rw [hnil] at hmsgs
      cases hfile : file.messages with
      | nil => exact .nil
      | cons m ms =>
          rw [hfile] at hmsgs
          cases hmsgs
  have hall := Sequence.mapM_of_forall₂
    (List.forall₂_map_right_iff.mpr hdescs)
  rw [Descriptor.schema, hall]
  rfl

end

-- =================================================================== index

/-- Byte strings are compared one way. -/
theorem lookup_bytes {α : Type} (key : Bytes) (xs : List (Bytes × α)) :
    @List.lookup Bytes α instBEqOfDecidableEq key xs = xs.lookup key :=
  congrArg (fun inst => @List.lookup Bytes α inst key xs)
    (lawful_beq_subsingleton _ _)

/-- Message types under other names leave the index of a name. -/
theorem lookup_nameMessages {package key : Bytes} {ms : List CMsg} {i : Nat}
    {types : List (Bytes × Nat)}
    (h : ∀ m ∈ ms, m.name ≠ none → indexKey package m ≠ key) :
    (nameMessages package i ms types).lookup key = types.lookup key := by
  induction ms generalizing i types with
  | nil => rfl
  | cons m ms ih =>
      obtain ⟨hm, hms⟩ := List.forall_mem_cons.mp h
      rw [nameMessages, ih hms]
      cases hname : m.name with
      | none => rfl
      | some name =>
          have hne := hm (by rw [hname]; exact Option.some_ne_none name)
          rw [indexKey, hname] at hne
          have hset := @Assoc.lookup_set_ne _ _ _ _ _ i types hne
          rwa [lookup_bytes, lookup_bytes] at hset

/-- The last message type under a name has the index. -/
theorem lookup_nameMessages_at {package : Bytes} {ms : List CMsg} {i k : Nat}
    {types : List (Bytes × Nat)} {m : CMsg} (hk : ms[k]? = some m)
    (hname : m.name ≠ none)
    (hlater : ∀ j m', k < j → ms[j]? = some m' → m'.name ≠ none →
      indexKey package m' ≠ indexKey package m) :
    (nameMessages package i ms types).lookup (indexKey package m)
      = some (i + k) := by
  induction ms generalizing i k types with
  | nil => cases hk
  | cons m' ms ih =>
      cases k with
      | zero =>
          obtain rfl := Option.some.inj hk
          have hothers : ∀ m₁ ∈ ms, m₁.name ≠ none →
              indexKey package m₁ ≠ indexKey package m' := by
            intro m₁ hm₁
            obtain ⟨j, hj⟩ := List.mem_iff_getElem?.mp hm₁
            exact hlater (j + 1) m₁ (Nat.succ_pos j) hj
          rw [nameMessages, lookup_nameMessages hothers]
          obtain ⟨name, hsome⟩ := Option.ne_none_iff_exists'.mp hname
          rw [indexKey, hsome, ← lookup_bytes]
          exact Assoc.lookup_set_self
      | succ k =>
          rw [nameMessages, ih hk fun j m₁ hlt hj =>
            hlater (j + 1) m₁ (by omega) hj]
          congr 1
          omega

/-- A message type that has fields is named in the first pass, any other is
named or not. -/
theorem DescribesMsg.alloc {obj : PyObject} {m : MsgDecl}
    (h : DescribesMsg v obj m) :
    (m.fields ≠ [] → (allocMessage v obj).name = some m.name) ∧
      ∀ name, (allocMessage v obj).name = some name → name = m.name := by
  obtain ⟨items, rfl, hname, hfields, -⟩ := h
  unfold allocMessage
  cases hmessage : messageFields (.dict items) with
  | none =>
      refine ⟨fun hne => ?_, nofun⟩
      rw [fieldList, hmessage] at hfields
      exact absurd (List.forall₂_nil_left_iff.mp hfields) hne
  | some found =>
      obtain ⟨items', fields⟩ := found
      obtain rfl := PyObject.dict.inj (messageFields_some hmessage).1
      refine ⟨fun _ => hname, fun name heq => ?_⟩
      exact Option.some.inj (heq.symm.trans hname)

/-- The index has the position of every message type that has fields. -/
theorem Describes.index (h : Describes v dict msgtypes file)
    (hcompiled : file.Compiled scan) {d : Descriptor}
    (hd : Python.descriptorInit v scan dict = .ok d) {k : Nat} {m : MsgDecl}
    (hk : file.messages[k]? = some m) (hfields : m.fields ≠ []) :
    d.messageTypes.lookup (indexName file.package m.name) = some k := by
  have htypes : messageTypeList dict = msgtypes := by
    unfold messageTypeList listItem
    rcases h.listed with hlist | ⟨hnone, rfl⟩
    · rw [hlist]
      rfl
    · rw [hnone]
      rfl
  obtain ⟨obj, hobj, hm⟩ := Sequence.getElem?_of_forall₂ h.messages.flip hk
  have hkey : ∀ msg name, msg.name = some name → 0 ∉ name →
      indexKey (packageOf v dict) msg = indexName file.package name := by
    intro msg name hname hnul
    rw [indexKey, hname, h.package, cstr_of_not_mem hcompiled.package.2]
    exact congrArg _ (cstr_of_not_mem hnul)
  have hname := DescribesMsg.alloc hm |>.1 hfields
  have hnul := hcompiled.names m (List.mem_of_getElem? hk)
  have halloc : (msgtypes.map (allocMessage v))[k]?
      = some (allocMessage v obj) := by
    rw [List.getElem?_map, hobj]
    rfl
  rw [(made_of_descriptorInit hd).index, htypes, ← hkey _ _ hname hnul,
    lookup_nameMessages_at halloc
      (by rw [hname]; exact Option.some_ne_none _), Nat.zero_add]
  -- the names of the others are other names
  intro j msg hlt hmsg hne heq
  rw [List.getElem?_map] at hmsg
  obtain ⟨obj', hobj', rfl⟩ := Option.map_eq_some_iff.mp hmsg
  obtain ⟨m', hm', hdescribes⟩ := Sequence.getElem?_of_forall₂ h.messages hobj'
  obtain ⟨name', hname'⟩ := Option.ne_none_iff_exists'.mp hne
  obtain rfl := hdescribes.alloc.2 name' hname'
  have hnul' := hcompiled.names m' (List.mem_of_getElem? hm')
  rw [hkey _ _ hname hnul, hkey _ _ hname' hnul'] at heq
  have hsame : m'.name = m.name :=
    (List.cons.inj (List.append_cancel_left heq)).2
  have hplace : (file.messages.map MsgDecl.name)[j]?
      = (file.messages.map MsgDecl.name)[k]? := by
    rw [List.getElem?_map, List.getElem?_map, hk, hm']
    exact congrArg some hsame
  obtain ⟨hj, -⟩ := List.getElem?_eq_some_iff.mp hm'
  have hjk := (List.getElem?_inj (by rwa [List.length_map])
    hcompiled.distinct).mp hplace
  omega

end Lwpb.Python
