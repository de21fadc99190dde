/-
A codec has the schema that was compiled.

`MessageCodec` decodes what the compiler wrote with a descriptor of its own
making, and makes a second descriptor of a file that it decoded. The first
is of `PROTOFILE_DEFINITION`, which describes the schema of schemas
(`metaFile_schema`). So whatever message the compiler writes for a file set,
and whether it is read from a file or given as a string, the codec of a
message type with fields has the schema that its file declares, the index
of the type, and the enums of the file; it encodes and decodes by these
(`message_codec_loads`).

So the theory of files is used twice. The literal in the sources describes
the file `metaFile` (`describes_protofile`), by a walk over its rows; by
`Compiled.lean` its descriptor has the schema of schemas, and by
`SchemaFile.lean` what is decoded with it describes the file that was
compiled, to which `Compiled.lean` applies again. The enums are read off
the same dict, next to the descriptor (`exposeEnums_ok`).
-/
import Lwpb.Proofs.Python.SchemaFile

namespace Lwpb.Python

open TwosComplement

variable {v : PyView} {new : PythonNew} {lit : Scalar → PyObject}
  {scan : Scanner}

-- ====================================================== PROTOFILE_DEFINITION

/-- The field that a row declares. -/
def FieldRow.decl (row : FieldRow) : FieldDecl where
  name := ascii row.name
  number := UInt32.ofNat row.number
  label := Label.ofBits row.label
  typ := (FieldType.ofCode row.typ).getD .double
  typeName := (row.more.lookup "type_name").map ascii
  defaultValue := (row.more.lookup "default_value").map ascii
  packed := false
  deprecated := false

/-- The file that `PROTOFILE_DEFINITION` describes. -/
def metaFile : FileDecl where
  package := ascii "google.protobuf"
  messages := protofileTypes.map fun (name, rows) =>
    ⟨ascii name, rows.map FieldRow.decl, []⟩
  enums := []

/-- The definition in Python declares the schema of schemas. -/
theorem metaFile_schema : metaFile.schema = protofile := by rfl

/-- The built-in definition compiles: its type names resolve and it has no
defaults. -/
theorem metaFile_compiled (scan : Scanner) : metaFile.Compiled scan where
  package := by decide
  names := by decide
  distinct := by decide
  resolved := by decide
  defaults := by
    have hfalse : ∀ m ∈ metaFile.messages, ∀ f ∈ m.fields,
        f.defaultValue = none ∨
          (f.defaultValue = some (ascii "false") ∧ f.typ = .bool) := by
      decide
    intro m hm f hf str hstr
    rcases hfalse m hm f hf with hnone | ⟨hsome, htyp⟩
    · rw [hnone] at hstr
      cases hstr
    · rw [htyp, if_neg nofun]
      obtain rfl := Option.some.inj (hsome.symm.trans hstr)
      nofun

/-- A field whose numbers are ones of the format. It has no options. -/
def FieldRow.Plain (row : FieldRow) : Prop :=
  row.number < 2 ^ 29 ∧ row.label < 4 ∧ (FieldType.ofCode row.typ).isSome ∧
    row.more.lookup "options" = none

/-- Its rows are plain: their numbers are small, and their type names are of
its own types. -/
theorem protofile_plain : ∀ m ∈ protofileTypes, ∀ row ∈ m.2, row.Plain := by
  unfold FieldRow.Plain
  decide

/-- A small number is kept by 64 bits. -/
theorem toInt_lit {n : Nat} (h : n < 2 ^ 29) :
    (Int64.ofNat n).toInt = n := by
  exact Int64.toInt_ofNat_of_lt (by omega)

/-- The low bits of a number that is written in Python. -/
theorem residue_lit {n w : Nat} (h : n < 2 ^ 29) :
    residue w (Int64.ofNat n).toInt = n % 2 ^ w := by
  rw [toInt_lit h, residue_natCast]

/-- A literal number is read as the number. -/
theorem int_lit (hsees : SeesObjects v new lit) {n : Nat}
    (h : n < 2 ^ 29) : v.int (lit (.int n)) = some (Int64.ofNat n) :=
  hsees.litInt n (by omega)

/-- What else a field has stands behind its four properties. -/
theorem lookup_more {x y z w : PyObject} {more : List (String × String)}
    (key : String) (hkey : key ∉ ["name", "number", "label", "type"]) :
    ([("name", x), ("number", y), ("label", z), ("type", w)]
      ++ more.map fun ((key, s) : String × String) =>
        (key, strLit lit s)).lookup key
      = (more.lookup key).map (strLit lit) := by
  have hnone : [("name", x), ("number", y), ("label", z), ("type", w)].lookup
      key = none := Assoc.lookup_eq_none_of_not_mem hkey
  rw [List.lookup_append, hnone, Option.none_or]
  exact Assoc.lookup_map

/-- The literal of a row describes its field. -/
theorem describes_row (hsees : SeesObjects v new lit) {row : FieldRow}
    (h : row.Plain) : DescribesField v (fieldLit lit row) row.decl := by
  obtain ⟨hnumber, hlabel, htyp, hoptions⟩ := h
  obtain ⟨typ, htyp⟩ := Option.isSome_iff_exists.mp htyp
  have hcode : row.typ ≤ 18 := by
    by_contra hlt
    rw [ofCode_none (by omega)] at htyp
    cases htyp
  have hnone := @lookup_more lit (strLit lit row.name)
    (intLit lit row.number) (intLit lit row.label) (intLit lit row.typ)
    row.more "options" (by decide)
  rw [hoptions] at hnone
  have hplain : ∀ name, ¬ OptionTrue _ name := fun name h => by
    obtain ⟨options, hsome, -⟩ := h
    rw [hnone] at hsome
    cases hsome
  refine ⟨_, rfl, ?_, ?_, ?_, ?_, ?_, ?_, ?_, ?_⟩
  · show residue 32 (((v.int (lit (.int row.number))).map Int64.toInt).getD 0)
      = _
    rw [int_lit hsees hnumber]
    exact residue_lit hnumber
  · show Label.ofBits (residue 2
      (((v.int (lit (.int row.label))).map Int64.toInt).getD 0)) = _
    rw [int_lit hsees (by omega), Option.map_some, Option.getD_some,
      residue_lit (by omega), Nat.mod_eq_of_lt (by omega)]
    rfl
  · show FieldType.ofCode (residue 6
      (((v.int (lit (.int row.typ))).map Int64.toInt).getD 0))
      = some ((FieldType.ofCode row.typ).getD .double)
    rw [int_lit hsees (by omega), Option.map_some, Option.getD_some,
      residue_lit (by omega), Nat.mod_eq_of_lt (by omega), htyp]
    rfl
  · exact iff_of_false (hplain "packed") Bool.false_ne_true
  · exact iff_of_false (hplain "deprecated") Bool.false_ne_true
  · exact hsees.litString (ascii row.name)
  · unfold stringItem
    rw [lookup_more "type_name" (by decide)]
    show _ = (row.more.lookup "type_name").map ascii
    cases row.more.lookup "type_name" with
    | none => rfl
    | some s => exact hsees.litString (ascii s)
  · rw [lookup_more "default_value" (by decide)]
    show _ = ((row.more.lookup "default_value").map ascii).map some
    cases row.more.lookup "default_value" with
    | none => rfl
    | some s => exact congrArg some (hsees.litString (ascii s))

/-- The literal of a message type describes it. -/
theorem describes_messageLit (hsees : SeesObjects v new lit) {name : String}
    {rows : List FieldRow} (h : ∀ row ∈ rows, row.Plain) :
    DescribesMsg v (messageLit lit name rows)
      ⟨ascii name, rows.map FieldRow.decl, []⟩ := by
  refine ⟨_, rfl, hsees.litString (ascii name), ?_, .inl rfl, .nil⟩
  show List.Forall₂ _ (rows.map (fieldLit lit)) _
  rw [List.forall₂_map_left_iff, List.forall₂_map_right_iff,
    List.forall₂_same]
  exact fun row hrow => describes_row hsees (h row hrow)

/-- So the literal of the built-in definition describes it, and all that is
proved of descriptions applies to it. -/
theorem describes_protofile (hsees : SeesObjects v new lit) :
    ∃ msgtypes, Describes v (protofileDefinition lit) msgtypes metaFile := by
  refine ⟨_, congrArg (·.getD []) (hsees.litString (ascii "google.protobuf")),
    .inl rfl, ?_, .inl rfl, .nil⟩
  dsimp only [metaFile]
  rw [List.forall₂_map_left_iff, List.forall₂_map_right_iff,
    List.forall₂_same]
  exact fun m hm => describes_messageLit hsees (protofile_plain m hm)

-- ===================================================================== enums

/-- What the compiler makes sure of in a file's enums: each has members, and
the names of a scope are distinct. -/
structure FileDecl.Exposable (file : FileDecl) : Prop where
  members : ∀ e ∈ file.enums, e.members ≠ [] ∧
    (e.members.map Prod.fst).Nodup
  names : (file.enums.map EnumDecl.name).Nodup

/-- The attributes are the members of an enum, with their numbers. -/
def ExposesMembers (v : PyView) (attrs : List (Bytes × PyObject))
    (members : List (Bytes × Int32)) : Prop :=
  List.Forall₂ (fun attr member => attr.1 = member.1 ∧
    v.int attr.2 = some member.2.toInt64) attrs members

/-- The attributes are enums. -/
def Exposes (v : PyView) (attrs : List (Bytes × List (Bytes × PyObject)))
    (enums : List EnumDecl) : Prop :=
  List.Forall₂ (fun attr e => attr.1 = e.name ∧
    ExposesMembers v attr.2 e.members) attrs enums

/-- The members of an enum are exposed one by one, if their names are new. -/
theorem enumMembers_ok {objs : List PyObject}
    {members : List (Bytes × Int32)}
    (h : List.Forall₂ (DescribesMember v) objs members)
    {attrs : List (Bytes × PyObject)}
    (hnames : (attrs.map Prod.fst ++ members.map Prod.fst).Nodup) :
    ∃ added, enumMembers v attrs objs = .ok (attrs ++ added) ∧
      ExposesMembers v added members := by
  induction h generalizing attrs with
  | nil => exact ⟨[], by rw [List.append_nil]; rfl, .nil⟩
  | @cons obj member objs members hmember _ ih =>
      obtain ⟨items, name, number, rfl, hname, hstr, hnumber, hint⟩ := hmember
      rw [List.map_cons, List.append_cons] at hnames
      have hnot : member.1 ∉ attrs.map Prod.fst := fun hmem =>
        (List.nodup_append.mp (List.nodup_append.mp hnames).1).2.2
          _ hmem _ List.mem_cons_self rfl
      have hset : Assoc.set member.1 number attrs
          = attrs ++ [(member.1, number)] := Assoc.set_of_not_mem hnot
      obtain ⟨added, hadded, hall⟩ := @ih (attrs ++ [(member.1, number)])
        (by rwa [List.map_append])
      refine ⟨(member.1, number) :: added, ?_, .cons ⟨rfl, hint⟩ hall⟩
      rw [List.append_cons, ← hadded, ← hset]
      simp only [enumMembers, subscript, setAttr, hname, hnumber, hstr,
        orKeyError, Except.bind, bind]

/-- What a loop over the members of an enum goes over. -/
theorem DescribesEnum.members {obj : PyObject} {e : EnumDecl}
    (h : DescribesEnum v obj e) (hne : e.members ≠ []) :
    ∃ items name objs, obj = .dict items ∧
      items.lookup "name" = some name ∧ v.string name = some e.name ∧
      items.lookup "value" = some (.list objs) ∧
      List.Forall₂ (DescribesMember v) objs e.members := by
  obtain ⟨items, name, rfl, hname, hstr, hmembers⟩ := h
  cases hvalue : items.lookup "value" with
  | none =>
      rw [listItem, hvalue] at hmembers
      exact absurd (List.forall₂_nil_left_iff.mp hmembers) hne
  | some value =>
      cases value with
      | list objs =>
          rw [listItem, hvalue] at hmembers
          exact ⟨items, name, objs, rfl, hname, hstr, hvalue, hmembers⟩
      | bool _ | dict _ | other _ =>
          rw [listItem, hvalue] at hmembers
          exact absurd (List.forall₂_nil_left_iff.mp hmembers) hne

/-- So are enums. -/
theorem exposeEnums_ok {objs : List PyObject} {enums : List EnumDecl}
    (h : List.Forall₂ (DescribesEnum v) objs enums)
    (hmembers : ∀ e ∈ enums, e.members ≠ [] ∧
      (e.members.map Prod.fst).Nodup)
    {attrs : List (Bytes × List (Bytes × PyObject))}
    (hnames : (attrs.map Prod.fst ++ enums.map EnumDecl.name).Nodup) :
    ∃ added, exposeEnums v attrs objs = .ok (attrs ++ added) ∧
      Exposes v added enums := by
  induction h generalizing attrs with
  | nil => exact ⟨[], by rw [List.append_nil]; rfl, .nil⟩
  | @cons obj e objs enums he _ ih =>
      obtain ⟨⟨hne, hdistinct⟩, hrest⟩ := List.forall_mem_cons.mp hmembers
      obtain ⟨items, name, values, rfl, hname, hstr, hvalue, hall⟩ :=
        he.members hne
      obtain ⟨members, hloop, hexposes⟩ :=
        @enumMembers_ok v values e.members hall [] hdistinct
      rw [List.map_cons, List.append_cons] at hnames
      have hnot : e.name ∉ attrs.map Prod.fst := fun hmem =>
        (List.nodup_append.mp (List.nodup_append.mp hnames).1).2.2
          _ hmem _ List.mem_cons_self rfl
      have hset : Assoc.set e.name members attrs
          = attrs ++ [(e.name, members)] := Assoc.set_of_not_mem hnot
      obtain ⟨added, hadded, hothers⟩ := @ih hrest
        (attrs ++ [(e.name, members)]) (by rwa [List.map_append])
      refine ⟨(e.name, members) :: added, ?_, .cons ⟨rfl, hexposes⟩ hothers⟩
      rw [List.nil_append] at hloop
      rw [List.append_cons, ← hadded, ← hset]
      simp only [exposeEnums, subscript, setAttr, hname, hvalue, hstr, hloop,
        iterate, orKeyError, Except.bind, bind]

/-- The enums of a file are what its dict lists. -/
theorem enumTypes_ok {items : Items} {enums : List EnumDecl}
    (h : DescribesScope v items enums) :
    enumTypes (.dict items) = .ok (enumList items) := by
  unfold enumTypes enumList listItem
  rcases h.listed with hnone | ⟨elems, hsome⟩
  · simp only [hnone]
    rfl
  · simp only [hsome]
    rfl

-- ==================================================================== codecs

/-- A descriptor of a file that is described. -/
theorem newDescriptor_ok {items : Items} {msgtypes : List PyObject}
    {file : FileDecl} (h : Describes v items msgtypes file)
    (hcompiled : file.Compiled scan) :
    ∃ d, newDescriptor v scan (.dict items) = .ok d ∧
      d.schema = some file.schema ∧
      ∀ k m, file.messages[k]? = some m → m.fields ≠ [] →
        d.messageTypes.lookup (indexName file.package m.name) = some k := by
  obtain ⟨d, hd, hpending, hschema⟩ := h.descriptorInit hcompiled
  refine ⟨d, ?_, hschema, fun k m hk hm => h.index hcompiled hd hk hm⟩
  simp only [newDescriptor, hd, hpending]

/-- What the first descriptor decodes a file set to. -/
theorem decodeWith_ok {d : Descriptor} (uninit : UInt64) {t : Tree}
    (hschema : d.schema = some protofile)
    (ht : t.Typed Value.OfType protofile 0) (hdepth : t.nesting ≤ maxDepth)
    (hlen : (t.wire protofile).bytes.length < 2 ^ 31) :
    decodeWith new uninit d (t.wire protofile).bytes 0
      = .ok (t.fill new protofile []) := by
  have hdec := @decoderDecode_tree new protofile t 0 uninit (by decide)
    protofile_names protofile_distinct protofile_packed ht hdepth hlen
  have hzero : UInt32.ofNat 0 = 0 := rfl
  simp only [decodeWith, hschema, hzero, hdec]

/-- The files of a file set are in the dict. -/
theorem definedFile_ok {t f : Tree} {filenum : Nat}
    (ht : t.Typed Value.OfType protofile 0)
    (hf : (t.messagesNamed "file")[filenum]? = some f) :
    definedFile (t.fill new protofile []) filenum
      = .ok (.dict (f.fill new protofile [])) := by
  have hlisted : Listed (protofile.field ⟨0, 0⟩) _
      (t.fill new protofile []) :=
    messages_proto (by decide) ht rfl rfl
  have hne : ((t.messagesNamed "file").map fun body =>
      PyObject.dict (body.fill new protofile [])) ≠ [] := by
    intro hnil
    rw [List.map_eq_nil_iff.mp hnil] at hf
    cases hf
  have hlookup : (t.fill new protofile []).lookup "file"
      = some (.list ((t.messagesNamed "file").map fun body =>
        PyObject.dict (body.fill new protofile []))) :=
    hlisted.trans (if_neg hne)
  simp only [definedFile, hlookup, orKeyError, iterate, List.getElem?_map, hf,
    Option.map_some, Except.bind, bind]

/-- The content is what a codec is given: that of a file, or with an empty
name of a file a string. -/
def Given (files : Files) (pb2 : Option Bytes) (pb2file : Option String)
    (content : Bytes) : Prop :=
  (∃ path, pb2file = some path ∧ path ≠ "" ∧ files path = some content) ∨
    (pb2file = some "" ∧ pb2 = some content)

/-- The content comes from the string or from the file, whichever is given. -/
theorem readPb2_given {files : Files} {pb2 : Option Bytes}
    {pb2file : Option String} {content : Bytes}
    (h : Given files pb2 pb2file content) :
    readPb2 files pb2 pb2file = .ok content := by
  rcases h with ⟨path, rfl, hpath, hfile⟩ | ⟨rfl, rfl⟩
  · unfold readPb2
    simp only [if_pos hpath, hfile]
  · rfl

/-- The codec of the `k`-th message type of a file. -/
structure Loaded (v : PyView) (new : PythonNew) (file : FileDecl) (k : Nat)
    (codec : MessageCodec) : Prop where
  schema : codec.descriptor.schema = some file.schema
  messagetype : codec.messagetype = k
  enums : Exposes v codec.enums file.enums
  encodes : ∀ py garbage calloc record,
    codec.encode py garbage calloc record
      = encoderEncode py file.schema garbage calloc record (UInt32.ofNat k)
  decodes : ∀ uninit data, codec.decode new uninit data
    = decoderDecode new file.schema uninit data (UInt32.ofNat k)

/-- A codec with the schema and the index has the rest of the calls. -/
theorem loaded_of_schema {file : FileDecl} {k : Nat} {codec : MessageCodec}
    (hschema : codec.descriptor.schema = some file.schema)
    (htype : codec.messagetype = k)
    (henums : Exposes v codec.enums file.enums) :
    Loaded v new file k codec where
  schema := hschema
  messagetype := htype
  enums := henums
  encodes py garbage calloc record := by
    unfold MessageCodec.encode
    rw [hschema, htype]
  decodes uninit data := by
    unfold MessageCodec.decode
    rw [hschema, htype]

/-- The codec of a message type that was compiled. -/
theorem message_codec_loads (hsees : SeesObjects v new lit) (uninit : UInt64)
    {t f : Tree} (ht : t.Typed Value.OfType protofile 0)
    (hdepth : t.nesting ≤ maxDepth)
    (hlen : (t.wire protofile).bytes.length < 2 ^ 31) {filenum : Nat}
    (hf : (t.messagesNamed "file")[filenum]? = some f) {file : FileDecl}
    (hdecl : FileDecl.ofTree f = some file) (hcompiled : file.Compiled scan)
    (hexposable : file.Exposable) {k : Nat} {m : MsgDecl}
    (hk : file.messages[k]? = some m) (hfields : m.fields ≠ [])
    {files : Files} {pb2 : Option Bytes} {pb2file : Option String}
    (hgiven : Given files pb2 pb2file (t.wire protofile).bytes) :
    ∃ codec, newMessageCodec v scan new lit uninit files
        (indexName file.package m.name) pb2 pb2file filenum = .ok codec ∧
      Loaded v new file k codec := by
  obtain ⟨msgtypes, hmeta⟩ := describes_protofile hsees
  obtain ⟨d, hd, hschema, hindex⟩ :=
    newDescriptor_ok hmeta (metaFile_compiled scan)
  rw [metaFile_schema] at hschema
  have hset : d.messageTypes.lookup (ascii "google.protobuf.FileDescriptorSet")
      = some 0 := hindex 0 (metaFile.messages[0]) rfl (by decide)
  have hfile : f.Typed Value.OfType protofile 1 := by
    obtain ⟨ref, href, hname, hbody⟩ := ht.body _ _ f (List.mem_of_getElem? hf)
    have hfield := @field_of_name protofile 0 (protofile.field ⟨0, 0⟩)
      protofile_names (by decide) ref href hname
    rwa [Schema.subDesc, hfield] at hbody
  obtain ⟨filetypes, hdescribes⟩ := describes_file hsees hfile hdecl
  obtain ⟨d', hd', hschema', hindex'⟩ := newDescriptor_ok hdescribes hcompiled
  obtain ⟨enums, henums, hexposes⟩ := @exposeEnums_ok v _ _
    hdescribes.scope.enums hexposable.members [] hexposable.names
  refine ⟨⟨t.fill new protofile [], d', k, enums⟩, ?_,
    loaded_of_schema hschema' rfl hexposes⟩
  rw [List.nil_append] at henums
  simp only [newMessageCodec, readPb2_given hgiven, messageCodec, hd, hset,
    orKeyError,
    decodeWith_ok uninit hschema ht hdepth hlen, definedFile_ok ht hf, hd',
    hindex' k m hk hfields, enumTypes_ok hdescribes.scope, henums,
    Except.bind, bind]

/-- A literal, as an object. -/
def plainLit (s : Scalar) : PyObject := .other (plainId s)

/-- The plain runtime keeps strings and integers. -/
theorem plain_sees : SeesObjects plainView plainNew plainLit where
  newString _ := plainView_string
  newInt n := plainView_int.trans (by rw [Int64.ofInt_toInt])
  litString _ := plainView_string
  litInt _ _ := plainView_int

/-- The field `x` of a message type `M`, its options behind its name. -/
def sampleField : Tree :=
  .scalar ⟨3, 0⟩ (.string [120])
    (.message ⟨3, 7⟩ (.scalar ⟨4, 0⟩ (.bool 1) .nil)
      (.scalar ⟨3, 4⟩ (.enum 5) (.scalar ⟨3, 3⟩ (.enum 3)
        (.scalar ⟨3, 2⟩ (.int32 1) .nil))))

/-- An enum `E` with the member `A`. -/
def sampleEnum : Tree :=
  .message ⟨5, 1⟩ (.scalar ⟨6, 1⟩ (.int32 (-1))
      (.scalar ⟨6, 0⟩ (.string [65]) .nil))
    (.scalar ⟨5, 0⟩ (.string [69]) .nil)

/-- A file of the package `p` with the message type and the enum. -/
def sampleFile : Tree :=
  .message ⟨1, 4⟩ sampleEnum
    (.message ⟨1, 3⟩ (.message ⟨2, 1⟩ sampleField
        (.scalar ⟨2, 0⟩ (.string [77]) .nil))
      (.scalar ⟨1, 1⟩ (.string [112]) .nil))

def sampleDecl : FileDecl where
  package := [112]
  messages := [⟨[77], [⟨[120], 1, .repeated, .int32, none, none, true,
    false⟩], []⟩]
  enums := [⟨[69], [([65], -1)]⟩]

theorem sampleField_typed : sampleField.Typed Value.OfType protofile 3 :=
  ⟨⟨rfl, by decide⟩, rfl, ⟨rfl, by decide⟩,
    ⟨rfl, by decide⟩, rfl, ⟨4, rfl⟩,
    ⟨⟨rfl, by decide⟩, rfl, rfl, trivial⟩,
    ⟨rfl, by decide⟩, rfl, rfl,
    ⟨rfl, by decide⟩, rfl, rfl,
    ⟨rfl, by decide⟩, rfl, .inl rfl, trivial⟩

theorem sampleEnum_typed : sampleEnum.Typed Value.OfType protofile 5 :=
  ⟨⟨rfl, by decide⟩, rfl, ⟨6, rfl⟩,
    ⟨⟨rfl, by decide⟩, rfl, .inl rfl,
      ⟨rfl, by decide⟩, rfl, ⟨rfl, by decide⟩, trivial⟩,
    ⟨rfl, by decide⟩, rfl, ⟨rfl, by decide⟩, trivial⟩

theorem sampleFile_typed : sampleFile.Typed Value.OfType protofile 1 :=
  ⟨⟨rfl, by decide⟩, rfl, ⟨5, rfl⟩, sampleEnum_typed,
    ⟨rfl, by decide⟩, rfl, ⟨2, rfl⟩,
    ⟨⟨rfl, by decide⟩, rfl, ⟨3, rfl⟩, sampleField_typed,
      ⟨rfl, by decide⟩, rfl, ⟨rfl, by decide⟩, trivial⟩,
    ⟨rfl, by decide⟩, rfl, ⟨rfl, by decide⟩, trivial⟩


theorem sampleDecl_compiled : sampleDecl.Compiled fun _ _ => .eof where
  package := by decide
  names := by decide
  distinct := by decide
  resolved := by decide
  defaults := by
    intro m hm f hf str hstr
    obtain rfl := List.mem_singleton.mp hm
    obtain rfl := List.mem_singleton.mp hf
    cases hstr

/-- The sample is short. -/
theorem sample_length : ((Tree.message ⟨0, 0⟩ sampleFile .nil).wire
    protofile).bytes.length < 2 ^ 31 := by
  decide +kernel

/-- A message type with a field and an enum, read from a file by its name. -/
theorem message_codec_loads_sample :
    ∃ codec, newMessageCodec plainView (fun _ _ => .eof) plainNew plainLit 0
        (fun path => if path = "sample.pb2" then some ((Tree.message ⟨0, 0⟩
          sampleFile .nil).wire protofile).bytes else none)
        (indexName [112] [77]) none (some "sample.pb2") 0 = .ok codec ∧
      Loaded plainView plainNew sampleDecl 0 codec :=
  @message_codec_loads plainView plainNew plainLit (fun _ _ => .eof)
    plain_sees 0 (.message ⟨0, 0⟩ sampleFile .nil) sampleFile
    ⟨⟨rfl, by decide⟩, rfl, ⟨1, rfl⟩, sampleFile_typed, trivial⟩
    (by decide) sample_length 0 rfl sampleDecl (by decide)
    sampleDecl_compiled ⟨by decide, by decide⟩ 0 (sampleDecl.messages[0]) rfl
    (List.cons_ne_nil _ _) _ none (some "sample.pb2")
    (.inl ⟨"sample.pb2", rfl, by decide, if_pos rfl⟩)

end Lwpb.Python
