/-
The index of the message types.

`Descriptor_init` passes over a message type that has no list under "field",
before it has looked at the name: such a message type gets neither a name
nor an entry in the index. The others are indexed under their name, as far
as a C string reaches. So the index is complete exactly if every message
type has a list of fields and no name is cut short (`message_index_iff`).

What a field descriptor should have is said by the entries of the field
(`HasEntries`): the numbers as they go into 32, 2 and 6 bits, the name, and
the flags one by one.

There are two passes over the message types. The first names the message
types and puts the names into a dict (`mem_nameMessages`,
`entry_nameMessages`), the second makes the field descriptors, and what it
does behind the properties, the default and the message descriptor, leaves
them (`props_of_initField`). `Made` is what the two passes leave together,
and everything about the index is said of it.
-/
import Lwpb.Lib.TwosComplement
import Lwpb.Proofs.Python.Descriptor
import Lwpb.Proofs.Rpc.Framing

namespace Lwpb.Python

open TwosComplement

variable {v : PyView} {scan : Scanner} {dict : List (String × PyObject)}
  {d : Descriptor}

-- ================================================================ the index

/-- The message types that a file lists. -/
def messageTypeList (dict : List (String × PyObject)) : List PyObject :=
  (listItem dict "message_type").getD []

/-- The package, a dot and the name. -/
def indexName (package name : Bytes) : Bytes := package ++ 46 :: name

/-- The number that an entry of a field gives; 0 where there is none. -/
def entryNumber (v : PyView) (items : List (String × PyObject))
    (name : String) : Int :=
  (((items.lookup name).bind v.int).map Int64.toInt).getD 0

/-- An option of a field that is `True`. -/
def OptionTrue (items : List (String × PyObject)) (name : String) : Prop :=
  ∃ options, items.lookup "options" = some (.dict options) ∧
    options.lookup name = some (.bool true)

/-- A field descriptor has what the entries of the field say. -/
structure HasEntries (v : PyView) (items : List (String × PyObject))
    (f : CField) : Prop where
  number : f.number.toNat = residue 32 (entryNumber v items "number")
  label : f.label = residue 2 (entryNumber v items "label")
  typ : f.typ = residue 6 (entryNumber v items "type")
  name : f.name = (items.lookup "name").bind v.string
  defaulted : f.flags.testBit 0 = true ↔ items.lookup "default_value" ≠ none
  packed : f.flags.testBit 1 = true ↔ OptionTrue items "packed"
  deprecated : f.flags.testBit 2 = true ↔ OptionTrue items "deprecated"

/-- The descriptor of a field has its properties; what is listed without
being a dict has none. -/
def HasProps (v : PyView) (field : PyObject) (f : CField) : Prop :=
  match field with
  | .dict items => HasEntries v items f
  | _ => f = .zero

/-- The index has the position of every message type under its name, and
nothing else; and each message type has its name and its fields. -/
structure Indexed (v : PyView) (dict : List (String × PyObject))
    (d : Descriptor) : Prop where
  index : ∀ key i, (key, i) ∈ d.messageTypes ↔
    ∃ m name, (messageTypeList dict)[i]? = some m ∧
      messageName v m = some name ∧ key = indexName (packageOf v dict) name
  messages : ∀ (i : Nat) m, (messageTypeList dict)[i]? = some m →
    ∃ msg : CMsg, d.msgDesc[i]? = some msg ∧ msg.name = messageName v m ∧
      List.Forall₂ (HasProps v) (fieldList m) msg.fields

/-- Every message type has a list of fields, and no NUL is in a name. -/
structure Indexable (v : PyView) (dict : List (String × PyObject)) :
    Prop where
  listed : ∀ m ∈ messageTypeList dict, ∃ items fields, m = .dict items ∧
    listItem items "field" = some fields
  names : ∀ m ∈ messageTypeList dict, ∀ name, messageName v m = some name →
    0 ∉ name
  package : messageTypeList dict ≠ [] → 0 ∉ packageOf v dict

-- =================================================================== fields

/-- A number that is stored in a few bits. -/
theorem intItem_residue {w : Nat} (hw : w ≤ 64)
    (items : List (String × PyObject)) (name : String) :
    ((intItem v items name).map fun n : Int64 =>
      n.toUInt64.toNat % 2 ^ w).getD 0
      = residue w (entryNumber v items name) := by
  unfold entryNumber intItem
  cases (items.lookup name).bind v.int with
  | none => rfl
  | some n =>
      show n.toUInt64.toNat % 2 ^ w = residue w n.toInt
      rw [int64_word, residue_mod hw]

/-- The number of a field, as 32 bits of it are stored. -/
theorem intItem_number (items : List (String × PyObject)) (name : String) :
    (((intItem v items name).map fun n : Int64 =>
      n.toUInt64.toUInt32).getD 0).toNat
      = residue 32 (entryNumber v items name) := by
  rw [← intItem_residue (by decide)]
  cases intItem v items name with
  | none => rfl
  | some n => exact UInt64.toNat_toUInt32 n.toUInt64

/-- A flag is there if its option is `True`, and nothing else is. -/
theorem optionFlag_cases (items : List (String × PyObject)) (name : String)
    (flag : Nat) :
    (OptionTrue items name ∧ optionFlag
        ((items.lookup "options").bind PyObject.asDict) name flag = flag) ∨
      (¬ OptionTrue items name ∧ optionFlag
        ((items.lookup "options").bind PyObject.asDict) name flag = 0) := by
  by_cases h : OptionTrue items name
  · obtain ⟨options, hoptions, htrue⟩ := h
    refine .inl ⟨⟨options, hoptions, htrue⟩, ?_⟩
    rw [hoptions]
    show optionFlag (some options) name flag = flag
    unfold optionFlag
    rw [Option.bind_some, htrue]
  · refine .inr ⟨h, ?_⟩
    unfold optionFlag
    split
    · next htrue =>
        obtain ⟨options, hoptions, htrue⟩ := Option.bind_eq_some_iff.mp htrue
        obtain ⟨obj, hobj, hdict⟩ := Option.bind_eq_some_iff.mp hoptions
        cases obj with
        | dict items' =>
            obtain rfl := Option.some.inj hdict
            exact absurd ⟨items', hobj, htrue⟩ h
        | list elems => cases hdict
        | bool b => cases hdict
        | other id => cases hdict
    · rfl

/-- An option is true exactly if its flag bit is set. -/
theorem optionTrue_iff (items : List (String × PyObject)) (name : String) :
    OptionTrue items name ↔ optionFlag
      ((items.lookup "options").bind PyObject.asDict) name 1 = 1 := by
  rcases optionFlag_cases items name 1 with ⟨hset, heq⟩ | ⟨hset, heq⟩
  · simp [hset, heq]
  · simp [hset, heq]

/-- The flags that are set from the options alone. -/
theorem fieldProps_flags (items : List (String × PyObject)) :
    (fieldProps v items).flags.testBit 0 = false ∧
      ((fieldProps v items).flags.testBit 1 = true ↔
        OptionTrue items "packed") ∧
      ((fieldProps v items).flags.testBit 2 = true ↔
        OptionTrue items "deprecated") := by
  unfold fieldProps
  dsimp only
  rcases optionFlag_cases items "packed" isPacked with
    ⟨hpacked, heq⟩ | ⟨hpacked, heq⟩ <;>
  rcases optionFlag_cases items "deprecated" isDeprecated with
    ⟨hold, heq'⟩ | ⟨hold, heq'⟩ <;>
  · rw [heq, heq']
    simp only [hpacked, hold]
    decide

/-- The default sets its own members only. -/
theorem initDefault_sets {msgtype field : List (String × PyObject)}
    {package : Bytes} {mname : Option Bytes} {f f' : CField}
    {p : Option PyErr}
    (h : initDefault v scan dict msgtype package mname f field = .ok (f', p)) :
    f' = { f with
      defaultValue := f'.defaultValue
      flags := f'.flags } := by
  unfold initDefault at h
  split at h
  · cases h
    rfl
  · next prop hprop =>
      split at h
      · cases h
        rfl
      · obtain ⟨name, -, h⟩ := Sequence.ok_of_bind h
        cases h

/-- The flag for a default is set with it, and no other flag is. -/
theorem initDefault_flags {msgtype field : List (String × PyObject)}
    {package : Bytes} {mname : Option Bytes} {f f' : CField}
    {p : Option PyErr}
    (h : initDefault v scan dict msgtype package mname f field = .ok (f', p)) :
    f'.flags = if field.lookup "default_value" = none then f.flags
      else f.flags ||| hasDefault := by
  unfold initDefault at h
  split at h
  · next hnone =>
      cases h
      rw [if_pos hnone]
  · next prop hprop =>
      rw [if_neg (by rw [hprop]; exact Option.some_ne_none prop)]
      split at h
      · cases h
        rfl
      · obtain ⟨name, -, h⟩ := Sequence.ok_of_bind h
        cases h

/-- The descriptor of a message field sets one member only. -/
theorem initMsgDesc_sets {field : List (String × PyObject)} {package : Bytes}
    {msgtypes : List PyObject} {mname : Option Bytes} {f f' : CField}
    (h : initMsgDesc v package msgtypes mname f field = .ok f') :
    f' = { f with msgDesc := f'.msgDesc } := by
  unfold initMsgDesc at h
  split at h
  · cases h
    rfl
  · simp only at h
    split at h
    · cases h
      rfl
    · obtain ⟨name, -, h⟩ := Sequence.ok_of_bind h
      cases h

/-- What else is set in a descriptor leaves the properties. -/
theorem props_of_initField {msgtype : List (String × PyObject)}
    {package : Bytes} {msgtypes : List PyObject} {mname : Option Bytes}
    {field : PyObject} {f : CField} {p : Option PyErr}
    (h : initField v scan dict msgtype package msgtypes mname field
      = .ok (f, p)) : HasProps v field f := by
  cases field with
  | dict items =>
      obtain ⟨⟨f₁, p₁⟩, hdefault, h⟩ := Sequence.ok_of_bind h
      obtain ⟨f₂, hdesc, h⟩ := Sequence.ok_of_bind h
      cases h
      have hflags := initDefault_flags hdefault
      obtain ⟨hzero, hpacked, hold⟩ := @fieldProps_flags v items
      rw [initMsgDesc_sets hdesc, initDefault_sets hdefault]
      have htwo : 2 ≤ 64 := by decide
      have hsix : 6 ≤ 64 := by decide
      refine ⟨intItem_number items "number",
        intItem_residue htwo items "label", intItem_residue hsix items "type",
        rfl, ?_, ?_, ?_⟩
      · show f₁.flags.testBit 0 = true ↔ _
        rw [hflags]
        split <;> simp [*, hasDefault]
      · show f₁.flags.testBit 1 = true ↔ _
        rw [hflags, ← hpacked]
        split
        · rfl
        · have hbit : hasDefault.testBit 1 = false := by decide
          rw [Nat.testBit_or, hbit, Bool.or_false]
      · show f₁.flags.testBit 2 = true ↔ _
        rw [hflags, ← hold]
        split
        · rfl
        · have hbit : hasDefault.testBit 2 = false := by decide
          rw [Nat.testBit_or, hbit, Bool.or_false]
  | list elems =>
      cases h
      rfl
  | bool b =>
      cases h
      rfl
  | other id =>
      cases h
      rfl

-- ==================================================================== names

/-- The key of a message descriptor that has a name. -/
def indexKey (package : Bytes) (m : CMsg) : Bytes :=
  indexName (cstr package) (cstr (m.name.getD []))

/-- The index has no other keys. -/
theorem mem_nameMessages {package key : Bytes} {ms : List CMsg} {i : Nat}
    {types : List (Bytes × Nat)}
    (h : key ∈ (nameMessages package i ms types).map Prod.fst) :
    key ∈ types.map Prod.fst ∨ ∃ m ∈ ms, key = indexKey package m := by
  induction ms generalizing i types with
  | nil => exact .inl h
  | cons m ms ih =>
      rw [nameMessages] at h
      rcases ih h with h | ⟨m', hm', hkey⟩
      · cases hname : m.name with
        | none =>
            rw [hname] at h
            exact .inl h
        | some name =>
            rw [hname] at h
            rcases Assoc.mem_set.mp h with rfl | h
            · refine .inr ⟨m, List.mem_cons_self, ?_⟩
              rw [indexKey, hname]
              rfl
            · exact .inl h
      · exact .inr ⟨m', List.mem_cons_of_mem m hm', hkey⟩

/-- With distinct keys, each has the position of its message type. -/
theorem entry_nameMessages {package key : Bytes} {ms : List CMsg}
    {i j : Nat} {types : List (Bytes × Nat)}
    (hnamed : ∀ m ∈ ms, m.name ≠ none)
    (hkeys : (ms.map (indexKey package)).Nodup)
    (hnew : ∀ m ∈ ms, indexKey package m ∉ types.map Prod.fst) :
    (key, j) ∈ nameMessages package i ms types ↔
      (key, j) ∈ types ∨
        ∃ n m, ms[n]? = some m ∧ key = indexKey package m ∧ j = i + n := by
  induction ms generalizing i types with
  | nil => simp [nameMessages]
  | cons m ms ih =>
      obtain ⟨hm, hnamed⟩ := List.forall_mem_cons.mp hnamed
      obtain ⟨hfirst, hnew⟩ := List.forall_mem_cons.mp hnew
      obtain ⟨hdiff, hkeys⟩ := List.nodup_cons.mp hkeys
      have hset : nameMessages package i (m :: ms) types
          = nameMessages package (i + 1) ms
            (Assoc.set (indexKey package m) i types) := by
        rw [nameMessages, indexKey]
        cases hname : m.name with
        | none => exact absurd hname hm
        | some name => rfl
      have hnext := @ih (i + 1) (Assoc.set (indexKey package m) i types)
        hnamed hkeys
        fun m' hm' hmem => by
          rcases Assoc.mem_set.mp hmem with heq | hmem
          · exact hdiff (heq ▸ List.mem_map_of_mem hm')
          · exact hnew m' hm' hmem
      rw [hset, hnext, Assoc.set_of_not_mem hfirst, List.mem_append,
        List.mem_singleton, Prod.mk.injEq, or_assoc]
      refine or_congr_right ?_
      constructor
      · intro h
        rcases h with ⟨hkey, hj⟩ | ⟨n, m', hn, hkey, hj⟩
        · exact ⟨0, m, rfl, hkey, hj⟩
        · exact ⟨n + 1, m', hn, hkey, by omega⟩
      · intro h
        obtain ⟨n, m', hn, hkey, hj⟩ := h
        cases n with
        | zero =>
            obtain rfl := Option.some.inj hn
            exact .inl ⟨hkey, hj⟩
        | succ n => exact .inr ⟨n, m', hn, hkey, by omega⟩

/-- A NUL is in no key. -/
theorem not_mem_indexKey (package : Bytes) (m : CMsg) :
    0 ∉ indexKey package m := by
  unfold indexKey indexName
  rw [List.mem_append, List.mem_cons]
  rintro (h | h | h)
  · exact not_mem_cstr _ h
  · cases h
  · exact not_mem_cstr _ h

/-- A message with a list of fields has its name. -/
theorem allocMessage_listed {m : PyObject} {items : List (String × PyObject)}
    {fields : List PyObject} (hm : m = .dict items)
    (hfields : listItem items "field" = some fields) :
    (allocMessage v m).name = messageName v m := by
  have hmessage : messageFields m = some (items, fields) := by
    rw [hm]
    show (listItem items "field").bind (fun fields => some (items, fields))
      = _
    rw [hfields]
    rfl
  unfold allocMessage
  rw [hmessage, hm]
  rfl

/-- One without has none. -/
theorem allocMessage_unlisted {m : PyObject}
    (h : ∀ items fields, m = .dict items →
      listItem items "field" ≠ some fields) :
    (allocMessage v m).name = none := by
  unfold allocMessage
  cases hm : messageFields m with
  | none => rfl
  | some found =>
      obtain ⟨hdict, hfields⟩ := messageFields_some hm
      exact absurd hfields (h _ _ hdict)

-- ================================================================== results

/-- What an initialised descriptor has of its message types. -/
structure Made (v : PyView) (dict : List (String × PyObject))
    (d : Descriptor) : Prop where
  index : d.messageTypes = nameMessages (packageOf v dict) 0
    ((messageTypeList dict).map (allocMessage v)) []
  messages : ∀ (i : Nat) m, (messageTypeList dict)[i]? = some m →
    ∃ msg : CMsg, d.msgDesc[i]? = some msg ∧
      msg.name = (allocMessage v m).name ∧
      List.Forall₂ (HasProps v) (fieldList m) msg.fields

/-- What is compiled is made from the entries. -/
theorem made_of_descriptorInit (hok : descriptorInit v scan dict = .ok d) :
    Made v dict d := by
  cases hlist : dict.lookup "message_type" with
  | none =>
      have hnil : messageTypeList dict = [] := by
        unfold messageTypeList listItem
        rw [hlist]
        rfl
      unfold descriptorInit at hok
      rw [hlist] at hok
      obtain rfl := Except.ok.inj hok
      refine ⟨?_, fun i m hi => ?_⟩
      · rw [hnil]
        rfl
      · rw [hnil] at hi
        cases hi
  | some types =>
      cases types with
      | list msgtypes =>
          have hmsgtypes : messageTypeList dict = msgtypes := by
            unfold messageTypeList listItem
            rw [hlist]
            rfl
          obtain ⟨rs, hrs, rfl⟩ := inits_of_descriptorInit hlist hok
          refine ⟨by rw [hmsgtypes], fun i m hi => ?_⟩
          rw [hmsgtypes] at hi
          obtain ⟨r, hr, hm⟩ := Sequence.getElem?_of_mapM hrs hi
          obtain ⟨hname, hfields⟩ := fields_of_initMessage hm
          refine ⟨r.1, ?_, hname, hfields.imp fun field f h => ?_⟩
          · rw [List.getElem?_map, hr]
            rfl
          · obtain ⟨items, p, -, hfield⟩ := h
            exact props_of_initField hfield
      | dict items | bool b | other id =>
          unfold descriptorInit at hok
          rw [hlist] at hok
          cases hok

/-- A complete index has names that are not cut short, of message types
that have fields. -/
theorem indexable_of_indexed (hmade : Made v dict d)
    (hnamed : ∀ m ∈ messageTypeList dict, ∃ name,
      messageName v m = some name) (h : Indexed v dict d) :
    Indexable v dict := by
  have hnul : ∀ m ∈ messageTypeList dict, ∀ name,
      messageName v m = some name →
        0 ∉ indexName (packageOf v dict) name := by
    intro m hm name hname hmem
    obtain ⟨i, hi⟩ := List.mem_iff_getElem?.mp hm
    have hentry := (h.index _ i).mpr ⟨m, name, hi, hname, rfl⟩
    rw [hmade.index] at hentry
    rcases mem_nameMessages (List.mem_map_of_mem hentry) with
      hno | ⟨m', -, hkey⟩
    · cases hno
    · have hkey' : indexName (packageOf v dict) name
          = indexKey (packageOf v dict) m' := hkey
      rw [hkey'] at hmem
      exact not_mem_indexKey _ _ hmem
  refine ⟨fun m hm => ?_, fun m hm name hname hmem => ?_, fun hne hmem => ?_⟩
  · by_contra hno
    obtain ⟨i, hi⟩ := List.mem_iff_getElem?.mp hm
    obtain ⟨name, hname⟩ := hnamed m hm
    obtain ⟨msg, hmsg, hgiven, -⟩ := h.messages i m hi
    obtain ⟨msg', hmsg', halloc, -⟩ := hmade.messages i m hi
    obtain rfl := Option.some.inj (hmsg.symm.trans hmsg')
    rw [hgiven, hname, allocMessage_unlisted] at halloc
    · cases halloc
    · exact fun items fields hdict hfields =>
        hno ⟨items, fields, hdict, hfields⟩
  · exact hnul m hm name hname (List.mem_append_right _
      (List.mem_cons_of_mem _ hmem))
  · obtain ⟨m, hm⟩ := List.exists_mem_of_ne_nil _ hne
    obtain ⟨name, hname⟩ := hnamed m hm
    exact hnul m hm name hname (List.mem_append_left _ hmem)

/-- Message types with fields, and with names that are not cut short, are
all indexed. -/
theorem indexed_of_indexable (hmade : Made v dict d)
    (hnamed : ∀ m ∈ messageTypeList dict, ∃ name,
      messageName v m = some name)
    (hdistinct : ((messageTypeList dict).map (messageName v)).Nodup)
    (h : Indexable v dict) : Indexed v dict d := by
  have halloc : ∀ m ∈ messageTypeList dict,
      (allocMessage v m).name = messageName v m := by
    intro m hm
    obtain ⟨items, fields, hdict, hfields⟩ := h.listed m hm
    exact allocMessage_listed hdict hfields
  have hkey : ∀ m ∈ messageTypeList dict, ∀ name,
      messageName v m = some name →
        indexKey (packageOf v dict) (allocMessage v m)
          = indexName (packageOf v dict) name := by
    intro m hm name hname
    have hpackage := h.package (List.ne_nil_of_mem hm)
    unfold indexKey
    rw [halloc m hm, hname, cstr_of_not_mem hpackage]
    exact congrArg _ (cstr_of_not_mem (h.names m hm name hname))
  have hkeys : (((messageTypeList dict).map (allocMessage v)).map
      (indexKey (packageOf v dict))).Nodup := by
    rw [List.map_map]
    refine hdistinct.of_map.map_on fun m hm m' hm' heq => ?_
    obtain ⟨name, hname⟩ := hnamed m hm
    obtain ⟨name', hname'⟩ := hnamed m' hm'
    have hsame : indexKey (packageOf v dict) (allocMessage v m)
        = indexKey (packageOf v dict) (allocMessage v m') := heq
    rw [hkey m hm name hname, hkey m' hm' name' hname'] at hsame
    have htail := List.append_cancel_left hsame
    refine List.inj_on_of_nodup_map hdistinct hm hm' ?_
    rw [hname, hname', (List.cons.inj htail).2]
  have hentry : ∀ key i, (key, i) ∈ d.messageTypes ↔
      ∃ m, (messageTypeList dict)[i]? = some m ∧
        key = indexKey (packageOf v dict) (allocMessage v m) := by
    intro key i
    rw [hmade.index, entry_nameMessages (by
      intro m hm
      obtain ⟨m', hm', rfl⟩ := List.mem_map.mp hm
      obtain ⟨name, hname⟩ := hnamed m' hm'
      rw [halloc m' hm', hname]
      exact Option.some_ne_none name) hkeys fun _ _ => List.not_mem_nil]
    simp [List.getElem?_map]
  refine ⟨fun key i => ?_, fun i m hi => ?_⟩
  · rw [hentry]
    constructor
    · intro h
      obtain ⟨m, hi, hk⟩ := h
      obtain ⟨name, hname⟩ := hnamed m (List.mem_of_getElem? hi)
      refine ⟨m, name, hi, hname, ?_⟩
      rw [hk, hkey m (List.mem_of_getElem? hi) name hname]
    · intro h
      obtain ⟨m, name, hi, hname, hk⟩ := h
      refine ⟨m, hi, ?_⟩
      rw [hk, hkey m (List.mem_of_getElem? hi) name hname]
  · obtain ⟨msg, hmsg, hname, hfields⟩ := hmade.messages i m hi
    exact ⟨msg, hmsg, hname.trans (halloc m (List.mem_of_getElem? hi)),
      hfields⟩

/-- Where `Descriptor_init` succeeds, the index of distinctly named message
types is complete if and only if each has a list of fields, and no name is
cut short. -/
theorem message_index_iff
    (hnamed : ∀ m ∈ messageTypeList dict, ∃ name,
      messageName v m = some name)
    (hdistinct : ((messageTypeList dict).map (messageName v)).Nodup)
    (hok : descriptorInit v scan dict = .ok d) :
    Indexed v dict d ↔ Indexable v dict := by
  have hmade := made_of_descriptorInit hok
  constructor
  · exact indexable_of_indexed hmade hnamed
  · exact indexed_of_indexable hmade hnamed hdistinct

/-- A file with one message type `A`, that has this beside its name. -/
def oneMessage (more : List (String × PyObject)) :
    List (String × PyObject) :=
  [("message_type", .list [.dict (("name", pyString [65]) :: more)])]

/-- The name of a message that has one. -/
theorem oneMessage_name (more : List (String × PyObject)) :
    messageName plainView (.dict (("name", pyString [65]) :: more))
      = some [65] := by
  show plainView.string (pyString [65]) = some [65]
  exact plainView_string

/-- A field of a message type. -/
def fieldEntry (name : Bytes) (number label typ : Int)
    (more : List (String × PyObject)) : PyObject :=
  .dict (("name", pyString name) :: ("number", pyInt number)
    :: ("label", pyInt label) :: ("type", pyInt typ) :: more)

/-- The package `p` with the message type `A`, which has a packed `int32`
field and one of type `B`, and the message type `B`, which has a string. -/
def twoMessages : List (String × PyObject) :=
  [("package", pyString [112]),
    ("message_type", .list
      [.dict [("name", pyString [65]), ("field", .list
          [fieldEntry [102] 1 3 5 [("options", .dict [("packed", .bool true)])],
            fieldEntry [103] 2 1 11
              [("type_name", pyString [46, 112, 46, 66])]])],
        .dict [("name", pyString [66]), ("field", .list
          [fieldEntry [115] 7 1 9 []])]])]

/-- The names of the example. -/
theorem twoMessages_names :
    (messageTypeList twoMessages).map (messageName plainView)
      = [some [65], some [66]] := by
  decide +kernel

/-- Its file is in the domain of the theorem. -/
theorem twoMessages_indexable : Indexable plainView twoMessages where
  listed := by
    intro m hm
    rcases List.mem_pair.mp hm with rfl | rfl
    · exact ⟨_, _, rfl, rfl⟩
    · exact ⟨_, _, rfl, rfl⟩
  names := by
    intro m hm name hname
    have hmem : some name ∈ [some [65], some [66]] := by
      rw [← twoMessages_names, ← hname]
      exact List.mem_map_of_mem hm
    rcases List.mem_pair.mp hmem with h | h <;> cases h <;> decide
  package := fun _ => by decide +kernel

/-- The index of the two has both, under their names. -/
theorem message_index_iff_two :
    ∃ d, descriptorInit plainView (fun _ _ => .eof) twoMessages = .ok d ∧
      Indexed plainView twoMessages d := by
  have hok : (descriptorInit plainView (fun _ _ => .eof)
      twoMessages).isOk = true := by decide +kernel
  cases hinit : descriptorInit plainView (fun _ _ => .eof) twoMessages with
  | error stop =>
      rw [hinit] at hok
      cases hok
  | ok d =>
      refine ⟨d, rfl, (message_index_iff ?_ ?_ hinit).mpr
        twoMessages_indexable⟩
      · intro m hm
        refine Option.ne_none_iff_exists'.mp fun hnone => ?_
        have hmem := List.mem_map_of_mem (f := messageName plainView) hm
        rw [twoMessages_names, hnone] at hmem
        exact absurd hmem (by decide)
      · rw [twoMessages_names]
        decide

/-- A message type without a field is not indexed, and has no name. -/
theorem empty_message_not_indexed :
    ∃ d, descriptorInit plainView (fun _ _ => .eof) (oneMessage []) = .ok d ∧
      ((messageTypeList (oneMessage [])).map (messageName plainView)).Nodup ∧
      d.messageTypes = [] ∧ d.msgDesc.map (·.name) = [none] ∧
      ¬ Indexed plainView (oneMessage []) d := by
  refine ⟨⟨[⟨[], none⟩], [], none⟩, by rfl, List.nodup_singleton _, rfl, rfl,
    fun h => ?_⟩
  have hentry := (h.index [46, 65] 0).mpr
    ⟨_, [65], rfl, oneMessage_name [], rfl⟩
  cases hentry

end Lwpb.Python
