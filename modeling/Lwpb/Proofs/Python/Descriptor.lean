/-
Type names, resolved.

A field of a message type names it as the compiler does: behind a dot, with
the package in front if there is one. `Descriptor_init` compares the name
with a dot, the package, a dot and the name of each message type, whether
there is a package or not. With a package that is the name as it is
written, and every field finds its message type, wherever it stands; without
one no field does (`type_names_resolve_iff`).

The search for a message type is a comparison of strings that are put
together for it (`qualified`). Inside one package they are equal exactly
if the names are (`qualified_inj`), so that the first that is found is the
one that is meant; against the name in a field they are compared in
`qualified_eq_fullName` and `qualified_ne_fullName`, with a package and
without. The rest of the module says what `Descriptor_init` does when
nothing is refused, in terms that the later modules use as well.
-/
import Lwpb.Lib.Sequence
import Lwpb.Python.Descriptor
import Lwpb.Python.Runtime
import Mathlib.Data.List.TakeWhile

namespace Lwpb.Python

variable {v : PyView} {scan : Scanner}

-- ======================================================== file descriptors

/-- The fields of a message type. -/
def fieldList (msgtype : PyObject) : List PyObject :=
  ((messageFields msgtype).map Prod.snd).getD []

/-- The field is of `TYPE_MESSAGE`. -/
def IsMessageField (v : PyView) (field : PyObject) : Prop :=
  ∃ items, field = .dict items ∧
    FieldType.ofCode (fieldProps v items).typ = some .message

/-- The type name of a field. -/
def typeNameOf (v : PyView) (field : PyObject) : Option Bytes :=
  field.asDict.bind fun items => stringItem v items "type_name"

/-- A message type's name, as the compiler writes it into a field. -/
def fullName (package name : Bytes) : Bytes :=
  if package = [] then 46 :: name else 46 :: package ++ 46 :: name

/-- The dict is a file descriptor with these message types, and without
default values. -/
structure IsFile (v : PyView) (dict : List (String × PyObject))
    (msgtypes : List PyObject) : Prop where
  messageTypes : dict.lookup "message_type" = some (.list msgtypes) ∨
    (dict.lookup "message_type" = none ∧ msgtypes = [])
  package : 0 ∉ packageOf v dict
  named : ∀ m ∈ msgtypes, ∃ name, messageName v m = some name ∧ 0 ∉ name
  distinct : (msgtypes.map (messageName v)).Nodup
  typed : ∀ m ∈ msgtypes, ∀ field ∈ fieldList m, IsMessageField v field →
    ∃ target ∈ msgtypes, ∃ name, messageName v target = some name ∧
      typeNameOf v field = some (fullName (packageOf v dict) name)
  noDefaults : ∀ m ∈ msgtypes, ∀ field ∈ fieldList m, ∀ items,
    field = .dict items → items.lookup "default_value" = none

/-- Every field of `TYPE_MESSAGE` has the descriptor of the message type it
names. -/
def Resolves (v : PyView) (dict : List (String × PyObject))
    (msgtypes : List PyObject) (d : Descriptor) : Prop :=
  ∀ (i j k : Nat) (m field target : PyObject) (name : Bytes),
    msgtypes[i]? = some m → (fieldList m)[j]? = some field →
    IsMessageField v field → msgtypes[k]? = some target →
    messageName v target = some name →
    typeNameOf v field = some (fullName (packageOf v dict) name) →
    ∃ (msg : CMsg) (f : CField), d.msgDesc[i]? = some msg ∧
      msg.fields[j]? = some f ∧ f.msgDesc = some k

variable {dict : List (String × PyObject)} {msgtypes : List PyObject}

/-- The name of a message of a file has no NUL. -/
theorem IsFile.name_nul (hfile : IsFile v dict msgtypes) {m : PyObject}
    (hm : m ∈ msgtypes) {name : Bytes} (hname : messageName v m = some name) :
    0 ∉ name := by
  obtain ⟨name', hname', hnul⟩ := hfile.named m hm
  rwa [Option.some.inj (hname.symm.trans hname')]

-- =================================================================== names

/-- Without a NUL, C reads the whole byte string. -/
theorem cstr_of_not_mem {str : Bytes} (h : 0 ∉ str) : cstr str = str := by
  have hall : ∀ b ∈ str, (b != 0) = true := fun b hb =>
    bne_iff_ne.mpr fun heq => h (heq ▸ hb)
  unfold cstr
  rw [List.takeWhile_eq_self_iff]
  exact hall

/-- With a package the name that is compared is the name as it is
written. -/
theorem qualified_eq_fullName {package name : Bytes} (hne : package ≠ [])
    (hpackage : 0 ∉ package) (hname : 0 ∉ name) :
    qualified package name = fullName package name := by
  unfold qualified fullName
  rw [if_neg hne, cstr_of_not_mem hpackage, cstr_of_not_mem hname]

/-- Without a package it is longer. -/
theorem qualified_ne_fullName {name : Bytes} (hname : 0 ∉ name) :
    qualified [] name ≠ fullName [] name := by
  unfold qualified fullName
  rw [if_pos rfl, cstr_of_not_mem hname]
  intro heq
  have hlen := congrArg List.length heq
  simp [cstr] at hlen

/-- Two names of one package that are qualified alike are the same name. -/
theorem qualified_inj {package a b : Bytes} (ha : 0 ∉ a) (hb : 0 ∉ b)
    (h : qualified package a = qualified package b) : a = b := by
  unfold qualified at h
  rw [cstr_of_not_mem ha, cstr_of_not_mem hb] at h
  have htail := List.append_cancel_left h
  exact (List.cons.inj htail).2

/-- A message type is found under its qualified name. -/
theorem findMessage_qualified (hfile : IsFile v dict msgtypes) {k : Nat}
    {target : PyObject} {name : Bytes} (hk : msgtypes[k]? = some target)
    (hname : messageName v target = some name) (package : Bytes) :
    findMessage v package msgtypes (qualified package name) = some k := by
  have hnul := hfile.name_nul (List.mem_of_getElem? hk) hname
  refine Assoc.findIdx?_of_nodup hfile.distinct hk ?_ fun m hm hfound => ?_
  · rw [hname]
    exact decide_eq_true rfl
  · obtain ⟨other, hother, hnul'⟩ := hfile.named m hm
    rw [hother] at hfound ⊢
    rw [hname, qualified_inj hnul' hnul (of_decide_eq_true hfound)]

/-- The search compares qualified names, so what it finds has the qualified
name that was asked for. -/
theorem qualified_of_findMessage {package typename name : Bytes} {k : Nat}
    {target : PyObject} (h : findMessage v package msgtypes typename = some k)
    (hk : msgtypes[k]? = some target)
    (hname : messageName v target = some name) :
    qualified package name = typename := by
  obtain ⟨hlt, hfound, -⟩ := List.findIdx?_eq_some_iff_getElem.mp h
  obtain ⟨hlt', rfl⟩ := List.getElem?_eq_some_iff.mp hk
  rw [hname] at hfound
  exact of_decide_eq_true hfound

-- =================================================================== fields

section Fields

variable {msgtype items : List (String × PyObject)} {package : Bytes}
  {mname : Option Bytes}

/-- Without a `default_value` the field is left as it was. -/
theorem initDefault_none {f : CField}
    (h : items.lookup "default_value" = none) :
    initDefault v scan dict msgtype package mname f items = .ok (f, none) := by
  unfold initDefault
  rw [h]

/-- Without a default, a field is what is found for its type name. -/
theorem initField_eq (h : items.lookup "default_value" = none) :
    initField v scan dict msgtype package msgtypes mname (.dict items)
      = (initMsgDesc v package msgtypes mname (fieldProps v items) items).map
          fun f => (f, none) := by
  show (initDefault v scan dict msgtype package mname (fieldProps v items)
    items).bind _ = _
  rw [initDefault_none h]
  show (initMsgDesc v package msgtypes mname (fieldProps v items) items).bind _
    = _
  cases initMsgDesc v package msgtypes mname (fieldProps v items) items with
  | ok f => rfl
  | error e => rfl

/-- A field that is no message gets no descriptor. -/
theorem initMsgDesc_other {f : CField}
    (h : FieldType.ofCode f.typ ≠ some .message) :
    initMsgDesc v package msgtypes mname f items = .ok f :=
  if_pos h

/-- A message field gets the index that the search finds. -/
theorem initMsgDesc_found {f : CField} {typename : Bytes} {k : Nat}
    (h : FieldType.ofCode f.typ = some .message)
    (htype : stringItem v items "type_name" = some typename)
    (hk : findMessage v package msgtypes typename = some k) :
    initMsgDesc v package msgtypes mname f items
      = .ok { f with msgDesc := some k } := by
  unfold initMsgDesc
  rw [if_neg (not_not_intro h)]
  simp only [htype, Option.bind_some, hk]

/-- A field of `TYPE_MESSAGE` that is in order has what is found. -/
theorem found_of_initMsgDesc {f f' : CField} {typename : Bytes}
    (h : FieldType.ofCode f.typ = some .message)
    (htype : stringItem v items "type_name" = some typename)
    (hok : initMsgDesc v package msgtypes mname f items = .ok f') :
    findMessage v package msgtypes typename = f'.msgDesc := by
  unfold initMsgDesc at hok
  rw [if_neg (not_not_intro h)] at hok
  simp only [htype, Option.bind_some] at hok
  cases hk : findMessage v package msgtypes typename with
  | some k =>
      simp only [hk] at hok
      rw [← Except.ok.inj hok]
  | none =>
      simp only [hk] at hok
      obtain ⟨name, -, hok⟩ := Sequence.ok_of_bind hok
      cases hok

end Fields

-- ================================================================= messages

/-- If no part leaves an error behind, neither do the parts together. -/
theorem foldl_pending {α : Type} {rs : List (α × Option PyErr)}
    (h : ∀ r ∈ rs, r.2 = none) :
    (rs.map Prod.snd).foldl (fun pending error => error.or pending) none
      = none := by
  induction rs with
  | nil => rfl
  | cons r rs ih =>
      obtain ⟨hr, hrs⟩ := List.forall_mem_cons.mp h
      rw [List.map_cons, List.foldl_cons, hr]
      exact ih hrs

/-- What has fields is a dict with a list under `field`. -/
theorem messageFields_some {m : PyObject} {items : List (String × PyObject)}
    {fields : List PyObject} (h : messageFields m = some (items, fields)) :
    m = .dict items ∧ listItem items "field" = some fields := by
  unfold messageFields at h
  cases m with
  | dict items' =>
      have h' : (listItem items' "field").bind
          (fun fields => some (items', fields)) = some (items, fields) := h
      obtain ⟨fields', hfields, heq⟩ := Option.bind_eq_some_iff.mp h'
      cases heq
      exact ⟨rfl, hfields⟩
  | list elems => cases h
  | bool b => cases h
  | other id => cases h

/-- A message compiles if all of its fields do. -/
theorem initMessage_ok {m : PyObject} {package : Bytes}
    (h : ∀ field ∈ fieldList m, ∀ items mname, m = .dict items → ∃ r,
      initField v scan dict items package msgtypes mname field = .ok r ∧
        r.2 = none) :
    ∃ r, initMessage v scan dict package msgtypes m = .ok r ∧ r.2 = none := by
  unfold initMessage
  cases hm : messageFields m with
  | none => exact ⟨_, rfl, rfl⟩
  | some found =>
      obtain ⟨items, fields⟩ := found
      have hfields : fieldList m = fields := by rw [fieldList, hm]; rfl
      rw [hfields] at h
      obtain ⟨rs, hrs, hpending⟩ := Sequence.exists_mapM fun field hfield =>
        h field hfield items (allocMessage v m).name (messageFields_some hm).1
      simp only [hrs]
      exact ⟨_, rfl, foldl_pending hpending⟩

/-- A field descriptor as the second pass leaves it. -/
def InitsTo (v : PyView) (scan : Scanner) (dict : List (String × PyObject))
    (msgtypes : List PyObject) (m : PyObject) (mname : Option Bytes)
    (field : PyObject) (f : CField) : Prop :=
  ∃ items p, m = .dict items ∧
    initField v scan dict items (packageOf v dict) msgtypes mname field
      = .ok (f, p)

/-- The fields of a message descriptor, in order. -/
theorem fields_of_initMessage {m : PyObject} {r : CMsg × Option PyErr}
    (hok : initMessage v scan dict (packageOf v dict) msgtypes m = .ok r) :
    r.1.name = (allocMessage v m).name ∧
      List.Forall₂ (InitsTo v scan dict msgtypes m r.1.name) (fieldList m)
        r.1.fields := by
  unfold initMessage at hok
  unfold fieldList
  cases hm : messageFields m with
  | none =>
      simp only [hm] at hok
      obtain rfl := Except.ok.inj hok
      have halloc : allocMessage v m = ⟨[], none⟩ := by
        unfold allocMessage
        rw [hm]
      rw [halloc]
      exact ⟨rfl, .nil⟩
  | some found =>
      obtain ⟨items, fields⟩ := found
      simp only [hm] at hok
      obtain ⟨rs, hrs, hok⟩ := Sequence.ok_of_bind hok
      obtain rfl := Except.ok.inj hok
      refine ⟨rfl, ?_⟩
      show List.Forall₂ _ fields (rs.map Prod.fst)
      rw [List.forall₂_map_right_iff]
      exact (Sequence.forall₂_of_mapM hrs).imp fun field fp h =>
        ⟨items, fp.2, (messageFields_some hm).1, h⟩

/-- A field at its place in the message descriptor. -/
theorem field_of_initMessage {m : PyObject} {r : CMsg × Option PyErr}
    (hok : initMessage v scan dict (packageOf v dict) msgtypes m = .ok r)
    {j : Nat} {field : PyObject} (hj : (fieldList m)[j]? = some field) :
    ∃ f, r.1.fields[j]? = some f ∧
      InitsTo v scan dict msgtypes m r.1.name field f := by
  obtain ⟨-, hall⟩ := fields_of_initMessage hok
  obtain ⟨hlt, rfl⟩ := List.getElem?_eq_some_iff.mp hj
  have hlt' : j < r.1.fields.length := hall.length_eq ▸ hlt
  exact ⟨_, List.getElem?_eq_getElem hlt', hall.get hlt hlt'⟩

/-- What a descriptor is made of. -/
theorem inits_of_descriptorInit {d : Descriptor}
    (hlist : dict.lookup "message_type" = some (.list msgtypes))
    (hok : descriptorInit v scan dict = .ok d) :
    ∃ rs, msgtypes.mapM
        (initMessage v scan dict (packageOf v dict) msgtypes) = .ok rs ∧
      d = ⟨rs.map Prod.fst, nameMessages (packageOf v dict) 0
          (msgtypes.map (allocMessage v)) [],
        (rs.map Prod.snd).foldl (fun pending error => error.or pending)
          none⟩ := by
  unfold descriptorInit at hok
  simp only [hlist] at hok
  obtain ⟨rs, hrs, hok⟩ := Sequence.ok_of_bind hok
  exact ⟨rs, hrs, (Except.ok.inj hok).symm⟩

/-- A file has these message types. -/
def ListsTypes (dict : List (String × PyObject))
    (msgtypes : List PyObject) : Prop :=
  dict.lookup "message_type" = some (.list msgtypes) ∨
    (dict.lookup "message_type" = none ∧ msgtypes = [])

/-- A file compiles if all of its messages do. -/
theorem descriptorInit_ok (hlist : ListsTypes dict msgtypes)
    (h : ∀ m ∈ msgtypes, ∃ r,
      initMessage v scan dict (packageOf v dict) msgtypes m = .ok r ∧
        r.2 = none) :
    ∃ d, descriptorInit v scan dict = .ok d ∧ d.pending = none := by
  unfold descriptorInit
  rcases hlist with hlist | ⟨hnone, -⟩
  · obtain ⟨rs, hrs, hpending⟩ := Sequence.exists_mapM h
    simp only [hlist, hrs]
    exact ⟨_, rfl, foldl_pending hpending⟩
  · rw [hnone]
    exact ⟨_, rfl, rfl⟩

/-- A message type at its place in the descriptor. -/
theorem message_of_descriptorInit {d : Descriptor}
    (hlist : ListsTypes dict msgtypes)
    (hok : descriptorInit v scan dict = .ok d) {i : Nat} {m : PyObject}
    (hi : msgtypes[i]? = some m) :
    ∃ r, d.msgDesc[i]? = some r.1 ∧
      initMessage v scan dict (packageOf v dict) msgtypes m = .ok r := by
  rcases hlist with hlist | ⟨-, rfl⟩
  · obtain ⟨rs, hrs, rfl⟩ := inits_of_descriptorInit hlist hok
    obtain ⟨r, hr, hm⟩ := Sequence.getElem?_of_mapM hrs hi
    refine ⟨r, ?_, hm⟩
    rw [List.getElem?_map, hr]
    rfl
  · cases hi

section Messages

variable (hfile : IsFile v dict msgtypes)
include hfile

/-- A field is in order, unless it is of `TYPE_MESSAGE` and there is no
package. -/
theorem initField_ok {m : PyObject} (hm : m ∈ msgtypes) {field : PyObject}
    (hfield : field ∈ fieldList m)
    (h : packageOf v dict ≠ [] ∨ ¬ IsMessageField v field)
    (msgtype : List (String × PyObject)) (mname : Option Bytes) :
    ∃ r, initField v scan dict msgtype (packageOf v dict) msgtypes mname field
      = .ok r ∧ r.2 = none := by
  cases field with
  | list elems => exact ⟨_, rfl, rfl⟩
  | bool b => exact ⟨_, rfl, rfl⟩
  | other id => exact ⟨_, rfl, rfl⟩
  | dict items =>
      have hdefault := hfile.noDefaults m hm _ hfield items rfl
      rw [initField_eq hdefault]
      by_cases htyp : FieldType.ofCode (fieldProps v items).typ
          = some .message
      · obtain ⟨target, htarget, name, hname, htype⟩ :=
          hfile.typed m hm _ hfield ⟨items, rfl, htyp⟩
        have hpackage := h.resolve_right fun hn => hn ⟨items, rfl, htyp⟩
        obtain ⟨k, hk⟩ := List.mem_iff_getElem?.mp htarget
        have hnul := hfile.name_nul htarget hname
        have hfound := findMessage_qualified hfile hk hname (packageOf v dict)
        rw [qualified_eq_fullName hpackage hfile.package hnul] at hfound
        rw [initMsgDesc_found htyp htype hfound]
        exact ⟨_, rfl, rfl⟩
      · rw [initMsgDesc_other htyp]
        exact ⟨_, rfl, rfl⟩

/-- With a package, every field of `TYPE_MESSAGE` has the descriptor of the
message type it names. -/
theorem resolves_of_package (hpackage : packageOf v dict ≠ [])
    {d : Descriptor} (hok : descriptorInit v scan dict = .ok d) :
    Resolves v dict msgtypes d := by
  intro i j k m field target name hi hj htyp hk hname htype
  obtain ⟨r, hmsg, hm⟩ := message_of_descriptorInit hfile.messageTypes hok hi
  obtain ⟨f, hf, msgtype, p, -, hfield⟩ := field_of_initMessage hm hj
  obtain ⟨items, rfl, htyp⟩ := htyp
  have hnul := hfile.name_nul (List.mem_of_getElem? hk) hname
  have hfound := findMessage_qualified hfile hk hname (packageOf v dict)
  rw [qualified_eq_fullName hpackage hfile.package hnul] at hfound
  rw [initField_eq (hfile.noDefaults m (List.mem_of_getElem? hi) _
    (List.mem_of_getElem? hj) items rfl),
    initMsgDesc_found htyp htype hfound] at hfield
  obtain ⟨rfl, -⟩ := Prod.mk.inj (Except.ok.inj hfield)
  exact ⟨r.1, _, hmsg, hf, rfl⟩

/-- Without a package, no field of `TYPE_MESSAGE` has the message type it
names. -/
theorem not_messageField_of_resolves (hpackage : packageOf v dict = [])
    {d : Descriptor} (hok : descriptorInit v scan dict = .ok d)
    (hresolves : Resolves v dict msgtypes d) {m field : PyObject}
    (hm : m ∈ msgtypes) (hfield : field ∈ fieldList m) :
    ¬ IsMessageField v field := by
  intro hmessage
  obtain ⟨target, htarget, name, hname, htype⟩ :=
    hfile.typed m hm field hfield hmessage
  have hnul := hfile.name_nul htarget hname
  obtain ⟨i, hi⟩ := List.mem_iff_getElem?.mp hm
  obtain ⟨j, hj⟩ := List.mem_iff_getElem?.mp hfield
  obtain ⟨k, hk⟩ := List.mem_iff_getElem?.mp htarget
  obtain ⟨msg, f, hmsg, hf, hdesc⟩ :=
    hresolves i j k m field target name hi hj hmessage hk hname htype
  -- What the field has is what was found for its type name.
  obtain ⟨r, hr, hinit⟩ := message_of_descriptorInit hfile.messageTypes hok hi
  obtain rfl := Option.some.inj (hmsg.symm.trans hr)
  obtain ⟨f', hf', msgtype, p, -, hinit⟩ := field_of_initMessage hinit hj
  obtain rfl := Option.some.inj (hf.symm.trans hf')
  obtain ⟨items, rfl, htyp⟩ := hmessage
  rw [initField_eq (hfile.noDefaults m hm _ hfield items rfl)] at hinit
  obtain ⟨f', hmsgDesc, hinit⟩ := Sequence.ok_of_bind hinit
  obtain rfl := (Prod.mk.inj (Except.ok.inj hinit)).1
  have hfound := found_of_initMsgDesc htyp htype hmsgDesc
  rw [hdesc, hpackage] at hfound
  exact qualified_ne_fullName hnul (qualified_of_findMessage hfound hk hname)

/-- The type names of a file resolve if and only if it has a package, or no
field of `TYPE_MESSAGE`. -/
theorem type_names_resolve_iff :
    (∃ d, descriptorInit v scan dict = .ok d ∧ d.pending = none ∧
        Resolves v dict msgtypes d) ↔
      (packageOf v dict ≠ [] ∨
        ∀ m ∈ msgtypes, ∀ field ∈ fieldList m, ¬ IsMessageField v field) := by
  constructor
  · intro h
    obtain ⟨d, hok, -, hresolves⟩ := h
    by_cases hpackage : packageOf v dict = []
    · exact .inr fun m hm field hfield =>
        not_messageField_of_resolves hfile hpackage hok hresolves hm hfield
    · exact .inl hpackage
  · intro h
    obtain ⟨d, hok, hpending⟩ := descriptorInit_ok hfile.messageTypes fun m hm =>
      initMessage_ok fun field hfield msgtype mname _ =>
        initField_ok hfile hm hfield (h.imp_right fun hno =>
          hno m hm field hfield) msgtype mname
    refine ⟨d, hok, hpending, ?_⟩
    rcases h with hpackage | hno
    · exact resolves_of_package hfile hpackage hok
    · intro i j k m field target name hi hj htyp
      exact absurd htyp (hno m (List.mem_of_getElem? hi) field
        (List.mem_of_getElem? hj))

end Messages

-- ================================================================= samples

def plainView : PyView where
  string
    | .other id =>
        match plainValue id with
        | .str bytes => some bytes
        | _ => none
    | _ => none
  int
    | .other id =>
        match plainValue id with
        | .int n => some (Int64.ofInt n)
        | _ => none
    | _ => none

def pyString (bytes : Bytes) : PyObject := .other (plainId (.str bytes))

def pyInt (n : Int) : PyObject := .other (plainId (.int n))

@[simp] theorem plainView_string {bytes : Bytes} :
    plainView.string (pyString bytes) = some bytes := by
  show (match plainValue (plainId (.str bytes)) with
    | .str bytes => some bytes
    | _ => none) = some bytes
  rw [plainValue_plainId]

@[simp] theorem plainView_int {n : Int} :
    plainView.int (pyInt n) = some (Int64.ofInt n) := by
  show (match plainValue (plainId (.int n)) with
    | .int n => some (Int64.ofInt n)
    | _ => none) = some (Int64.ofInt n)
  rw [plainValue_plainId]

/-- A message type `A` with a field `f` of its own type. -/
def selfType (typename : Bytes) : PyObject :=
  .dict [("name", pyString [65]), ("field", .list [.dict
    [("name", pyString [102]), ("type", pyInt 11),
      ("type_name", pyString typename)]])]

/-- A file of one message that refers to itself is in the domain of the
theorem. -/
theorem isFile_selfType {dict : List (String × PyObject)} {typename : Bytes}
    (htypes : dict.lookup "message_type" = some (.list [selfType typename]))
    (hpackage : 0 ∉ packageOf plainView dict)
    (htypename : typename = fullName (packageOf plainView dict) [65]) :
    IsFile plainView dict [selfType typename] := by
  have hname : messageName plainView (selfType typename) = some [65] := by
    show plainView.string (pyString [65]) = some [65]
    exact plainView_string
  refine ⟨.inl htypes, hpackage, ?_, List.nodup_singleton _, ?_, ?_⟩
  · intro m hm
    obtain rfl := List.mem_singleton.mp hm
    exact ⟨[65], hname, by decide⟩
  · intro m hm field hfield _
    obtain rfl := List.mem_singleton.mp hm
    obtain rfl := List.mem_singleton.mp hfield
    refine ⟨_, List.mem_singleton_self _, [65], hname, ?_⟩
    rw [← htypename]
    show plainView.string (pyString typename) = some typename
    exact plainView_string
  · intro m hm field hfield items heq
    obtain rfl := List.mem_singleton.mp hm
    obtain rfl := List.mem_singleton.mp hfield
    obtain rfl := PyObject.dict.inj heq
    rfl

/-- A file of package `p` with such a message type. -/
def packagedSelf : List (String × PyObject) :=
  [("package", pyString [112]),
    ("message_type", .list [selfType [46, 112, 46, 65]])]

/-- Of one message that refers to itself, in a package. -/
theorem type_names_resolve_iff_self :
    (∃ d, descriptorInit plainView (fun _ _ => .eof) packagedSelf = .ok d ∧
        d.pending = none ∧
        Resolves plainView packagedSelf [selfType [46, 112, 46, 65]] d) ↔
      (packageOf plainView packagedSelf ≠ [] ∨
        ∀ m ∈ [selfType [46, 112, 46, 65]], ∀ field ∈ fieldList m,
          ¬ IsMessageField plainView field) :=
  type_names_resolve_iff (isFile_selfType rfl (by decide +kernel)
    (by decide +kernel))

/-- Without a package, a message type that has itself as a field is
refused. -/
theorem self_reference_refused :
    ∃ dict msgtypes, IsFile plainView dict msgtypes ∧
      packageOf plainView dict = [] ∧
      descriptorInit plainView (fun _ _ => .eof) dict = .error (.raised
        ⟨.runtimeError, "could not resolve type_name for message field "
          ++ ".A.f: .A"⟩) :=
  ⟨[("message_type", .list [selfType [46, 65]])], _,
    isFile_selfType rfl (by decide) rfl, rfl, by rfl⟩

end Lwpb.Python
