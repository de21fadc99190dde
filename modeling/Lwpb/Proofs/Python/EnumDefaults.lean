/-
Defaults of enum fields.

The default of an enum field is the symbol of a value. `lookup_enum` does
not look at the type name of the field: it takes the first value with this
symbol of all enums of the message and, where that gives a negative number
or nothing, of all enums of the file. So the default is the declared number
exactly if the number is not negative and no other value with the symbol
stands in front of it (`enum_defaults_iff`); a negative number is stored for
no symbol.

The nested loops of `lookup_enum` come to a lookup in one list, the values
of all enums of a scope in order (`lookupEnum_eq`). What the code makes of
the two lookups, of the message and then of the file, is `picked`; it
gives a declared number exactly if that is not negative and comes first
(`picked_iff`), and where it gives something else, the field is refused or
gets another number.
-/
import Lwpb.Proofs.Python.Descriptor
import Lwpb.Proofs.Python.Values

namespace Lwpb.Python

variable {v : PyView} {scan : Scanner} {dict : List (String × PyObject)}
  {msgtypes : List PyObject}

-- =================================================================== enums

/-- The enums that are declared in a message type or a file. -/
def enumList (scope : List (String × PyObject)) : List PyObject :=
  (listItem scope "enum_type").getD []

/-- The symbol and the number of an enum value. -/
def symbolNumber (v : PyView) (enumvalue : PyObject) :
    Option (Bytes × Int64) := do
  let items ← enumvalue.asDict
  let symbol ← stringItem v items "name"
  let number ← intItem v items "number"
  some (symbol, number)

/-- The values of an enum, in order. -/
def enumValues (v : PyView) (enumtype : PyObject) : List (Bytes × Int64) :=
  ((enumtype.asDict.bind fun items => listItem items "value").getD []).filterMap
    (symbolNumber v)

/-- The values of all enums of a message type or a file, in order. -/
def scopeValues (v : PyView) (scope : List (String × PyObject)) :
    List (Bytes × Int64) :=
  (enumList scope).flatMap (enumValues v)

/-- The type name means this enum, of the message or of the file. -/
def Declares (v : PyView) (dict items : List (String × PyObject))
    (typename : Bytes) (enumtype : PyObject) : Prop :=
  ∃ name, messageName v enumtype = some name ∧
    ((enumtype ∈ enumList dict ∧
        typename = fullName (packageOf v dict) name) ∨
      ∃ mname, stringItem v items "name" = some mname ∧
        enumtype ∈ enumList items ∧
        typename = fullName (packageOf v dict) (mname ++ 46 :: name))

/-- The field is of an enum, and its default is the symbol of this number
there. -/
structure EnumDefault (v : PyView) (dict : List (String × PyObject))
    (m field : PyObject) (symbol : Bytes) (number : Int64) : Prop where
  typ : ∃ items, field = .dict items ∧
    FieldType.ofCode (fieldProps v items).typ = some .enum ∧
    ∃ prop, items.lookup "default_value" = some prop ∧
      v.string prop = some symbol
  declared : ∃ items typename enumtype, m = .dict items ∧
    typeNameOf v field = some typename ∧
    Declares v dict items typename enumtype ∧
    (symbol, number) ∈ enumValues v enumtype

/-- A field whose default, if it has one, is converted by its type, and
whose message type is found. -/
structure InOrder (v : PyView) (scan : Scanner)
    (dict : List (String × PyObject)) (msgtypes : List PyObject)
    (items : List (String × PyObject)) : Prop where
  default : items.lookup "default_value" = none ∨
    ∃ prop str p, items.lookup "default_value" = some prop ∧
      v.string prop = some str ∧
      FieldType.ofCode (fieldProps v items).typ ≠ some .enum ∧
      pystringToLwpb scan CField.zero.defaultValue str
        (FieldType.ofCode (fieldProps v items).typ) = some p
  typ : FieldType.ofCode (fieldProps v items).typ = some .message →
    ∃ typename k, stringItem v items "type_name" = some typename ∧
      findMessage v (packageOf v dict) msgtypes typename = some k

/-- The enums of a message type or a file: a list of them, with numbers of
32 bits. -/
structure IsScope (v : PyView) (scope : List (String × PyObject)) : Prop where
  listed : scope.lookup "enum_type" = none ∨
    ∃ enumtypes, scope.lookup "enum_type" = some (.list enumtypes)
  numbers : ∀ symbol number, (symbol, number) ∈ scopeValues v scope →
    number.toInt32.toInt64 = number

/-- The dict is a file descriptor with these message types; the fields that
are not of an enum with a default are in order. -/
structure IsEnumFile (v : PyView) (scan : Scanner)
    (dict : List (String × PyObject)) (msgtypes : List PyObject) :
    Prop where
  messageTypes : ListsTypes dict msgtypes
  file : IsScope v dict
  messages : ∀ items, .dict items ∈ msgtypes → IsScope v items
  fields : ∀ m ∈ msgtypes, ∀ field ∈ fieldList m,
    (∃ symbol number, EnumDefault v dict m field symbol number) ∨
      ∀ items, field = .dict items → InOrder v scan dict msgtypes items

/-- The signed 32-bit member of a union. -/
def signed32 (p : RawValue) : Int32 := p.word.toUInt32.toInt32

/-- A field descriptor with this number as its default. -/
structure HasNumber (f : CField) (number : Int64) : Prop where
  flag : f.flags &&& hasDefault = hasDefault
  value : (signed32 f.defaultValue).toInt64 = number

/-- Every enum default is stored as the number it is declared with. -/
def DefaultsResolve (v : PyView) (dict : List (String × PyObject))
    (msgtypes : List PyObject) (d : Descriptor) : Prop :=
  ∀ (i j : Nat) m field symbol number, msgtypes[i]? = some m →
    (fieldList m)[j]? = some field →
    EnumDefault v dict m field symbol number →
    ∃ (msg : CMsg) (f : CField), d.msgDesc[i]? = some msg ∧
      msg.fields[j]? = some f ∧ HasNumber f number

/-- The number is not negative, and the first that is declared for the
symbol: in the message or, where none is there that is not negative, in the
file. -/
def ComesFirst (v : PyView) (dict items : List (String × PyObject))
    (symbol : Bytes) (number : Int64) : Prop :=
  0 ≤ number ∧
    ((scopeValues v items).lookup symbol = some number ∨
      (∀ first, (scopeValues v items).lookup symbol = some first →
        first < 0) ∧
      (scopeValues v dict).lookup symbol = some number)

-- ================================================================= lookups

/-- A key of joined lists is found in the first that has it. -/
theorem lookup_flatMap {α β γ : Type} [BEq α] {f : γ → List (α × β)} (k : α)
    (xs : List γ) :
    (xs.flatMap f).lookup k = xs.findSome? fun x => (f x).lookup k := by
  induction xs with
  | nil => rfl
  | cons x xs ih =>
      rw [List.flatMap_cons, List.lookup_append, List.findSome?_cons, ih]
      cases (f x).lookup k <;> rfl

/-- One declared value, as a lookup. -/
theorem enumNumber_eq (symbol : Bytes) (enumvalue : PyObject) :
    enumNumber v symbol enumvalue
      = (symbolNumber v enumvalue).toList.lookup symbol := by
  unfold enumNumber symbolNumber
  cases enumvalue.asDict with
  | none => rfl
  | some items =>
      simp only [Option.bind_eq_bind, Option.bind_some]
      cases stringItem v items "name" with
      | none => rfl
      | some name =>
          simp only [Option.bind_some]
          by_cases hname : name = symbol
          · subst hname
            cases intItem v items "number" with
            | none => simp
            | some number => simp [List.lookup_cons_self]
          · have hbeq : (symbol == name) = false :=
              beq_false_of_ne (Ne.symm hname)
            cases intItem v items "number" with
            | none => simp [hname]
            | some number => simp [hname, List.lookup_cons, hbeq]

/-- The loop over the values of an enum is a lookup. -/
theorem enumValue_eq (symbol : Bytes) (enumtype : PyObject) :
    enumValue v symbol enumtype = (enumValues v enumtype).lookup symbol := by
  have hvalues : ∀ values : List PyObject,
      values.findSome? (enumNumber v symbol)
        = (values.filterMap (symbolNumber v)).lookup symbol := by
    intro values
    rw [List.filterMap_eq_flatMap_toList, lookup_flatMap]
    exact congrArg (fun f => values.findSome? f)
      (funext (enumNumber_eq symbol))
  unfold enumValue enumValues
  cases enumtype.asDict with
  | none => rfl
  | some items =>
      simp only [Option.bind_eq_bind, Option.bind_some]
      cases listItem items "value" with
      | none => rfl
      | some values => exact hvalues values

/-- `lookup_enum` finds the first of all values with a symbol. -/
theorem lookupEnum_eq {scope : List (String × PyObject)}
    (h : IsScope v scope) (symbol : Bytes) :
    lookupEnum v scope symbol
      = (((scopeValues v scope).lookup symbol).getD (-1), none) := by
  unfold lookupEnum scopeValues enumList listItem
  rcases h.listed with hnone | ⟨enumtypes, hlist⟩
  · rw [hnone]
    rfl
  · rw [hlist]
    show ((enumtypes.findSome? (enumValue v symbol)).getD (-1), none)
      = (((enumtypes.flatMap (enumValues v)).lookup symbol).getD (-1), none)
    rw [lookup_flatMap]
    exact congrArg (fun f => ((enumtypes.findSome? f).getD (-1), none))
      (funext (enumValue_eq symbol))

-- ================================================================= numbers

/-- What is taken of the two lookups. -/
def picked (inner outer : Option Int64) : Option Int32 :=
  if 0 ≤ (inner.getD (-1)).toInt32 then some (inner.getD (-1)).toInt32
  else if 0 ≤ (outer.getD (-1)).toInt32 then some (outer.getD (-1)).toInt32
  else none

/-- A number that fits `int` keeps its sign there. -/
theorem nonneg_of_fits {n : Int64} (h : n.toInt32.toInt64 = n) :
    0 ≤ n.toInt32 ↔ 0 ≤ n := by
  conv_rhs => rw [← h]
  rw [Int64.le_iff_toInt_le, Int32.le_iff_toInt_le, Int32.toInt_toInt64]
  rfl

/-- Two numbers that fit are told apart by their `int`. -/
theorem toInt32_inj {a b : Int64} (ha : a.toInt32.toInt64 = a)
    (hb : b.toInt32.toInt64 = b) : a.toInt32 = b.toInt32 ↔ a = b := by
  constructor
  · intro h
    rw [← ha, ← hb, h]
  · exact congrArg _

/-- A number is taken exactly if it is not negative and the first. -/
theorem picked_iff {inner outer : Option Int64} {number : Int64}
    (hinner : ∀ n, inner = some n → n.toInt32.toInt64 = n)
    (houter : ∀ n, outer = some n → n.toInt32.toInt64 = n)
    (hnumber : number.toInt32.toInt64 = number) :
    picked inner outer = some number.toInt32 ↔
      0 ≤ number ∧ (inner = some number ∨
        (∀ first, inner = some first → first < 0) ∧ outer = some number) := by
  have hminus : ¬ (0 : Int32) ≤ (-1 : Int64).toInt32 := by decide
  have houter_iff : (if 0 ≤ (outer.getD (-1)).toInt32 then
        some (outer.getD (-1)).toInt32 else none) = some number.toInt32 ↔
      0 ≤ number ∧ outer = some number := by
    cases outer with
    | none =>
        rw [Option.getD_none, if_neg hminus]
        exact iff_of_false (fun h => by cases h) fun h => by cases h.2
    | some n =>
        have hn := houter n rfl
        rw [Option.getD_some, Option.some.injEq]
        by_cases hpos : 0 ≤ n.toInt32
        · rw [if_pos hpos, Option.some.injEq, toInt32_inj hn hnumber]
          refine iff_and_self.mpr fun heq => ?_
          rw [← heq]
          exact (nonneg_of_fits hn).mp hpos
        · rw [if_neg hpos]
          refine iff_of_false (fun h => by cases h) fun h => hpos ?_
          rw [h.2]
          exact (nonneg_of_fits hnumber).mpr h.1
  unfold picked
  cases inner with
  | none =>
      rw [Option.getD_none, if_neg hminus, houter_iff]
      simp
  | some n =>
      have hn := hinner n rfl
      rw [Option.getD_some, Option.some.injEq]
      by_cases hpos : 0 ≤ n.toInt32
      · have hpos' := (nonneg_of_fits hn).mp hpos
        rw [if_pos hpos, Option.some.injEq, toInt32_inj hn hnumber]
        constructor
        · intro h
          exact ⟨h ▸ hpos', .inl h⟩
        · intro h
          rcases h.2 with h | ⟨h, -⟩
          · exact h
          · exact absurd hpos' (Int64.not_le.mpr (h n rfl))
      · have hneg : n < 0 := by
          rw [← Int64.not_le, ← nonneg_of_fits hn]
          exact hpos
        rw [if_neg hpos, houter_iff]
        constructor
        · intro h
          refine ⟨h.1, .inr ⟨fun first heq => ?_, h.2⟩⟩
          rwa [← Option.some.inj heq]
        · intro h
          rcases h.2 with heq | ⟨-, hout⟩
          · rw [heq] at hneg
            exact absurd h.1 (Int64.not_le.mpr hneg)
          · exact ⟨h.1, hout⟩

-- =================================================================== fields

section Fields

variable {items fitems : List (String × PyObject)} {symbol : Bytes}
  {prop : PyObject} {mname : Option Bytes}

/-- The default of an enum field is what is taken of the lookups. -/
theorem convert_enum {f : CField} (hfile : IsScope v dict)
    (hmessage : IsScope v items)
    (htyp : FieldType.ofCode f.typ = some .enum)
    (hprop : v.string prop = some symbol) :
    ∃ value, convertDefault v scan dict items f prop = (value, none) ∧
      value.map signed32 = picked ((scopeValues v items).lookup symbol)
        ((scopeValues v dict).lookup symbol) := by
  unfold convertDefault
  simp only [hprop, htyp, lookupEnum_eq hmessage, lookupEnum_eq hfile]
  generalize (scopeValues v items).lookup symbol = inner
  generalize (scopeValues v dict).lookup symbol = outer
  unfold picked setEnum
  simp only [decide_eq_true_eq]
  by_cases hinner : 0 ≤ (inner.getD (-1)).toInt32
  · rw [if_pos hinner, if_pos hinner]
    exact ⟨_, rfl, congrArg some (low32_signed ..)⟩
  · rw [if_neg hinner, if_neg hinner]
    by_cases houter : 0 ≤ (outer.getD (-1)).toInt32
    · rw [if_pos houter, if_pos houter]
      exact ⟨_, rfl, congrArg some (low32_signed ..)⟩
    · rw [if_neg houter, if_neg houter]
      exact ⟨none, rfl, rfl⟩

/-- A field is made from its default and its descriptor. -/
theorem initField_of_steps {f f' : CField} {pending : Option PyErr}
    (hdefault : initDefault v scan dict items (packageOf v dict) mname
      (fieldProps v fitems) fitems = .ok (f, pending))
    (hdesc : initMsgDesc v (packageOf v dict) msgtypes mname f fitems
      = .ok f') :
    initField v scan dict items (packageOf v dict) msgtypes mname
      (.dict fitems) = .ok (f', pending) := by
  show (initDefault v scan dict items (packageOf v dict) mname
    (fieldProps v fitems) fitems).bind _ = _
  rw [hdefault]
  show (initMsgDesc v (packageOf v dict) msgtypes mname f fitems).bind _ = _
  rw [hdesc]
  rfl

/-- An enum field whose default is found is accepted. -/
theorem initField_found {p : RawValue}
    (htyp : FieldType.ofCode (fieldProps v fitems).typ = some .enum)
    (hlookup : fitems.lookup "default_value" = some prop)
    (hconvert : convertDefault v scan dict items (fieldProps v fitems) prop
      = (some p, none)) :
    initField v scan dict items (packageOf v dict) msgtypes mname
        (.dict fitems)
      = .ok ({ fieldProps v fitems with
          defaultValue := p
          flags := (fieldProps v fitems).flags ||| hasDefault }, none) := by
  refine initField_of_steps ?_ (initMsgDesc_other ?_)
  · unfold initDefault
    simp only [hlookup, hconvert]
  · show FieldType.ofCode (fieldProps v fitems).typ ≠ _
    rw [htyp]
    exact fun heq => by cases heq

/-- One whose default is not found is refused. -/
theorem initField_missing {r : CField × Option PyErr}
    (hlookup : fitems.lookup "default_value" = some prop)
    (hconvert : convertDefault v scan dict items (fieldProps v fitems) prop
      = (none, none)) :
    initField v scan dict items (packageOf v dict) msgtypes mname
      (.dict fitems) ≠ .ok r := by
  show (initDefault v scan dict items (packageOf v dict) mname
    (fieldProps v fitems) fitems).bind _ ≠ _
  unfold initDefault
  simp only [hlookup, hconvert]
  cases hname : fieldText (packageOf v dict) mname
      (fieldProps v fitems).name with
  | ok name => exact fun h => by cases h
  | error e => exact fun h => by cases h

/-- A field in order is accepted. -/
theorem initField_inOrder (h : InOrder v scan dict msgtypes fitems) :
    ∃ r, initField v scan dict items (packageOf v dict) msgtypes mname
      (.dict fitems) = .ok r ∧ r.2 = none := by
  have hdefault : ∃ f, initDefault v scan dict items (packageOf v dict) mname
      (fieldProps v fitems) fitems = .ok (f, none) ∧
        f.typ = (fieldProps v fitems).typ := by
    rcases h.default with hnone | ⟨prop, str, p, hlookup, hstr, htyp, hp⟩
    · exact ⟨_, initDefault_none hnone, rfl⟩
    · have hconvert : convertDefault v scan dict items
          (fieldProps v fitems) prop = (some p, none) := by
        unfold convertDefault
        simp only [hstr]
        exact congrArg (·, none) hp
      unfold initDefault
      simp only [hlookup, hconvert]
      exact ⟨_, rfl, rfl⟩
  obtain ⟨f, hf, htyp⟩ := hdefault
  by_cases hmsg : FieldType.ofCode f.typ = some .message
  · obtain ⟨typename, k, htypename, hk⟩ := h.typ (htyp ▸ hmsg)
    exact ⟨_, initField_of_steps hf (initMsgDesc_found hmsg htypename hk), rfl⟩
  · exact ⟨_, initField_of_steps hf (initMsgDesc_other hmsg), rfl⟩

end Fields

-- =================================================================== files

section Files

/-- The numbers of a scope fit `int`. -/
theorem fits_of_lookup {scope : List (String × PyObject)} {symbol : Bytes}
    (hscope : IsScope v scope) {n : Int64}
    (h : (scopeValues v scope).lookup symbol = some n) :
    n.toInt32.toInt64 = n := by
  obtain ⟨before, behind, heq, -⟩ := List.lookup_eq_some_iff.mp h
  refine hscope.numbers symbol n ?_
  rw [heq]
  exact List.mem_append_right _ List.mem_cons_self

variable (hfile : IsEnumFile v scan dict msgtypes) {m field : PyObject}
  {symbol : Bytes} {number : Int64}
include hfile

/-- A number that an enum declares has 32 bits. -/
theorem fits_of_enumDefault (hm : m ∈ msgtypes)
    (henum : EnumDefault v dict m field symbol number) :
    number.toInt32.toInt64 = number := by
  obtain ⟨items, typename, enumtype, rfl, -, ⟨name, -, hin⟩, hvalue⟩ :=
    henum.declared
  rcases hin with ⟨hin, -⟩ | ⟨mname, -, hin, -⟩
  · exact hfile.file.numbers symbol number
      (List.mem_flatMap.mpr ⟨enumtype, hin, hvalue⟩)
  · exact (hfile.messages items hm).numbers symbol number
      (List.mem_flatMap.mpr ⟨enumtype, hin, hvalue⟩)

/-- The number is taken for an enum default exactly if it comes first. -/
theorem picked_enumDefault {items : List (String × PyObject)}
    (hm : .dict items ∈ msgtypes)
    (henum : EnumDefault v dict (.dict items) field symbol number) :
    picked ((scopeValues v items).lookup symbol)
        ((scopeValues v dict).lookup symbol) = some number.toInt32 ↔
      ComesFirst v dict items symbol number :=
  picked_iff (fun _ => fits_of_lookup (hfile.messages items hm))
    (fun _ => fits_of_lookup hfile.file) (fits_of_enumDefault hfile hm henum)

/-- A field with an enum default leaves no exception if it is accepted. -/
theorem pending_enumDefault {items : List (String × PyObject)}
    (hm : .dict items ∈ msgtypes)
    (henum : EnumDefault v dict (.dict items) field symbol number)
    {mname : Option Bytes} {r : CField × Option PyErr}
    (hok : initField v scan dict items (packageOf v dict) msgtypes mname field
      = .ok r) : r.2 = none := by
  obtain ⟨fitems, rfl, htyp, prop, hlookup, hprop⟩ := henum.typ
  obtain ⟨value, hconvert, -⟩ := convert_enum hfile.file
    (hfile.messages items hm) htyp hprop
  cases value with
  | none => exact absurd hok (initField_missing hlookup hconvert)
  | some p =>
      rw [initField_found htyp hlookup hconvert] at hok
      rw [← Except.ok.inj hok]

/-- It comes to a descriptor with its number exactly if that comes first. -/
theorem initField_enumDefault {items : List (String × PyObject)}
    (hm : .dict items ∈ msgtypes)
    (henum : EnumDefault v dict (.dict items) field symbol number)
    (mname : Option Bytes) :
    (∃ r, initField v scan dict items (packageOf v dict) msgtypes mname field
        = .ok r ∧ HasNumber r.1 number) ↔
      ComesFirst v dict items symbol number := by
  obtain ⟨fitems, rfl, htyp, prop, hlookup, hprop⟩ := henum.typ
  have hfits := fits_of_enumDefault hfile hm henum
  obtain ⟨value, hconvert, hvalue⟩ := convert_enum hfile.file
    (hfile.messages items hm) htyp hprop
  rw [← picked_enumDefault hfile hm henum, ← hvalue]
  cases value with
  | none =>
      refine iff_of_false (fun h => ?_) fun h => by cases h
      obtain ⟨r, hok, -⟩ := h
      exact initField_missing hlookup hconvert hok
  | some p =>
      rw [initField_found htyp hlookup hconvert, Option.map_some,
        Option.some.injEq]
      constructor
      · intro h
        obtain ⟨r, hok, hnumber⟩ := h
        obtain rfl := Except.ok.inj hok
        rw [← hnumber.value, Int32.toInt32_toInt64]
      · intro h
        refine ⟨_, rfl, ?_, ?_⟩
        · show ((fieldProps v fitems).flags ||| hasDefault) &&& hasDefault
            = hasDefault
          rw [Nat.and_or_distrib_right, Nat.and_self]
          exact Nat.eq_of_testBit_eq fun k => by simp
        · show (signed32 p).toInt64 = number
          rw [h, hfits]

/-- A field is accepted if the numbers of its enum defaults come first. -/
theorem initField_accepted {items : List (String × PyObject)}
    (hm : .dict items ∈ msgtypes) (hfield : field ∈ fieldList (.dict items))
    (hfirst : ∀ symbol number,
      EnumDefault v dict (.dict items) field symbol number →
        ComesFirst v dict items symbol number) (mname : Option Bytes) :
    ∃ r, initField v scan dict items (packageOf v dict) msgtypes mname field
      = .ok r ∧ r.2 = none := by
  rcases hfile.fields _ hm field hfield with ⟨symbol, number, henum⟩ | horder
  · obtain ⟨r, hok, -⟩ := (initField_enumDefault hfile hm henum mname).mpr
      (hfirst symbol number henum)
    exact ⟨r, hok, pending_enumDefault hfile hm henum hok⟩
  · cases field with
    | dict fitems => exact initField_inOrder (horder fitems rfl)
    | list elems => exact ⟨_, rfl, rfl⟩
    | bool b => exact ⟨_, rfl, rfl⟩
    | other id => exact ⟨_, rfl, rfl⟩

/-- Every enum default is accepted and stored as the number it is declared
with if and only if each of these numbers comes first. -/
theorem enum_defaults_iff :
    (∃ d, descriptorInit v scan dict = .ok d ∧ d.pending = none ∧
        DefaultsResolve v dict msgtypes d) ↔
      ∀ m ∈ msgtypes, ∀ field ∈ fieldList m, ∀ symbol number,
        EnumDefault v dict m field symbol number → ∀ items,
          m = .dict items → ComesFirst v dict items symbol number := by
  constructor
  · intro h m hm field hfield symbol number henum items hitems
    obtain ⟨d, hok, -, hresolve⟩ := h
    subst hitems
    obtain ⟨i, hi⟩ := List.mem_iff_getElem?.mp hm
    obtain ⟨j, hj⟩ := List.mem_iff_getElem?.mp hfield
    obtain ⟨msg, f, hmsg, hf, hnumber⟩ :=
      hresolve i j _ field symbol number hi hj henum
    obtain ⟨r, hr, hinit⟩ :=
      message_of_descriptorInit hfile.messageTypes hok hi
    obtain rfl := Option.some.inj (hmsg.symm.trans hr)
    obtain ⟨f', hf', items', p, hitems', hinit⟩ :=
      field_of_initMessage hinit hj
    obtain rfl := Option.some.inj (hf.symm.trans hf')
    obtain rfl := PyObject.dict.inj hitems'
    exact (initField_enumDefault hfile hm henum _).mp ⟨_, hinit, hnumber⟩
  · intro h
    obtain ⟨d, hok, hpending⟩ := descriptorInit_ok hfile.messageTypes
      fun m hm => initMessage_ok fun field hfield items mname hitems => by
        subst hitems
        exact initField_accepted hfile hm hfield (fun symbol number henum =>
          h _ hm field hfield symbol number henum items rfl) mname
    refine ⟨d, hok, hpending, ?_⟩
    intro i j m field symbol number hi hj henum
    obtain ⟨r, hr, hinit⟩ :=
      message_of_descriptorInit hfile.messageTypes hok hi
    obtain ⟨f, hf, items, p, rfl, hfound⟩ := field_of_initMessage hinit hj
    have hm := List.mem_of_getElem? hi
    have hfirst := h _ hm field (List.mem_of_getElem? hj) symbol number henum
      items rfl
    obtain ⟨r', hinit', hnumber⟩ :=
      (initField_enumDefault hfile hm henum r.1.name).mpr hfirst
    rw [hfound] at hinit'
    obtain rfl := Except.ok.inj hinit'
    exact ⟨r.1, f, hr, hf, hnumber⟩

end Files

-- ================================================================= samples

/-- The enum `E` with one value `A`. -/
def oneValue (number : Int) : PyObject :=
  .dict [("name", pyString [69]), ("value", .list [.dict
    [("name", pyString [65]), ("number", pyInt number)]])]

/-- A field of the enum `E` of `M`, with `A` as its default. -/
def enumField : List (String × PyObject) :=
  [("name", pyString [102]), ("type", pyInt 14),
    ("type_name", pyString [46, 77, 46, 69]), ("default_value", pyString [65])]

/-- A message type `M` with the enum and the field. -/
def enumType (number : Int) : List (String × PyObject) :=
  [("name", pyString [77]), ("enum_type", .list [oneValue number]),
    ("field", .list [.dict enumField])]

def enumFile (number : Int) : List (String × PyObject) :=
  [("message_type", .list [.dict (enumType number)])]

/-- The values of an enum with one. -/
theorem enumValues_oneValue (number : Int) :
    enumValues plainView (oneValue number) = [([65], Int64.ofInt number)] := by
  have hvalue : symbolNumber plainView
      (.dict [("name", pyString [65]), ("number", pyInt number)])
        = some ([65], Int64.ofInt number) := by
    show ((plainView.string (pyString [65])).bind fun symbol =>
      (plainView.int (pyInt number)).bind fun n => some (symbol, n)) = _
    rw [plainView_string, plainView_int]
    rfl
  exact List.filterMap_cons_some hvalue

/-- The field of the example has a symbol as its default. -/
theorem enumDefault_enumType (number : Int) :
    EnumDefault plainView (enumFile number) (.dict (enumType number))
      (.dict enumField) [65] (Int64.ofInt number) := by
  have hname : messageName plainView (oneValue number) = some [69] := by
    show plainView.string (pyString [69]) = some [69]
    exact plainView_string
  refine ⟨⟨_, rfl, by decide +kernel, _, rfl, plainView_string⟩, ?_⟩
  refine ⟨_, [46, 77, 46, 69], oneValue number, rfl, plainView_string,
    ⟨[69], hname, .inr ⟨[77], plainView_string,
      List.mem_singleton_self _, rfl⟩⟩, ?_⟩
  rw [enumValues_oneValue]
  exact List.mem_singleton_self _

/-- Its file is in the domain of the theorem. -/
theorem isEnumFile_enumFile {number : Int}
    (hnumber : (Int64.ofInt number).toInt32.toInt64 = Int64.ofInt number) :
    IsEnumFile plainView scan (enumFile number) [.dict (enumType number)] := by
  refine ⟨.inl rfl, ⟨.inl rfl, ?_⟩, ?_, ?_⟩
  · intro symbol n h
    cases h
  · intro items hitems
    obtain rfl := PyObject.dict.inj (List.mem_singleton.mp hitems)
    refine ⟨.inr ⟨_, rfl⟩, ?_⟩
    intro symbol n h
    have h' : (symbol, n) ∈ enumValues plainView (oneValue number) ++ [] := h
    rw [List.append_nil, enumValues_oneValue, List.mem_singleton] at h'
    obtain ⟨rfl, rfl⟩ := Prod.mk.inj h'
    exact hnumber
  · intro m hm field hfield
    obtain rfl := List.mem_singleton.mp hm
    obtain rfl := List.mem_singleton.mp hfield
    exact .inl ⟨_, _, enumDefault_enumType number⟩

/-- Of a symbol declared with the number 1. -/
theorem enum_defaults_iff_one :
    (∃ d, descriptorInit plainView (fun _ _ => .eof) (enumFile 1) = .ok d ∧
        d.pending = none ∧ DefaultsResolve plainView (enumFile 1)
          [.dict (enumType 1)] d) ↔
      ∀ m ∈ [PyObject.dict (enumType 1)], ∀ field ∈ fieldList m,
        ∀ symbol number,
          EnumDefault plainView (enumFile 1) m field symbol number →
          ∀ items, m = .dict items →
            ComesFirst plainView (enumFile 1) items symbol number :=
  enum_defaults_iff (isEnumFile_enumFile (by decide))

/-- A schema with the default -1 is refused. -/
theorem negative_default_refused :
    IsEnumFile plainView (fun _ _ => .eof) (enumFile (-1))
        [.dict (enumType (-1))] ∧
      EnumDefault plainView (enumFile (-1)) (.dict (enumType (-1)))
        (.dict enumField) [65] (-1) ∧
      descriptorInit plainView (fun _ _ => .eof) (enumFile (-1))
        = .error (.raised ⟨.runtimeError,
          "invalid default value for field .M.f"⟩) :=
  ⟨isEnumFile_enumFile (by decide), enumDefault_enumType (-1), by rfl⟩

end Lwpb.Python
