/-
Dicts as messages.

A dict that encodes without an error stands for a message: the values of
its fields in the order of the descriptor, each converted by `py_to_lwpb`
and read from the union as the field's type. `Spells` says which message
that is. It is a relation, since the union's other bytes show in a field
of type int64, sint64 or sfixed64; elsewhere it is a function
(`Schema.NoLong`).
-/
import Lwpb.Python.Encoder
import Lwpb.Wire.Message

namespace Lwpb

-- ============================================================ concatenation

/-- One message behind the other. -/
def Tree.append : Tree → Tree → Tree
  | .nil, u => u
  | .scalar f v rest, u => .scalar f v (append rest u)
  | .message f body rest, u => .message f body (append rest u)
  | .packed f elems rest, u => .packed f elems (append rest u)

theorem Tree.append_nil (t : Tree) : t.append .nil = t := by
  induction t with
  | nil => rfl
  | scalar f v rest ih => rw [append, ih]
  | message f body rest ihb ihr => rw [append, ihr]
  | packed f elems rest ih => rw [append, ih]

theorem Tree.bytes_append (sch : Schema) (t u : Tree) :
    ((t.append u).wire sch).bytes
      = (t.wire sch).bytes ++ (u.wire sch).bytes := by
  induction t with
  | nil => rfl
  | scalar f v rest ih =>
      simp only [append, wire, Wire.bytes, ih, List.append_assoc]
  | message f body rest ihb ihr =>
      simp only [append, wire, Wire.bytes, ihr, List.append_assoc]
  | packed f elems rest ih =>
      simp only [append, wire, Wire.bytes, ih, List.append_assoc]

theorem Tree.Typed.append {kind : Value Bytes → FieldType → Prop}
    {sch : Schema} {m : MsgRef} {t u : Tree} (ht : t.Typed kind sch m)
    (hu : u.Typed kind sch m) : (t.append u).Typed kind sch m := by
  induction t generalizing m with
  | nil => exact hu
  | scalar f v rest ih =>
      obtain ⟨hf, hrun, hv, hrest⟩ := ht
      exact ⟨hf, hrun, hv, ih hrest hu⟩
  | message f body rest ihb ihr =>
      obtain ⟨hf, hmsg, hdesc, hbody, hrest⟩ := ht
      exact ⟨hf, hmsg, hdesc, hbody, ihr hrest hu⟩
  | packed f elems rest ih =>
      obtain ⟨hf, hrun, hv, hrest⟩ := ht
      exact ⟨hf, hrun, hv, ih hrest hu⟩

theorem Tree.nesting_append (t u : Tree) :
    (t.append u).nesting = max t.nesting u.nesting := by
  have hu := u.nesting_pos
  induction t with
  | nil => exact (Nat.max_eq_right hu).symm
  | scalar f v rest ih => exact ih
  | message f body rest ihb ihr =>
      rw [append, nesting, nesting, ihr, Nat.max_assoc]
  | packed f elems rest ih =>
      rw [append, nesting, nesting, ih, Nat.max_assoc]

-- ================================================================= schemas

/-- The keys of all fields have 32 bits. -/
def Schema.SmallNumbers (sch : Schema) : Prop :=
  ∀ m ∈ sch.msgs, ∀ desc ∈ m.fields, desc.number.toNat < 2 ^ 29

instance (sch : Schema) : Decidable sch.SmallNumbers :=
  inferInstanceAs (Decidable
    (∀ m ∈ sch.msgs, ∀ desc ∈ m.fields, desc.number.toNat < 2 ^ 29))

/-- The types that `py_to_lwpb` converts by way of a `long`, of which it
sets half. -/
def FieldType.isLong : FieldType → Bool
  | .int64 | .sint64 | .sfixed64 => true
  | _ => false

/-- There are no fields of these types. -/
def Schema.NoLong (sch : Schema) : Prop :=
  ∀ m ∈ sch.msgs, ∀ desc ∈ m.fields, desc.opts.typ.isLong = false

instance (sch : Schema) : Decidable sch.NoLong :=
  inferInstanceAs (Decidable
    (∀ m ∈ sch.msgs, ∀ desc ∈ m.fields, desc.opts.typ.isLong = false))

end Lwpb

namespace Lwpb.Python

-- ================================================================== values

/-- The bytes a union's pointer and length stand for. -/
def stringOf (val : RawValue) : Bytes :=
  match val.src with
  | .ext bytes => (List.range val.len.toNat).map bytes
  | .buf _ => []

/-- The member of the union that a field of this type is read from. -/
def member (typ : FieldType) (val : RawValue) : Value Bytes :=
  match typ with
  | .double => .double val.word
  | .float => .float val.word.toUInt32
  | .int32 | .sint32 | .sfixed32 => .int32 val.word.toUInt32.toInt32
  | .int64 | .sint64 | .sfixed64 => .int64 val.word.toInt64
  | .uint32 | .fixed32 => .uint32 val.word.toUInt32
  | .uint64 | .fixed64 => .uint64 val.word
  | .bool => .bool val.word.toUInt32.toInt32
  | .enum => .enum val.word.toUInt32.toInt32
  | .string => .string (stringOf val)
  | .bytes | .message | .group => .bytes (stringOf val)

/-- `py_to_lwpb` converts the object to this value. -/
def Converts (py : PythonApi) (typ : FieldType) (pyval : PyObject)
    (v : Value Bytes) : Prop :=
  ∃ before val pending, pyToLwpb py before pyval typ = .ok (val, pending) ∧
    member typ val = v

-- ================================================================= messages

section

variable (py : PythonApi) (sch : Schema)
  (nested : PyObject → MsgRef → Tree → Prop)

/-- The values under a field that is not packed. -/
def SpellsValues (f : FieldRef) (desc : FieldDesc) :
    List PyObject → Tree → Prop
  | [], t => t = .nil
  | pyval :: values, t =>
      ∃ rest, SpellsValues f desc values rest ∧
        if desc.opts.typ = .message then
          ∃ m body, desc.msgDesc = some m ∧ nested pyval m body ∧
            t = .message f body rest
        else
          ∃ v, Converts py desc.opts.typ pyval v ∧ t = .scalar f v rest

/-- What is held under a field. -/
def SpellsField (f : FieldRef) (desc : FieldDesc) (held : PyObject)
    (t : Tree) : Prop :=
  if desc.isPackedRepeated then
    ∃ elems, List.Forall₂ (Converts py desc.opts.typ) held.values elems ∧
      t = .packed f elems .nil
  else SpellsValues py nested f desc held.values t

/-- The fields of message `m` from number `i` on. -/
def SpellsFields (m : MsgRef) (items : List (String × PyObject)) :
    Nat → List FieldDesc → Tree → Prop
  | _, [], t => t = .nil
  | i, desc :: fields, t =>
      match items.lookup desc.name with
      | none => SpellsFields m items (i + 1) fields t
      | some held =>
          ∃ first rest, SpellsField py nested ⟨m, i⟩ desc held first ∧
            SpellsFields m items (i + 1) fields rest ∧ t = first.append rest

end

/-- An object, nested no deeper than this, is a message. -/
def SpellsObject (py : PythonApi) (sch : Schema) :
    Nat → PyObject → MsgRef → Tree → Prop
  | depth + 1, .dict items, m, t =>
      SpellsFields py (SpellsObject py sch depth) m items 0
        (sch.msg m).fields t
  | _, _, _, _ => False

/-- The message that an object of descriptor `m` is. -/
def Spells (py : PythonApi) (sch : Schema) (obj : PyObject) (m : MsgRef)
    (t : Tree) : Prop :=
  SpellsObject py sch obj.depth obj m t

-- ================================================================ spelling

/-- The value an object converts to, where the union was cleared
before. -/
def convert (py : PythonApi) (typ : FieldType) (pyval : PyObject) :
    Option (Value Bytes) :=
  match pyToLwpb py ⟨0, .ext fun _ => 0, 0⟩ pyval typ with
  | .error _ => none
  | .ok (val, _) => some (member typ val)

def convertAll (py : PythonApi) (typ : FieldType) :
    List PyObject → Option (List (Value Bytes))
  | [] => some []
  | pyval :: values => do
      let v ← convert py typ pyval
      let vs ← convertAll py typ values
      some (v :: vs)

section

variable (py : PythonApi) (sch : Schema)
  (nested : PyObject → MsgRef → Option Tree)

def spellValues (f : FieldRef) (desc : FieldDesc) :
    List PyObject → Option Tree
  | [] => some .nil
  | pyval :: values => do
      let rest ← spellValues f desc values
      if desc.opts.typ = .message then
        let m ← desc.msgDesc
        let body ← nested pyval m
        some (.message f body rest)
      else
        let v ← convert py desc.opts.typ pyval
        some (.scalar f v rest)

def spellField (f : FieldRef) (desc : FieldDesc) (held : PyObject) :
    Option Tree :=
  if desc.isPackedRepeated then do
    let elems ← convertAll py desc.opts.typ held.values
    some (.packed f elems .nil)
  else spellValues py nested f desc held.values

def spellFields (m : MsgRef) (items : List (String × PyObject)) :
    Nat → List FieldDesc → Option Tree
  | _, [] => some .nil
  | i, desc :: fields =>
      match items.lookup desc.name with
      | none => spellFields m items (i + 1) fields
      | some held => do
          let first ← spellField py nested ⟨m, i⟩ desc held
          let rest ← spellFields m items (i + 1) fields
          some (first.append rest)

end

def spellObject (py : PythonApi) (sch : Schema) :
    Nat → PyObject → MsgRef → Option Tree
  | depth + 1, .dict items, m =>
      spellFields py (spellObject py sch depth) m items 0 (sch.msg m).fields
  | _, _, _ => none

/-- A message that an object of descriptor `m` is, if it is one. -/
def spell (py : PythonApi) (sch : Schema) (obj : PyObject) (m : MsgRef) :
    Option Tree :=
  spellObject py sch obj.depth obj m

section

variable {py : PythonApi} {sch : Schema} {f : FieldRef} {desc : FieldDesc}
  {spelled : PyObject → MsgRef → Tree → Prop} {m : MsgRef} {t : Tree}
  {nested : PyObject → MsgRef → Option Tree} {values : List PyObject}
  {items : List (String × PyObject)} {fields : List FieldDesc} {i : Nat}
  {obj held : PyObject} {typ : FieldType}

theorem convert_converts {pyval : PyObject} {v : Value Bytes}
    (h : convert py typ pyval = some v) : Converts py typ pyval v := by
  unfold convert at h
  cases hpy : pyToLwpb py ⟨0, .ext fun _ => 0, 0⟩ pyval typ with
  | error e =>
      rw [hpy] at h
      cases h
  | ok r =>
      rw [hpy] at h
      exact ⟨_, r.1, r.2, hpy, Option.some.inj h⟩

theorem convertAll_converts {vs : List (Value Bytes)}
    (h : convertAll py typ values = some vs) :
    List.Forall₂ (Converts py typ) values vs := by
  induction values generalizing vs with
  | nil =>
      cases h
      exact .nil
  | cons pyval values ih =>
      obtain ⟨v, hv, hrest⟩ := Option.bind_eq_some_iff.mp h
      obtain ⟨ws, hws, heq⟩ := Option.bind_eq_some_iff.mp hrest
      cases heq
      exact .cons (convert_converts hv) (ih hws)

theorem spellValues_spells
    (hnested : ∀ obj m t, nested obj m = some t → spelled obj m t)
    (h : spellValues py nested f desc values = some t) :
    SpellsValues py spelled f desc values t := by
  induction values generalizing t with
  | nil => exact (Option.some.inj h).symm
  | cons pyval values ih =>
      obtain ⟨rest, hrest, hone⟩ := Option.bind_eq_some_iff.mp h
      refine ⟨rest, ih hrest, ?_⟩
      split at hone
      · rw [if_pos ‹_›]
        obtain ⟨m, hm, hbody⟩ := Option.bind_eq_some_iff.mp hone
        obtain ⟨body, hbody, heq⟩ := Option.bind_eq_some_iff.mp hbody
        exact ⟨m, body, hm, hnested _ _ _ hbody, (Option.some.inj heq).symm⟩
      · rw [if_neg ‹_›]
        obtain ⟨v, hv, heq⟩ := Option.bind_eq_some_iff.mp hone
        exact ⟨v, convert_converts hv, (Option.some.inj heq).symm⟩

theorem spellField_spells
    (hnested : ∀ obj m t, nested obj m = some t → spelled obj m t)
    (h : spellField py nested f desc held = some t) :
    SpellsField py spelled f desc held t := by
  unfold spellField at h
  unfold SpellsField
  split at h
  · rw [if_pos ‹_›]
    obtain ⟨elems, helems, heq⟩ := Option.bind_eq_some_iff.mp h
    exact ⟨elems, convertAll_converts helems, (Option.some.inj heq).symm⟩
  · rw [if_neg ‹_›]
    exact spellValues_spells hnested h

theorem spellFields_spells
    (hnested : ∀ obj m t, nested obj m = some t → spelled obj m t)
    (h : spellFields py nested m items i fields = some t) :
    SpellsFields py spelled m items i fields t := by
  induction fields generalizing i t with
  | nil => exact (Option.some.inj h).symm
  | cons desc fields ih =>
      unfold spellFields at h
      unfold SpellsFields
      cases hheld : items.lookup desc.name with
      | none =>
          rw [hheld] at h
          exact ih h
      | some held =>
          rw [hheld] at h
          obtain ⟨first, hfirst, hrest⟩ := Option.bind_eq_some_iff.mp h
          obtain ⟨rest, hrest, heq⟩ := Option.bind_eq_some_iff.mp hrest
          exact ⟨first, rest, spellField_spells hnested hfirst, ih hrest,
            (Option.some.inj heq).symm⟩

theorem spellObject_spells {depth : Nat}
    (h : spellObject py sch depth obj m = some t) :
    SpellsObject py sch depth obj m t := by
  induction depth generalizing obj m t with
  | zero => cases h
  | succ depth ih =>
      cases obj with
      | dict items => exact spellFields_spells (fun _ _ _ => ih) h
      | list elems | bool b | other id => cases h

theorem spell_spells (h : spell py sch obj m = some t) :
    Spells py sch obj m t :=
  spellObject_spells h

end

end Lwpb.Python
