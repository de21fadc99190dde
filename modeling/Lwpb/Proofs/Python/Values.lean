/-
Converted values.

A value that `py_to_lwpb` accepts is one of the field's type, and the
union stands for it (`pyToLwpb_fills`). For all but the three types that
go through a `long` it is the object alone that decides which
(`Converts.unique`).

The three types are set through a member of half their width, so what such
an object stands for depends on the union before the call; they are left
to `Lossless.lean`. For the others `Converts` is a function of the object,
and `Fills` relates what the setter left in the union to the value that an
encoder reads from it.
-/
import Lwpb.Python.Messages
import Lwpb.Proofs.Encoder.Values

namespace Lwpb.Python

variable {py : PythonApi} {p p' q q' : RawValue} {pyval : PyObject}
  {typ : FieldType} {pending pending' : Option PyErr}

-- ================================================================ the union

/-- What is in the union is a value of the type. -/
structure Fills (typ : FieldType) (q : RawValue) : Prop where
  stands : Stands typ q (member typ q)
  ofType : (member typ q).OfType typ

theorem fills_union {v : Value Bytes} (h : v.OfType typ)
    (hmember : member typ (v.union p) = v) : Fills typ (v.union p) where
  stands := by
    rw [hmember]
    exact union_stands h p
  ofType := by
    rw [hmember]
    exact h

/-- A string is what its pointer and length say. -/
theorem fills_string (htyp : typ = .string ∨ typ = .bytes)
    {bytes : Nat → UInt8} (hsrc : q.src = .ext bytes) : Fills typ q := by
  have hlen : (stringOf q).length = q.len.toNat := by
    unfold stringOf
    rw [hsrc, List.length_map, List.length_range]
  have hcontent : (List.range (stringOf q).length).map bytes = stringOf q := by
    rw [hlen, stringOf, hsrc]
  have hlt : (stringOf q).length < 2 ^ 64 := by
    rw [hlen]
    exact q.len.toNat_lt
  rcases htyp with rfl | rfl
  · exact ⟨fun _ => ⟨rfl, hlen.symm, rfl, bytes, hsrc, hcontent⟩, rfl, hlt⟩
  · exact ⟨fun _ => ⟨rfl, hlen.symm, rfl, bytes, hsrc, hcontent⟩, rfl, hlt⟩

theorem low32 (p : RawValue) (w : UInt32) :
    (p.set32 w).word.toUInt32 = w :=
  low_half p.word w

theorem low32_signed (p : RawValue) (v : Int32) :
    (p.set32 v.toUInt32).word.toUInt32.toInt32 = v := by
  rw [low32, Int32.toInt32_toUInt32]

/-- A number of 32 bits, in a signed field. -/
theorem set32_signed (p : RawValue) (w : UInt32) :
    p.set32 w = p.set32 w.toInt32.toUInt32 := by
  rw [UInt32.toUInt32_toInt32]

/-- All bits of a union are a number of 64 bits. -/
theorem fills_long (h : typ.isLong = true) (q : RawValue) : Fills typ q := by
  have htyp : typ = .int64 ∨ typ = .sint64 ∨ typ = .sfixed64 := by
    cases typ <;> simp_all [FieldType.isLong]
  have hmember : member typ q = .int64 q.word.toInt64 := by
    rcases htyp with rfl | rfl | rfl
    · rfl
    · rfl
    · rfl
  exact fills_union (p := q) (v := .int64 q.word.toInt64) htyp hmember

theorem setLong_ok {lobound hibound : Int64}
    (h : setLong py p pyval lobound hibound = .ok (q, pending)) :
    ∃ longval, convertToLong py pyval lobound hibound = .ok longval ∧
      q = p.set32 longval.toUInt64.toUInt32 := by
  unfold setLong at h
  cases hlong : convertToLong py pyval lobound hibound with
  | error e =>
      rw [hlong] at h
      cases h
  | ok longval =>
      rw [hlong] at h
      cases h
      exact ⟨longval, rfl, rfl⟩

theorem setFloating_ok {message : String} {set : UInt64 → RawValue}
    (h : setFloating py pyval message set = .ok (q, pending)) :
    ∃ o, py.numberFloat pyval = some o ∧ q = set (py.floatAsDouble o) := by
  unfold setFloating at h
  cases hfloat : py.numberFloat pyval with
  | none =>
      rw [hfloat] at h
      cases h
  | some o =>
      rw [hfloat] at h
      cases h
      exact ⟨o, rfl, rfl⟩

/-- An accepted value is in the union. -/
theorem pyToLwpb_fills (h : pyToLwpb py p pyval typ = .ok (q, pending)) :
    Fills typ q := by
  cases typ with
  | group | message => cases h
  | double =>
      unfold pyToLwpb at h
      obtain ⟨o, -, rfl⟩ := setFloating_ok h
      exact fills_union (v := .double _) rfl rfl
  | float =>
      unfold pyToLwpb at h
      obtain ⟨o, -, rfl⟩ := setFloating_ok h
      exact fills_union (v := .float _) rfl
        (congrArg Value.float (low32 p _))
  | int64 | sint64 | sfixed64 => exact fills_long rfl q
  | int32 | sint32 | sfixed32 =>
      obtain ⟨longval, -, rfl⟩ := setLong_ok h
      rw [set32_signed]
      exact fills_union (v := .int32 _) (by simp [Value.OfType, Value.Fits])
        (congrArg Value.int32 (low32_signed p _))
  | enum =>
      obtain ⟨longval, -, rfl⟩ := setLong_ok h
      rw [set32_signed]
      exact fills_union (v := .enum _) rfl
        (congrArg Value.enum (low32_signed p _))
  | uint32 | fixed32 =>
      obtain ⟨longval, -, rfl⟩ := setLong_ok h
      exact fills_union (v := .uint32 _) (by simp [Value.OfType, Value.Fits])
        (congrArg Value.uint32 (low32 p _))
  | uint64 | fixed64 =>
      unfold pyToLwpb at h
      cases hlong : py.numberLong pyval with
      | none =>
          rw [hlong] at h
          cases h
      | some o =>
          rw [hlong] at h
          cases h
          exact fills_union (v := .uint64 _)
            (by simp [Value.OfType, Value.Fits])
            rfl
  | bool =>
      cases pyval with
      | bool b =>
          cases h
          rw [set32_signed]
          exact fills_union (v := .bool _) rfl
            (congrArg Value.bool (low32_signed p _))
      | dict items | list elems | other id => cases h
  | string | bytes =>
      unfold pyToLwpb at h
      cases hstr : py.stringAsStringAndSize pyval with
      | error e =>
          rw [hstr] at h
          cases h
      | ok r =>
          rw [hstr] at h
          cases h
          exact fills_string (by simp) rfl

-- ============================================================== conversions

theorem setLong_unique {lobound hibound : Int64}
    (h : setLong py p pyval lobound hibound = .ok (q, pending))
    (h' : setLong py p' pyval lobound hibound = .ok (q', pending')) :
    q.word.toUInt32 = q'.word.toUInt32 := by
  obtain ⟨longval, hlong, rfl⟩ := setLong_ok h
  obtain ⟨longval', hlong', rfl⟩ := setLong_ok h'
  rw [hlong] at hlong'
  cases hlong'
  rw [low32, low32]

/-- What the union held before makes no difference to the value. -/
theorem member_unique (hlong : typ.isLong = false)
    (h : pyToLwpb py p pyval typ = .ok (q, pending))
    (h' : pyToLwpb py p' pyval typ = .ok (q', pending')) :
    member typ q = member typ q' := by
  cases typ with
  | group | message => cases h
  | int64 | sint64 | sfixed64 => cases hlong
  | double =>
      unfold pyToLwpb at h h'
      obtain ⟨o, ho, rfl⟩ := setFloating_ok h
      obtain ⟨o', ho', rfl⟩ := setFloating_ok h'
      rw [ho] at ho'
      cases ho'
      rfl
  | float =>
      unfold pyToLwpb at h h'
      obtain ⟨o, ho, rfl⟩ := setFloating_ok h
      obtain ⟨o', ho', rfl⟩ := setFloating_ok h'
      rw [ho] at ho'
      cases ho'
      show Value.float (p.set32 _).word.toUInt32
        = .float (p'.set32 _).word.toUInt32
      rw [low32, low32]
  | int32 | sint32 | sfixed32 =>
      exact congrArg (fun w : UInt32 => Value.int32 w.toInt32)
        (setLong_unique h h')
  | enum =>
      exact congrArg (fun w : UInt32 => Value.enum w.toInt32)
        (setLong_unique h h')
  | uint32 | fixed32 => exact congrArg Value.uint32 (setLong_unique h h')
  | uint64 | fixed64 =>
      unfold pyToLwpb at h h'
      cases hlong : py.numberLong pyval with
      | none =>
          rw [hlong] at h
          cases h
      | some o =>
          rw [hlong] at h h'
          cases h
          cases h'
          rfl
  | bool =>
      cases pyval with
      | bool b =>
          cases h
          cases h'
          show Value.bool (p.set32 _).word.toUInt32.toInt32
            = .bool (p'.set32 _).word.toUInt32.toInt32
          rw [low32, low32]
      | dict items | list elems | other id => cases h
  | string | bytes =>
      unfold pyToLwpb at h h'
      cases hstr : py.stringAsStringAndSize pyval with
      | error e =>
          rw [hstr] at h
          cases h
      | ok r =>
          rw [hstr] at h h'
          cases h
          cases h'
          rfl

theorem Converts.unique {v v' : Value Bytes} (hlong : typ.isLong = false)
    (h : Converts py typ pyval v) (h' : Converts py typ pyval v') :
    v = v' := by
  obtain ⟨p, q, pending, hq, rfl⟩ := h
  obtain ⟨p', q', pending', hq', rfl⟩ := h'
  exact member_unique hlong hq hq'

theorem Converts.ofType {v : Value Bytes} (h : Converts py typ pyval v) :
    v.OfType typ := by
  obtain ⟨p, q, pending, hq, rfl⟩ := h
  exact (pyToLwpb_fills hq).ofType

/-- An object that converts does so whatever is in the union. -/
theorem Converts.again {v : Value Bytes} (h : Converts py typ pyval v)
    (before : RawValue) :
    ∃ val pending, pyToLwpb py before pyval typ = .ok (val, pending) ∧
      Stands typ val (member typ val) ∧
      Converts py typ pyval (member typ val) := by
  obtain ⟨p, q, pending, hq, -⟩ := h
  cases hval : pyToLwpb py before pyval typ with
  | error e =>
      rw [pyToLwpb_error hval] at hq
      cases hq
  | ok r =>
      obtain ⟨val, pending'⟩ := r
      exact ⟨val, pending', rfl, (pyToLwpb_fills hval).stands, before, val,
        pending', hval, rfl⟩

end Lwpb.Python
