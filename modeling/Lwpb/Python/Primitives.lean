/-
Python objects, and scalars converted to C: `python/primitives.c`.

Objects are trees: a dict is the list of its items under string keys, and
what is no dict, list or boolean is an opaque object. What the Python
runtime does with an object is a parameter (`PythonApi`), one function for
each call or macro that the code uses, for any object whatever: an object
of a subclass may convert as it likes. Conversions have no effect but the
exception they raise.

`long` has 64 bits.
-/
import Lwpb.Core.Encoder

namespace Lwpb.Python

-- ================================================================= objects

/-- A Python object. -/
inductive PyObject where
  | dict (items : List (String × PyObject))
  | list (elems : List PyObject)
  | bool (b : Bool)
  | other (id : Nat)

/-- Classes of exceptions. -/
inductive Exc where
  | typeError
  | valueError
  | overflowError
  | runtimeError
  | indexError
  | memoryError
  | systemError
  | other
  deriving Repr, DecidableEq

/-- An exception: what `PyErr_SetString` is given. -/
structure PyErr where
  exc : Exc
  message : String
  deriving Repr, DecidableEq

/-- The runtime. `none` is NULL, with an exception that the code always
replaces. -/
structure PythonApi where
  /-- `PyNumber_Float`. -/
  numberFloat : PyObject → Option PyObject
  /-- `PyFloat_AS_DOUBLE`: the bits of a double. -/
  floatAsDouble : PyObject → UInt64
  /-- `PyNumber_Int`. -/
  numberInt : PyObject → Option PyObject
  /-- `PyInt_AS_LONG`, which reads the object unchecked. -/
  intAsLong : PyObject → Int64
  /-- `PyNumber_Long`. -/
  numberLong : PyObject → Option PyObject
  /-- `PyLong_AsUnsignedLongLong`, and the exception it leaves if any. -/
  longAsUnsignedLongLong : PyObject → UInt64 × Option PyErr
  /-- `PyString_AsStringAndSize`: the address and the bytes. -/
  stringAsStringAndSize : PyObject → Except PyErr (UInt64 × Bytes)

-- ================================================================= numbers

/-- `m / 2 ^ s`, rounded to nearest, ties to even. -/
def roundEven (m s : Nat) : Nat :=
  let q := m / 2 ^ s
  let r := m % 2 ^ s
  if 2 ^ s < 2 * r ∨ (2 ^ s = 2 * r ∧ q % 2 = 1) then q + 1 else q

/-- The conversion of a double to a float, on bits: IEEE 754, rounding to
nearest. -/
def doubleToFloat (bits : UInt64) : UInt32 :=
  let sign := bits.toNat / 2 ^ 63 * 2 ^ 31
  let exp := bits.toNat / 2 ^ 52 % 2 ^ 11
  let frac := bits.toNat % 2 ^ 52
  if exp = 0x7ff then
    -- an infinity, or a NaN, which is quiet afterwards
    UInt32.ofNat (sign + 0x7f800000
      + if frac = 0 then 0 else 0x400000 ||| frac / 2 ^ 29)
  else
    let m := if exp = 0 then frac else frac + 2 ^ 52
    let e := max exp 1
    -- a carry out of the significand goes to the exponent
    let rounded := (e - 897) * 2 ^ 23 + roundEven m (29 + (897 - e))
    UInt32.ofNat (sign + min rounded 0x7f800000)

example : doubleToFloat 0x3ff0000000000000 = 0x3f800000 := by decide

-- =============================================================== the union

/-- `p->string.str = str` and `p->string.len = len`. -/
def setPyString (p : RawValue) (str : UInt64) (data : Bytes) : RawValue :=
  { p with
    word := str
    src := .ext fun i => data.getD i 0
    len := UInt64.ofNat data.length }

-- ============================================================== conversion

/-- `convert_to_long`. -/
def convertToLong (py : PythonApi) (val : PyObject)
    (lobound hibound : Int64) : Except PyErr Int64 :=
  match py.numberInt val with
  | none => .error ⟨.overflowError, "could not convert to long"⟩
  | some o =>
      let longval := py.intAsLong o
      if longval > hibound ∨ longval < lobound then
        .error ⟨.overflowError, "value outside type bounds"⟩
      else .ok longval

/-- The conversion to one of the integer types that fit a `long`: what is
set is `p->int32`, whatever the type. -/
def setLong (py : PythonApi) (p : RawValue) (val : PyObject)
    (lobound hibound : Int64) : Except PyErr (RawValue × Option PyErr) :=
  match convertToLong py val lobound hibound with
  | .error e => .error e
  | .ok longval => .ok (p.set32 longval.toUInt64.toUInt32, none)

/-- The conversion to a floating point type. -/
def setFloating (py : PythonApi) (val : PyObject) (message : String)
    (set : UInt64 → RawValue) : Except PyErr (RawValue × Option PyErr) :=
  match py.numberFloat val with
  | none => .error ⟨.valueError, message⟩
  | some o => .ok (set (py.floatAsDouble o), none)

/-- `py_to_lwpb`. An error is a -1, with its exception; otherwise the
union, and the exception that is pending all the same if there is one. -/
def pyToLwpb (py : PythonApi) (p : RawValue) (val : PyObject)
    (typ : FieldType) : Except PyErr (RawValue × Option PyErr) :=
  match typ with
  | .group | .message => .error ⟨.runtimeError, "internal error"⟩
  | .double => setFloating py val "could not convert to double" p.set64
  | .float => setFloating py val "could not convert to float"
      fun double => p.set32 (doubleToFloat double)
  | .int64 | .sint64 | .sfixed64 =>
      setLong py p val Int64.minValue Int64.maxValue
  | .uint64 | .fixed64 =>
      match py.numberLong val with
      | none => .error ⟨.valueError, "could not convert to uint64"⟩
      | some o =>
          let (uint64, err) := py.longAsUnsignedLongLong o
          .ok (p.set64 uint64, err)
  | .sfixed32 | .sint32 | .int32 | .enum =>
      setLong py p val (-0x80000000) 0x7fffffff
  | .fixed32 | .uint32 => setLong py p val 0 0xffffffff
  | .bool =>
      match val with
      | .bool b => .ok (p.set32 (if b then 1 else 0), none)
      | _ => .error ⟨.valueError, "should be true or false"⟩
  | .string | .bytes =>
      match py.stringAsStringAndSize val with
      | .error e => .error e
      | .ok (str, data) => .ok (setPyString p str data, none)

/-- The value is no value of this type. -/
def rejects (py : PythonApi) (val : PyObject) (typ : FieldType) : Bool :=
  match pyToLwpb py ⟨0, .ext fun _ => 0, 0⟩ val typ with
  | .error _ => true
  | .ok _ => false

section

variable {py : PythonApi} {p q : RawValue} {val : PyObject} {e : PyErr}

theorem setLong_error {lobound hibound : Int64}
    (h : setLong py p val lobound hibound = .error e) :
    setLong py q val lobound hibound = .error e := by
  unfold setLong at h ⊢
  cases hlong : convertToLong py val lobound hibound with
  | error e' =>
      rw [hlong] at h
      exact h
  | ok longval =>
      rw [hlong] at h
      cases h

theorem setFloating_error {message : String} {set set' : UInt64 → RawValue}
    (h : setFloating py val message set = .error e) :
    setFloating py val message set' = .error e := by
  unfold setFloating at h ⊢
  cases hfloat : py.numberFloat val with
  | none =>
      rw [hfloat] at h
      exact h
  | some o =>
      rw [hfloat] at h
      cases h

/-- What the union held before makes no difference to an error. -/
theorem pyToLwpb_error {typ : FieldType}
    (h : pyToLwpb py p val typ = .error e) :
    pyToLwpb py q val typ = .error e := by
  cases typ with
  | group | message => exact h
  | double | float =>
      unfold pyToLwpb at h ⊢
      exact setFloating_error h
  | int64 | sint64 | sfixed64 | sfixed32 | sint32 | int32 | enum | fixed32
  | uint32 => exact setLong_error h
  | uint64 | fixed64 =>
      unfold pyToLwpb at h ⊢
      cases hlong : py.numberLong val with
      | none =>
          rw [hlong] at h
          exact h
      | some o =>
          rw [hlong] at h
          cases h
  | bool =>
      cases val with
      | bool b => cases h
      | dict items | list elems | other id => exact h
  | string | bytes =>
      unfold pyToLwpb at h ⊢
      cases hstr : py.stringAsStringAndSize val with
      | error e' =>
          rw [hstr] at h
          exact h
      | ok str =>
          rw [hstr] at h
          cases h

theorem pyToLwpb_rejects {typ : FieldType}
    (h : pyToLwpb py p val typ = .error e) : rejects py val typ = true := by
  rw [rejects, pyToLwpb_error h]

theorem pyToLwpb_accepts {typ : FieldType} {r : RawValue × Option PyErr}
    (h : pyToLwpb py p val typ = .ok r) : rejects py val typ = false := by
  rw [rejects]
  cases hzero : pyToLwpb py ⟨0, .ext fun _ => 0, 0⟩ val typ with
  | error e =>
      rw [pyToLwpb_error hzero] at h
      cases h
  | ok r => rfl

end

-- ================================================================ a runtime

/-- A number for every byte string. -/
def strCode : Bytes → Nat
  | [] => 0
  | b :: bs => strCode bs * 256 + b.toNat + 1

/-- The byte string of a number. -/
def ofStrCode : (fuel : Nat) → Nat → Bytes
  | 0, _ => []
  | _, 0 => []
  | fuel + 1, n + 1 => UInt8.ofNat (n % 256) :: ofStrCode fuel (n / 256)

/-- A runtime with integers, floats and strings, and without conversions
between them: the integer `n`, the double with the bits `n` and the string
number `n` are the objects `3 n`, `3 n + 1` and `3 n + 2`. -/
def samplePython : PythonApi where
  numberFloat
    | .other id => if id % 3 = 1 then some (.other id) else none
    | _ => none
  floatAsDouble
    | .other id => UInt64.ofNat (id / 3)
    | _ => 0
  numberInt
    | .other id => if id % 3 = 0 then some (.other id) else none
    | _ => none
  intAsLong
    | .other id => Int64.ofNat (id / 3)
    | _ => 0
  numberLong
    | .other id => if id % 3 = 0 then some (.other id) else none
    | _ => none
  longAsUnsignedLongLong
    | .other id => (UInt64.ofNat (id / 3), none)
    | _ => (0, none)
  stringAsStringAndSize
    | .other id =>
        if id % 3 = 2 then .ok (0x1000, ofStrCode (id / 3) (id / 3))
        else .error ⟨.typeError, "expected string or Unicode object"⟩
    | _ => .error ⟨.typeError, "expected string or Unicode object"⟩

end Lwpb.Python
