/-
A Python runtime: which scalars its opaque objects are.

The code only ever asks the runtime, so any `PythonApi` will do for most
of what is said about it. What a dict comes to after a round trip depends
on what a number or a string is, and on the calls that read and make one
agreeing about it (`Lawful`). So do the dicts that make the trip
(`Canonical`) and when two objects are equal (`Same`).
-/
import Lwpb.Python.Decoder
import Lwpb.Python.Encoder

namespace Lwpb.Python

-- ================================================================= scalars

/-- A number, a double by its bits, or a string. -/
inductive Scalar where
  | int (n : Int)
  | float (bits : UInt64)
  | str (bytes : Bytes)
  deriving Repr, DecidableEq

/-- What the C API documents of the calls: objects are read as the scalars
they are, where these fit, and made as such. -/
structure Lawful (py : PythonApi) (new : PythonNew) (value : Nat → Scalar) :
    Prop where
  long : ∀ id n, value id = .int n → -2 ^ 63 ≤ n → n < 2 ^ 63 →
    ∃ o, py.numberInt (.other id) = some o ∧ (py.intAsLong o).toInt = n
  unsignedLongLong : ∀ id n, value id = .int n → 0 ≤ n → n < 2 ^ 64 →
    ∃ o, py.numberLong (.other id) = some o ∧
      py.longAsUnsignedLongLong o = (UInt64.ofNat n.toNat, none)
  double : ∀ id bits, value id = .float bits →
    ∃ o, py.numberFloat (.other id) = some o ∧ py.floatAsDouble o = bits
  string : ∀ id bytes, value id = .str bytes →
    ∃ addr, py.stringAsStringAndSize (.other id) = .ok (addr, bytes)
  floatFromDouble : ∀ bits, value (new.floatFromDouble bits) = .float bits
  longFromLongLong : ∀ n, value (new.longFromLongLong n) = .int n.toInt
  longFromUnsignedLongLong : ∀ n,
    value (new.longFromUnsignedLongLong n) = .int n.toNat
  intFromLong : ∀ n, value (new.intFromLong n) = .int n.toInt
  longFromLong : ∀ n, value (new.longFromLong n) = .int n.toInt
  longFromUnsignedLong : ∀ n,
    value (new.longFromUnsignedLong n) = .int n.toNat
  stringFromStringAndSize : ∀ bytes,
    value (new.stringFromStringAndSize bytes) = .str bytes

-- ========================================================= canonical dicts

/-- The scalar is a value of the type. -/
def InRange : FieldType → Scalar → Prop
  | .double, .float _ => True
  | .float, .float bits => floatToDouble (doubleToFloat bits) = bits
  | .int32, .int n | .sint32, .int n | .sfixed32, .int n | .enum, .int n =>
      -2 ^ 31 ≤ n ∧ n < 2 ^ 31
  | .uint32, .int n | .fixed32, .int n => 0 ≤ n ∧ n < 2 ^ 32
  | .int64, .int n | .sint64, .int n | .sfixed64, .int n =>
      -2 ^ 63 ≤ n ∧ n < 2 ^ 63
  | .uint64, .int n | .fixed64, .int n => 0 ≤ n ∧ n < 2 ^ 64
  | .string, .str bytes | .bytes, .str bytes => bytes.length < 2 ^ 31
  | _, _ => False

/-- The object is a value of the type. -/
def IsValue (value : Nat → Scalar) (typ : FieldType) (pyval : PyObject) :
    Prop :=
  match pyval with
  | .bool _ => typ = .bool
  | .other id => InRange typ (value id)
  | _ => False

/-- A dict as the decoder would make one for message `m`: keys are names
of fields, repeated fields have lists that are not empty, and other fields
one value. -/
inductive Canonical (value : Nat → Scalar) (sch : Schema) :
    MsgRef → PyObject → Prop where
  | dict {m : MsgRef} {items : Items}
      (known : ∀ name, items.lookup name ≠ none →
        ∃ desc ∈ (sch.msg m).fields, desc.name = name)
      (lists : ∀ desc ∈ (sch.msg m).fields, desc.opts.label = .repeated →
        ∀ held, items.lookup desc.name = some held →
        ∃ elems, held = .list elems ∧ elems ≠ [])
      (singles : ∀ desc ∈ (sch.msg m).fields, desc.opts.label ≠ .repeated →
        ∀ held, items.lookup desc.name = some held →
        ∀ elems, held ≠ .list elems)
      (scalars : ∀ desc ∈ (sch.msg m).fields, desc.opts.typ ≠ .message →
        ∀ held, items.lookup desc.name = some held →
        ∀ pyval ∈ held.values, IsValue value desc.opts.typ pyval)
      (described : ∀ desc ∈ (sch.msg m).fields, desc.opts.typ = .message →
        items.lookup desc.name ≠ none → desc.msgDesc ≠ none)
      (messages : ∀ desc ∈ (sch.msg m).fields, desc.opts.typ = .message →
        ∀ held, items.lookup desc.name = some held →
        ∀ pyval ∈ held.values, ∀ m', desc.msgDesc = some m' →
        Canonical value sch m' pyval) :
      Canonical value sch m (.dict items)

/-- Equal objects: the same scalars in the same places. Dicts have no
order. -/
inductive Same (value : Nat → Scalar) : PyObject → PyObject → Prop where
  | bool (b : Bool) : Same value (.bool b) (.bool b)
  | scalar {id id' : Nat} (h : value id = value id') :
      Same value (.other id) (.other id')
  | list {elems elems' : List PyObject}
      (h : List.Forall₂ (Same value) elems elems') :
      Same value (.list elems) (.list elems')
  | dict {items items' : Items}
      (h : ∀ name, Option.Rel (Same value) (items.lookup name)
        (items'.lookup name)) :
      Same value (.dict items) (.dict items')

-- ========================================================= a plain runtime

/-- A number for every integer. -/
def intCode : Int → Nat
  | .ofNat n => 2 * n
  | .negSucc n => 2 * n + 1

/-- The integer of a number. -/
def ofIntCode (k : Nat) : Int :=
  if k % 2 = 0 then .ofNat (k / 2) else .negSucc (k / 2)

theorem ofIntCode_intCode (n : Int) : ofIntCode (intCode n) = n := by
  unfold ofIntCode
  cases n with
  | ofNat n =>
      have heven : intCode (.ofNat n) = 2 * n := rfl
      rw [if_pos (by omega), heven, Nat.mul_div_cancel_left n (by decide)]
  | negSucc n =>
      have hodd : intCode (.negSucc n) = 2 * n + 1 := rfl
      rw [if_neg (by omega), hodd]
      congr 1
      omega

theorem length_le_strCode (bytes : Bytes) :
    bytes.length ≤ strCode bytes := by
  induction bytes with
  | nil => exact Nat.le_refl 0
  | cons b bytes ih =>
      rw [List.length_cons, strCode]
      omega

theorem ofStrCode_strCode (bytes : Bytes) {fuel : Nat}
    (h : bytes.length ≤ fuel) : ofStrCode fuel (strCode bytes) = bytes := by
  induction bytes generalizing fuel with
  | nil => cases fuel <;> rfl
  | cons b bytes ih =>
      cases fuel with
      | zero => exact absurd h (Nat.not_succ_le_zero _)
      | succ fuel =>
          have hb := b.toNat_lt
          have hbyte : (strCode bytes * 256 + b.toNat) % 256 = b.toNat := by
            omega
          have hrest : (strCode bytes * 256 + b.toNat) / 256
              = strCode bytes := by
            omega
          rw [strCode, ofStrCode, hbyte, hrest, UInt8.ofNat_toNat,
            ih (Nat.le_of_succ_le_succ h)]

/-- The object of a scalar, in a runtime that has one object for each. -/
def plainId : Scalar → Nat
  | .int n => 3 * intCode n
  | .float bits => 3 * bits.toNat + 1
  | .str bytes => 3 * strCode bytes + 2

def plainValue (id : Nat) : Scalar :=
  match id % 3 with
  | 0 => .int (ofIntCode (id / 3))
  | 1 => .float (UInt64.ofNat (id / 3))
  | _ => .str (ofStrCode (id / 3) (id / 3))

theorem plainValue_plainId (v : Scalar) : plainValue (plainId v) = v := by
  unfold plainValue
  cases v with
  | int n =>
      have hid : plainId (.int n) = 3 * intCode n := rfl
      have hmod : plainId (.int n) % 3 = 0 := by omega
      have hdiv : plainId (.int n) / 3 = intCode n := by omega
      rw [hmod, hdiv]
      exact congrArg Scalar.int (ofIntCode_intCode n)
  | float bits =>
      have hid : plainId (.float bits) = 3 * bits.toNat + 1 := rfl
      have hmod : plainId (.float bits) % 3 = 1 := by omega
      have hdiv : plainId (.float bits) / 3 = bits.toNat := by omega
      rw [hmod, hdiv]
      exact congrArg Scalar.float UInt64.ofNat_toNat
  | str bytes =>
      have hid : plainId (.str bytes) = 3 * strCode bytes + 2 := rfl
      have hmod : plainId (.str bytes) % 3 = 2 := by omega
      have hdiv : plainId (.str bytes) / 3 = strCode bytes := by omega
      rw [hmod, hdiv]
      exact congrArg Scalar.str
        (ofStrCode_strCode bytes (length_le_strCode bytes))

/-- A runtime with integers, floats and strings, and without conversions
between them. -/
def plainPython : PythonApi where
  numberFloat
    | .other id =>
        match plainValue id with
        | .float _ => some (.other id)
        | _ => none
    | _ => none
  floatAsDouble
    | .other id =>
        match plainValue id with
        | .float bits => bits
        | _ => 0
    | _ => 0
  numberInt
    | .other id =>
        match plainValue id with
        | .int _ => some (.other id)
        | _ => none
    | _ => none
  intAsLong
    | .other id =>
        match plainValue id with
        | .int n => Int64.ofInt n
        | _ => 0
    | _ => 0
  numberLong
    | .other id =>
        match plainValue id with
        | .int _ => some (.other id)
        | _ => none
    | _ => none
  longAsUnsignedLongLong
    | .other id =>
        match plainValue id with
        | .int n =>
            if 0 ≤ n ∧ n < 2 ^ 64 then (UInt64.ofNat n.toNat, none)
            else (-1, some ⟨.overflowError, "long too big to convert"⟩)
        | _ => (0, none)
    | _ => (0, none)
  stringAsStringAndSize
    | .other id =>
        match plainValue id with
        | .str bytes => .ok (0x1000, bytes)
        | _ => .error ⟨.typeError, "expected string or Unicode object"⟩
    | _ => .error ⟨.typeError, "expected string or Unicode object"⟩

/-- The objects that it makes. -/
def plainNew : PythonNew where
  floatFromDouble bits := plainId (.float bits)
  longFromLongLong n := plainId (.int n.toInt)
  longFromUnsignedLongLong n := plainId (.int n.toNat)
  intFromLong n := plainId (.int n.toInt)
  longFromLong n := plainId (.int n.toInt)
  longFromUnsignedLong n := plainId (.int n.toNat)
  stringFromStringAndSize bytes := plainId (.str bytes)

theorem plain_lawful : Lawful plainPython plainNew plainValue where
  long id n hid hlo hhi := by
    refine ⟨.other id, ?_, ?_⟩
    · simp only [plainPython, hid]
    · simp only [plainPython, hid]
      exact Int64.toInt_ofInt_of_le hlo hhi
  unsignedLongLong id n hid hlo hhi := by
    refine ⟨.other id, ?_, ?_⟩
    · simp only [plainPython, hid]
    · simp only [plainPython, hid]
      rw [if_pos ⟨hlo, hhi⟩]
  double id bits hid :=
    ⟨.other id, by simp only [plainPython, hid],
      by simp only [plainPython, hid]⟩
  string id bytes hid := ⟨0x1000, by simp only [plainPython, hid]⟩
  floatFromDouble bits := plainValue_plainId (.float bits)
  longFromLongLong n := plainValue_plainId (.int n.toInt)
  longFromUnsignedLongLong n := plainValue_plainId (.int n.toNat)
  intFromLong n := plainValue_plainId (.int n.toInt)
  longFromLong n := plainValue_plainId (.int n.toInt)
  longFromUnsignedLong n := plainValue_plainId (.int n.toNat)
  stringFromStringAndSize bytes := plainValue_plainId (.str bytes)

end Lwpb.Python
