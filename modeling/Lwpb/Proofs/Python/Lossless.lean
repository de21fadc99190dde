/-
Integers through the union, and back.

`py_to_lwpb` sets `p->int32` for the three signed types of 64 bits too, so
the upper half of the union keeps what it held. A number comes back from
it if and only if that was the number's own upper half
(`conversion_lossless`); all other types are set through a member of their
own width.

The union is a word, and a member of half its width sets the lower half
(`upperHalf_set32`). Read through the member that the type names, a number
of 64 bits is then its own lower half under whatever was in the upper one:
the condition is about the union before the call, which the caller leaves
as the last value left it.
-/
import Lwpb.Proofs.Python.Canonical

namespace Lwpb.Python

-- ================================================================== halves

/-- The upper four bytes. -/
def upperHalf (word : UInt64) : Nat := word.toNat / 2 ^ 32

/-- A word is its two halves. -/
theorem word_ext {word word' : UInt64} (hhi : upperHalf word = upperHalf word')
    (hlo : word.toUInt32 = word'.toUInt32) : word = word' := by
  have hlow := congrArg UInt32.toNat hlo
  rw [UInt64.toNat_toUInt32, UInt64.toNat_toUInt32] at hlow
  unfold upperHalf at hhi
  apply UInt64.toNat_inj.mp
  omega

/-- `p->int32 = v` keeps the upper half. -/
theorem upperHalf_set32 (p : RawValue) (v : UInt32) :
    upperHalf (p.set32 v).word = upperHalf p.word := by
  have hp := p.word.toNat_lt
  have hv : v.toNat / 2 ^ 32 = 0 := Nat.div_eq_of_lt v.toNat_lt
  have hmask : (0xffffffff00000000 : UInt64).toNat / 2 ^ 32
      = 2 ^ 32 - 1 := rfl
  unfold upperHalf RawValue.set32
  rw [UInt64.toNat_or, UInt64.toNat_and, UInt32.toNat_toUInt64,
    Nat.or_div_two_pow, Nat.and_div_two_pow, hmask, hv, Nat.or_zero,
    Nat.and_two_pow_sub_one_eq_mod]
  exact Nat.mod_eq_of_lt (by omega)

-- ============================================================== conversions

/-- The integer-valued types. -/
def isInteger : FieldType → Bool
  | .int32 | .sint32 | .sfixed32 | .enum | .uint32 | .fixed32 => true
  | .int64 | .sint64 | .sfixed64 | .uint64 | .fixed64 => true
  | _ => false

section

variable (py : PythonApi) (new : PythonNew) (value : Nat → Scalar)
  (typ : FieldType)

/-- The integer goes into the union, and comes back. -/
def Lossless (p : RawValue) (pyval : PyObject) (n : Int) : Prop :=
  ∃ q pending, pyToLwpb py p pyval typ = .ok (q, pending) ∧
    ∃ id, lwpbToPy new (member typ q) typ = .ok (.other id) ∧
      value id = .int n

/-- Two conversions make the same value of it. -/
def Agrees (p p' : RawValue) (pyval : PyObject) : Prop :=
  ∃ q pending q' pending', pyToLwpb py p pyval typ = .ok (q, pending) ∧
    pyToLwpb py p' pyval typ = .ok (q', pending') ∧
    member typ q = member typ q'

end

section

variable {py : PythonApi} {new : PythonNew} {value : Nat → Scalar}
  {typ : FieldType} {id : Nat} {n : Int} {p p' : RawValue}

/-- The three types that go through `p->int32`, whatever their width. -/
theorem isLong_member (hlong : typ.isLong = true) (q : RawValue) :
    member typ q = .int64 q.word.toInt64 ∧
      lwpbToPy new (member typ q) typ
        = .ok (.other (new.longFromLongLong q.word.toInt64)) := by
  cases typ <;> first | cases hlong; done | exact ⟨rfl, rfl⟩

theorem isLong_set (hlaw : Lawful py new value) (hlong : typ.isLong = true)
    (hid : value id = .int n) (hlo : -2 ^ 63 ≤ n) (hhi : n < 2 ^ 63)
    (p : RawValue) :
    pyToLwpb py p (.other id) typ
      = .ok (p.set32 (Int64.ofInt n).toUInt64.toUInt32, none) := by
  obtain ⟨long, hn, hset⟩ := @Lawful.setLong py new value id p hlaw n hid
    Int64.minValue Int64.maxValue hlo (Int.le_of_lt_add_one hhi)
  have heq : long = Int64.ofInt n := by
    rw [← hn, Int64.ofInt_toInt]
  rw [← heq, ← hset]
  cases typ <;> first | cases hlong; done | rfl

/-- It is the upper half that was in the union before that makes the
number. -/
theorem isLong_lossless (hlaw : Lawful py new value)
    (hlong : typ.isLong = true) (hid : value id = .int n)
    (hlo : -2 ^ 63 ≤ n) (hhi : n < 2 ^ 63) :
    Lossless py new value typ p (.other id) n ↔
      upperHalf p.word = upperHalf (Int64.ofInt n).toUInt64 := by
  have hset := isLong_set hlaw hlong hid hlo hhi p
  have hn : (Int64.ofInt n).toInt = n := Int64.toInt_ofInt_of_le hlo hhi
  have hback := (@isLong_member new typ hlong
    (p.set32 (Int64.ofInt n).toUInt64.toUInt32)).2
  have hupper := upperHalf_set32 p (Int64.ofInt n).toUInt64.toUInt32
  constructor
  · intro h
    obtain ⟨q, pending, hconv, id', hread, hvalue⟩ := h
    rw [hset] at hconv
    cases hconv
    rw [hback] at hread
    cases hread
    rw [hlaw.longFromLongLong] at hvalue
    have hword : (p.set32 (Int64.ofInt n).toUInt64.toUInt32).word.toInt64
        = Int64.ofInt n := by
      apply Int64.toInt_inj.mp
      rw [hn]
      exact Scalar.int.inj hvalue
    have hsame := congrArg (fun long => upperHalf long.toUInt64) hword
    rw [UInt64.toUInt64_toInt64] at hsame
    exact hupper.symm.trans hsame
  · intro hsame
    refine ⟨_, _, hset, _, hback, ?_⟩
    have hword : (p.set32 (Int64.ofInt n).toUInt64.toUInt32).word
        = (Int64.ofInt n).toUInt64 :=
      word_ext (hupper.trans hsame) (low32 p _)
    rw [hlaw.longFromLongLong, hword, Int64.toInt64_toUInt64, hn]

/-- A number of any other type comes back. -/
theorem lossless_others (hlaw : Lawful py new value) (hint : isInteger typ = true)
    (hlong : typ.isLong = false) (hid : value id = .int n)
    (hin : InRange typ (.int n)) :
    Lossless py new value typ p (.other id) n := by
  have hvalue : IsValue value typ (.other id) := by
    show InRange typ (value id)
    rw [hid]
    exact hin
  obtain ⟨q, hconv, hsame⟩ := reads_back hlaw hlong hvalue p
  obtain ⟨id', hread⟩ : ∃ id',
      lwpbToPy new (member typ q) typ = .ok (.other id') := by
    cases typ <;> first | cases hint; done | exact ⟨_, rfl⟩
  have htoPy : toPy new (member typ q) typ = .other id' := by
    unfold toPy
    rw [hread]
  rw [htoPy] at hsame
  cases hsame with
  | scalar h => exact ⟨q, none, hconv, id', hread, h.symm.trans hid⟩

/-- An integer goes through the union and comes back if and only if its
type is set through a member of its width, or the upper half of the union
was right before; and two conversions agree if and only if that is so or
they find the same upper half. -/
theorem conversion_lossless (hlaw : Lawful py new value)
    (hint : isInteger typ = true) (hid : value id = .int n)
    (hin : InRange typ (.int n)) (p p' : RawValue) :
    (Lossless py new value typ p (.other id) n ↔
      (typ.isLong = true →
        upperHalf p.word = upperHalf (Int64.ofInt n).toUInt64)) ∧
    (Agrees py typ p p' (.other id) ↔
      (typ.isLong = true → upperHalf p.word = upperHalf p'.word)) := by
  cases hlong : typ.isLong with
  | false =>
      have hno : ∀ {P : Prop}, false = true → P := fun h => by cases h
      have hback : ∀ p, Lossless py new value typ p (.other id) n :=
        fun p => lossless_others hlaw hint hlong hid hin
      refine ⟨iff_of_true (hback p) hno, iff_of_true ?_ hno⟩
      obtain ⟨q, pending, hq, -⟩ := hback p
      obtain ⟨q', pending', hq', -⟩ := hback p'
      exact ⟨q, pending, q', pending', hq, hq', member_unique hlong hq hq'⟩
  | true =>
      obtain ⟨hlo, hhi⟩ : -2 ^ 63 ≤ n ∧ n < 2 ^ 63 := by
        cases typ <;> first | cases hlong; done | exact hin
      refine ⟨?_, ?_⟩
      · rw [isLong_lossless hlaw hlong hid hlo hhi]
        exact ⟨fun h _ => h, fun h => h rfl⟩
      · have hset := isLong_set hlaw hlong hid hlo hhi p
        have hset' := isLong_set hlaw hlong hid hlo hhi p'
        have hmember := fun q => (@isLong_member new typ hlong q).1
        constructor
        · intro h _
          obtain ⟨q, pending, q', pending', hq, hq', hsame⟩ := h
          rw [hset] at hq
          rw [hset'] at hq'
          cases hq
          cases hq'
          rw [hmember, hmember] at hsame
          have hword := congrArg Int64.toUInt64 (Value.int64.inj hsame)
          rw [UInt64.toUInt64_toInt64, UInt64.toUInt64_toInt64] at hword
          rw [← upperHalf_set32 p, hword, upperHalf_set32]
        · intro hsame
          refine ⟨_, _, _, _, hset, hset', ?_⟩
          have hupper := hsame rfl
          rw [hmember, hmember, word_ext
            ((upperHalf_set32 p _).trans
              (hupper.trans (upperHalf_set32 p' _).symm))
            ((low32 p _).trans (low32 p' _).symm)]

theorem conversion_lossless_int32 :
    (Lossless plainPython plainNew plainValue .int32 ⟨0, .ext fun _ => 0, 0⟩
        (.other (plainId (.int (-1)))) (-1) ↔
      (FieldType.int32.isLong = true →
        upperHalf 0 = upperHalf (Int64.ofInt (-1)).toUInt64)) ∧
    (Agrees plainPython .int32 ⟨0, .ext fun _ => 0, 0⟩
        ⟨-1, .ext fun _ => 0, 0⟩ (.other (plainId (.int (-1)))) ↔
      (FieldType.int32.isLong = true → upperHalf 0 = upperHalf (-1))) :=
  conversion_lossless plain_lawful rfl (plainValue_plainId (.int (-1)))
    (by exact ⟨by decide, by decide⟩) ⟨0, .ext fun _ => 0, 0⟩
    ⟨-1, .ext fun _ => 0, 0⟩

/-- In a union that held zero, -1 is converted to `2 ^ 32 - 1` for a field
of 64 bits. -/
theorem conversion_loses_sign :
    ¬ Lossless plainPython plainNew plainValue .int64
      ⟨0, .ext fun _ => 0, 0⟩ (.other (plainId (.int (-1)))) (-1) := by
  intro h
  obtain ⟨q, pending, hconv, id', hread, hvalue⟩ := h
  have hset : pyToLwpb plainPython ⟨0, .ext fun _ => 0, 0⟩
      (.other (plainId (.int (-1)))) .int64 = .ok (_, none) :=
    isLong_set plain_lawful rfl (plainValue_plainId (.int (-1))) (by decide)
      (by decide) ⟨0, .ext fun _ => 0, 0⟩
  rw [hset] at hconv
  cases hconv
  cases hread
  exact absurd hvalue (by decide)

end

end Lwpb.Python
