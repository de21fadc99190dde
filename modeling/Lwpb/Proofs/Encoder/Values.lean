/-
Values and their wire values, on the way out.

The first switch of `lwpb_encoder_add_field` turns the union the setter
has filled into a wire type and a wire value. For a value of the field's
type that is the payload of the value (`raw_stands`), where
`Payload.Out` says what a wire value must hold to be written as a
payload. The union bytes a setter leaves alone play no part.

There are two ways to a union: a setter, which clears nothing, and a
caller who fills one. `Stands` is what they have in common and all that
the encoder looks at: the member of the type holds the value, whatever the
other bytes are. The signed types are where something happens on the way:
a negative `int32` is extended to 64 bits (`int32_extended`), and the
zig-zag types are coded by shifts of a signed word (`int32_zigzag`,
`int64_zigzag`), which is compared with the arithmetic code of
`Lib/TwosComplement.lean`.
-/
import Lwpb.Proofs.Encoder.Writers
import Lwpb.Wire.Message

namespace Lwpb

open Memory Base128 Slice TwosComplement

-- ================================================================= setters

/-- The union as the setter of a value leaves it. -/
def Value.raw : RawValue → Value Bytes → RawValue := Value.put strlen

theorem addValue_eq (sch : Schema) (u : Scratch) (s : Enc) (f : FieldRef)
    (v : Value Bytes) :
    addValue sch u s f v = addField sch u.wireValue s f (v.raw u.value) := by
  cases v <;> rfl

/-- A string without NUL is as long as `LWPB_STRLEN` says. -/
theorem strlen_of_not_mem {str : Bytes} (h : 0 ∉ str) :
    strlen str = str.length := by
  unfold strlen
  induction str with
  | nil => rfl
  | cons b str ih =>
      rw [List.mem_cons, not_or] at h
      have hb : (b != 0) = true := bne_iff_ne.mpr (Ne.symm h.1)
      rw [List.takeWhile_cons, if_pos hb, List.length_cons, ih h.2,
        List.length_cons]

-- ================================================================== numbers

/-- Sign extension keeps the number. -/
theorem int32_extended (v : Int32) :
    v.toInt64.toUInt64.toNat = residue 64 v.toInt := by
  rw [int64_word, Int32.toInt_toInt64]

theorem int32_zigzag (v : Int32) :
    ((v <<< 1) ^^^ (v >>> 31)).toUInt32.toUInt64.toNat = zigzag v.toInt :=
  toNat_zigzag v.toBitVec

theorem int64_zigzag (v : Int64) :
    ((v <<< 1) ^^^ (v >>> 63)).toUInt64.toNat = zigzag v.toInt :=
  toNat_zigzag v.toBitVec

-- ============================================================ wire values

/-- Written out, the wire value is this payload. -/
def Payload.Out (wv : WireOut) : Payload → Prop
  | .varint v => v = encode wv.word.toNat
  | .bit64 b => b = leBytes 8 wv.word.toNat
  | .string len content =>
      wv.word.toNat = content.length ∧ len = encode content.length ∧
        ∃ src, wv.src = .ext src ∧
          (List.range content.length).map src = content
  | .bit32 b => b = leBytes 4 wv.word.toUInt32.toNat

theorem range_map_getD (bs : Bytes) :
    (List.range bs.length).map (fun i => bs.getD i 0) = bs := by
  apply List.ext_getElem
  · simp
  · intro i hi hi'
    simp [List.getD_eq_getElem?_getD, List.getElem?_eq_getElem hi']

/-- The union stands for this value: it is encoded as the value. -/
def Stands (typ : FieldType) (val : RawValue) (v : Value Bytes) : Prop :=
  ∀ uninit, (encodeWireValue typ val uninit).1 = (v.payload typ).wireType ∧
    (v.payload typ).Out (encodeWireValue typ val uninit).2

/-- A union that a value was put into is encoded as that value. -/
theorem union_stands {typ : FieldType} {v : Value Bytes}
    (h : v.OfType typ) (garbage : RawValue) :
    Stands typ (v.union garbage) v := by
  intro uninit
  have hlow : ∀ w : UInt32, (garbage.set32 w).word.toUInt32 = w :=
    low_half garbage.word
  cases v with
  | double b =>
      cases h
      exact ⟨rfl, rfl⟩
  | float b =>
      cases h
      refine ⟨rfl, congrArg (fun w : UInt32 => leBytes 4 w.toNat) ?_⟩
      show b = (garbage.set32 b).word.toUInt32.toUInt64.toUInt32
      rw [hlow, UInt32.toUInt32_toUInt64]
  | int32 v =>
      have hv : (garbage.set32 v.toUInt32).word.toUInt32.toInt32 = v := by
        rw [hlow, Int32.toInt32_toUInt32]
      rcases h with rfl | rfl | rfl
      · refine ⟨rfl, congrArg encode ?_⟩
        show _ = (garbage.set32 _).word.toUInt32.toInt32.toInt64.toUInt64.toNat
        rw [hv, int32_extended]
      · refine ⟨rfl, congrArg encode ?_⟩
        rw [← int32_zigzag]
        exact congrArg (fun w : Int32 =>
          ((w <<< 1) ^^^ (w >>> 31)).toUInt32.toUInt64.toNat) hv.symm
      · refine ⟨rfl, congrArg (leBytes 4) ?_⟩
        show _ = (garbage.set32 _).word.toUInt32.toUInt64.toUInt32.toNat
        rw [hlow, UInt32.toUInt32_toUInt64, int32_word]
  | int64 v =>
      rcases h with rfl | rfl | rfl
      · exact ⟨rfl, congrArg encode (int64_word v).symm⟩
      · exact ⟨rfl, congrArg encode (int64_zigzag v).symm⟩
      · exact ⟨rfl, congrArg (leBytes 8) (int64_word v).symm⟩
  | uint32 v =>
      rcases h with rfl | rfl
      · refine ⟨rfl, congrArg encode ?_⟩
        show _ = (garbage.set32 v).word.toUInt32.toUInt64.toNat
        rw [hlow, UInt32.toNat_toUInt64]
      · refine ⟨rfl, congrArg (leBytes 4) ?_⟩
        show _ = (garbage.set32 v).word.toUInt32.toUInt64.toUInt32.toNat
        rw [hlow, UInt32.toUInt32_toUInt64]
  | uint64 v =>
      rcases h with rfl | rfl
      · exact ⟨rfl, rfl⟩
      · exact ⟨rfl, rfl⟩
  | bool v =>
      cases h
      refine ⟨rfl, congrArg encode ?_⟩
      show _ = (garbage.set32 _).word.toUInt32.toInt32.toInt64.toUInt64.toNat
      rw [hlow, Int32.toInt32_toUInt32, int32_extended]
  | enum v =>
      cases h
      refine ⟨rfl, congrArg encode ?_⟩
      show _ = (garbage.set32 _).word.toUInt32.toInt32.toInt64.toUInt64.toNat
      rw [hlow, Int32.toInt32_toUInt32, int32_extended]
  | string str =>
      obtain ⟨rfl, hlen⟩ := h
      exact ⟨rfl, UInt64.toNat_ofNat_of_lt' hlen, rfl, _, rfl,
        range_map_getD str⟩
  | bytes data =>
      obtain ⟨rfl, hlen⟩ := h
      exact ⟨rfl, UInt64.toNat_ofNat_of_lt' hlen, rfl, _, rfl,
        range_map_getD data⟩

/-- What the setter of a value leaves is encoded as that value. -/
theorem raw_stands {typ : FieldType} {v : Value Bytes} (h : v.Fits typ)
    (garbage : RawValue) : Stands typ (v.raw garbage) v := by
  have hraw : v.raw garbage = v.union garbage := by
    cases v with
    | string str =>
        show garbage.setString _ (UInt64.ofNat (strlen str)) = _
        rw [strlen_of_not_mem h.2.1]
        rfl
    | double b | float b | int32 v | int64 v | uint32 v | uint64 v | bool v
    | enum v | bytes data => rfl
  rw [hraw]
  exact union_stands h.ofType garbage

end Lwpb
