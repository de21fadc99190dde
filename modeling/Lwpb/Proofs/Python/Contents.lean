/-
What a protocol buffer says.

There are many protocol buffers of one message: keys and lengths may be
spelled in longer ways, unknown fields may stand between, and the values
of a packed field may come one by one. `Wire.contents` takes all this
away. What is left is a message (`Wire.contents_typed`), and
`Decoder_decode` makes the dict of this message (`decoderDecode_wire`).

The proof does not look at the bytes again. The decoder's report of the
protocol buffer, without the announcements of runs, is the report of its
contents (`Wire.notifs_contents`), the handlers depend on nothing else,
and so the dict is that of the contents. A value of a packed field that
comes by itself is taken for a run of one, which is told in the same way;
for this reason the contents may nest deeper than the bytes
(`Wire.nesting_contents`).
-/
import Lwpb.Proofs.Python.Dicts

namespace Lwpb

/-- The message a protocol buffer is one of. A value of a packed field that
comes by itself is a run of one. -/
def Wire.contents (sch : Schema) : Wire → Tree
  | .nil => .nil
  | .unknown _ _ rest => contents sch rest
  | .scalar f _ p rest =>
      let desc := sch.field f
      let v := p.read desc.opts.typ
      if desc.isPackedRepeated then .packed f [v] (contents sch rest)
      else .scalar f v (contents sch rest)
  | .sub f _ _ body rest =>
      .message f (contents sch body) (contents sch rest)
  | .run f _ _ elems rest =>
      .packed f (elems.map (Payload.read (sch.field f).opts.typ))
        (contents sch rest)

variable {sch : Schema} {m : MsgRef} {f : FieldRef} {w : Wire}

-- =================================================================== values

/-- A payload of the declared wire type is read as a value of the type. -/
theorem Payload.read_ofType {typ : FieldType} {p : Payload}
    (hp : p.Complete) (hwt : fieldWireType typ = some p.wireType)
    (hmsg : typ.isMessage = false) : (p.read typ).OfType typ := by
  cases p with
  | varint v | bit64 b | bit32 b =>
      cases typ with
      | double | float | bool | enum => exact rfl
      | int32 | int64 | uint32 | uint64 => exact .inl rfl
      | fixed32 | fixed64 => exact .inr rfl
      | sint32 | sint64 => exact .inr (.inl rfl)
      | sfixed32 | sfixed64 => exact .inr (.inr rfl)
      | string | bytes | message | group => cases hwt
  | string len content =>
      have hlen : content.length < 2 ^ 64 := by
        rw [← hp.2]
        exact (varintWord len).toNat_lt
      cases typ with
      | string | bytes => exact ⟨rfl, hlen⟩
      | message | group => cases hmsg
      | double | float | int32 | int64 | uint32 | uint64 | sint32 | sint64
      | fixed32 | fixed64 | sfixed32 | sfixed64 | bool | enum => cases hwt

-- =================================================================== fields

/-- A known field is one of the message. -/
theorem Schema.SmallNumbers.numbered (hnum : sch.SmallNumbers) {key : Bytes}
    (h : sch.known m (keyNumber key) = some f) : sch.Numbered m f := by
  obtain ⟨-, rfl, hlt⟩ := Schema.known_lt h
  refine ⟨?_, ?_⟩
  · unfold Schema.owns
    simpa using hlt
  · refine hnum _ (sch.msg_mem hlt) _ ?_
    rw [Schema.field_eq hlt]
    exact List.getElem_mem hlt

/-- What is left is a message. -/
theorem Wire.contents_typed (hnum : sch.SmallNumbers)
    (hw : w.WellFormed sch typed m) :
    (w.contents sch).Typed Value.OfType sch m := by
  induction w generalizing m with
  | nil => trivial
  | unknown key p rest ih => exact ih hw.2.2.2
  | scalar f key p rest ih =>
      obtain ⟨-, hp, hknown, hopens, hrule, hrest⟩ := hw
      have hf := hnum.numbered hknown
      have hv := Payload.read_ofType hp hrule.1 (hrule.not_message hopens)
      rw [contents]
      cases hrun : (sch.field f).isPackedRepeated with
      | true => exact ⟨hf, hrun, List.forall_mem_singleton.mpr hv, ih hrest⟩
      | false => exact ⟨hf, hrun, hv, ih hrest⟩
  | sub f key len body rest ihb ihr =>
      obtain ⟨-, -, hknown, -, hmsg, hrule, hdesc, hbody, hrest⟩ := hw
      refine ⟨hnum.numbered hknown, ?_, hdesc, ihb hbody, ihr hrest⟩
      cases htyp : (sch.field f).opts.typ with
      | message => rfl
      | group =>
          have hwt := hrule.1
          rw [htyp] at hwt
          cases hwt
      | double | float | int32 | int64 | uint32 | uint64 | sint32 | sint64
      | fixed32 | fixed64 | sfixed32 | sfixed64 | bool | enum | string
      | bytes =>
          rw [htyp] at hmsg
          cases hmsg
  | run f key len elems rest ih =>
      obtain ⟨-, -, hknown, hrun, helems, hrest⟩ := hw
      refine ⟨hnum.numbered hknown, hrun, fun v hv => ?_, ih hrest⟩
      obtain ⟨p, hp, rfl⟩ := List.mem_map.mp hv
      obtain ⟨hcomplete, hrule, hwt⟩ := helems p hp
      refine Payload.read_ofType hcomplete hwt (hrule.not_message ?_)
      exact fun hopens => hrule.not_string hrun hopens.1

/-- The frames of the message are at least those of the protocol buffer:
runs of one may be more. -/
theorem Wire.nesting_contents (sch : Schema) (w : Wire) :
    w.nesting ≤ (w.contents sch).nesting := by
  induction w with
  | nil => exact Nat.le_refl 1
  | unknown key p rest ih => exact ih
  | scalar f key p rest ih =>
      rw [contents, nesting]
      cases (sch.field f).isPackedRepeated with
      | true => exact ih.trans (Nat.le_max_right _ _)
      | false => exact ih
  | sub f key len body rest ihb ihr =>
      rw [contents, nesting, Tree.nesting]
      omega
  | run f key len elems rest ih =>
      rw [contents, nesting, Tree.nesting]
      omega

-- ================================================================== reports

theorem elemNotifs_notes {elems : List Payload} :
    (elems.map fun e => Event.field m f
        (some (e.read (sch.field f).opts.typ)) true).filterMap Event.note
      = (elems.map (Payload.read (sch.field f).opts.typ)).map fun v =>
          .field f (some v) := by
  induction elems with
  | nil => rfl
  | cons p elems ih =>
      rw [List.map_cons, List.filterMap_cons, List.map_cons, List.map_cons,
        ih]
      rfl

/-- A reader of the protocol buffer is told the message. -/
theorem Wire.notifs_contents (sch : Schema) (root m : MsgRef) (w : Wire) :
    (w.notifs sch root m).filterMap Event.note
      = (w.contents sch).notes sch := by
  induction w generalizing m with
  | nil => rfl
  | unknown key p rest ih => exact ih m
  | scalar f key p rest ih =>
      rw [notifs, List.filterMap_cons, ih, contents]
      cases (sch.field f).isPackedRepeated <;> rfl
  | sub f key len body rest ihb ihr =>
      rw [notifs, List.filterMap_append, List.filterMap_cons,
        List.filterMap_cons, List.filterMap_cons, ihb, ihr]
      rfl
  | run f key len elems rest ih =>
      rw [notifs, List.filterMap_append, List.filterMap_cons,
        List.filterMap_cons, ih, elemNotifs_notes]
      rfl

end Lwpb

namespace Lwpb.Python

/-- A protocol buffer is decoded to the dict of what it says. -/
theorem decoderDecode_wire {new : PythonNew} {sch : Schema} {w : Wire}
    {msgnum : UInt32} (uninit : UInt64) (hm : msgnum.toNat < sch.msgs.length)
    (hnames : sch.DistinctNames) (hnum : sch.SmallNumbers)
    (hw : w.WellFormed sch typed msgnum.toNat)
    (hlead : w.Leading sch false msgnum.toNat)
    (hdepth : w.nesting ≤ maxDepth) (hlen : w.bytes.length < 2 ^ 31) :
    decoderDecode new sch uninit w.bytes msgnum
      = .dict ((w.contents sch).fill new sch []) none := by
  obtain ⟨out, hdec, hout⟩ := decode_wire uninit hw hlead hdepth
  have hnotes : (resolve w.bytes out).filterMap Event.note
      = .start msgnum.toNat
        :: ((w.contents sch).notes sch ++ [.stop msgnum.toNat]) := by
    rw [hout.resolves, Wire.report, List.filterMap_append,
      List.filterMap_cons, Wire.notifs_contents]
    rfl
  have hhandle : handleAll new sch startContext (resolve w.bytes out)
      = some ⟨(w.contents sch).fill new sch [], [], [], none⟩ := by
    rw [handleAll_notes, hnotes]
    exact handles_tree (c := startContext) hnames
      (Wire.contents_typed hnum hw) rfl rfl (.empty sch _)
  unfold decoderDecode
  rw [if_neg (by omega), if_neg (by omega), hdec.decode_eq]
  simp only [hhandle]

end Lwpb.Python
