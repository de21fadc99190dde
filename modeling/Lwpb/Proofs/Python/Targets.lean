/-
What the fields of a descriptor point at.

`Descriptor_init` points every field of `TYPE_MESSAGE` at a message
descriptor of the same array, and no other field at any (`Targets`). The
decoder opens a frame for a field of `TYPE_GROUP` as well. So the decoder
follows no NULL through a descriptor of the Python library exactly if no
field is a group: the contents of a group are looked up in the NULL that its
field points at (`descriptor_follows_null_iff`).

One direction is the safety of the decoder over a schema that keeps its
promises (`Frames.lean`), with `Targets` for the promises. For the other
one there is an input for every descriptor with a group: the frames that
lead to the message type with the group need not be opened, since any
message type can be decoded as the outermost one, and a group with a
single byte in it is enough (`opens_null`).
-/
import Lwpb.Proofs.Decoder.Walk
import Lwpb.Proofs.Python.Compiled

namespace Lwpb

open Machine Base128 Slice

-- =================================================================== groups

variable {sch : Schema} {root : MsgRef} {data : Bytes} {uninit : UInt64}

/-- In a frame without a descriptor, the first key is looked up in NULL. -/
theorem halts_null {u : Dec} {key : UInt64} {buf : Buf}
    (hpoint : u.point = .nested) (hpk : u.packed = false)
    (hdesc : u.frame.msgDesc = none) (hleft : 0 < bufLeft u.frame.buf)
    (hkey : decodeVarint data u.frame.buf = .ok (key, buf)) :
    Halts (decodeMove sch root data) u [] (.fault .nullDesc) := by
  have hstart : decodeMove sch root data u
      = .next { u with point := .loop } [] := by
    unfold decodeMove notifyStart
    simp only [hpoint, hdesc]
  have hread : readKey sch data { u with point := .loop }
      = .fault .nullDesc := by
    unfold readKey
    simp only [hpk, hdesc, hkey, Outcome.ok_bind, Bool.false_eq_true,
      if_false]
  have hpass : decodeMove sch root data { u with point := .loop }
      = .halt (.fault .nullDesc) [] := by
    unfold decodeMove
    simp only [hleft, if_true, pass, hread]
  exact .step hstart (.stop hpass)

/-- A frame of one byte, pushed without a descriptor. -/
theorem halts_pushed {t : Dec} {q : Nat} (hpk : t.packed = false)
    (hdepth : t.depth + 1 ≤ maxDepth) (hq : t.wireValue.data = some q)
    (hone : t.wireValue.word.toNat = 1) (hat : At data q [0])
    (hfit : q + 1 ≤ data.length) (out : List (Event Span)) :
    ∃ u, pushStackFrame data t none t.packed out = .next u out ∧
      Halts (decodeMove sch root data) u [] (.fault .nullDesc) := by
  have hpush : pushStackFrame data t none t.packed out = .next
      { t with
        frame := ⟨bufInit q 1, none⟩
        below := t.frame :: t.below
        packed := t.packed
        point := .nested } out := by
    unfold pushStackFrame
    rw [if_pos hdepth, hq, hone]
    exact if_neg (by omega)
  have hzero : decodeVarint data (bufInit q 1)
      = .ok (varintWord [0], { bufInit q 1 with pos := q + 1 }) :=
    decodeVarint_of_at (v := [0]) (by decide) hat (Nat.le_refl _)
  have hleft : 0 < bufLeft (bufInit q 1) := by
    show 0 < ptrDiff (q + 1) q
    rw [ptrDiff_of_le (Nat.le_succ q)]
    exact Nat.sub_pos_of_lt (Nat.lt_succ_self q)
  exact ⟨_, hpush, halts_null rfl hpk rfl hleft hzero⟩

/-- A message with one field, whose content is one byte. -/
theorem opens_null {f : FieldRef} (hf : sch.Numbered root f)
    (hdistinct : sch.Distinct) (hpk : (sch.field f).isPackedRepeated = false)
    (hmsg : (sch.field f).opts.typ.isMessage = true)
    (hnone : (sch.field f).msgDesc = none) :
    ∃ out, Decodes sch root ((sch.field f).framed [0]) uninit out
      (.fault .nullDesc) := by
  obtain ⟨hkey, hknown⟩ := hf.lookup hdistinct (.string (encode 1) [0])
  have hcomplete : (Payload.string (encode 1) [0]).Complete :=
    @counted_complete [0] (by decide)
  generalize hdata : (sch.field f).framed [0] = data
  have hfield : (sch.field f).key .string ++ (encode 1 ++ [0]) = data := hdata
  -- the key and the length are read in the frame of the root
  let s : Dec := { decodeInit root data uninit with point := .loop }
  let lv : Level := ⟨root, 0, data.length, [], false⟩
  have hstands : s.Stands lv 0 := by
    refine ⟨rfl, ?_, rfl, rfl⟩
    show Frame.mk (bufInit 0 data.length) _ = Frame.mk ⟨0, 0, data.length⟩ _
    rw [bufInit, Nat.zero_add]
  have hholds : lv.Holds data 0
      ((sch.field f).key .string ++ (encode 1 ++ [0])) := by
    rw [hfield]
    exact ⟨Nat.le_refl 0, at_zero data, Nat.le_of_eq (Nat.zero_add _),
      Nat.le_refl _⟩
  have hleft : 0 < bufLeft s.frame.buf := by
    refine hholds.bytes_left ?_ hstands
    rw [List.length_append]
    exact Nat.add_pos_left hkey.length_pos _
  obtain ⟨t, hreads, ht, hdesc, hword, q, hq, hat, hfit⟩ :=
    hstands.reads sch rfl hkey hcomplete hholds
  rw [Schema.find_of_known hknown, Option.some_or] at hdesc
  -- and the field opens a frame without a descriptor
  have hdepth : t.depth + 1 ≤ maxDepth := by
    rw [Dec.depth, ht.below]
    show 0 + 1 + 1 ≤ maxDepth
    decide
  obtain ⟨u, hpush, hhalts⟩ := @halts_pushed sch root data t q ht.packed
    hdepth hq (hword ▸ hcomplete.2) hat hfit [.field root f none t.packed]
  have hmove := @Reads.decodeMove sch root data s t _ hreads hstands.point
    hleft
  have hrun : ¬ (WireType.string = .string ∧
      (sch.field f).isPackedRepeated = true) := by
    rw [hpk]
    exact fun h => Bool.false_ne_true h.2
  rw [Payload.wireType, dispatch_sub hdesc hrun hmsg, hnone, hpush] at hmove
  have hstart : decodeMove sch root data (decodeInit root data uninit)
      = .next s (notifyStart (decodeInit root data uninit)) := rfl
  exact ⟨_, .step hstart (.step hmove hhalts)⟩

end Lwpb

namespace Lwpb.Python

variable {v : PyView} {scan : Scanner}

-- ================================================================== targets

/-- A field that is a message points at one of `n` message descriptors, any
other at none. -/
structure Targets (n : Nat) (f : CField) : Prop where
  message : FieldType.ofCode f.typ = some .message →
    ∃ k, f.msgDesc = some k ∧ k < n
  other : FieldType.ofCode f.typ ≠ some .message → f.msgDesc = none

theorem initMsgDesc_targets {package : Bytes} {msgtypes : List PyObject}
    {mname : Option Bytes} {f f' : CField} {items : Items}
    (hf : f.msgDesc = none)
    (h : initMsgDesc v package msgtypes mname f items = .ok f') :
    Targets msgtypes.length f' := by
  unfold initMsgDesc at h
  split at h
  · next hother =>
      obtain rfl := Except.ok.inj h
      exact ⟨fun hmsg => absurd hmsg hother, fun _ => hf⟩
  · next hmsg =>
      have hmsg := Decidable.not_not.mp hmsg
      simp only at h
      split at h
      · next k hk =>
          obtain rfl := Except.ok.inj h
          obtain ⟨typename, -, hfind⟩ := Option.bind_eq_some_iff.mp hk
          obtain ⟨hlt, -⟩ := List.findIdx?_eq_some_iff_getElem.mp hfind
          exact ⟨fun _ => ⟨k, rfl, hlt⟩, fun hother => absurd hmsg hother⟩
      · obtain ⟨name, -, h⟩ := Sequence.ok_of_bind h
        cases h

theorem initField_targets {dict items : Items} {package : Bytes}
    {msgtypes : List PyObject} {mname : Option Bytes} {field : PyObject}
    {f : CField} {p : Option PyErr}
    (h : initField v scan dict items package msgtypes mname field
      = .ok (f, p)) : Targets msgtypes.length f := by
  cases field with
  | dict fitems =>
      obtain ⟨⟨f₁, p₁⟩, hdefault, h⟩ := Sequence.ok_of_bind h
      obtain ⟨f₂, hdesc, h⟩ := Sequence.ok_of_bind h
      obtain ⟨rfl, -⟩ := Prod.mk.inj (Except.ok.inj h)
      have hnone : f₁.msgDesc = none := by
        rw [initDefault_sets hdefault]
        rfl
      exact initMsgDesc_targets hnone hdesc
  | list _ | bool _ | other _ =>
      obtain ⟨rfl, -⟩ := Prod.mk.inj (Except.ok.inj h)
      exact ⟨nofun, fun _ => rfl⟩

/-- Every field of a descriptor points into it. -/
theorem descriptorInit_targets {dict : Items} {d : Descriptor}
    (hd : descriptorInit v scan dict = .ok d) :
    ∀ m ∈ d.msgDesc, ∀ f ∈ m.fields, Targets d.msgDesc.length f := by
  cases hlist : dict.lookup "message_type" with
  | none =>
      unfold descriptorInit at hd
      rw [hlist] at hd
      obtain rfl := Except.ok.inj hd
      nofun
  | some types =>
      cases types with
      | list msgtypes =>
          obtain ⟨rs, hrs, rfl⟩ := inits_of_descriptorInit hlist hd
          have hall := Sequence.forall₂_of_mapM hrs
          intro m hm f hf
          obtain ⟨r, hr, rfl⟩ := List.mem_map.mp hm
          obtain ⟨obj, -, hinit⟩ := Sequence.mem_of_forall₂ hall.flip hr
          obtain ⟨-, hfields⟩ := fields_of_initMessage hinit
          obtain ⟨field, -, items, p, -, hfield⟩ :=
            Sequence.mem_of_forall₂ hfields.flip hf
          show Targets (rs.map Prod.fst).length f
          rw [List.length_map, ← hall.length_eq]
          exact initField_targets hfield
      | dict _ | bool _ | other _ =>
          unfold descriptorInit at hd
          rw [hlist] at hd
          cases hd

-- ================================================================= schemas

variable {dict : Items} {d : Descriptor} {sch : Schema}

/-- What the decoder sees of a field. -/
theorem Targets.fieldDesc {n : Nat} {cf : CField} (h : Targets n cf)
    {f : FieldDesc} (hf : cf.fieldDesc = some f) :
    (f.opts.typ = .message → ∃ k, f.msgDesc = some k ∧ k < n) ∧
      (f.opts.typ ≠ .message → f.msgDesc = none) := by
  obtain ⟨typ, htyp, hf⟩ := Option.bind_eq_some_iff.mp hf
  obtain rfl := Option.some.inj hf
  refine ⟨fun hmsg => h.message (htyp.trans (congrArg some hmsg)),
    fun hother => h.other ?_⟩
  rw [htyp]
  exact fun heq => hother (Option.some.inj heq)

/-- The fields of a schema are those of the descriptor. -/
theorem fields_of_schema (h : d.schema = some sch) :
    sch.msgs.length = d.msgDesc.length ∧
      ∀ desc ∈ sch.msgs, ∀ f ∈ desc.fields, ∃ m ∈ d.msgDesc,
        ∃ cf ∈ m.fields, cf.fieldDesc = some f := by
  obtain ⟨msgs, hmsgs, h⟩ := Option.bind_eq_some_iff.mp h
  obtain rfl := Option.some.inj h
  have hall := Sequence.forall₂_of_mapM_some hmsgs
  refine ⟨hall.length_eq.symm, fun desc hdesc f hf => ?_⟩
  obtain ⟨m, hm, hmsg⟩ := Sequence.mem_of_forall₂ hall.flip hdesc
  obtain ⟨fields, hfields, hmsg⟩ := Option.bind_eq_some_iff.mp hmsg
  obtain rfl := Option.some.inj hmsg
  obtain ⟨cf, hcf, hfield⟩ := Sequence.mem_of_forall₂
    (Sequence.forall₂_of_mapM_some hfields).flip hf
  exact ⟨m, hm, cf, hcf, hfield⟩

/-- What the fields of a descriptor's schema point at. -/
theorem descriptor_targets (hd : descriptorInit v scan dict = .ok d)
    (hsch : d.schema = some sch) :
    ∀ m ∈ sch.msgs, ∀ f ∈ m.fields,
      (f.opts.typ = .message →
        ∃ k, f.msgDesc = some k ∧ k < sch.msgs.length) ∧
      (f.opts.typ ≠ .message → f.msgDesc = none) := by
  obtain ⟨hlen, hfields⟩ := fields_of_schema hsch
  intro m hm f hf
  obtain ⟨cm, hcm, cf, hcf, hfield⟩ := hfields m hm f hf
  rw [hlen]
  exact (descriptorInit_targets hd cm hcm cf hcf).fieldDesc hfield

theorem exists_owned {m : MsgDesc} {f : FieldDesc} (hm : m ∈ sch.msgs)
    (hf : f ∈ m.fields) :
    ∃ root ref, sch.owns root ref = true ∧ sch.field ref = f := by
  obtain ⟨i, hi, rfl⟩ := List.mem_iff_getElem.mp hm
  obtain ⟨j, hj, rfl⟩ := List.mem_iff_getElem.mp hf
  have hmsg : sch.msg i = sch.msgs[i] := by
    rw [Schema.msg, List.getD_eq_getElem?_getD, List.getElem?_eq_getElem hi]
    rfl
  have hlt : j < (sch.msg i).fields.length := by rwa [hmsg]
  refine ⟨i, ⟨i, j⟩, ?_, ?_⟩
  · rw [Schema.owns, decide_eq_true hlt, beq_self_eq_true, Bool.and_self]
  · rw [sch.field_eq hlt]
    simp only [hmsg]

/-- The decoder follows no NULL through a descriptor that has no groups, and
does through any other. -/
theorem descriptor_follows_null_iff
    (hd : descriptorInit v scan dict = .ok d) (hsch : d.schema = some sch)
    (hdistinct : sch.Distinct) (hpacked : sch.PackedNumeric)
    (hnumbers : ∀ m ∈ sch.msgs, ∀ f ∈ m.fields, f.number.toNat < 2 ^ 29) :
    (∀ root data uninit out,
        ¬ Decodes sch root data uninit out (.fault .nullDesc)) ↔
      ∀ m ∈ sch.msgs, ∀ f ∈ m.fields, f.opts.typ ≠ .group := by
  have htargets := descriptor_targets hd hsch
  constructor
  · intro hnever m hm f hf hgroup
    have hnumber := hnumbers m hm f hf
    obtain ⟨-, hother⟩ := htargets m hm f hf
    obtain ⟨root, ref, howns, rfl⟩ := exists_owned hm hf
    have hnumbered : sch.Numbered root ref := ⟨howns, hnumber⟩
    have hpk := hpacked.not_packed hnumbered (by rw [hgroup]; rfl)
    have hnone := hother (by rw [hgroup]; nofun)
    obtain ⟨out, hdec⟩ := @opens_null sch root 0 ref hnumbered hdistinct hpk
      (by rw [hgroup]; rfl) hnone
    exact hnever _ _ _ out hdec
  · intro hnone root data uninit out hdec
    have hdescribed : sch.MessagesDescribed := by
      intro m hm f hf hmsg
      obtain ⟨hmessage, -⟩ := htargets m hm f hf
      have htyp : f.opts.typ = .message := by
        cases htyp : f.opts.typ with
        | message => rfl
        | group => exact absurd htyp (hnone m hm f hf)
        | _ =>
            rw [htyp] at hmsg
            cases hmsg
      obtain ⟨k, hk, -⟩ := hmessage htyp
      rw [hk]
      exact Option.some_ne_none k
    have hnot := @decode_followsNoNull sch root data uninit hdescribed
    rw [hdec.decode_eq] at hnot
    exact hnot rfl

/-- A message type `A` with a group `f`. -/
def groupFile : Items :=
  [("message_type", .list [.dict [("name", pyString [65]), ("field", .list
    [.dict [("name", pyString [102]), ("number", pyInt 1),
      ("type", pyInt 10)]])]])]

/-- Its descriptor. The group points at nothing. -/
def groupDescriptor : Descriptor where
  msgDesc := [⟨[{ CField.zero with
    number := 1
    typ := 10
    name := some [102] }], some [65]⟩]
  messageTypes := [([46, 65], 0)]
  pending := none

theorem descriptor_follows_null_iff_group :
    (∀ root data uninit out, ¬ Decodes ⟨[⟨[⟨1, ⟨.optional, .group, 0⟩, none,
        "f"⟩]⟩]⟩ root data uninit out (.fault .nullDesc)) ↔
      ∀ m ∈ [MsgDesc.mk [⟨1, ⟨.optional, .group, 0⟩, none, "f"⟩]],
        ∀ f ∈ m.fields, f.opts.typ ≠ .group :=
  @descriptor_follows_null_iff plainView (fun _ _ => .eof) groupFile
    groupDescriptor _ rfl rfl (by decide) (by decide) (by decide)

end Lwpb.Python
