/-
What the encoder wrote, the decoder reads.

The protocol buffer of a conforming message is a well-formed tree without
unknown fields (`Tree.wellFormed`, `Tree.leading`), so the decoder accepts
it and reports it. What remains is the values: a payload read as its
field's type is the value that was written (`Value.read_payload`), which
is where sign extension, truncation and the zig-zag code meet their
inverses.

The values are compared in the domain of numbers. A value is written as a
number of its type (`Value.payload`), the fixed types in so many bytes and
the others as a varint, and a payload is read as the value that its number
stands for; neither side mentions shifts or casts, which were dealt with
where the code was related to numbers. What is left is that a signed
number is its residue (`ofInt_residue32`) and that zig-zag is undone.

The report drops the two calls that announce a packed run (`Event.note`).
`Tree.notes` is a message told in order, and what the decoder tells of the
message's protocol buffer is just this (`Tree.notifs_notes`).
-/
import Lwpb.Proofs.Encoder.Serialise
import Lwpb.Proofs.Decoder.Trees

namespace Lwpb

open Memory Base128 Slice TwosComplement

variable {sch : Schema} {m : MsgRef} {f : FieldRef}

-- ================================================================= payloads

/-- What the encoder writes for a word is a varint. -/
theorem isVarint_encode {n : Nat} (h : n < 2 ^ 64) :
    IsVarint (encode n) := by
  refine ⟨encode_terminated n, encode_length_le_of_lt (k := 9) ?_⟩
  calc n < 2 ^ 64 := h
    _ ≤ 128 ^ 10 := by norm_num

/-- And is read as that word. -/
theorem varintWord_encode (n : Nat) :
    varintWord (encode n) = UInt64.ofNat n := by
  rw [varintWord, value_encode]

/-- The numbers of a payload fit 64 bits. -/
theorem zigzag_lt (v : Int32) : zigzag v.toInt < 2 ^ 32 := by
  rw [← int32_zigzag, UInt32.toNat_toUInt64]
  exact UInt32.toNat_lt _

/-- The zig-zag image of a 64-bit integer fits 64 bits. -/
theorem zigzag_lt_64 (v : Int64) : zigzag v.toInt < 2 ^ 64 := by
  rw [← int64_zigzag]
  exact UInt64.toNat_lt _

/-- A payload that is written is whole, and of the type's wire type. -/
theorem Value.payload_complete {v : Value Bytes} {typ : FieldType}
    (h : v.OfType typ) : (v.payload typ).Complete := by
  have hword : ∀ n : Int, IsVarint (encode (residue 64 n)) :=
    fun n => isVarint_encode (residue_lt n)
  cases v with
  | double b => exact leBytes_length 8 _
  | float b => exact leBytes_length 4 _
  | int32 v =>
      rcases h with rfl | rfl | rfl
      · exact hword v.toInt
      · exact isVarint_encode (by have := zigzag_lt v; omega)
      · exact leBytes_length 4 _
  | int64 v =>
      rcases h with rfl | rfl | rfl
      · exact hword v.toInt
      · exact isVarint_encode (zigzag_lt_64 v)
      · exact leBytes_length 8 _
  | uint32 v =>
      rcases h with rfl | rfl
      · exact isVarint_encode (by have := v.toNat_lt; omega)
      · exact leBytes_length 4 _
  | uint64 v =>
      rcases h with rfl | rfl
      · exact isVarint_encode v.toNat_lt
      · exact leBytes_length 8 _
  | bool v => exact hword v.toInt
  | enum v => exact hword v.toInt
  | string str =>
      refine ⟨isVarint_encode h.2, ?_⟩
      rw [varintWord_encode]
      exact UInt64.toNat_ofNat_of_lt' h.2
  | bytes data =>
      refine ⟨isVarint_encode h.2, ?_⟩
      rw [varintWord_encode]
      exact UInt64.toNat_ofNat_of_lt' h.2

/-- A value of a type is written with the wire type of that type. -/
theorem Value.payload_wireType {v : Value Bytes} {typ : FieldType}
    (h : v.OfType typ) :
    fieldWireType typ = some (v.payload typ).wireType ∧
      typ.isMessage = false := by
  cases v with
  | double b | float b | bool v | enum v =>
      cases h
      exact ⟨rfl, rfl⟩
  | int32 v | int64 v =>
      rcases h with rfl | rfl | rfl
      · exact ⟨rfl, rfl⟩
      · exact ⟨rfl, rfl⟩
      · exact ⟨rfl, rfl⟩
  | uint32 v | uint64 v =>
      rcases h with rfl | rfl
      · exact ⟨rfl, rfl⟩
      · exact ⟨rfl, rfl⟩
  | string str | bytes data =>
      obtain ⟨rfl, -⟩ := h
      exact ⟨rfl, rfl⟩

-- =================================================================== values

/-- A signed number is its residue of at least as many bits. -/
theorem ofInt_residue32 {k : Nat} (hk : 32 ≤ k) (v : Int32) :
    Int32.ofInt (residue k v.toInt) = v := by
  apply Int32.toBitVec_inj.mp
  apply BitVec.eq_of_toNat_eq
  show (BitVec.ofInt 32 (residue k v.toInt)).toNat = v.toUInt32.toNat
  rw [BitVec.toNat_ofInt, int32_word]
  exact (residue_natCast _).trans (residue_mod hk _)

/-- A signed integer is given back by its residue. -/
theorem ofInt_residue64 (v : Int64) :
    Int64.ofInt (residue 64 v.toInt) = v := by
  apply Int64.toBitVec_inj.mp
  apply BitVec.eq_of_toNat_eq
  show (BitVec.ofInt 64 (residue 64 v.toInt)).toNat = v.toUInt64.toNat
  rw [BitVec.toNat_ofInt, int64_word]
  exact (residue_natCast _).trans (residue_mod (Nat.le_refl 64) _)

/-- A number that was written as a varint is read. -/
theorem read_varint {n : Nat} (h : n < 2 ^ 64) (typ : FieldType) :
    (Payload.varint (encode n)).read typ = .ofNumber typ n := by
  refine congrArg (Value.ofNumber typ) ?_
  show (varintWord _).toNat = n
  rw [varintWord_encode]
  exact UInt64.toNat_ofNat_of_lt' h

/-- Eight bytes are read as the number they were written for. -/
theorem read_bit64 {n : Nat} (h : n < 2 ^ 64) (typ : FieldType) :
    (Payload.bit64 (leBytes 8 n)).read typ = .ofNumber typ n := by
  refine congrArg (Value.ofNumber typ) ?_
  show (UInt64.ofNat (le (leBytes 8 n))).toNat = n
  rw [le_leBytes]
  exact (UInt64.toNat_ofNat_of_lt' (Nat.mod_lt _ (by decide))).trans
    (Nat.mod_eq_of_lt h)

/-- Four bytes are. -/
theorem read_bit32 {n : Nat} (h : n < 2 ^ 32) (typ : FieldType) :
    (Payload.bit32 (leBytes 4 n)).read typ = .ofNumber typ n := by
  refine congrArg (Value.ofNumber typ) ?_
  show (UInt64.ofNat (le (leBytes 4 n))).toNat = n
  have hmod : n % 256 ^ 4 = n := Nat.mod_eq_of_lt h
  rw [le_leBytes, hmod]
  exact UInt64.toNat_ofNat_of_lt' (by
    show n < 2 ^ 64
    omega)

/-- A value that was written is read back. -/
theorem Value.read_payload {v : Value Bytes} {typ : FieldType}
    (h : v.OfType typ) : (v.payload typ).read typ = v := by
  cases v with
  | double b =>
      cases h
      refine (read_bit64 b.toNat_lt _).trans ?_
      exact congrArg Value.double UInt64.ofNat_toNat
  | float b =>
      cases h
      refine (read_bit32 b.toNat_lt _).trans ?_
      exact congrArg Value.float UInt32.ofNat_toNat
  | int32 v =>
      rcases h with rfl | rfl | rfl
      · refine (read_varint (residue_lt _) _).trans ?_
        exact congrArg Value.int32 (ofInt_residue32 (by decide) v)
      · have hlt := zigzag_lt v
        refine (read_varint (by omega) _).trans ?_
        show Value.int32 (Int32.ofInt (unzigzag _)) = _
        rw [unzigzag_zigzag, Int32.ofInt_toInt]
      · refine (read_bit32 (residue_lt _) _).trans ?_
        exact congrArg Value.int32 (ofInt_residue32 (by decide) v)
  | int64 v =>
      rcases h with rfl | rfl | rfl
      · refine (read_varint (residue_lt _) _).trans ?_
        exact congrArg Value.int64 (ofInt_residue64 v)
      · refine (read_varint (zigzag_lt_64 v) _).trans ?_
        show Value.int64 (Int64.ofInt (unzigzag _)) = _
        rw [unzigzag_zigzag, Int64.ofInt_toInt]
      · refine (read_bit64 (residue_lt _) _).trans ?_
        exact congrArg Value.int64 (ofInt_residue64 v)
  | uint32 v =>
      have hlt := v.toNat_lt
      rcases h with rfl | rfl
      · refine (read_varint (by omega) _).trans ?_
        exact congrArg Value.uint32 UInt32.ofNat_toNat
      · refine (read_bit32 hlt _).trans ?_
        exact congrArg Value.uint32 UInt32.ofNat_toNat
  | uint64 v =>
      rcases h with rfl | rfl
      · refine (read_varint v.toNat_lt _).trans ?_
        exact congrArg Value.uint64 UInt64.ofNat_toNat
      · refine (read_bit64 v.toNat_lt _).trans ?_
        exact congrArg Value.uint64 UInt64.ofNat_toNat
  | bool v =>
      cases h
      refine (read_varint (residue_lt _) _).trans ?_
      exact congrArg Value.bool (ofInt_residue32 (by decide) v)
  | enum v =>
      cases h
      refine (read_varint (residue_lt _) _).trans ?_
      exact congrArg Value.enum (ofInt_residue32 (by decide) v)
  | string str =>
      obtain ⟨rfl, -⟩ := h
      rfl
  | bytes data =>
      obtain ⟨rfl, -⟩ := h
      rfl

-- ===================================================================== keys

/-- No two fields of a message have the same number. -/
def Schema.Distinct (sch : Schema) : Prop :=
  ∀ d ∈ sch.msgs, (d.fields.map (·.number)).Nodup

instance (sch : Schema) : Decidable sch.Distinct :=
  inferInstanceAs
    (Decidable (∀ d ∈ sch.msgs, (d.fields.map (·.number)).Nodup))

/-- A numbered field is one of its message. -/
theorem Schema.Numbered.holds (h : sch.Numbered m f) :
    f.msg = m ∧ f.idx < (sch.msg m).fields.length := by
  have howned := h.owned
  unfold Schema.owns at howned
  simpa using howned

/-- A key says wire type and number. -/
theorem key_announces {d : FieldDesc} {wt : WireType} {p : Payload}
    (hwt : p.wireType = wt) (hnum : d.number.toNat < 2 ^ 29) :
    Wire.Announces (d.key wt) wt ∧ keyNumber (d.key wt) = d.number.toNat := by
  have hcode : wt.code < 8 := hwt ▸ p.code_lt
  have hword : (varintWord (d.key wt)).toNat
      = d.number.toNat * 8 + wt.code := by
    rw [FieldDesc.key, varintWord_encode]
    exact UInt64.toNat_ofNat_of_lt' (by show _ < 2 ^ 64; omega)
  refine ⟨⟨isVarint_encode (by omega), ?_⟩, ?_⟩
  · have hmod : (varintWord (d.key wt)).toNat % 8 = wt.code := by omega
    rw [WireType.ofKey, hmod, ← hwt]
    cases p <;> rfl
  · rw [keyNumber, hword]
    omega

/-- With distinct numbers a field is found by its number. -/
theorem Schema.known_number (hd : sch.Distinct) (hf : sch.Numbered m f) :
    sch.known m (sch.field f).number.toNat = some f := by
  obtain ⟨rfl, hlt⟩ := hf.holds
  have hnodup := hd _ (sch.msg_mem hlt)
  unfold Schema.known
  refine Option.map_eq_some_iff.mpr ⟨f.idx, ?_, rfl⟩
  refine List.findIdx?_eq_some_iff_getElem.mpr ⟨hlt, ?_, ?_⟩
  · rw [sch.field_eq hlt]
    exact beq_self_eq_true _
  · intro j hj heq
    rw [beq_iff_eq, sch.field_eq hlt] at heq
    have hlt' : f.idx < ((sch.msg f.msg).fields.map (·.number)).length := by
      rw [List.length_map]
      exact hlt
    have hj' : j < ((sch.msg f.msg).fields.map (·.number)).length := by
      omega
    have hsame : ((sch.msg f.msg).fields.map (·.number))[j]
        = ((sch.msg f.msg).fields.map (·.number))[f.idx] := by
      rw [List.getElem_map, List.getElem_map]
      exact UInt32.toNat_inj.mp heq
    exact Nat.ne_of_lt hj (hnodup.getElem_inj_iff.mp hsame)

-- ==================================================================== trees

/-- Its key announces the wire type and is found again, as the numbers of a
message differ. -/
theorem Schema.Numbered.lookup (hf : sch.Numbered m f) (hd : sch.Distinct)
    (p : Payload) :
    Wire.Announces ((sch.field f).key p.wireType) p.wireType ∧
      sch.known m (keyNumber ((sch.field f).key p.wireType)) = some f := by
  obtain ⟨hkey, hnum⟩ := key_announces (d := sch.field f) (p := p) rfl
    hf.number_lt
  rw [hnum]
  exact ⟨hkey, sch.known_number hd hf⟩

/-- A length and what it is the length of. -/
theorem counted_complete {bs : Bytes} (h : bs.length < 2 ^ 64) :
    (Payload.string (encode bs.length) bs).Complete := by
  refine ⟨isVarint_encode h, ?_⟩
  rw [varintWord_encode]
  exact UInt64.toNat_ofNat_of_lt' h

/-- A field that is not numeric is not packed. -/
theorem Schema.PackedNumeric.not_packed (hp : sch.PackedNumeric)
    (hf : sch.Numbered m f)
    (hnum : (sch.field f).opts.typ.isNumeric = false) :
    (sch.field f).isPackedRepeated = false := by
  obtain ⟨rfl, hlt⟩ := hf.holds
  cases hrun : (sch.field f).isPackedRepeated with
  | false => rfl
  | true =>
      have := hp.field (sch.holds_of_lt hlt) hrun
      rw [hnum] at this
      cases this

/-- The protocol buffer of a message is one. -/
theorem Tree.wellFormed {T : Tree} (hd : sch.Distinct)
    (hp : sch.PackedNumeric) (hT : T.Typed Value.OfType sch m)
    (hfit : (T.wire sch).bytes.length < 2 ^ 64) :
    (T.wire sch).WellFormed sch typed m := by
  induction T generalizing m with
  | nil => trivial
  | scalar f v rest ih =>
      obtain ⟨hf, hrun, hv, hrest⟩ := hT
      obtain ⟨hwt, hmsg⟩ := Value.payload_wireType hv
      obtain ⟨hkey, hknown⟩ := hf.lookup hd
        (v.payload (sch.field f).opts.typ)
      have hlen : (rest.wire sch).bytes.length < 2 ^ 64 := by
        rw [wire, Wire.bytes, List.length_append] at hfit
        omega
      refine ⟨hkey, Value.payload_complete hv, hknown, ?_,
        ⟨hwt, fun _ => hrun⟩, ih hrest hlen⟩
      intro h
      obtain ⟨-, hopen⟩ := h
      rw [hrun, hmsg] at hopen
      exact hopen.elim Bool.false_ne_true Bool.false_ne_true
  | message f body rest ihb ihr =>
      obtain ⟨hf, hmsg, hdesc, hbody, hrest⟩ := hT
      obtain ⟨hkey, hknown⟩ := hf.lookup hd
        (.string (encode (body.wire sch).bytes.length)
          (body.wire sch).bytes)
      have hrun := hp.not_packed hf (by rw [hmsg]; rfl)
      rw [wire, Wire.bytes, List.length_append, List.length_append,
        List.length_append] at hfit
      refine ⟨hkey, counted_complete (by omega), hknown, hrun, ?_,
        ⟨?_, fun _ => hrun⟩, hdesc, ihb hbody (by omega),
        ihr hrest (by omega)⟩
      · rw [hmsg]
        rfl
      · rw [hmsg]
        rfl
  | packed f elems rest ih =>
      obtain ⟨hf, hrun, hv, hrest⟩ := hT
      obtain ⟨hkey, hknown⟩ := hf.lookup hd
        (.string (encode (elemBytes (elems.map
          (Value.payload (sch.field f).opts.typ))).length)
          (elemBytes (elems.map (Value.payload (sch.field f).opts.typ))))
      have hnumeric := hp.field (sch.holds_of_lt
        (by rw [hf.holds.1]; exact hf.holds.2)) hrun
      obtain ⟨wt, hwt, hne, -⟩ := fieldWireType_numeric hnumeric
      rw [wire, Wire.bytes, List.length_append, List.length_append,
        List.length_append] at hfit
      refine ⟨hkey, counted_complete (by omega), hknown, hrun, ?_,
        ih hrest (by omega)⟩
      intro e he
      obtain ⟨v, hmem, rfl⟩ := List.mem_map.mp he
      have htyp := (Value.payload_wireType (hv v hmem)).1
      refine ⟨Value.payload_complete (hv v hmem), ⟨htyp, ?_⟩, htyp⟩
      intro hstr
      rw [hwt] at htyp
      exact absurd ((Option.some.inj htyp).trans hstr) hne

/-- It has no unknown fields. -/
theorem Tree.leading (T : Tree) (seen : Bool) :
    (T.wire sch).Leading sch seen m := by
  induction T generalizing m seen with
  | nil => trivial
  | scalar f v rest ih => exact ih true
  | message f body rest ihb ihr => exact ⟨ihb true, ihr true⟩
  | packed f elems rest ih => exact ih true

-- ================================================================== reports

/-- A handler call, without the descriptor that comes with a field. -/
inductive Note where
  | start (m : MsgRef)
  | stop (m : MsgRef)
  | field (f : FieldRef) (v : Option (Value Bytes))
  deriving Repr, DecidableEq

/-- What is left of a handler call: the calls that announce a packed run
are dropped. -/
def Event.note : Event Bytes → Option Note
  | .msgStart m packed => if packed then none else some (.start m)
  | .msgEnd m packed => if packed then none else some (.stop m)
  | .field _ f v _ => some (.field f v)

/-- A message, told in order. -/
def Tree.notes (sch : Schema) : Tree → List Note
  | .nil => []
  | .scalar f v rest => .field f (some v) :: notes sch rest
  | .message f body rest =>
      .field f none :: .start (sch.subDesc f) :: notes sch body
        ++ .stop (sch.subDesc f) :: notes sch rest
  | .packed f elems rest =>
      elems.map (fun v => .field f (some v)) ++ notes sch rest

/-- The notices of a run are the values it was written from. -/
theorem elems_notes {typ : FieldType} {elems : List (Value Bytes)}
    (hv : ∀ v ∈ elems, v.OfType typ) :
    ((elems.map (Value.payload typ)).map fun e =>
        Event.field m f (some (e.read typ)) true).filterMap Event.note
      = elems.map fun v => .field f (some v) := by
  induction elems with
  | nil => rfl
  | cons v elems ih =>
      rw [List.map_cons, List.map_cons, List.filterMap_cons, List.map_cons,
        ih fun v' hmem => hv v' (List.mem_cons_of_mem v hmem),
        Value.read_payload (hv v List.mem_cons_self)]
      rfl

/-- The decoder's report of a message is the message. -/
theorem Tree.notifs_notes {T : Tree} (root : MsgRef)
    (hT : T.Typed Value.OfType sch m) :
    ((T.wire sch).notifs sch root m).filterMap Event.note
      = T.notes sch := by
  induction T generalizing m with
  | nil => rfl
  | scalar f v rest ih =>
      obtain ⟨-, -, hv, hrest⟩ := hT
      rw [wire, Wire.notifs, List.filterMap_cons, ih hrest,
        Value.read_payload hv]
      rfl
  | message f body rest ihb ihr =>
      obtain ⟨-, -, -, hbody, hrest⟩ := hT
      rw [wire, Wire.notifs, List.filterMap_append, List.filterMap_cons,
        List.filterMap_cons, List.filterMap_cons, ihb hbody, ihr hrest]
      rfl
  | packed f elems rest ih =>
      obtain ⟨-, -, hv, hrest⟩ := hT
      rw [wire, Wire.notifs, List.filterMap_append, List.filterMap_cons,
        List.filterMap_cons, ih hrest, elems_notes hv]
      rfl

-- =============================================================== round trip

/-- A message that was encoded without an error is decoded, all of it, and
reported as it was written. -/
theorem round_trip (sch : Schema) (s : Enc) (root : MsgRef)
    (data len : Nat) (T : Tree) (session : List (Scratch × Act))
    (uninit : UInt64) (hd : sch.Distinct) (hp : sch.PackedNumeric)
    (hlen : len < 2 ^ 35) (hT : T.Conforms sch root)
    (hdepth : T.nesting ≤ maxDepth)
    (hcalls : session.map (·.2) = T.calls)
    (hok : ∀ x ∈ (runActs sch (encoderStart s root data len) session).1,
      x.err = .ok) :
    ∃ t bytes out,
      (runActs sch (encoderStart s root data len) session).2 = some t ∧
      read t.mem data (encoderFinish t) = bytes ∧
      Decodes sch root bytes uninit out (.ok (encoderFinish t)) ∧
      (resolve bytes out).filterMap Event.note
        = .start root :: T.notes sch ++ [.stop root] := by
  have hany := hT.typed.mono fun v typ h => Value.Fits.ofType h
  unfold runActs at hok ⊢
  obtain ⟨made, t, hrun, -, hfit, hused, hread⟩ := session_runs
    (drives_run sch) hlen hT.typed hdepth hcalls (.inl fun x hx _ => hok x hx)
  obtain ⟨out, hdec, hout⟩ := decode_wire uninit
    (Tree.wellFormed hd hp hany (by omega)) (T.leading false)
    (by rw [Tree.nesting_wire]; exact hdepth)
  refine ⟨t, (T.wire sch).bytes, out, by rw [hrun], hread, ?_, ?_⟩
  · rw [hused]
    exact hdec
  · rw [hout.resolves, Wire.report, List.filterMap_append, List.filterMap_cons,
      Tree.notifs_notes root hany]
    rfl

/-- Of a negative value, a submessage with a run, and a string. -/
theorem round_trip_sample :
    ∃ t bytes out,
      (runActs sampleSchema (encoderStart freshEncoder 0 1000 64)
        sampleSession).2 = some t ∧
      read t.mem 1000 (encoderFinish t) = bytes ∧
      Decodes sampleSchema 0 bytes 0 out (.ok (encoderFinish t)) ∧
      (resolve bytes out).filterMap Event.note
        = [.start 0, .field ⟨0, 0⟩ (some (.int32 (-3))),
          .field ⟨0, 1⟩ none, .start 0, .field ⟨0, 2⟩ (some (.uint64 1)),
          .field ⟨0, 2⟩ (some (.uint64 300)), .stop 0,
          .field ⟨0, 3⟩ (some (.string [104, 105])), .stop 0] :=
  round_trip sampleSchema freshEncoder 0 1000 64 sampleTree sampleSession 0
    (by decide) (by decide) (by decide) sampleTree_conforms (by decide) rfl
    (by decide +kernel)

end Lwpb
