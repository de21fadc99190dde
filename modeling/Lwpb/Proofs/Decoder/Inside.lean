/-
When the decoder stays inside the input.

`Inside` says of a state that every frame on the stack is an ordered range
of the input, so that `lwpb_buf_left` is a length and no read can leave
the buffer. It is not an invariant of the C code. Two passes break it, and
they are the two predicates of this file:

- `MissesValue`: the key ends its frame and the pass reads a varint all
  the same. `lwpb_decode_varint` tests the bytes left only after a
  continuation byte, so the first byte is read unconditionally, and the
  position then stands behind the end;
- `OpensStale`: a message-typed field arrives with another wire type than
  length-delimited. The frame is opened on the `string` member of the
  union, which this occurrence did not write.

`decode_safe_iff` says that these two are all: over a schema whose message
fields carry descriptors and whose packed fields are numeric, a run whose
nesting the stack holds is safe exactly if no pass of it is one of them.
-/
import Lwpb.Proofs.Decoder.Frames

namespace Lwpb

open Machine

variable {sch : Schema} {root : MsgRef} {data : Bytes} {uninit : UInt64}

/-- The frame is an ordered range of the input. -/
structure Frame.Inside (data : Bytes) (fr : Frame) : Prop where
  ordered : fr.buf.Ordered
  stop_le : fr.buf.stop ≤ data.length

/-- Every frame on the stack is. -/
def Dec.Inside (data : Bytes) (s : Dec) : Prop :=
  ∀ fr ∈ s.frame :: s.below, fr.Inside data

/-- The pass reads a varint when its frame is used up, and what it finds
there is no continuation byte. -/
def MissesValue (sch : Schema) (data : Bytes) (s : Dec) : Prop :=
  s.point = .loop ∧ 0 < bufLeft s.frame.buf ∧
    ∃ wt fd buf, readKey sch data s = .ok (wt, fd, buf) ∧
      (wt = .varint ∨ wt = .string) ∧ buf.pos = buf.stop ∧
      ∀ b, data[buf.pos]? = some b → b &&& 0x80 = 0

/-- The pass opens a submessage for an occurrence that is not
length-delimited, on a pointer and length that are no range of the
input. -/
def OpensStale (sch : Schema) (data : Bytes) (s : Dec) : Prop :=
  s.point = .loop ∧ 0 < bufLeft s.frame.buf ∧
    ∃ wt t f, Reads sch data s wt t ∧ wt ≠ .string ∧
      t.fieldDesc = some f ∧ (sch.field f).opts.typ.isMessage = true ∧
      ∀ p, t.wireValue.data = some p →
        data.length < p + t.wireValue.word.toNat

instance (sch : Schema) (data : Bytes) (s : Dec) :
    Decidable (MissesValue sch data s) :=
  decidable_of_iff (s.point = .loop ∧ 0 < bufLeft s.frame.buf ∧
    ∃ key, readKey sch data s = .ok key ∧
      (key.1 = .varint ∨ key.1 = .string) ∧
      key.2.2.pos = key.2.2.stop ∧
      data[key.2.2.pos]?.all (· &&& 0x80 = 0) = true) (by
    simp only [MissesValue, Prod.exists, Option.all_eq_true,
      decide_eq_true_eq])

instance (sch : Schema) (data : Bytes) (s : Dec) :
    Decidable (OpensStale sch data s) :=
  decidable_of_iff (s.point = .loop ∧ 0 < bufLeft s.frame.buf ∧
    ∃ wt t, Reads sch data s wt t ∧ wt ≠ .string ∧
      ∃ f ∈ t.fieldDesc, (sch.field f).opts.typ.isMessage = true ∧
        ∀ p ∈ t.wireValue.data, data.length < p + t.wireValue.word.toNat) (by
    simp [OpensStale])

-- ============================================ a varint behind the end

/-- At the end of its buffer `lwpb_decode_varint` still reads a byte:
outside the input that is a fault, a continuation byte is an error, and
any other byte is taken. -/
theorem decodeVarint_at_stop (data : Bytes) {buf : Buf}
    (h : buf.pos = buf.stop) :
    (data[buf.pos]? = none ∧
        decodeVarint data buf = .fault (.read buf.pos)) ∨
      (∃ b, data[buf.pos]? = some b ∧ b &&& 0x80 ≠ 0 ∧
        decodeVarint data buf = .err .endOfBuf) ∨
      (∃ b v, data[buf.pos]? = some b ∧ b &&& 0x80 = 0 ∧ v.toNat < 128 ∧
        decodeVarint data buf = .ok (v, { buf with pos := buf.pos + 1 })) := by
  unfold decodeVarint
  cases hb : data[buf.pos]? with
  | none =>
      refine .inl ⟨rfl, ?_⟩
      rw [decodeVarintLoop_outside hb]
      rfl
  | some b =>
      refine .inr ?_
      by_cases hcont : b &&& 0x80 = 0
      · refine .inr ⟨b, varintPut 0 0 b, rfl, hcont, ?_, ?_⟩
        · have hlow : (b &&& 0x7f).toNat = b.toNat % 128 := by
            rw [UInt8.toNat_and]
            exact Nat.and_two_pow_sub_one_eq_mod b.toNat 7
          have hzero : ((b &&& 0x7f).toUInt64 <<< UInt64.ofNat 0)
              = (b &&& 0x7f).toUInt64 := by
            apply UInt64.toNat_inj.mp
            rw [UInt64.toNat_shiftLeft, UInt8.toNat_toUInt64, hlow]
            show (b.toNat % 128) <<< 0 % 2 ^ 64 = b.toNat % 128
            rw [Nat.shiftLeft_zero]
            omega
          unfold varintPut
          rw [hzero, UInt64.zero_or, UInt8.toNat_toUInt64, hlow]
          omega
        · rw [decodeVarintLoop_last hb (.inl hcont)]
          rfl
      · refine .inl ⟨b, rfl, hcont, ?_⟩
        rw [decodeVarintLoop_cut hb hcont (by omega)]
        rfl

-- ========================================================== one pass

/-- Inside a frame with bytes left, the key half of a pass ends inside
the frame. -/
theorem readKey_inside {s : Dec} {wt : WireType} {fd : Option FieldRef}
    {buf : Buf} (hs : s.frame.Inside data) (hleft : 0 < bufLeft s.frame.buf)
    (h : readKey sch data s = .ok (wt, fd, buf)) :
    buf.Ordered ∧ buf.stop ≤ data.length ∧
      (s.packed = true → buf.pos < buf.stop) := by
  have hbase := hs.ordered.base_le_pos
  have hpos := hs.ordered.pos_le_stop
  have hstop := hs.stop_le
  rw [hs.ordered.left] at hleft
  obtain ⟨hb, hle, -, hin, -⟩ := readKey_ok (by omega) h
  have hin' := hin (by omega)
  refine ⟨⟨?_, ?_⟩, ?_, fun hpk => ?_⟩
  · rw [hb]
    show s.frame.buf.base ≤ buf.pos
    omega
  · rw [hb]
    exact hin'
  · rw [hb]
    exact hstop
  · obtain ⟨rfl, -⟩ := readKey_packed hpk h
    omega

/-- What a pass needs of descriptors: its frame has one, and in packed
mode the type of `field_desc` has a wire type. -/
structure Dec.Ready (sch : Schema) (s : Dec) : Prop where
  desc : ∃ m, s.frame.msgDesc = some m
  packed : s.packed = true →
    ∃ f wt, s.fieldDesc = some f ∧
      fieldWireType (sch.field f).opts.typ = some wt

/-- A decoder whose descriptors are those of the schema is ready to read a
key. -/
theorem Dec.Described.ready {s : Dec} (h : s.Described sch)
    (hp : sch.PackedNumeric) : s.Ready sch := by
  refine ⟨h.desc s.frame (List.mem_cons_self ..), fun hpk => ?_⟩
  obtain ⟨f, hf, hrun⟩ := h.packed hpk
  obtain ⟨wt, hwt, -⟩ :=
    fieldWireType_numeric (hp.field (h.field f hf) hrun)
  exact ⟨f, wt, hf, hwt⟩

/-- Reading a key touches no byte outside the input: the frame has a byte
left, and the varint ends at its last one at the latest. -/
theorem readKey_no_fault {s : Dec} {f : Fault} (hd : s.Ready sch)
    (hs : s.frame.Inside data) (hleft : 0 < bufLeft s.frame.buf) :
    readKey sch data s ≠ .fault f := by
  intro h
  have hstop := hs.stop_le
  rw [hs.ordered.left] at hleft
  unfold readKey at h
  split at h
  case isTrue hpk =>
    obtain ⟨g, wt, hg, hwt⟩ := hd.packed hpk
    simp only [hg, hwt] at h
    cases h
  case isFalse =>
    rcases Outcome.bind_eq_fault.mp h with hkey | ⟨⟨key, b⟩, -, h⟩
    · exact decodeVarint_no_fault (by omega) hstop hkey
    · obtain ⟨m, hm⟩ := hd.desc
      simp only [hm] at h
      cases h

/-- A varint value at hand is one that the frame still holds a byte of,
or one the reader refuses. -/
def ValueAtHand (data : Bytes) (wt : WireType) (buf : Buf) : Prop :=
  (wt = .varint ∨ wt = .string) → buf.pos = buf.stop →
    ∃ b, data[buf.pos]? = some b ∧ b &&& 0x80 ≠ 0

/-- If the value of the field is not missing, its first byte is at hand, or
the wire type reads none there. -/
theorem valueAtHand_of_not_misses {s : Dec} {wt : WireType}
    {fd : Option FieldRef} {buf : Buf} (hpt : s.point = .loop)
    (hleft : 0 < bufLeft s.frame.buf)
    (hkey : readKey sch data s = .ok (wt, fd, buf))
    (hno : ¬ MissesValue sch data s) : ValueAtHand data wt buf := by
  intro hwt hend
  by_contra hnone
  refine hno ⟨hpt, hleft, wt, fd, buf, hkey, hwt, hend, fun b hb => ?_⟩
  by_contra hcont
  exact hnone ⟨b, hb, hcont⟩

/-- At the end of the frame the byte behind it is continued, and the frame
has no room for that. -/
theorem ValueAtHand.varint_at_stop {wt : WireType} {buf : Buf}
    (hv : ValueAtHand data wt buf) (hwt : wt = .varint ∨ wt = .string)
    (hend : buf.pos = buf.stop) :
    decodeVarint data buf = .err .endOfBuf := by
  obtain ⟨b, hb, hcont⟩ := hv hwt hend
  rcases decodeVarint_at_stop data hend with
    ⟨hnone, -⟩ | ⟨c, -, -, herr⟩ | ⟨c, w, hc, hzero, -⟩
  · rw [hnone] at hb
    cases hb
  · exact herr
  · rw [hc] at hb
    cases hb
    exact absurd hzero hcont

/-- A varint whose first byte is at hand ends inside the frame. -/
theorem ValueAtHand.varint_ok {wt : WireType} {buf buf' : Buf} {v : UInt64}
    (hv : ValueAtHand data wt buf) (hwt : wt = .varint ∨ wt = .string)
    (hord : buf.Ordered) (h : decodeVarint data buf = .ok (v, buf')) :
    buf'.pos ≤ buf.stop := by
  obtain ⟨-, -, -, hin⟩ := decodeVarint_ok h
  have hle := hord.pos_le_stop
  by_cases hend : buf.pos = buf.stop
  · rw [hv.varint_at_stop hwt hend] at h
    cases h
  · exact hin (by omega)

/-- So it is read without a byte from outside the input. -/
theorem ValueAtHand.varint_no_fault {wt : WireType} {buf : Buf} {f : Fault}
    (hv : ValueAtHand data wt buf) (hwt : wt = .varint ∨ wt = .string)
    (hord : buf.Ordered) (hstop : buf.stop ≤ data.length) :
    decodeVarint data buf ≠ .fault f := by
  have hle := hord.pos_le_stop
  by_cases hend : buf.pos = buf.stop
  · rw [hv.varint_at_stop hwt hend]
    exact nofun
  · exact decodeVarint_no_fault (by omega) hstop

/-- A buffer stays ordered when its cursor moves up to its end. -/
theorem Buf.Ordered.forward {buf : Buf} {pos : Nat} (hord : buf.Ordered)
    (hle : buf.pos ≤ pos) (hstop : pos ≤ buf.stop) :
    ({ buf with pos := pos } : Buf).Ordered :=
  ⟨Nat.le_trans hord.base_le_pos hle, hstop⟩

/-- Behind the length of a string the buffer is in order, and has the same
end. -/
theorem ValueAtHand.behind_length {buf b : Buf} {v : UInt64}
    (hv : ValueAtHand data .string buf) (hord : buf.Ordered)
    (h : decodeVarint data buf = .ok (v, b)) :
    b.Ordered ∧ b.stop = buf.stop := by
  have hin := hv.varint_ok (.inr rfl) hord h
  obtain ⟨hb, hadv, -, -⟩ := decodeVarint_ok h
  rw [hb]
  exact ⟨hord.forward (Nat.le_of_lt hadv) hin, rfl⟩

/-- With its value at hand, the value half of a pass ends inside the
frame. -/
theorem readWireValue_inside {wt : WireType} {wv wv' : WireValue}
    {buf buf' : Buf} (hv : ValueAtHand data wt buf) (hord : buf.Ordered)
    (hstop : buf.stop ≤ data.length)
    (h : readWireValue data wt wv buf = .ok (wv', buf')) :
    buf'.Ordered ∧ buf'.stop ≤ data.length := by
  have hpos := hord.pos_le_stop
  obtain ⟨hb, hle, -, -⟩ := readWireValue_ok (by omega) h
  suffices hin : buf'.pos ≤ buf.stop by
    rw [hb]
    exact ⟨hord.forward hle hin, hstop⟩
  cases wt with
  | varint =>
      obtain ⟨⟨v, b⟩, hread, h⟩ := Outcome.bind_eq_ok.mp h
      have hin := hv.varint_ok (.inl rfl) hord hread
      cases h
      exact hin
  | bit64 =>
      obtain ⟨⟨v, b⟩, hread, h⟩ := Outcome.bind_eq_ok.mp h
      obtain ⟨hb', -, hleft⟩ := decode64bit_ok hread
      rw [hord.left] at hleft
      cases h
      rw [hb']
      show buf.pos + 8 ≤ buf.stop
      omega
  | string =>
      obtain ⟨len, b, hread, hfit, -, rfl, rfl⟩ := readWireValue_string h
      obtain ⟨hord', hstop'⟩ := hv.behind_length hord hread
      have hin := hord'.pos_le_stop
      rw [hord'.left] at hfit
      show b.pos + len.toNat ≤ buf.stop
      omega
  | bit32 =>
      obtain ⟨⟨v, b⟩, hread, h⟩ := Outcome.bind_eq_ok.mp h
      obtain ⟨hb', -, hleft⟩ := decode32bit_ok hread
      rw [hord.left] at hleft
      cases h
      rw [hb']
      show buf.pos + 4 ≤ buf.stop
      omega
  | unknown code =>
      cases h
      exact hpos

/-- Reading the value that follows the key stays inside the input for all wire
types: only the varints look at a byte before they compare with the end. -/
theorem readWireValue_no_fault {wt : WireType} {wv : WireValue} {buf : Buf}
    {f : Fault} (hv : ValueAtHand data wt buf) (hord : buf.Ordered)
    (hstop : buf.stop ≤ data.length) :
    readWireValue data wt wv buf ≠ .fault f := by
  intro h
  cases wt with
  | varint =>
      rcases Outcome.bind_eq_fault.mp h with hread | ⟨⟨v, b⟩, -, h⟩
      · exact hv.varint_no_fault (.inl rfl) hord hstop hread
      · cases h
  | bit64 =>
      rcases Outcome.bind_eq_fault.mp h with hread | ⟨⟨v, b⟩, -, h⟩
      · exact decode64bit_no_fault hord hstop hread
      · cases h
  | string =>
      rcases Outcome.bind_eq_fault.mp h with hread | ⟨⟨v, b⟩, hread, h⟩
      · exact hv.varint_no_fault (.inr rfl) hord hstop hread
      · obtain ⟨hord', hstop'⟩ := hv.behind_length hord hread
        have hin := hord'.pos_le_stop
        dsimp only at h
        split at h
        · cases h
        · next hfit =>
            rw [hord'.left] at hfit
            split at h
            · omega
            · cases h
  | bit32 =>
      rcases Outcome.bind_eq_fault.mp h with hread | ⟨⟨v, b⟩, -, h⟩
      · exact decode32bit_no_fault hord hstop hread
      · cases h
  | unknown code => cases h

/-- Reading a key and its value keeps the decoder inside the input. -/
theorem Reads.inside {s t : Dec} {wt : WireType} (hpt : s.point = .loop)
    (hleft : 0 < bufLeft s.frame.buf) (hno : ¬ MissesValue sch data s)
    (hs : s.Inside data) (h : Reads sch data s wt t) : t.Inside data := by
  have htop := hs s.frame (List.mem_cons_self ..)
  obtain ⟨-, hbelow, -, -⟩ := h.frame
  intro fr hfr
  rcases List.mem_cons.mp hfr with rfl | hfr
  · cases h with
    | @mk fd wv buf buf' hkey hval =>
        obtain ⟨hord, hstop, -⟩ := readKey_inside htop hleft hkey
        have hv := valueAtHand_of_not_misses hpt hleft hkey hno
        obtain ⟨hord', hstop'⟩ := readWireValue_inside hv hord hstop hval
        exact ⟨hord', hstop'⟩
  · rw [hbelow] at hfr
    exact hs fr (List.mem_cons_of_mem _ hfr)

/-- Opening a frame does, since the new frame ends where the value ends. -/
theorem Opens.inside {t s' : Dec} {desc : Option MsgRef} {packed : Bool}
    (ht : t.Inside data) (h : Opens data t desc packed s') :
    s'.Inside data := by
  obtain ⟨-, p, -, hle, rfl⟩ := h
  intro fr hfr
  rcases List.mem_cons.mp hfr with rfl | hfr
  · exact ⟨bufInit_ordered _ _, hle⟩
  · exact ht fr hfr

/-- Every pass that does not miss its value does. -/
theorem Moves.inside {s s' : Dec} {out : List (Event Span)}
    (h : Moves sch root data s s' out) (hs : s.Inside data)
    (hno : ¬ MissesValue sch data s) : s'.Inside data := by
  cases h with
  | enter => exact hs
  | pop hpt hleft hbelow =>
      intro fr hfr
      refine hs fr ?_
      rw [hbelow]
      exact List.mem_cons_of_mem _ hfr
  | skip hpt hleft hreads => exact hreads.inside hpt hleft hno hs
  | run hpt hleft hreads hf hpk hopen =>
      exact hopen.inside (hreads.inside hpt hleft hno hs)
  | sub hpt hleft hreads hf hnot hmsg hopen =>
      exact hopen.inside (hreads.inside hpt hleft hno hs)
  | value hpt hleft hreads => exact hreads.inside hpt hleft hno hs

-- ================================================================ safety

/-- A state of a memory-safe run: its frames lie in the input and its next
move is defined, so in particular reads no byte outside the input. -/
structure Dec.Safe (sch : Schema) (root : MsgRef) (data : Bytes)
    (s : Dec) : Prop where
  inside : s.Inside data
  no_fault : ∀ f out, decodeMove sch root data s ≠ .halt (.fault f) out

/-- The call returned to its caller. -/
def Result.Returned (r : Result) : Prop :=
  (∃ used, r = .ok used) ∨ ∃ e, r = .err e

/-- The decoder starts with one frame: the whole input. -/
theorem decodeInit_inside : (decodeInit root data uninit).Inside data := by
  intro fr hfr
  rw [List.mem_singleton.mp hfr]
  refine ⟨bufInit_ordered _ _, ?_⟩
  show 0 + data.length ≤ data.length
  omega

/-- A length-delimited read leaves a range of the input in `string`. -/
theorem Reads.string_range {s t : Dec} (h : Reads sch data s .string t) :
    ∃ p, t.wireValue.data = some p ∧
      p + t.wireValue.word.toNat ≤ data.length := by
  cases h with
  | @mk fd wv buf buf' hkey hval =>
      obtain ⟨len, b, -, -, hfit, rfl, -⟩ := readWireValue_string hval
      exact ⟨b.pos, rfl, hfit⟩

/-- From inside the input, a pass that neither misses its value nor opens a
stale one reaches no fault. -/
theorem decodeMove_no_fault {s : Dec}
    (hd : 0 < bufLeft s.frame.buf → s.point = .loop → s.Ready sch)
    (hs : s.Inside data) (hmiss : ¬ MissesValue sch data s)
    (hstale : ¬ OpensStale sch data s) (f : Fault)
    (out : List (Event Span)) :
    decodeMove sch root data s ≠ .halt (.fault f) out := by
  intro h
  have htop := hs s.frame (List.mem_cons_self ..)
  cases decodeMove_halt h with
  | keyFault hpt hleft hkey =>
      exact readKey_no_fault (hd hleft hpt) htop hleft hkey
  | valueFault hpt hleft hkey hval =>
      obtain ⟨hord, hstop, -⟩ := readKey_inside htop hleft hkey
      have hv := valueAtHand_of_not_misses hpt hleft hkey hmiss
      exact readWireValue_no_fault hv hord hstop hval
  | @badRange wt t g hpt hleft hreads hg hpush hbad =>
      by_cases hwt : wt = .string
      · subst hwt
        obtain ⟨p, hp, hle⟩ := hreads.string_range
        have := hbad p hp
        omega
      · rcases hpush with ⟨hwt', -⟩ | hmsg
        · exact hwt hwt'
        · exact hstale ⟨hpt, hleft, wt, t, g, hreads, hwt, hg, hmsg, hbad⟩
  | noDesc hpt hleft hreads hnone =>
      obtain ⟨m, hm⟩ := (hd hleft hpt).desc
      rw [hreads.frame.1, hm] at hnone
      cases hnone

/-- A run none of whose passes misses a value or opens a stale frame keeps
its frames inside the input. -/
theorem DecReach.inside
    (hclean : ∀ s, DecReach sch root data uninit s →
      ¬ MissesValue sch data s ∧ ¬ OpensStale sch data s)
    {s : Dec} (h : DecReach sch root data uninit s) : s.Inside data :=
  Reach.invariant_of (I := Dec.Inside data)
    (P := fun s => ¬ MissesValue sch data s ∧ ¬ OpensStale sch data s)
    (fun _ _ _ hs hno hmove => (decodeMove_next hmove).inside hs hno.1)
    hclean h decodeInit_inside

-- ======================================================== and only then

/-- A frame for a value that is no range of the input ends the run in a fault,
or in the assertion on the depth. -/
theorem pushStackFrame_bad {t : Dec} (desc : Option MsgRef) (packed : Bool)
    (out : List (Event Span))
    (hbad : ∀ p, t.wireValue.data = some p →
      data.length < p + t.wireValue.word.toNat) :
    pushStackFrame data t desc packed out = .halt (.fault .pointer) out ∨
      pushStackFrame data t desc packed out = .halt .abort out := by
  unfold pushStackFrame
  split
  · left
    split
    · rfl
    · next p hp => rw [if_pos (hbad p hp)]
  · exact .inr rfl

/-- A stale frame is a fault, or too deep. -/
theorem OpensStale.halts (root : MsgRef) {s : Dec}
    (h : OpensStale sch data s) :
    ∃ r out, decodeMove sch root data s = .halt r out ∧
      (r = .fault .pointer ∨ r = .abort) := by
  obtain ⟨hpt, hleft, wt, t, f, hreads, hwt, hf, hmsg, hbad⟩ := h
  rw [hreads.decodeMove hpt hleft]
  unfold dispatch
  simp only [hf, hwt, decide_false, Bool.false_and, Bool.false_eq_true,
    if_false, hmsg, if_true]
  rcases pushStackFrame_bad (sch.field f).msgDesc t.packed
      [.field root f none t.packed] hbad with
    h | h
  · exact ⟨_, _, h, .inl rfl⟩
  · exact ⟨_, _, h, .inr rfl⟩

/-- What a pass leaves of the frame it read from: still on the stack,
at the position the read left it. -/
theorem dispatch_keeps {wt : WireType} {t s' : Dec}
    {out : List (Event Span)}
    (h : dispatch sch root data wt t = .next s' out) :
    t.frame ∈ s'.frame :: s'.below := by
  unfold dispatch at h
  split at h
  · cases h
    exact List.mem_cons_self ..
  · dsimp only at h
    split at h
    · obtain ⟨⟨-, p, -, -, rfl⟩, -⟩ := pushStackFrame_next h
      exact List.mem_cons_of_mem _ (List.mem_cons_self ..)
    · split at h
      · obtain ⟨⟨-, p, -, -, rfl⟩, -⟩ := pushStackFrame_next h
        exact List.mem_cons_of_mem _ (List.mem_cons_self ..)
      · split at h
        · cases h
        · cases h
          exact List.mem_cons_self ..

/-- The next move faults or aborts, or leaves a frame that is no range of
the input. -/
def Dec.Breaks (sch : Schema) (root : MsgRef) (data : Bytes)
    (s : Dec) : Prop :=
  (∃ r out, decodeMove sch root data s = .halt r out ∧
      ((∃ f, r = .fault f) ∨ r = .abort)) ∨
    ∃ s' out, decodeMove sch root data s = .next s' out ∧ ¬ s'.Inside data

section Breaking

variable {s : Dec} {wt : WireType} {fd : Option FieldRef} {buf : Buf}

/-- A fault while the value is read breaks the promise of the pass. -/
theorem breaks_of_fault (root : MsgRef) {f : Fault} (hpt : s.point = .loop)
    (hleft : 0 < bufLeft s.frame.buf)
    (hkey : readKey sch data s = .ok (wt, fd, buf))
    (hval : readWireValue data wt s.wireValue buf = .fault f) :
    s.Breaks sch root data := by
  have hmove : decodeMove sch root data s = .halt (.fault f) [] := by
    unfold decodeMove
    simp only [hpt]
    rw [if_pos hleft]
    unfold pass
    simp only [hkey, hval]
  exact .inl ⟨_, _, hmove, .inl ⟨f, rfl⟩⟩

/-- A value was read that ends behind the frame. -/
theorem breaks_of_behind (root : MsgRef) {wv : WireValue} {buf' : Buf}
    (hpt : s.point = .loop) (hleft : 0 < bufLeft s.frame.buf)
    (hkey : readKey sch data s = .ok (wt, fd, buf))
    (hval : readWireValue data wt s.wireValue buf = .ok (wv, buf'))
    (hlt : buf'.stop < buf'.pos) : s.Breaks sch root data := by
  have hreads : Reads sch data s wt (s.read fd wv buf') := .mk hkey hval
  cases hmove : decodeMove sch root data s with
  | halt r out =>
      refine .inl ⟨r, out, hmove, ?_⟩
      cases decodeMove_halt hmove with
      | done _ hzero => omega
      | keyErr _ _ hkey' => rw [hkey] at hkey'; cases hkey'
      | valueErr _ _ hkey' hval' =>
          rw [hkey] at hkey'
          cases hkey'
          rw [hval] at hval'
          cases hval'
      | tooDeep => exact .inr rfl
      | keyFault | valueFault | badRange | noDesc => exact .inl ⟨_, rfl⟩
  | next s' out =>
      refine .inr ⟨s', out, hmove, fun hin => ?_⟩
      rw [hreads.decodeMove hpt hleft] at hmove
      have hord := (hin _ (dispatch_keeps hmove)).ordered.pos_le_stop
      have hord' : buf'.pos ≤ buf'.stop := hord
      omega

end Breaking

/-- A length of less than 128, read behind the end of a frame, counts more
than is left. -/
theorem readWireValue_behind {wv : WireValue} {buf : Buf} {len : UInt64}
    (hend : buf.pos = buf.stop) (hlen : len.toNat < 128)
    (hread : decodeVarint data buf
      = .ok (len, { buf with pos := buf.pos + 1 })) :
    readWireValue data .string wv buf
      = if data.length < buf.pos + 1 + len.toNat then .fault .pointer
        else .ok (⟨len, some (buf.pos + 1)⟩,
          { buf with pos := buf.pos + 1 + len.toNat }) := by
  have hbig : ¬ bufLeft { buf with pos := buf.pos + 1 } < len.toNat := by
    show ¬ ptrDiff buf.stop (buf.pos + 1) < len.toNat
    rw [ptrDiff, if_neg (by omega)]
    omega
  unfold readWireValue
  rw [hread]
  exact if_neg hbig

/-- A missed value is a fault, or a position behind the end of a frame, or
too deep. -/
theorem MissesValue.breaks (root : MsgRef) {s : Dec}
    (h : MissesValue sch data s) : s.Breaks sch root data := by
  obtain ⟨hpt, hleft, wt, fd, buf, hkey, hwt, hend, hbyte⟩ := h
  rcases decodeVarint_at_stop data hend with
    ⟨-, hread⟩ | ⟨b, hb, hcont, -⟩ | ⟨b, v, -, -, hv, hread⟩
  · refine breaks_of_fault root (f := .read buf.pos) hpt hleft hkey ?_
    rcases hwt with rfl | rfl <;>
      (unfold readWireValue; rw [hread]; rfl)
  · exact absurd (hbyte b hb) hcont
  · rcases hwt with rfl | rfl
    · refine breaks_of_behind root hpt hleft hkey
        (by unfold readWireValue; rw [hread]; rfl) ?_
      show buf.stop < buf.pos + 1
      omega
    · have hval := @readWireValue_behind data s.wireValue buf v hend hv hread
      by_cases hfit : data.length < buf.pos + 1 + v.toNat
      · rw [if_pos hfit] at hval
        exact breaks_of_fault root hpt hleft hkey hval
      · rw [if_neg hfit] at hval
        refine breaks_of_behind root hpt hleft hkey hval ?_
        show buf.stop < buf.pos + 1 + v.toNat
        omega

/-- A call ends in one way. -/
theorem Decodes.only {out : List (Event Span)} {r r' : Result}
    (h : Decodes sch root data uninit out r) (hne : r ≠ r') :
    ∀ out', ¬ Decodes sch root data uninit out' r' := by
  intro out' h'
  exact hne (h.unique h').2

/-- A reachable state whose pass halts gives a whole run, with all events up
to there. -/
theorem DecReach.decodes {s : Dec} {r : Result} {out : List (Event Span)}
    (h : DecReach sch root data uninit s)
    (hmove : decodeMove sch root data s = .halt r out) :
    ∃ out', Decodes sch root data uninit out' r := by
  obtain ⟨o, he⟩ := h
  exact ⟨o ++ out, he.halts (.stop hmove)⟩

/-- The decoder is memory safe on an input exactly if none of its passes
misses a value or opens a stale frame: then every frame of every state it
passes through is an ordered range of the input, no byte outside the input
is read, and the call returns. -/
theorem decode_safe_iff (hm : sch.MessagesDescribed)
    (hp : sch.PackedNumeric)
    (hdepth : ∀ out, ¬ Decodes sch root data uninit out .abort) :
    ((∀ s, DecReach sch root data uninit s → s.Safe sch root data) ∧
        ∃ out r, Decodes sch root data uninit out r ∧ r.Returned) ↔
      ∀ s, DecReach sch root data uninit s →
        ¬ MissesValue sch data s ∧ ¬ OpensStale sch data s := by
  constructor
  · intro h s hs
    obtain ⟨hsafe, out, r, hdec, hret⟩ := h
    have hnot : ∀ r' out', decodeMove sch root data s = .halt r' out' →
        ¬ ((∃ f, r' = .fault f) ∨ r' = .abort) := by
      intro r' out' hmove hbad
      obtain ⟨o, hdec'⟩ := hs.decodes hmove
      obtain ⟨-, rfl⟩ := hdec.unique hdec'
      rcases hbad with ⟨f, rfl⟩ | rfl
      · rcases hret with ⟨u, h⟩ | ⟨e, h⟩ <;> cases h
      · exact hdepth out hdec
    constructor
    · intro hmiss
      rcases hmiss.breaks root with
        ⟨r', out', hmove, hbad⟩ | ⟨s', out', hmove, hout⟩
      · exact hnot r' out' hmove hbad
      · exact hout (hsafe s' (Reach.step hs hmove)).inside
    · intro hstale
      obtain ⟨r', out', hmove, hbad⟩ := hstale.halts root
      refine hnot r' out' hmove ?_
      rcases hbad with rfl | rfl
      · exact .inl ⟨_, rfl⟩
      · exact .inr rfl
  · intro hclean
    have hsafe : ∀ s, DecReach sch root data uninit s →
        s.Safe sch root data := by
      intro s hs
      obtain ⟨hmiss, hstale⟩ := hclean s hs
      have hin := DecReach.inside hclean hs
      exact ⟨hin,
        decodeMove_no_fault (fun _ _ => (hs.described hm).ready hp) hin hmiss
          hstale⟩
    obtain ⟨out, r, hdec⟩ := decode_halts sch root data uninit
    refine ⟨hsafe, out, r, hdec, ?_⟩
    cases r with
    | ok used => exact .inl ⟨used, rfl⟩
    | err e => exact .inr ⟨e, rfl⟩
    | abort => exact absurd hdec (hdepth out)
    | fault f =>
        obtain ⟨s, o₁, o₂, he, hmove, -⟩ := hdec.last
        exact absurd hmove ((hsafe s ⟨o₁, he⟩).no_fault f o₂)

/-- A message with one `int32` field, number 1. -/
def oneInt32 : Schema := ⟨[⟨[⟨1, ⟨.optional, .int32, 0⟩, none, "n"⟩]⟩]⟩

/-- A message with a submessage, number 1, and a packed run of `sint32`,
number 2. The submessage holds a string, number 1, and a `fixed64`,
number 2. -/
def nestedSchema : Schema :=
  ⟨[⟨[⟨1, ⟨.optional, .message, 0⟩, some 1, "m"⟩,
      ⟨2, ⟨.repeated, .sint32, 1⟩, none, "r"⟩]⟩,
    ⟨[⟨1, ⟨.optional, .string, 0⟩, none, "s"⟩,
      ⟨2, ⟨.optional, .fixed64, 0⟩, none, "x"⟩]⟩]⟩

/-- An unknown field of number 3, the submessage with `s = "hi"` and
`x = 7`, and the run 1, -1, 150. -/
def nestedInput : Bytes :=
  [0x18, 0x2a,
    0x0a, 0x0d, 0x0a, 0x02, 0x68, 0x69, 0x11, 7, 0, 0, 0, 0, 0, 0, 0,
    0x12, 0x04, 0x02, 0x01, 0xac, 0x02]

/-- The run over the submessage and the packed run is safe. -/
theorem decode_safe_iff_nested :
    (∀ s, DecReach nestedSchema 0 nestedInput 0 s →
        s.Safe nestedSchema 0 nestedInput) ∧
      ∃ out r, Decodes nestedSchema 0 nestedInput 0 out r ∧ r.Returned := by
  obtain ⟨out, hdec⟩ : ∃ out, Decodes nestedSchema 0 nestedInput 0 out
      (.ok 23) := halts_of_result 20 (by decide +kernel)
  refine (decode_safe_iff (by decide) (by decide) (hdec.only nofun)).mpr ?_
  intro s hs
  exact hs.of_checked (P := fun s => ¬ MissesValue nestedSchema nestedInput s ∧
    ¬ OpensStale nestedSchema nestedInput s) 20 (by decide +kernel)

/-- A key that ends the input: the value is read behind it. -/
theorem decode_reads_behind_end :
    Decodes oneInt32 0 [0x08] 0 [.msgStart 0 false] (.fault (.read 1)) ∧
      ¬ ((∀ s, DecReach oneInt32 0 [0x08] 0 s → s.Safe oneInt32 0 [0x08]) ∧
        ∃ out r, Decodes oneInt32 0 [0x08] 0 out r ∧ r.Returned) := by
  have hdec : Decodes oneInt32 0 [0x08] 0 [.msgStart 0 false]
      (.fault (.read 1)) := halts_of_eval 2 rfl
  refine ⟨hdec, ?_⟩
  intro h
  obtain ⟨-, out, r, hdec', hret⟩ := h
  obtain ⟨-, rfl⟩ := hdec.unique hdec'
  rcases hret with ⟨u, h⟩ | ⟨e, h⟩ <;> cases h

end Lwpb
