/-
Whole messages, written call by call.

`Appends s t bs` says that `bs` now stands behind the position of the
current frame, with the frames below and the memory outside of the room
the frame had untouched. A field of the caller's appends its key and its
payload if its call succeeds. A start opens a frame ten bytes further on
(`Enters`); whatever is appended there, the end of the frame succeeds and
appends key, length and contents to the parent (`Enters.closes`): key and
length of a frame shorter than `2 ^ 35` take at most ten bytes, so the
header ends before the contents begin and the contents move down over
room they had themselves.

The tree induction (`Tree.runs_need`) then has one case a constructor. It
says how much room the calls need, to the byte: every start takes ten
bytes that its frame may not need in the end, so that the room for a
message is not its length (`Tree.need`).
-/
import Lwpb.Proofs.Encoder.Fields

namespace Lwpb

open Memory Base128 Slice

variable {sch : Schema} {uninit : UInt64} {s t u : Enc} {m : MsgRef}
  {f : FieldRef}

-- =============================================================== estimates

/-- Frames of a message itself, those inside of its messages apart. -/
def Tree.frames : Tree → Nat
  | .nil => 0
  | .scalar _ _ rest => frames rest
  | .message _ _ rest => frames rest + 1
  | .packed _ _ rest => frames rest + 1

/-- Bytes of the fields, if a submessage is as long as its estimate. -/
def Tree.sized (sch : Schema) : Tree → Nat
  | .nil => 0
  | .scalar f v rest =>
      let p := v.payload (sch.field f).opts.typ
      ((sch.field f).key p.wireType ++ p.bytes).length + sized sch rest
  | .message f body rest =>
      let nested := sized sch body + 10 * body.frames
      ((sch.field f).key .string ++ encode nested).length + nested
        + sized sch rest
  | .packed f elems rest =>
      let bytes := elemBytes (elems.map (Value.payload (sch.field f).opts.typ))
      ((sch.field f).framed bytes).length + sized sch rest

/-- Room enough for a message and for the ten bytes that every frame in it
is opened further on. -/
def Tree.estimate (sch : Schema) (t : Tree) : Nat :=
  t.sized sch + 10 * t.frames

/-- The room that the calls for a message take, at the most. -/
def Tree.need (sch : Schema) : Tree → Nat
  | .nil => 0
  | .scalar f v rest =>
      let p := v.payload (sch.field f).opts.typ
      ((sch.field f).key p.wireType ++ p.bytes).length + need sch rest
  | .message f body rest =>
      max (10 + need sch body)
        (((sch.field f).framed (body.wire sch).bytes).length + need sch rest)
  | .packed f elems rest =>
      let bytes := elemBytes (elems.map (Value.payload (sch.field f).opts.typ))
      max (10 + bytes.length)
        (((sch.field f).framed bytes).length + need sch rest)

/-- A larger number has no fewer digits. -/
theorem encode_length_mono {n k : Nat} (h : n ≤ k) :
    (encode n).length ≤ (encode k).length :=
  encode_length_le_of_le (encode_terminated k) (by rw [value_encode]; exact h)

/-- A key takes a byte at least. -/
theorem key_length_pos (desc : FieldDesc) (wt : WireType) :
    0 < (desc.key wt).length :=
  encode_length_pos _

/-- The estimate is not below the length. -/
theorem length_le_estimate (sch : Schema) (t : Tree) :
    (t.wire sch).bytes.length ≤ t.estimate sch := by
  unfold Tree.estimate
  induction t with
  | nil => exact Nat.le_refl 0
  | scalar f v rest ih =>
      simp only [Tree.wire, Wire.bytes, Tree.sized, Tree.frames,
        List.length_append] at ih ⊢
      omega
  | message f body rest ihb ihr =>
      have hprefix := encode_length_mono ihb
      simp only [Tree.wire, Wire.bytes, Tree.sized, Tree.frames,
        List.length_append] at ihr ⊢
      omega
  | packed f elems rest ih =>
      simp only [Tree.wire, Wire.bytes, Tree.sized, Tree.frames,
        FieldDesc.framed, List.length_append] at ih ⊢
      omega

/-- A frame is its key, its length word and its bytes. -/
theorem framed_length (desc : FieldDesc) (bytes : Bytes) :
    (desc.framed bytes).length
      = (desc.key .string).length + (encode bytes.length).length
        + bytes.length := by
  rw [FieldDesc.framed, List.length_append, List.length_append]
  omega

/-- The estimate counts ten bytes for each frame and all bytes there are, so
that it is never below the room that is needed. -/
theorem need_le_estimate (sch : Schema) (t : Tree) :
    t.need sch ≤ t.estimate sch := by
  unfold Tree.estimate
  induction t with
  | nil => exact Nat.le_refl 0
  | scalar f v rest ih =>
      simp only [Tree.need, Tree.sized, Tree.frames]
      omega
  | message f body rest ihb ihr =>
      have hlen := length_le_estimate sch body
      have hprefix := encode_length_mono hlen
      rw [Tree.estimate] at hlen hprefix
      simp only [Tree.need, Tree.sized, Tree.frames, framed_length,
        List.length_append]
      omega
  | packed f elems rest ih =>
      simp only [Tree.need, Tree.sized, Tree.frames, framed_length]
      omega

-- =============================================================== appending

/-- The bytes have been appended to the current frame. -/
structure Appends (s t : Enc) (bs : Bytes) : Prop where
  depth : t.depth = s.depth
  packed : t.packed = s.packed
  below : ∀ i, i < s.depth - 1 → t.stack i = s.stack i
  top : t.top = { s.top with
    buf := { s.top.buf with pos := s.top.buf.pos + bs.length } }
  room : s.top.buf.pos + bs.length ≤ s.top.buf.stop
  written : read t.mem s.top.buf.pos bs.length = bs
  within : Within s.mem t.mem s.top.buf.pos s.top.buf.stop

/-- Nothing was appended. -/
theorem Appends.refl (hs : s.top.buf.Ordered) : Appends s s [] where
  depth := rfl
  packed := rfl
  below := fun _ _ => rfl
  top := rfl
  room := hs.pos_le_stop
  written := rfl
  within := .refl s.mem _ _

/-- Bytes appended, and more bytes behind them. -/
theorem Appends.trans {bs cs : Bytes} (h : Appends s t bs)
    (h' : Appends t u cs) : Appends s u (bs ++ cs) := by
  have hpos : t.top.buf.pos = s.top.buf.pos + bs.length := by rw [h.top]
  have hstop : t.top.buf.stop = s.top.buf.stop := by rw [h.top]
  have hroom := h'.room
  have hread := h'.written
  have hin := h'.within
  rw [hpos] at hroom hread hin
  rw [hstop] at hroom hin
  refine ⟨h'.depth.trans h.depth, h'.packed.trans h.packed, ?_, ?_, ?_, ?_,
    ?_⟩
  · intro i hi
    rw [h'.below i (by rw [h.depth]; exact hi), h.below i hi]
  · rw [h'.top, h.top, List.length_append, Nat.add_assoc]
  · rw [List.length_append, ← Nat.add_assoc]
    exact hroom
  · rw [List.length_append, read_append, hread,
      hin.read (.inl (Nat.le_refl _)), h.written]
  · exact h.within.trans (hin.mono (by omega) (Nat.le_refl _))

/-- A writer's bytes are appended to the frame it writes to. -/
theorem Puts.appends {w : Written} {bs : Bytes}
    (h : Puts s.mem s.top.buf w bs) : Appends s (s.written w) bs where
  depth := rfl
  packed := rfl
  below := fun _ hi => Enc.written_below (Nat.ne_of_lt hi)
  top := by rw [Enc.written_top, h.buf_eq]
  room := h.room
  written := h.written
  within := h.within.mono (Nat.le_refl _) h.room

-- ================================================================== fields

/-- The current frame takes fields of message `m`; it has less than
`2 ^ 35` bytes left. -/
structure Enc.Open (s : Enc) (m : MsgRef) : Prop where
  started : 0 < s.depth
  packed : s.packed = false
  described : s.top.msgDesc = some m
  ordered : s.top.buf.Ordered
  small : s.top.buf.stop < s.top.buf.pos + 2 ^ 35

/-- Behind what was appended the message is still open. -/
theorem Appends.open {bs : Bytes} (h : Appends s t bs) (hs : s.Open m) :
    t.Open m := by
  have hroom := h.room
  have hsmall := hs.small
  have hbase := hs.ordered.base_le_pos
  refine ⟨?_, ?_, ?_, ⟨?_, ?_⟩, ?_⟩
  · rw [h.depth]
    exact hs.started
  · rw [h.packed]
    exact hs.packed
  · rw [h.top]
    exact hs.described
  · rw [h.top]
    exact Nat.le_trans hbase (Nat.le_add_right ..)
  · rw [h.top]
    exact hroom
  · rw [h.top]
    show s.top.buf.stop < s.top.buf.pos + bs.length + 2 ^ 35
    omega

/-- A field of the message at hand gets past the checks. -/
theorem addField_open (hs : s.Open m) (hf : sch.owns m f = true)
    (value : RawValue) :
    addField sch uninit s f value = encodeField sch uninit s f value := by
  have hdepth := hs.started
  rw [addField, if_neg (by omega), hs.packed, if_neg Bool.false_ne_true,
    hs.described]
  exact if_pos hf

/-- A way to drive the encoder: frames are opened and closed by the calls
for it, and a value is added as a union with this value in it. -/
structure Drives (kind : Value Bytes → FieldType → Prop) (sch : Schema)
    (step : Scratch → Enc → Act → Ret) : Prop where
  nestedStart : ∀ u s f, step u s (.nestedStart f) = nestedStart sch s f
  nestedEnd : ∀ u s, step u s .nestedEnd = nestedEnd sch u.wireValue s
  packedStart : ∀ u s f,
    step u s (.packedRepeatedStart f) = packedRepeatedStart sch s f
  packedEnd : ∀ u s,
    step u s .packedRepeatedEnd = packedRepeatedEnd sch u.wireValue s
  add : ∀ u s f v, kind v (sch.field f).opts.typ →
    ∃ val, step u s (.add f v) = addField sch u.wireValue s f val ∧
      Stands (sch.field f).opts.typ val v

/-- With the setters. -/
theorem drives_run (sch : Schema) :
    Drives Value.Fits sch fun u s a => a.run sch u s where
  nestedStart := fun _ _ _ => rfl
  nestedEnd := fun _ _ => rfl
  packedStart := fun _ _ _ => rfl
  packedEnd := fun _ _ => rfl
  add := fun u s f v hv =>
    ⟨v.raw u.value, addValue_eq sch u s f v, raw_stands hv u.value⟩

/-- With unions. -/
theorem drives_feed (sch : Schema) :
    Drives Value.OfType sch fun u s a => a.feed sch u s where
  nestedStart := fun _ _ _ => rfl
  nestedEnd := fun _ _ => rfl
  packedStart := fun _ _ _ => rfl
  packedEnd := fun _ _ => rfl
  add := fun u _ _ v hv => ⟨v.union u.value, rfl, union_stands hv u.value⟩

variable {kind : Value Bytes → FieldType → Prop}
  {step : Scratch → Enc → Act → Ret}

/-- A value that was added is there, behind its key. -/
theorem add_open {v : Value Bytes} (hd : Drives kind sch step)
    (hs : s.Open m) (hf : sch.Numbered m f)
    (hrun : (sch.field f).isPackedRepeated = false)
    (hv : kind v (sch.field f).opts.typ) (sc : Scratch) :
    ∃ err t, step sc s (.add f v) = .ret err t ∧
      (s.top.buf.pos + ((sch.field f).key
        (v.payload (sch.field f).opts.typ).wireType ++
          (v.payload (sch.field f).opts.typ).bytes).length
        ≤ s.top.buf.stop → err = .ok) ∧
      (err = .ok → Appends s t
        ((sch.field f).key (v.payload (sch.field f).opts.typ).wireType ++
          (v.payload (sch.field f).opts.typ).bytes)) := by
  obtain ⟨val, hstep, hval⟩ := hd.add sc s f v hv
  obtain ⟨hwt, hout⟩ := hval sc.wireValue
  obtain ⟨w, hret, hemits⟩ := encodeKeyed_emits hs.ordered hf.number_lt
    (hout.ready s _)
  refine ⟨w.err, s.written w, ?_, hemits.ok_iff.mpr,
    fun hok => (hemits.puts hok).appends⟩
  rw [hstep, addField_open hs hf.owned, ← hret, ← hwt]
  simp only [encodeField]
  rw [hs.packed, if_neg Bool.false_ne_true, hrun,
    if_neg Bool.false_ne_true]

/-- In a run there are no keys. -/
theorem add_packed {v : Value Bytes} (hd : Drives kind sch step)
    (hdepth : 0 < s.depth) (hs : s.top.buf.Ordered)
    (hpacked : s.packed = true) (hfield : s.top.fieldDesc = some f)
    (hv : kind v (sch.field f).opts.typ) (sc : Scratch) :
    ∃ err t, step sc s (.add f v) = .ret err t ∧
      (s.top.buf.pos + (v.payload (sch.field f).opts.typ).bytes.length
        ≤ s.top.buf.stop → err = .ok) ∧
      (err = .ok → Appends s t
        (v.payload (sch.field f).opts.typ).bytes) := by
  obtain ⟨val, hstep, hval⟩ := hd.add sc s f v hv
  obtain ⟨hwt, hout⟩ := hval sc.wireValue
  obtain ⟨w, hret, hemits⟩ := encodePayload_emits hs (hout.ready s 0)
  refine ⟨w.err, s.written w, ?_, hemits.ok_iff.mpr,
    fun hok => (hemits.puts hok).appends⟩
  rw [hstep, addField, if_neg (by omega), hpacked, if_pos rfl,
    if_neg (by rw [hfield]; exact fun h => h rfl), ← hret, ← hwt]
  simp only [encodeField]
  rw [hpacked, if_pos rfl]

-- ================================================================== frames

/-- A frame for field `f` has been opened, ten bytes further on. -/
structure Enters (s t : Enc) (f : FieldRef) : Prop where
  depth : t.depth = s.depth + 1
  below : ∀ i, i < s.depth → t.stack i = s.stack i
  buf : t.top.buf = ⟨s.top.buf.pos + 10, s.top.buf.pos + 10,
    s.top.buf.stop⟩
  field : t.top.fieldDesc = some f
  room : s.top.buf.pos + 10 ≤ s.top.buf.stop
  mem : t.mem = s.mem

/-- Writing the key and the length of the current frame to its parent, as
the call that closes it does, leaves its payload alone. -/
def Enc.HeaderClear (sch : Schema) (t : Enc) : Prop :=
  let frame := t.top.buf
  let parent := (t.stack (t.depth - 2)).buf
  ∀ f, t.top.fieldDesc = some f →
    let key := encodeVarint t.mem parent (fieldKey (sch.field f) .string)
    let len := encodeVarint key.mem key.buf (UInt64.ofNat (bufUsed frame))
    read len.mem frame.base (bufUsed frame)
      = read t.mem frame.base (bufUsed frame)

/-- A start that returns `LWPB_ERR_OK` has opened a frame. -/
theorem pushReserve_enters (hdepth : 0 < s.depth)
    (hmax : s.depth + 1 ≤ maxDepth) (hs : s.top.buf.Ordered)
    (frame : EncFrame) (packed : Bool)
    (hfield : frame.fieldDesc = some f) :
    ∃ err t, pushReserve s frame packed = .ret err t ∧
      (s.top.buf.pos + 10 ≤ s.top.buf.stop → err = .ok) ∧
      (err = .ok → Enters s t f ∧ t.packed = packed ∧
        t.top.msgDesc = frame.msgDesc) := by
  rw [pushReserve, if_neg (by omega), if_neg (by omega)]
  by_cases hfull : bufLeft s.top.buf < 10
  · refine ⟨_, _, if_pos hfull, fun hroom => ?_, Err.noConfusion⟩
    rw [hs.left] at hfull
    omega
  · refine ⟨_, _, if_neg hfull, fun _ => rfl, fun _ => ⟨⟨rfl, ?_, ?_, ?_, ?_,
      rfl⟩, rfl, ?_⟩⟩
    all_goals
      rw [hs.left] at hfull
      have hle := hs.pos_le_stop
    · exact fun i hi => Enc.push_below _ _ hi
    · rw [Enc.push_top]
      show (⟨_, _, s.top.buf.pos + 10 + (bufLeft s.top.buf - 10)⟩ : Buf) = _
      rw [hs.left]
      congr 1
      omega
    · rw [Enc.push_top]
      exact hfield
    · omega
    · rw [Enc.push_top]

/-- Starting a submessage succeeds if there are ten bytes of room, and then
its frame begins behind these. -/
theorem nestedStart_enters (hs : s.Open m)
    (hmsg : (sch.field f).opts.typ = .message)
    (hmax : s.depth + 1 ≤ maxDepth) :
    ∃ err t, nestedStart sch s f = .ret err t ∧
      (s.top.buf.pos + 10 ≤ s.top.buf.stop → err = .ok) ∧
      (err = .ok → Enters s t f ∧ t.packed = false ∧
        t.top.msgDesc = (sch.field f).msgDesc) := by
  rw [nestedStart, if_neg (fun h => h hmsg), hs.packed]
  exact pushReserve_enters hs.started hmax hs.ordered _ _ rfl

/-- Starting a run does the same, and enters packed mode. -/
theorem packedRepeatedStart_enters (hs : s.Open m)
    (hrun : (sch.field f).isPackedRepeated = true)
    (hmax : s.depth + 1 ≤ maxDepth) :
    ∃ err t, packedRepeatedStart sch s f = .ret err t ∧
      (s.top.buf.pos + 10 ≤ s.top.buf.stop → err = .ok) ∧
      (err = .ok → Enters s t f ∧ t.packed = true) := by
  rw [packedRepeatedStart, hrun, if_neg (by decide), hs.packed,
    if_neg Bool.false_ne_true]
  obtain ⟨err, t, hret, hroom, h⟩ := pushReserve_enters (f := f) hs.started
    hmax hs.ordered ⟨(s.stack s.depth).buf, some f, none⟩ true rfl
  exact ⟨err, t, hret, hroom, fun hok => ⟨(h hok).1, (h hok).2.1⟩⟩

/-- The frame that was entered is an ordered buffer. -/
theorem Enters.ordered (h : Enters s t f) : t.top.buf.Ordered := by
  rw [h.buf]
  exact ⟨Nat.le_refl _, h.room⟩

/-- The frame of a submessage takes its fields. -/
theorem Enters.open {m' : MsgRef} (h : Enters s t f) (hs : s.Open m)
    (hpacked : t.packed = false) (hdesc : t.top.msgDesc = some m') :
    t.Open m' := by
  have hsmall := hs.small
  refine ⟨?_, hpacked, hdesc, h.ordered, ?_⟩
  · rw [h.depth]
    exact Nat.succ_pos _
  · rw [h.buf]
    show s.top.buf.stop < s.top.buf.pos + 10 + 2 ^ 35
    omega

/-- The header of a frame fits the reserve. -/
theorem header_length {desc : FieldDesc} {n : Nat}
    (hnum : desc.number.toNat < 2 ^ 29) (hn : n < 2 ^ 35) :
    (desc.key .string).length + (encode n).length ≤ 10 := by
  have hkey : (desc.key .string).length ≤ 4 + 1 := by
    refine encode_length_le_of_lt ?_
    show desc.number.toNat * 8 + 2 < 128 ^ 5
    omega
  have hlen : (encode n).length ≤ 4 + 1 :=
    encode_length_le_of_lt (by omega)
  omega

/-- The state a frame is closed from: the payload `body` stands in it. -/
structure Closable (s t : Enc) (f : FieldRef) (body : Bytes) : Prop where
  depth : t.depth = s.depth + 1
  below : ∀ i, i < s.depth → t.stack i = s.stack i
  base : t.top.buf.base = s.top.buf.pos + 10
  used : bufUsed t.top.buf = body.length
  field : t.top.fieldDesc = some f
  room : s.top.buf.pos + 10 + body.length ≤ s.top.buf.stop
  written : read t.mem (s.top.buf.pos + 10) body.length = body
  within : Within s.mem t.mem (s.top.buf.pos + 10) s.top.buf.stop

/-- Behind its contents the frame can be closed. -/
theorem Enters.closable {body : Bytes} (h : Enters s t f)
    (hbody : Appends t u body) : Closable s u f body := by
  have hroom := hbody.room
  have hread := hbody.written
  have hin := hbody.within
  rw [h.buf] at hroom hread hin
  rw [h.mem] at hin
  refine ⟨hbody.depth.trans h.depth, ?_, ?_, ?_, ?_, hroom, hread, hin⟩
  · intro i hi
    rw [hbody.below i (by rw [h.depth]; exact hi), h.below i hi]
  · rw [hbody.top, h.buf]
  · rw [hbody.top, h.buf]
    unfold bufUsed
    rw [ptrDiff_of_le (Nat.le_add_right ..)]
    exact Nat.add_sub_cancel_left ..
  · rw [hbody.top]
    exact h.field

/-- The parent, once the frame is popped. -/
def Enc.popped (s t : Enc) : Enc :=
  { t with depth := s.depth, packed := false }

/-- Without the frame the one under it is at the top again, as it was. -/
theorem Closable.popped_top {body : Bytes} (h : Closable s t f body)
    (hs : 0 < s.depth) : (s.popped t).top = s.top :=
  h.below (s.depth - 1) (Nat.sub_one_lt_of_lt hs)

/-- The payload is out of reach of its header. -/
theorem Closable.survives {body : Bytes} {mem : Mem} {n : Nat}
    (h : Closable s t f body) (hn : n ≤ 10)
    (hmem : Within t.mem mem s.top.buf.pos (s.top.buf.pos + n)) :
    read mem (s.top.buf.pos + 10) body.length = body := by
  rw [hmem.read (.inr (by omega)), h.written]

/-- The header of a frame ends in front of its contents: key and length take
ten bytes at most, which were kept free. -/
theorem Closable.headerClear {body : Bytes} (h : Closable s t f body)
    (hs : s.Open m) (hf : sch.Numbered m f) : t.HeaderClear sch := by
  intro g hg
  have hfg : g = f := Option.some.inj (hg.symm.trans h.field)
  subst hfg
  have hparent : (t.stack (t.depth - 2)).buf = s.top.buf := by
    have hdepth := hs.started
    have hidx : t.depth - 2 = s.depth - 1 := by
      rw [h.depth]
      omega
    rw [hidx, h.below _ (by omega)]
    rfl
  have hroom := h.room
  have hsmall := hs.small
  have hlen : (UInt64.ofNat body.length).toNat = body.length :=
    UInt64.toNat_ofNat_of_lt' (by show _ < 2 ^ 64; omega)
  have htotal := @header_length (sch.field g) body.length hf.number_lt
    (by omega)
  rw [hparent, h.used, h.base, h.written]
  have hkey : Emits t.mem s.top.buf
      (encodeVarint t.mem s.top.buf (fieldKey (sch.field g) .string))
      ((sch.field g).key .string) := by
    unfold FieldDesc.key
    rw [← fieldKey_toNat hf.number_lt (by decide)]
    exact encodeVarint_emits hs.ordered _
  have hwrites := @encodeVarint_writes t.mem _ hs.ordered
    (fieldKey (sch.field g) .string)
  show read (encodeVarint (encodeVarint t.mem s.top.buf _).mem _ _).mem _ _
    = _
  generalize encodeVarint t.mem s.top.buf
    (fieldKey (sch.field g) .string) = k at hkey hwrites ⊢
  have hk := hkey.puts (hkey.ok_iff.mpr (by omega))
  have hl := @encodeVarint_emits k.mem _ (hwrites.ordered hs.ordered)
    (UInt64.ofNat body.length)
  rw [hlen] at hl
  have hboth := hk.trans (hl.puts (hl.ok_iff.mpr (by
    rw [hk.buf_eq]
    show s.top.buf.pos + _ + _ ≤ s.top.buf.stop
    omega)))
  refine h.survives htotal ?_
  rw [← List.length_append]
  exact hboth.within

/-- The field of a frame is length-delimited, whatever its type. -/
theorem encodeField_frame (hpacked : s.packed = false)
    (hframe : (sch.field f).opts.typ = .message ∨
      (sch.field f).isPackedRepeated = true) (value : RawValue) :
    encodeField sch uninit s f value
      = encodeKeyed s (sch.field f) .string ⟨value.len, value.src⟩ := by
  simp only [encodeField]
  rw [hpacked, if_neg Bool.false_ne_true]
  by_cases hrun : (sch.field f).isPackedRepeated = true
  · rw [if_pos hrun]
  · rw [if_neg hrun, hframe.resolve_right hrun]
    rfl

/-- Closing a frame succeeds, and appends it to its parent. -/
theorem Closable.closes {body : Bytes} (h : Closable s t f body)
    (hs : s.Open m) (hf : sch.Numbered m f)
    (hframe : (sch.field f).opts.typ = .message ∨
      (sch.field f).isPackedRepeated = true) :
    ∃ u, popAdd sch uninit t false = .ret .ok u ∧
      Appends s u ((sch.field f).key .string ++
        (encode body.length ++ body)) := by
  have hdepth := hs.started
  have hroom := h.room
  have hsmall := hs.small
  have htop := h.popped_top hs.started
  have hopen : (s.popped t).Open m :=
    ⟨hs.started, rfl, by rw [htop]; exact hs.described,
      by rw [htop]; exact hs.ordered, by rw [htop]; exact hs.small⟩
  have hlen : (UInt64.ofNat body.length).toNat = body.length :=
    UInt64.toNat_ofNat_of_lt' (by show _ < 2 ^ 64; omega)
  have htotal := @header_length (sch.field f) body.length hf.number_lt
    (by omega)
  -- the copied bytes are the payload, also with the header written
  have hready : (Payload.string (encode body.length) body).Ready
      (s.popped t) ((sch.field f).key .string).length
      ⟨UInt64.ofNat body.length, .buf (s.top.buf.pos + 10)⟩ := by
    refine ⟨hlen, rfl, fun mem hmem => ?_⟩
    rw [htop, Nat.add_assoc] at hmem
    have hmap : read mem (s.top.buf.pos + 10) body.length = _ :=
      read_eq_map (fun i => mem (s.top.buf.pos + 10 + i)) fun _ _ => rfl
    exact hmap.symm.trans (h.survives htotal hmem)
  obtain ⟨w, hret, hemits⟩ := @encodeKeyed_emits _ (sch.field f) _
    (.string (encode body.length) body) hopen.ordered hf.number_lt hready
  have hok : w.err = .ok := by
    refine hemits.ok_iff.mpr ?_
    rw [htop]
    show s.top.buf.pos + ((sch.field f).key .string ++
      (encode body.length ++ body)).length ≤ s.top.buf.stop
    rw [List.length_append, List.length_append]
    omega
  have hput := hemits.puts hok
  rw [hok] at hret
  have hone : t.depth - 1 = s.depth := by
    rw [h.depth]
    exact Nat.add_sub_cancel ..
  have hpop : popAdd sch uninit t false
      = addField sch uninit (s.popped t) f
        ⟨UInt64.ofNat t.top.buf.base, .buf (s.top.buf.pos + 10),
          UInt64.ofNat body.length⟩ := by
    simp only [popAdd]
    rw [if_neg (by omega), h.field, h.used, h.base, hone]
    rfl
  refine ⟨(s.popped t).written w, ?_, ?_⟩
  · rw [hpop, addField_open hopen hf.owned,
      encodeField_frame hopen.packed hframe]
    exact hret
  · have hall := hput.appends
    refine ⟨rfl, hs.packed.symm, ?_, ?_, ?_, ?_, ?_⟩
    · intro i hi
      rw [hall.below i hi]
      exact h.below i (by omega)
    · rw [hall.top, htop]
      rfl
    · have := hall.room
      rwa [htop] at this
    · have := hall.written
      rwa [htop] at this
    · have hin := hall.within
      rw [htop] at hin
      exact (h.within.mono (Nat.le_add_right ..) (Nat.le_refl _)).trans hin

-- ==================================================================== runs

/-- No start and no value was refused. -/
def Accepted (made : List Made) : Prop :=
  ∀ x ∈ made, x.act.isEnd = false → x.err = .ok

/-- The calls succeeded, and no frame was overwritten by its header. -/
def Clean (sch : Schema) (made : List Made) : Prop :=
  ∀ x ∈ made, x.err = .ok ∧ (x.act.isEnd = true → x.before.HeaderClear sch)

/-- A run comes clean from `s` to `t`, where `rest` is still to be
done. -/
def Comes (sch : Schema) (step : Scratch → Enc → Act → Ret)
    (s : Enc) (session : List (Scratch × Act))
    (t : Enc) (rest : List (Scratch × Act)) : Prop :=
  ∃ made, Clean sch made ∧
    runSteps step s session
      = (made ++ (runSteps step t rest).1, (runSteps step t rest).2)

variable {session rest more : List (Scratch × Act)} {acts : List Act}

/-- No call was made. -/
theorem Comes.refl (s : Enc) (session : List (Scratch × Act)) :
    Comes sch step s session s session :=
  ⟨[], fun _ hx => absurd hx List.not_mem_nil, rfl⟩

/-- Calls, and more calls behind them. -/
theorem Comes.trans (h : Comes sch step s session t rest)
    (h' : Comes sch step t rest u more) : Comes sch step s session u more := by
  obtain ⟨made, hclean, heq⟩ := h
  obtain ⟨made', hclean', heq'⟩ := h'
  refine ⟨made ++ made', ?_, ?_⟩
  · intro x hx
    rcases List.mem_append.mp hx with hx | hx
    · exact hclean x hx
    · exact hclean' x hx
  · rw [heq, heq', List.append_assoc]

/-- Calls that are left are accepted if all of them are. -/
theorem Comes.accepted (h : Comes sch step s session t rest)
    (hacc : Accepted (runSteps step s session).1) :
    Accepted (runSteps step t rest).1 := by
  obtain ⟨made, -, heq⟩ := h
  rw [heq] at hacc
  exact fun x hx => hacc x (List.mem_append_right made hx)

/-- No start and no value was refused, or there is room for so many bytes
more. -/
def Granted (step : Scratch → Enc → Act → Ret) (s : Enc)
    (session : List (Scratch × Act)) (need : Nat) : Prop :=
  Accepted (runSteps step s session).1 ∨
    s.top.buf.pos + need ≤ s.top.buf.stop

/-- What grants the calls grants those that are left, if the room is carried
along. -/
theorem Granted.next {need left : Nat} (h : Granted step s session need)
    (hcomes : Comes sch step s session t rest)
    (hroom : s.top.buf.pos + need ≤ s.top.buf.stop →
      t.top.buf.pos + left ≤ t.top.buf.stop) : Granted step t rest left := by
  rcases h with hacc | hneed
  · exact .inl (hcomes.accepted hacc)
  · exact .inr (hroom hneed)

/-- So it does behind appended bytes that were accounted for. -/
theorem Granted.appended {need left : Nat} {bs : Bytes}
    (h : Granted step s session need)
    (hcomes : Comes sch step s session t rest) (happ : Appends s t bs)
    (hle : bs.length + left ≤ need) : Granted step t rest left := by
  refine h.next hcomes fun hneed => ?_
  rw [happ.top]
  show s.top.buf.pos + bs.length + left ≤ s.top.buf.stop
  omega

/-- What grants much room grants less. -/
theorem Granted.mono {need left : Nat} (h : Granted step s session need)
    (hle : left ≤ need) : Granted step s session left := by
  rcases h with hacc | hneed
  · exact .inl hacc
  · exact .inr (by omega)

/-- The calls up to `acts` come clean and append `bs`, and there is room
for `need` bytes in front of them. -/
def Completes (sch : Schema) (step : Scratch → Enc → Act → Ret) (s : Enc)
    (session : List (Scratch × Act)) (acts : List Act) (bs : Bytes)
    (need : Nat) : Prop :=
  ∃ t rest, Comes sch step s session t rest ∧ rest.map (·.2) = acts ∧
    Appends s t bs ∧ s.top.buf.pos + need ≤ s.top.buf.stop

/-- What is appended first, and what behind it. -/
theorem Comes.behind {bs bs' : Bytes} {left : Nat}
    (hcomes : Comes sch step s session t rest) (happ : Appends s t bs)
    (h : Completes sch step t rest acts bs' left) :
    Completes sch step s session acts (bs ++ bs') (bs.length + left) := by
  obtain ⟨u, more, hcomes', hmore, happ', hroom⟩ := h
  refine ⟨u, more, hcomes.trans hcomes', hmore, happ.trans happ', ?_⟩
  rw [happ.top] at hroom
  rw [← Nat.add_assoc]
  exact hroom

/-- What is done next. -/
theorem session_cons {a : Act} (h : session.map (·.2) = a :: acts) :
    ∃ sc rest, session = (sc, a) :: rest ∧ rest.map (·.2) = acts := by
  obtain ⟨⟨sc, a'⟩, rest, rfl, ha, hrest⟩ := List.map_eq_cons_iff.mp h
  cases ha
  exact ⟨sc, rest, rfl, hrest⟩

/-- A call that returns is made in front of the rest. -/
theorem runSteps_cons {sc : Scratch} {a : Act} {err : Err}
    (h : step sc s a = .ret err t) :
    runSteps step s ((sc, a) :: rest)
      = (⟨s, a, err⟩ :: (runSteps step t rest).1,
        (runSteps step t rest).2) := by
  rw [runSteps, h]

/-- A start or a value: it was accepted. -/
theorem comes_of_granted (sch : Schema)
    (step : Scratch → Enc → Act → Ret) {a : Act} {Q : Enc → Prop}
    {need size : Nat} (hacts : session.map (·.2) = a :: acts)
    (hgrant : Granted step s session need) (hsize : size ≤ need)
    (hend : a.isEnd = false)
    (hrun : ∀ sc, ∃ err t, step sc s a = .ret err t ∧
      (s.top.buf.pos + size ≤ s.top.buf.stop → err = .ok) ∧
      (err = .ok → Q t)) :
    ∃ t rest, Comes sch step s session t rest ∧ rest.map (·.2) = acts ∧
      Q t := by
  obtain ⟨sc, rest, rfl, hrest⟩ := session_cons hacts
  obtain ⟨err, t, hret, hroom, hq⟩ := hrun sc
  have hok : err = .ok := by
    rcases hgrant with hacc | hneed
    · rw [runSteps_cons hret] at hacc
      exact hacc _ List.mem_cons_self hend
    · exact hroom (by omega)
  refine ⟨t, rest, ⟨[⟨s, a, err⟩], ?_, runSteps_cons hret⟩, hrest, hq hok⟩
  intro x hx
  rw [List.mem_singleton.mp hx]
  exact ⟨hok, fun h => absurd (hend.symm.trans h) Bool.false_ne_true⟩

/-- An end: it succeeds. -/
theorem comes_of_end (sch : Schema)
    (step : Scratch → Enc → Act → Ret) {a : Act} {Q : Enc → Prop}
    (hacts : session.map (·.2) = a :: acts) (hclear : s.HeaderClear sch)
    (hrun : ∀ sc, ∃ t, step sc s a = .ret .ok t ∧ Q t) :
    ∃ t rest, Comes sch step s session t rest ∧ rest.map (·.2) = acts ∧
      Q t := by
  obtain ⟨sc, rest, rfl, hrest⟩ := session_cons hacts
  obtain ⟨t, hret, hq⟩ := hrun sc
  refine ⟨t, rest, ⟨[⟨s, a, .ok⟩], ?_, runSteps_cons hret⟩, hrest, hq⟩
  intro x hx
  rw [List.mem_singleton.mp hx]
  exact ⟨rfl, fun _ => hclear⟩

/-- The calls of a frame: its start, what is in it, and its end. -/
theorem frame_comes {a b : Act} {inner : List Act} {content : Bytes}
    {need : Nat} {Q : Enc → Prop} (hs : s.Open m) (hf : sch.Numbered m f)
    (hframe : (sch.field f).opts.typ = .message ∨
      (sch.field f).isPackedRepeated = true)
    (hacts : session.map (·.2) = a :: (inner ++ b :: acts))
    (hgrant : Granted step s session (10 + need)) (hend : a.isEnd = false)
    (hstart : ∀ sc, ∃ err t, step sc s a = .ret err t ∧
      (s.top.buf.pos + 10 ≤ s.top.buf.stop → err = .ok) ∧
      (err = .ok → Enters s t f ∧ Q t))
    (hin : ∀ {t session acts}, Enters s t f → Q t →
      session.map (·.2) = inner ++ acts → Granted step t session need →
      Completes sch step t session acts content need)
    (hpop : ∀ {t u} sc, Q t → Appends t u content →
      step sc u b = popAdd sch sc.wireValue u false) :
    Completes sch step s session acts ((sch.field f).framed content)
      (10 + need) := by
  obtain ⟨t, _, hstarts, hacts, henter, hq⟩ := comes_of_granted sch step hacts
    hgrant (Nat.le_add_right 10 need) hend hstart
  obtain ⟨u, _, hinner, hacts, happ, hroom⟩ := hin henter hq hacts
    (hgrant.next hstarts fun hneed => by
      rw [henter.buf]
      show s.top.buf.pos + 10 + need ≤ s.top.buf.stop
      omega)
  have hclose := henter.closable happ
  obtain ⟨v, rest, hends, hrest, happ'⟩ := comes_of_end sch step hacts
    (hclose.headerClear hs hf) fun sc => by
      rw [hpop sc hq happ]
      exact hclose.closes hs hf hframe
  refine ⟨v, rest, (hstarts.trans hinner).trans hends, hrest, happ', ?_⟩
  rw [henter.buf] at hroom
  rw [← Nat.add_assoc]
  exact hroom

-- =================================================================== trees

/-- The values of a run. -/
theorem runs_elems {elems : List (Value Bytes)} {need : Nat}
    (hd : Drives kind sch step) (hdepth : 0 < s.depth)
    (hs : s.top.buf.Ordered) (hpacked : s.packed = true)
    (hfield : s.top.fieldDesc = some f)
    (hv : ∀ v ∈ elems, kind v (sch.field f).opts.typ)
    (hacts : session.map (·.2) = elems.map (.add f) ++ acts)
    (hgrant : Granted step s session need)
    (hneed : (elemBytes (elems.map
      (Value.payload (sch.field f).opts.typ))).length ≤ need) :
    Completes sch step s session acts
      (elemBytes (elems.map (Value.payload (sch.field f).opts.typ)))
      (elemBytes (elems.map
        (Value.payload (sch.field f).opts.typ))).length := by
  induction elems generalizing s session need with
  | nil => exact ⟨s, session, .refl s session, hacts, .refl hs, hs.pos_le_stop⟩
  | cons v elems ih =>
      rw [List.map_cons, elemBytes, List.flatMap_cons, List.length_append]
        at hneed ⊢
      obtain ⟨t, rest, hcomes, hrest, happ⟩ := comes_of_granted sch step hacts
        hgrant (by omega) rfl (add_packed hd hdepth hs hpacked hfield
          (hv v List.mem_cons_self))
      have hroom := happ.room
      exact hcomes.behind happ (ih
        (by rw [happ.depth]; exact hdepth)
        (by
          rw [happ.top]
          exact ⟨Nat.le_trans hs.base_le_pos (Nat.le_add_right ..), hroom⟩)
        (by rw [happ.packed]; exact hpacked)
        (by rw [happ.top]; exact hfield)
        (fun v' hmem => hv v' (List.mem_cons_of_mem v hmem))
        hrest (hgrant.appended hcomes happ hneed) (Nat.le_refl _))

/-- The calls of a submessage, if those of its contents append them. -/
theorem message_comes {body : Tree} {m' : MsgRef}
    (hd : Drives kind sch step) (hs : s.Open m) (hf : sch.Numbered m f)
    (hmsg : (sch.field f).opts.typ = .message)
    (hm' : (sch.field f).msgDesc = some m') (hdepth : s.depth + 1 ≤ maxDepth)
    (hacts : session.map (·.2)
      = .nestedStart f :: (body.calls ++ .nestedEnd :: acts))
    (hgrant : Granted step s session (10 + body.need sch))
    (hbody : ∀ {t session acts}, t.Open m' → t.depth = s.depth + 1 →
      session.map (·.2) = body.calls ++ acts →
      Granted step t session (body.need sch) →
      Completes sch step t session acts (body.wire sch).bytes
        (body.need sch)) :
    Completes sch step s session acts
      ((sch.field f).framed (body.wire sch).bytes) (10 + body.need sch) := by
  refine frame_comes (Q := fun t => t.packed = false ∧
    t.top.msgDesc = (sch.field f).msgDesc) hs hf (.inl hmsg) hacts hgrant rfl
    ?_ ?_ ?_
  · intro sc
    rw [hd.nestedStart]
    exact nestedStart_enters hs hmsg hdepth
  · intro t session acts henter hq hacts hgrant
    obtain ⟨hpk, hdesc⟩ := hq
    exact hbody (henter.open hs hpk (hdesc.trans hm')) henter.depth hacts
      hgrant
  · intro t u sc hq happ
    obtain ⟨hpk, -⟩ := hq
    rw [hd.nestedEnd, nestedEnd, happ.packed, hpk]

/-- The calls of a packed run. -/
theorem packed_comes {elems : List (Value Bytes)}
    (hd : Drives kind sch step) (hs : s.Open m) (hf : sch.Numbered m f)
    (hrun : (sch.field f).isPackedRepeated = true)
    (hv : ∀ v ∈ elems, kind v (sch.field f).opts.typ)
    (hdepth : s.depth + 1 ≤ maxDepth)
    (hacts : session.map (·.2)
      = .packedRepeatedStart f
        :: (elems.map (.add f) ++ .packedRepeatedEnd :: acts))
    (hgrant : Granted step s session (10 + (elemBytes (elems.map
      (Value.payload (sch.field f).opts.typ))).length)) :
    Completes sch step s session acts
      ((sch.field f).framed
        (elemBytes (elems.map (Value.payload (sch.field f).opts.typ))))
      (10 + (elemBytes (elems.map
        (Value.payload (sch.field f).opts.typ))).length) := by
  refine frame_comes (Q := fun t => t.packed = true) hs hf (.inr hrun) hacts
    hgrant rfl ?_ ?_ ?_
  · intro sc
    rw [hd.packedStart]
    exact packedRepeatedStart_enters hs hrun hdepth
  · intro t session acts henter hpk hacts hgrant
    apply runs_elems hd ?_ henter.ordered hpk henter.field hv hacts hgrant
      (Nat.le_refl _)
    rw [henter.depth]
    exact Nat.succ_pos _
  · intro t u sc hpk happ
    rw [hd.packedEnd, packedRepeatedEnd, happ.packed, hpk,
      if_neg (by decide)]

/-- A frame, and what comes behind it: the room is that of either. -/
theorem Completes.behind {bs bs' : Bytes} {need left : Nat} {more : List Act}
    (h : Completes sch step s session more bs need)
    (hrest : ∀ {t rest}, Comes sch step s session t rest →
      Appends s t bs → rest.map (·.2) = more →
      Completes sch step t rest acts bs' left) :
    Completes sch step s session acts (bs ++ bs')
      (max need (bs.length + left)) := by
  obtain ⟨t, rest, hcomes, hmore, happ, hneed⟩ := h
  obtain ⟨u, rest', hcomes', hacts, happ', hleft⟩ :=
    hcomes.behind happ (hrest hcomes happ hmore)
  refine ⟨u, rest', hcomes', hacts, happ', ?_⟩
  rcases Nat.le_total need (bs.length + left) with hle | hle
  · rwa [max_eq_right hle]
  · rwa [max_eq_left hle]

/-- The calls of a tree append its protocol buffer, and take the room that
they need. -/
theorem Tree.runs_need {T : Tree} (hd : Drives kind sch step) (hs : s.Open m)
    (hT : T.Typed kind sch m)
    (hdepth : s.depth + T.nesting ≤ maxDepth + 1)
    (hacts : session.map (·.2) = T.calls ++ acts)
    (hgrant : Granted step s session (T.need sch)) :
    Completes sch step s session acts (T.wire sch).bytes (T.need sch) := by
  induction T generalizing s m session acts with
  | nil =>
      exact ⟨s, session, .refl s session, hacts, .refl hs.ordered,
        hs.ordered.pos_le_stop⟩
  | scalar f v rest ih =>
      obtain ⟨hf, hrun, hv, hrest⟩ := hT
      obtain ⟨t, left, hcomes, hleft, happ⟩ := comes_of_granted sch step hacts
        hgrant (Nat.le_add_right ..) rfl (add_open hd hs hf hrun hv)
      exact hcomes.behind happ (ih (happ.open hs) hrest
        (by rw [happ.depth]; exact hdepth) hleft
        (hgrant.appended hcomes happ (Nat.le_refl _)))
  | message f body rest ihb ihr =>
      obtain ⟨hf, hmsg, ⟨m', hm'⟩, hbody, hrest⟩ := hT
      rw [Schema.subDesc_eq hm'] at hbody
      have hdeep : s.depth + (body.nesting + 1) ≤ maxDepth + 1 :=
        Nat.le_trans (Nat.add_le_add_left (le_max_left ..) _) hdepth
      have hflat : s.depth + rest.nesting ≤ maxDepth + 1 :=
        Nat.le_trans (Nat.add_le_add_left (le_max_right ..) _) hdepth
      have hbase := body.nesting_pos
      rw [calls, List.cons_append, List.append_assoc, List.cons_append]
        at hacts
      exact (message_comes hd hs hf hmsg hm' (by omega) hacts
        (hgrant.mono (le_max_left ..)) fun hopen hd' hacts hgrant =>
          ihb hopen hbody (by rw [hd']; omega) hacts hgrant).behind
        fun hcomes happ hleft => ihr (happ.open hs) hrest
          (by rw [happ.depth]; exact hflat) hleft
          (hgrant.appended hcomes happ (le_max_right ..))
  | packed f elems rest ih =>
      obtain ⟨hf, hrun, hv, hrest⟩ := hT
      have hdeep : s.depth + 2 ≤ maxDepth + 1 :=
        Nat.le_trans (Nat.add_le_add_left (le_max_left ..) _) hdepth
      have hflat : s.depth + rest.nesting ≤ maxDepth + 1 :=
        Nat.le_trans (Nat.add_le_add_left (le_max_right ..) _) hdepth
      rw [calls, List.cons_append, List.append_assoc, List.cons_append]
        at hacts
      exact (packed_comes hd hs hf hrun hv (by omega) hacts
        (hgrant.mono (le_max_left ..))).behind
        fun hcomes happ hleft => ih (happ.open hs) hrest
          (by rw [happ.depth]; exact hflat) hleft
          (hgrant.appended hcomes happ (le_max_right ..))

/-- The calls of a tree append its protocol buffer. -/
theorem Tree.runs {T : Tree} (hd : Drives kind sch step) (hs : s.Open m)
    (hT : T.Typed kind sch m)
    (hdepth : s.depth + T.nesting ≤ maxDepth + 1)
    (hacts : session.map (·.2) = T.calls ++ acts)
    (hgrant : Granted step s session (T.estimate sch)) :
    ∃ t rest, Comes sch step s session t rest ∧ rest.map (·.2) = acts ∧
      Appends s t (T.wire sch).bytes := by
  obtain ⟨t, rest, hcomes, hrest, happ, -⟩ := Tree.runs_need hd hs hT hdepth
    hacts (hgrant.mono (need_le_estimate sch T))
  exact ⟨t, rest, hcomes, hrest, happ⟩

end Lwpb
