/-
Facts about every run of the decoder, hostile ones included.

`Described` is about descriptors: over a schema that keeps what a
generated schema promises, no frame's descriptor is NULL, `field_desc`
points at a field, and in packed mode it is a packed field.

Termination needs no promise at all (`decode_halts`): a pass moves its
frame's position forward and no position leaves the input, so the stack
of remaining lengths, read in base `2·len + 3`, decreases. The frames need
not nest for this, which matters because a frame opened on a stale pointer
may well lie over bytes its parent has read before.
-/
import Lwpb.Proofs.Decoder.Moves

namespace Lwpb

open Machine

variable {sch : Schema} {root : MsgRef} {data : Bytes} {uninit : UInt64}

-- ================================================== what a schema promises

/-- Message-typed fields all carry a descriptor. -/
def Schema.MessagesDescribed (sch : Schema) : Prop :=
  ∀ d ∈ sch.msgs, ∀ f ∈ d.fields,
    f.opts.typ.isMessage = true → f.msgDesc ≠ none

/-- Packed fields are numeric. -/
def Schema.PackedNumeric (sch : Schema) : Prop :=
  ∀ d ∈ sch.msgs, ∀ f ∈ d.fields,
    f.isPackedRepeated = true → f.opts.typ.isNumeric = true

instance (sch : Schema) : Decidable sch.MessagesDescribed :=
  inferInstanceAs (Decidable (∀ d ∈ sch.msgs, ∀ f ∈ d.fields,
    f.opts.typ.isMessage = true → f.msgDesc ≠ none))

instance (sch : Schema) : Decidable sch.PackedNumeric :=
  inferInstanceAs (Decidable (∀ d ∈ sch.msgs, ∀ f ∈ d.fields,
    f.isPackedRepeated = true → f.opts.typ.isNumeric = true))

/-- The pointer points at a field of its message. -/
def Schema.Holds (sch : Schema) (f : FieldRef) : Prop :=
  ∃ d ∈ sch.msgs, sch.field f ∈ d.fields

/-- A field that is found is one of the message, with the number that was
looked for. -/
theorem Schema.find_some {m : MsgRef} {number : UInt32} {f : FieldRef}
    (h : sch.find m number = some f) :
    f.msg = m ∧ f.idx < (sch.msg m).fields.length ∧
      (sch.field f).number = number := by
  unfold Schema.find at h
  obtain ⟨i, hi, rfl⟩ := Option.map_eq_some_iff.mp h
  obtain ⟨hlt, heq, -⟩ := List.findIdx?_eq_some_iff_getElem.mp hi
  refine ⟨rfl, hlt, ?_⟩
  unfold Schema.field
  rw [List.getD_eq_getElem?_getD, List.getElem?_eq_getElem hlt]
  simpa using heq

/-- A message with a field at an index is one of the schema: behind its end
there are only messages without fields. -/
theorem Schema.msg_mem {m : MsgRef} {i : Nat}
    (h : i < (sch.msg m).fields.length) : sch.msg m ∈ sch.msgs := by
  unfold Schema.msg at h ⊢
  rw [List.getD_eq_getElem?_getD] at h ⊢
  cases hm : sch.msgs[m]? with
  | none => rw [hm] at h; cases h
  | some d => exact List.mem_of_getElem? hm

/-- A reference in range leads to the descriptor at its index. -/
theorem Schema.field_eq {f : FieldRef}
    (h : f.idx < (sch.msg f.msg).fields.length) :
    sch.field f = (sch.msg f.msg).fields[f.idx] := by
  unfold Schema.field
  rw [List.getD_eq_getElem?_getD, List.getElem?_eq_getElem h]
  rfl

/-- A reference in range is one to a field of the schema. -/
theorem Schema.holds_of_lt {f : FieldRef}
    (h : f.idx < (sch.msg f.msg).fields.length) : sch.Holds f := by
  refine ⟨sch.msg f.msg, sch.msg_mem h, ?_⟩
  rw [sch.field_eq h]
  exact List.getElem_mem h

/-- So is what the linear search finds. -/
theorem Schema.find_holds {m : MsgRef} {number : UInt32} {f : FieldRef}
    (h : sch.find m number = some f) : sch.Holds f := by
  obtain ⟨rfl, hlt, -⟩ := sch.find_some h
  exact sch.holds_of_lt hlt

/-- A message field of the schema has a descriptor. -/
theorem Schema.MessagesDescribed.field (hm : sch.MessagesDescribed)
    {f : FieldRef} (hf : sch.Holds f)
    (hmsg : (sch.field f).opts.typ.isMessage = true) :
    ∃ m, (sch.field f).msgDesc = some m := by
  obtain ⟨d, hd, hmem⟩ := hf
  exact Option.ne_none_iff_exists'.mp (hm d hd _ hmem hmsg)

/-- A packed field of the schema is numeric. -/
theorem Schema.PackedNumeric.field (hp : sch.PackedNumeric) {f : FieldRef}
    (hf : sch.Holds f) (hpk : (sch.field f).isPackedRepeated = true) :
    (sch.field f).opts.typ.isNumeric = true := by
  obtain ⟨d, hd, hmem⟩ := hf
  exact hp d hd _ hmem hpk

/-- A numeric field has a defined wire type, and not that of strings, so that
its elements are read one by one. -/
theorem fieldWireType_numeric {typ : FieldType} (h : typ.isNumeric = true) :
    ∃ wt, fieldWireType typ = some wt ∧ wt ≠ .string ∧
      ∀ code, wt ≠ .unknown code := by
  cases typ with
  | string | bytes | message | group => cases h
  | double | fixed64 | sfixed64 => exact ⟨.bit64, rfl, nofun, nofun⟩
  | float | fixed32 | sfixed32 => exact ⟨.bit32, rfl, nofun, nofun⟩
  | _ => exact ⟨.varint, rfl, nofun, nofun⟩

-- ==================================================== the first half, read

/-- Outside packed mode a key is read, and looked up among the fields of the
frame's message. -/
theorem readKey_plain {s : Dec} {wt : WireType} {fd : Option FieldRef}
    {buf : Buf} (hpk : s.packed = false)
    (h : readKey sch data s = .ok (wt, fd, buf)) :
    ∃ key m, decodeVarint data s.frame.buf = .ok (key, buf) ∧
      s.frame.msgDesc = some m ∧ WireType.ofKey key = wt ∧
      (sch.find m (key >>> 3).toUInt32).or s.fieldDesc = fd := by
  unfold readKey at h
  rw [if_neg (by rw [hpk]; exact nofun)] at h
  obtain ⟨⟨key, b⟩, hread, h⟩ := Outcome.bind_eq_ok.mp h
  dsimp only at h
  split at h
  · cases h
  · next m hm =>
      cases h
      exact ⟨key, m, hread, hm, rfl, rfl⟩

/-- Packed mode never reads an undefined wire type. -/
theorem readKey_packed {s : Dec} {wt : WireType} {fd : Option FieldRef}
    {buf : Buf} (hpk : s.packed = true)
    (h : readKey sch data s = .ok (wt, fd, buf)) :
    buf = s.frame.buf ∧ fd = s.fieldDesc ∧ (∀ code, wt ≠ .unknown code) ∧
      ∃ f, s.fieldDesc = some f ∧
        fieldWireType (sch.field f).opts.typ = some wt := by
  unfold readKey at h
  rw [if_pos hpk] at h
  split at h
  · cases h
  · next f hf =>
      split at h
      · cases h
      · next wt' hwt =>
          cases h
          refine ⟨rfl, hf.symm, ?_, f, hf, hwt⟩
          intro code hcode
          rw [hcode] at hwt
          unfold fieldWireType at hwt
          split at hwt <;> cases hwt

/-- The key half of a pass keeps the frame's bounds and moves forward;
outside packed mode by at least a byte. -/
theorem readKey_ok {s : Dec} {wt : WireType} {fd : Option FieldRef}
    {buf : Buf} (hlen : s.frame.buf.pos ≤ data.length)
    (h : readKey sch data s = .ok (wt, fd, buf)) :
    buf = { s.frame.buf with pos := buf.pos } ∧
      s.frame.buf.pos ≤ buf.pos ∧ buf.pos ≤ data.length ∧
      (s.frame.buf.pos < s.frame.buf.stop → buf.pos ≤ s.frame.buf.stop) ∧
      (s.packed = false → s.frame.buf.pos < buf.pos) := by
  cases hpk : s.packed with
  | true =>
      obtain ⟨rfl, -⟩ := readKey_packed hpk h
      exact ⟨rfl, Nat.le_refl _, hlen, Nat.le_of_lt, nofun⟩
  | false =>
      obtain ⟨key, m, hkey, -⟩ := readKey_plain hpk h
      obtain ⟨hb, hpos, hle, hstop⟩ := decodeVarint_ok hkey
      exact ⟨hb, Nat.le_of_lt hpos, hle, hstop, fun _ => hpos⟩

/-- A pass that reads a field changes the frame's position only, and moves
it forward inside the input. -/
theorem Reads.advance {s t : Dec} {wt : WireType}
    (hlen : s.frame.buf.pos ≤ data.length) (h : Reads sch data s wt t) :
    t.frame.buf = { s.frame.buf with pos := t.frame.buf.pos } ∧
      s.frame.buf.pos < t.frame.buf.pos ∧
      t.frame.buf.pos ≤ data.length := by
  cases h with
  | @mk fd wv buf buf' hkey hval =>
      obtain ⟨hb, hle, hlen₁, -, hadv⟩ := readKey_ok hlen hkey
      obtain ⟨hb', hle', hlen', hadv'⟩ := readWireValue_ok hlen₁ hval
      refine ⟨?_, ?_, hlen'⟩
      · show buf' = _
        rw [hb', hb]
        rfl
      · show s.frame.buf.pos < buf'.pos
        cases hpk : s.packed with
        | false =>
            have := hadv hpk
            omega
        | true =>
            obtain ⟨-, -, hdef, -⟩ := readKey_packed hpk hkey
            have := hadv' hdef
            omega

/-- What a read leaves alone. -/
theorem Reads.frame {s t : Dec} {wt : WireType} (h : Reads sch data s wt t) :
    t.frame.msgDesc = s.frame.msgDesc ∧ t.below = s.below ∧
      t.packed = s.packed ∧ t.point = s.point := by
  cases h
  exact ⟨rfl, rfl, rfl, rfl⟩

-- ========================================================== descriptors

/-- Descriptors along a run: no frame's is NULL, `field_desc` points at a
field, and packed mode is entered for packed fields only. -/
structure Dec.Described (sch : Schema) (s : Dec) : Prop where
  desc : ∀ fr ∈ s.frame :: s.below, ∃ m, fr.msgDesc = some m
  field : ∀ f, s.fieldDesc = some f → sch.Holds f
  packed : s.packed = true →
    ∃ f, s.fieldDesc = some f ∧ (sch.field f).isPackedRepeated = true

/-- At the start nothing is known but the root, which is there. -/
theorem decodeInit_described :
    (decodeInit root data uninit).Described sch := by
  refine ⟨?_, nofun, nofun⟩
  intro fr hfr
  rw [List.mem_singleton.mp hfr]
  exact ⟨root, rfl⟩

/-- A read keeps descriptors: a number is looked up among the frame's own
fields. -/
theorem Reads.described {s t : Dec} {wt : WireType} (hs : s.Described sch)
    (h : Reads sch data s wt t) : t.Described sch := by
  obtain ⟨hdesc, hbelow, hpacked, -⟩ := h.frame
  have hframes : ∀ fr ∈ t.frame :: t.below, ∃ m, fr.msgDesc = some m := by
    intro fr hfr
    rw [hbelow] at hfr
    rcases List.mem_cons.mp hfr with rfl | hfr
    · rw [hdesc]
      exact hs.desc s.frame (List.mem_cons_self ..)
    · exact hs.desc fr (List.mem_cons_of_mem _ hfr)
  cases h with
  | @mk fd wv buf buf' hkey hval =>
      cases hpk : s.packed with
      | true =>
          obtain ⟨-, rfl, -, -⟩ := readKey_packed hpk hkey
          exact ⟨hframes, hs.field, fun _ => hs.packed hpk⟩
      | false =>
          refine ⟨hframes, ?_, fun hpk' => ?_⟩
          · intro f hf
            have hf' : fd = some f := hf
            obtain ⟨key, m, -, -, -, hfd⟩ := readKey_plain hpk hkey
            rw [hf', Option.or_eq_some_iff] at hfd
            rcases hfd with hfind | ⟨-, hold⟩
            · exact sch.find_holds hfind
            · exact hs.field f hold
          · have hpk'' : s.packed = true := hpk'
            rw [hpk] at hpk''
            cases hpk''

/-- No pass of the decoder puts a NULL descriptor into a frame, or a field
that is none of the schema at hand, if message fields have descriptors. -/
theorem Moves.described (hm : sch.MessagesDescribed) {s s' : Dec}
    {out : List (Event Span)} (h : Moves sch root data s s' out)
    (hs : s.Described sch) : s'.Described sch := by
  cases h with
  | enter => exact ⟨hs.desc, hs.field, hs.packed⟩
  | pop hpt hleft hbelow =>
      refine ⟨fun fr hfr => hs.desc fr ?_, hs.field, nofun⟩
      rw [hbelow]
      exact List.mem_cons_of_mem _ hfr
  | skip hpt hleft hreads hnone => exact hreads.described hs
  | @run t s' f hpt hleft hreads hf hpk hopen =>
      have ht := hreads.described hs
      obtain ⟨-, p, -, -, rfl⟩ := hopen
      refine ⟨?_, ht.field, fun _ => ⟨f, hf, hpk⟩⟩
      intro fr hfr
      rcases List.mem_cons.mp hfr with rfl | hfr
      · exact ht.desc t.frame (List.mem_cons_self ..)
      · exact ht.desc fr hfr
  | @sub wt t s' f hpt hleft hreads hf hnot hmsg hopen =>
      have ht := hreads.described hs
      obtain ⟨-, p, -, -, rfl⟩ := hopen
      refine ⟨?_, ht.field, ht.packed⟩
      intro fr hfr
      rcases List.mem_cons.mp hfr with rfl | hfr
      · exact hm.field (ht.field f hf) hmsg
      · exact ht.desc fr hfr
  | value hpt hleft hreads hf hnot hmsg hdesc => exact hreads.described hs

/-- So the descriptors are there in every state of a run. -/
theorem DecReach.described (hm : sch.MessagesDescribed) {s : Dec}
    (h : DecReach sch root data uninit s) : s.Described sch :=
  Reach.invariant
    (fun _ _ _ hs hmove => (decodeMove_next hmove).described hm hs) h
    decodeInit_described

-- ============================================================ termination

/-- Along every run: no position leaves the input and no slot index
leaves the stack array. -/
structure Dec.Bounded (data : Bytes) (s : Dec) : Prop where
  pos : ∀ fr ∈ s.frame :: s.below, fr.buf.pos ≤ data.length
  depth : s.depth ≤ maxDepth

/-- The first frame is the input. -/
theorem decodeInit_bounded : (decodeInit root data uninit).Bounded data := by
  refine ⟨?_, by show 0 + 1 ≤ 32; omega⟩
  intro fr hfr
  rw [List.mem_singleton.mp hfr]
  exact Nat.zero_le _

/-- The position of the current frame is inside the input. -/
theorem Dec.Bounded.frame {s : Dec} (hs : s.Bounded data) :
    s.frame.buf.pos ≤ data.length :=
  hs.pos s.frame (List.mem_cons_self ..)

/-- A field that is read leaves the position inside the input: every byte that
was consumed was read there. -/
theorem Reads.bounded {s t : Dec} {wt : WireType} (hs : s.Bounded data)
    (h : Reads sch data s wt t) : t.Bounded data := by
  obtain ⟨-, -, hle⟩ := h.advance hs.frame
  obtain ⟨-, hbelow, -, -⟩ := h.frame
  refine ⟨?_, by rw [h.depth]; exact hs.depth⟩
  intro fr hfr
  rcases List.mem_cons.mp hfr with rfl | hfr
  · exact hle
  · rw [hbelow] at hfr
    exact hs.pos fr (List.mem_cons_of_mem _ hfr)

/-- A frame that is opened is a range of the input. -/
theorem Opens.bounded {t s' : Dec} {desc : Option MsgRef} {packed : Bool}
    (ht : t.Bounded data) (h : Opens data t desc packed s') :
    s'.Bounded data := by
  obtain ⟨hdepth, p, -, hle, rfl⟩ := h
  refine ⟨?_, hdepth⟩
  intro fr hfr
  rcases List.mem_cons.mp hfr with rfl | hfr
  · show p ≤ data.length
    omega
  · exact ht.pos fr hfr

/-- A pass keeps the frames inside the input. -/
theorem Moves.bounded {s s' : Dec} {out : List (Event Span)}
    (h : Moves sch root data s s' out) (hs : s.Bounded data) :
    s'.Bounded data := by
  cases h with
  | enter => exact ⟨hs.pos, hs.depth⟩
  | @pop frame below hpt hleft hbelow =>
      have hdepth := hs.depth
      unfold Dec.depth at hdepth
      rw [hbelow, List.length_cons] at hdepth
      refine ⟨fun fr hfr => hs.pos fr ?_, ?_⟩
      · rw [hbelow]
        exact List.mem_cons_of_mem _ hfr
      · show below.length + 1 ≤ maxDepth
        omega
  | skip hpt hleft hreads => exact hreads.bounded hs
  | run hpt hleft hreads hf hpk hopen =>
      exact hopen.bounded (hreads.bounded hs)
  | sub hpt hleft hreads hf hnot hmsg hopen =>
      exact hopen.bounded (hreads.bounded hs)
  | value hpt hleft hreads => exact hreads.bounded hs

/-- So they are inside it in every state of a run. -/
theorem DecReach.bounded {s : Dec} (h : DecReach sch root data uninit s) :
    s.Bounded data :=
  Reach.invariant
    (fun _ _ _ hs hmove => (decodeMove_next hmove).bounded hs) h
    decodeInit_bounded

/-- What a frame may still cost: two for each byte left of the input, and
one more for the pass or entry it stands at. -/
def frameCost (data : Bytes) (fr : Frame) (extra : Nat) : Nat :=
  2 * (data.length - fr.buf.pos) + extra

/-- The costs of the frames under the top one, each weighted by how deep a
stack can still grow on it. -/
def belowCost (data : Bytes) : List Frame → Nat
  | [] => 0
  | fr :: below =>
      frameCost data fr 2
          * (2 * data.length + 3) ^ (maxDepth - (below.length + 1))
        + belowCost data below

/-- The measure of termination. -/
def decodeCost (data : Bytes) (s : Dec) : Nat :=
  frameCost data s.frame (if s.point = .nested then 2 else 1)
      * (2 * data.length + 3) ^ (maxDepth - s.depth)
    + belowCost data s.below

/-- Reading a field lowers the cost of the frame, and of the state: its key
takes a byte at least, which counts twice. -/
theorem Reads.cost {s t : Dec} {wt : WireType} (hs : s.Bounded data)
    (hpt : s.point = .loop) (h : Reads sch data s wt t) :
    frameCost data t.frame 2 < frameCost data s.frame 1
        ∧ decodeCost data t < decodeCost data s := by
  obtain ⟨-, hadv, hle⟩ := h.advance hs.frame
  obtain ⟨-, hbelow, -, hpoint⟩ := h.frame
  have hlt : frameCost data t.frame 2 < frameCost data s.frame 1 := by
    unfold frameCost
    omega
  refine ⟨hlt, ?_⟩
  have hpt' : t.point ≠ .nested := by
    rw [hpoint, hpt]
    exact nofun
  have hpts : s.point ≠ .nested := by
    rw [hpt]
    exact nofun
  unfold decodeCost
  rw [h.depth, hbelow, if_neg hpt', if_neg hpts]
  have hpos : 0 < (2 * data.length + 3) ^ (maxDepth - s.depth) :=
    Nat.pow_pos (by omega)
  have hlt' : frameCost data t.frame 1 < frameCost data s.frame 1 := by
    unfold frameCost at hlt ⊢
    omega
  have := Nat.mul_lt_mul_of_pos_right hlt' hpos
  omega

/-- Opening a frame costs less than the byte of its key saves. -/
theorem Opens.cost {s t s' : Dec} {wt : WireType} {desc : Option MsgRef}
    {packed : Bool} (hs : s.Bounded data) (hpt : s.point = .loop)
    (hreads : Reads sch data s wt t) (h : Opens data t desc packed s') :
    decodeCost data s' < decodeCost data s := by
  obtain ⟨hlt, -⟩ := hreads.cost hs hpt
  obtain ⟨-, hbelow, -, -⟩ := hreads.frame
  have hdepth := hreads.depth
  obtain ⟨hmax, p, -, hle, rfl⟩ := h
  have hpts : s.point ≠ .nested := by
    rw [hpt]
    exact nofun
  have hdepth' : t.below.length + 1 = s.depth := hdepth
  have hnew : frameCost data ⟨bufInit p t.wireValue.word.toNat, desc⟩ 2
      < 2 * data.length + 3 := by
    show 2 * (data.length - p) + 2 < 2 * data.length + 3
    omega
  -- one level down, a whole frame weighs less than one byte of its parent
  have hexp : maxDepth - s.depth
      = (maxDepth - (s.depth + 1)) + 1 := by
    have : t.depth + 1 ≤ maxDepth := hmax
    omega
  show frameCost data ⟨bufInit p t.wireValue.word.toNat, desc⟩
        (if Point.nested = .nested then 2 else 1)
      * (2 * data.length + 3) ^ (maxDepth - (t.below.length + 1 + 1))
      + (frameCost data t.frame 2
          * (2 * data.length + 3) ^ (maxDepth - (t.below.length + 1))
        + belowCost data t.below)
    < frameCost data s.frame (if s.point = .nested then 2 else 1)
        * (2 * data.length + 3) ^ (maxDepth - s.depth)
      + belowCost data s.below
  rw [if_pos rfl, if_neg hpts, hdepth', hbelow, hexp, Nat.pow_succ]
  generalize hW : (2 * data.length + 3) ^ (maxDepth - (s.depth + 1)) = W
  have hWpos : 0 < W := by
    rw [← hW]
    exact Nat.pow_pos (by omega)
  generalize frameCost data ⟨bufInit p t.wireValue.word.toNat, desc⟩ 2 = c
    at hnew ⊢
  generalize hB : 2 * data.length + 3 = B at hnew ⊢
  have h₁ : c * W < B * W := Nat.mul_lt_mul_of_pos_right hnew hWpos
  have h₂ : (frameCost data t.frame 2 + 1) * (W * B)
      ≤ frameCost data s.frame 1 * (W * B) := Nat.mul_le_mul_right _ hlt
  rw [Nat.add_mul, Nat.one_mul, Nat.mul_comm W B] at h₂
  rw [Nat.mul_comm W B]
  omega

/-- Every pass lowers the cost, so that the decoder halts. A frame that is
opened weighs less, by one power, than what the key in front of it has cost,
and one that is left is gone. -/
theorem Moves.cost {s s' : Dec} {out : List (Event Span)}
    (h : Moves sch root data s s' out) (hs : s.Bounded data) :
    decodeCost data s' < decodeCost data s := by
  have hpos : ∀ n, 0 < (2 * data.length + 3) ^ n :=
    fun n => Nat.pow_pos (by omega)
  cases h with
  | enter hpt =>
      have hlt : frameCost data s.frame 1 < frameCost data s.frame 2 := by
        unfold frameCost
        omega
      have := Nat.mul_lt_mul_of_pos_right hlt (hpos (maxDepth - s.depth))
      show frameCost data s.frame 1
          * (2 * data.length + 3) ^ (maxDepth - s.depth)
          + belowCost data s.below < decodeCost data s
      unfold decodeCost
      rw [if_pos hpt]
      omega
  | @pop frame below hpt hleft hbelow =>
      have hcost : 0 < frameCost data s.frame
          (if s.point = .nested then 2 else 1) := by
        unfold frameCost
        split <;> omega
      have := Nat.mul_pos hcost (hpos (maxDepth - s.depth))
      show frameCost data frame (if Point.nested = .nested then 2 else 1)
          * (2 * data.length + 3) ^ (maxDepth - (below.length + 1))
          + belowCost data below
        < decodeCost data s
      unfold decodeCost
      rw [hbelow, if_pos rfl, belowCost]
      omega
  | skip hpt hleft hreads => exact (hreads.cost hs hpt).2
  | run hpt hleft hreads hf hpk hopen => exact hopen.cost hs hpt hreads
  | sub hpt hleft hreads hf hnot hmsg hopen => exact hopen.cost hs hpt hreads
  | value hpt hleft hreads => exact (hreads.cost hs hpt).2

/-- `lwpb_decoder_decode` halts on every input. -/
theorem decode_halts (sch : Schema) (root : MsgRef) (data : Bytes)
    (uninit : UInt64) : ∃ out r, Decodes sch root data uninit out r :=
  halts_of_measure (I := Dec.Bounded data) (decodeCost data)
    (fun _ _ _ hs hmove =>
      ⟨(decodeMove_next hmove).bounded hs, (decodeMove_next hmove).cost hs⟩)
    decodeInit_bounded

/-- The evaluated call is the call. -/
theorem decode_spec (sch : Schema) (root : MsgRef) (data : Bytes)
    (uninit : UInt64) :
    Decodes sch root data uninit (decode sch root data uninit).1
      (decode sch root data uninit).2 := by
  have hcost : decodeCost data (decodeInit root data uninit)
      < (2 * data.length + 3) ^ maxDepth := by
    have hpos : 0 < (2 * data.length + 3) ^ (maxDepth - 1) :=
      Nat.pow_pos (by omega)
    have hfuel : (2 * data.length + 3) ^ maxDepth
        = (2 * data.length + 3) * (2 * data.length + 3) ^ (maxDepth - 1) := by
      rw [← Nat.pow_succ']
      rfl
    rw [hfuel]
    simp only [decodeCost, frameCost, decodeInit, bufInit, belowCost,
      Dec.depth, List.length_nil, Nat.zero_add, Nat.sub_zero, if_pos,
      Nat.add_zero]
    exact Nat.mul_lt_mul_of_pos_right (by omega) hpos
  obtain ⟨o, r, heval⟩ := eval_of_measure (I := Dec.Bounded data)
    (decodeCost data)
    (fun _ _ _ hs hmove =>
      ⟨(decodeMove_next hmove).bounded hs, (decodeMove_next hmove).cost hs⟩)
    decodeInit_bounded hcost
  unfold decode
  rw [heval]
  exact halts_of_eval _ heval

/-- A run that was found is what `decode` computes. -/
theorem Decodes.decode_eq {out : List (Event Span)} {r : Result}
    (h : Decodes sch root data uninit out r) :
    decode sch root data uninit = (out, r) := by
  obtain ⟨ho, hr⟩ := (decode_spec sch root data uninit).unique h
  exact Prod.ext ho hr

-- ======================================================= NULL descriptors

/-- A step that follows no NULL descriptor. -/
structure FollowsNoNull {α : Type} (x : Outcome α) : Prop where
  noNull : x ≠ .fault .nullDesc

/-- Two steps that follow no NULL descriptor, one after the other. -/
theorem FollowsNoNull.bind {α β : Type} {x : Outcome α} {k : α → Outcome β}
    (hx : FollowsNoNull x) (hk : ∀ a, FollowsNoNull (k a)) :
    FollowsNoNull (x >>= k) := by
  refine ⟨fun h => ?_⟩
  rcases Outcome.bind_eq_fault.mp h with hfault | ⟨a, -, hfault⟩
  · exact hx.noNull hfault
  · exact (hk a).noNull hfault

/-- A byte that is not there is another fault than a NULL descriptor. -/
theorem byteAt_followsNoNull (data : Bytes) (p : Nat) :
    FollowsNoNull (byteAt data p) := by
  unfold byteAt
  cases data[p]? <;> exact ⟨nofun⟩

/-- Reading a varint follows no descriptor, as it only reads bytes. -/
theorem decodeVarint_followsNoNull (data : Bytes) (buf : Buf) :
    FollowsNoNull (decodeVarint data buf) := by
  have hloop : ∀ rounds bitpos pos acc, FollowsNoNull
      (decodeVarintLoop data buf.stop rounds bitpos pos acc) := by
    intro rounds
    induction rounds with
    | zero =>
        intro bitpos pos acc
        exact (byteAt_followsNoNull data pos).bind fun b => ⟨nofun⟩
    | succ n ih =>
        intro bitpos pos acc
        refine (byteAt_followsNoNull data pos).bind fun b => ?_
        simp only
        by_cases hlast : b &&& 0x80 = 0
        · rw [if_pos hlast]
          exact ⟨nofun⟩
        · rw [if_neg hlast]
          by_cases hend : buf.stop < pos + 2
          · rw [if_pos hend]
            exact ⟨nofun⟩
          · rw [if_neg hend]
            exact ih ..
  exact (hloop ..).bind fun r => ⟨nofun⟩

/-- Nor does reading 32 bits. -/
theorem decode32bit_followsNoNull (data : Bytes) (buf : Buf) :
    FollowsNoNull (decode32bit data buf) := by
  unfold decode32bit
  by_cases hleft : bufLeft buf < 4
  · rw [if_pos hleft]
    exact ⟨nofun⟩
  · rw [if_neg hleft]
    have hbyte := byteAt_followsNoNull data
    exact (hbyte _).bind fun _ => (hbyte _).bind fun _ =>
      (hbyte _).bind fun _ => (hbyte _).bind fun _ => ⟨nofun⟩

/-- Nor does reading 64 bits. -/
theorem decode64bit_followsNoNull (data : Bytes) (buf : Buf) :
    FollowsNoNull (decode64bit data buf) := by
  have hloop : ∀ n acc, FollowsNoNull (decode64bitLoop data buf.pos n acc) := by
    intro n
    induction n with
    | zero => exact fun acc => ⟨nofun⟩
    | succ n ih =>
        exact fun acc => (byteAt_followsNoNull ..).bind fun b => ih _
  unfold decode64bit
  by_cases hleft : bufLeft buf < 8
  · rw [if_pos hleft]
    exact ⟨nofun⟩
  · rw [if_neg hleft]
    exact (hloop ..).bind fun w => ⟨nofun⟩

/-- So no wire value is read through a descriptor. -/
theorem readWireValue_followsNoNull (data : Bytes) (wt : WireType)
    (wv : WireValue) (buf : Buf) :
    FollowsNoNull (readWireValue data wt wv buf) := by
  cases wt with
  | varint => exact (decodeVarint_followsNoNull ..).bind fun r => ⟨nofun⟩
  | bit64 => exact (decode64bit_followsNoNull ..).bind fun r => ⟨nofun⟩
  | bit32 => exact (decode32bit_followsNoNull ..).bind fun r => ⟨nofun⟩
  | unknown code => exact ⟨nofun⟩
  | string =>
      refine (decodeVarint_followsNoNull ..).bind fun r => ?_
      obtain ⟨len, buf'⟩ := r
      simp only
      by_cases hleft : bufLeft buf' < len.toNat
      · rw [if_pos hleft]
        exact ⟨nofun⟩
      · rw [if_neg hleft]
        by_cases hdata : data.length < buf'.pos + len.toNat
        · rw [if_pos hdata]
          exact ⟨nofun⟩
        · rw [if_neg hdata]
          exact ⟨nofun⟩

/-- The key needs the descriptor of the current frame, which is there. -/
theorem Dec.Described.readKey {s : Dec} (hs : s.Described sch) :
    FollowsNoNull (readKey sch data s) := by
  unfold Lwpb.readKey
  by_cases hpk : s.packed = true
  · obtain ⟨f, hf, -⟩ := hs.packed hpk
    rw [if_pos hpk, hf]
    simp only
    cases fieldWireType (sch.field f).opts.typ <;> exact ⟨nofun⟩
  · obtain ⟨m, hm⟩ := hs.desc s.frame List.mem_cons_self
    rw [if_neg hpk, hm]
    exact (decodeVarint_followsNoNull ..).bind fun r => ⟨nofun⟩

/-- Over a schema whose message fields have descriptors,
`lwpb_decoder_decode` follows no NULL descriptor. -/
theorem decode_followsNoNull (hm : sch.MessagesDescribed) :
    (decode sch root data uninit).2 ≠ .fault .nullDesc := by
  intro h
  obtain ⟨s, o₁, o₂, hexec, hmove, -⟩ := (decode_spec sch root data uninit).last
  rw [h] at hmove
  have hs : s.Described sch := DecReach.described hm ⟨o₁, hexec⟩
  cases decodeMove_halt hmove with
  | keyFault hpt hleft hkey => exact hs.readKey.noNull hkey
  | valueFault hpt hleft hkey hval =>
      exact (readWireValue_followsNoNull ..).noNull hval
  | noDesc hpt hleft hreads hnone =>
      obtain ⟨m, hsome⟩ := (hreads.described hs).desc _ List.mem_cons_self
      rw [hnone] at hsome
      cases hsome

end Lwpb
