/-
What a failed field call leaves behind.

A field is written in up to three steps (its key, a length, the payload),
each with a check of its own, and every step moves the position of the
frame. A step that fails undoes nothing: a varint that runs out of room
has filled the frame up to its end, and a payload that does not fit comes
behind a key that is already there. So a call that returns an error leaves
the output as it was only if the check that fails is the first thing that
happens: the field is none of the message's, or there is not a byte of
room, or the field is an element of fixed width in a packed run, which has
no key (`Enc.FailsClean`, `failed_call_intact_iff`).

The states are those reached by calls that succeed. There the frames are
ordered buffers, each behind the position of the one under it
(`Enc.Stacked`), so that everything the output consists of so far lies in
front of the position that the call moves.
-/
import Lwpb.Proofs.Encoder.Frames

namespace Lwpb

open Memory Base128

variable {sch : Schema} {uninit : UInt64} {s t : Enc} {f : FieldRef}
  {value : RawValue} {err : Err}

-- ============================================================ the property

/-- A run of calls that all return `LWPB_ERR_OK`. -/
inductive Succeeds (sch : Schema) :
    Enc → List (UInt64 × Call) → Enc → Prop where
  | nil (s : Enc) : Succeeds sch s [] s
  | cons {s t u : Enc} {uninit : UInt64} {c : Call}
      {calls : List (UInt64 × Call)} :
      c.run sch uninit s = .ret .ok t → Succeeds sch t calls u →
      Succeeds sch s ((uninit, c) :: calls) u

/-- The calls that add a field. -/
def Call.isAdd : Call → Bool
  | .addField .. | .nestedEnd | .packedRepeatedEnd => true
  | _ => false

/-- Nothing has happened to the output: the frame that the field was to be
added to (the current one behind the call) is where it was, and what
`lwpb_encoder_finish` delimits is the same. -/
structure Enc.Intact (s t : Enc) : Prop where
  pos : t.top.buf.pos = (s.stack (t.depth - 1)).buf.pos
  finish : encoderFinish t = encoderFinish s
  output : read t.mem (t.stack 0).buf.base (encoderFinish t)
    = read s.mem (s.stack 0).buf.base (encoderFinish s)

/-- A field that fails does so before anything is written. -/
def Enc.FailsClean (sch : Schema) (s : Enc) (f : FieldRef) : Prop :=
  (s.packed = false ∧ ∀ m, s.top.msgDesc = some m → sch.owns m f = false) ∨
    bufLeft s.top.buf = 0 ∨
    (s.packed = true ∧
      (fieldWireType (sch.field f).opts.typ = some .bit32 ∨
        fieldWireType (sch.field f).opts.typ = some .bit64))

/-- The same of a call: an end adds the field of the frame it pops to the
frame under it. -/
def Call.FailsClean (sch : Schema) (s : Enc) : Call → Prop
  | .addField f _ => s.FailsClean sch f
  | .nestedEnd => ∀ f, s.top.fieldDesc = some f →
      Enc.FailsClean sch { s with depth := s.depth - 1 } f
  | .packedRepeatedEnd => ∀ f, s.top.fieldDesc = some f →
      Enc.FailsClean sch { s with depth := s.depth - 1, packed := false } f
  | _ => True

-- ================================================================ a payload

/-- The writers of one value, when they fail. -/
theorem spill_fails {mem : Mem} {buf : Buf} {bs : List UInt8}
    (hb : buf.Ordered) (h : (spill mem buf bs).err ≠ .ok) :
    (spill mem buf bs).buf.pos = buf.pos ↔ bufLeft buf = 0 := by
  have hle := hb.pos_le_stop
  have hroom : ¬ buf.pos + bs.length ≤ buf.stop :=
    fun hroom => h (spill_ok.mpr hroom)
  unfold spill
  rw [if_neg hroom, hb.left]
  show buf.stop = buf.pos ↔ _
  omega

/-- A varint that is written takes a byte. -/
theorem encodeVarint_moves {mem : Mem} {buf : Buf} {varint : UInt64}
    (hb : buf.Ordered) (h : (encodeVarint mem buf varint).err = .ok) :
    buf.pos < (encodeVarint mem buf varint).buf.pos ∧ bufLeft buf ≠ 0 := by
  rw [encodeVarint_eq_spill hb] at h ⊢
  have hroom := spill_ok.mp h
  have hlen := List.length_pos_iff.mpr (encode_terminated varint.toNat).ne_nil
  rw [spill_fits hroom, hb.left]
  refine ⟨?_, by omega⟩
  show buf.pos < buf.pos + _
  omega

theorem encodeVarint_fails {mem : Mem} {buf : Buf} {varint : UInt64}
    (hb : buf.Ordered) (h : (encodeVarint mem buf varint).err ≠ .ok) :
    (encodeVarint mem buf varint).buf.pos = buf.pos ↔ bufLeft buf = 0 := by
  rw [encodeVarint_eq_spill hb] at h ⊢
  exact spill_fails hb h

theorem encodeWireValue_width {typ : FieldType} :
    ((encodeWireValue typ value uninit).1 = .bit32 ∨
        (encodeWireValue typ value uninit).1 = .bit64) ↔
      (fieldWireType typ = some .bit32 ∨ fieldWireType typ = some .bit64) := by
  cases typ <;> simp [encodeWireValue, fieldWireType]

/-- A payload that fails leaves the position if it is of fixed width, and
else if there is no room at all. -/
theorem encodePayload_fails {wt : WireType} {wv : WireOut}
    (hs : s.top.buf.Ordered) (h : encodePayload s wt wv = .ret err t)
    (herr : err ≠ .ok) :
    t.top.buf.pos = s.top.buf.pos ↔
      bufLeft s.top.buf = 0 ∨ wt = .bit32 ∨ wt = .bit64 := by
  cases wt with
  | varint =>
      obtain ⟨rfl, rfl⟩ := Ret.ret.inj h
      rw [Enc.written_top, encodeVarint_fails hs herr]
      simp
  | bit64 =>
      obtain ⟨rfl, rfl⟩ := Ret.ret.inj h
      rw [Enc.written_top]
      refine iff_of_true ?_ (.inr (.inr rfl))
      unfold encode64bit at herr ⊢
      split at herr
      · rw [if_pos (by assumption)]
      · exact absurd rfl herr
  | bit32 =>
      obtain ⟨rfl, rfl⟩ := Ret.ret.inj h
      rw [Enc.written_top]
      refine iff_of_true ?_ (.inr (.inl rfl))
      unfold encode32bit at herr ⊢
      split at herr
      · rw [if_pos (by assumption)]
      · exact absurd rfl herr
  | unknown code =>
      obtain ⟨rfl, -⟩ := Ret.ret.inj h
      exact absurd rfl herr
  | string =>
      have hclean : (bufLeft s.top.buf = 0 ∨ WireType.string = .bit32 ∨
          WireType.string = .bit64) ↔ bufLeft s.top.buf = 0 := by simp
      rw [hclean]
      simp only [encodePayload] at h
      split at h
      · next hfail =>
          obtain ⟨rfl, rfl⟩ := Ret.ret.inj h
          rw [Enc.written_top]
          exact encodeVarint_fails hs hfail
      · next hok =>
          obtain ⟨hmoves, hroom⟩ := encodeVarint_moves hs (not_not.mp hok)
          split at h
          · obtain ⟨rfl, rfl⟩ := Ret.ret.inj h
            rw [Enc.written_top]
            refine iff_of_false ?_ hroom
            show (encodeVarint s.mem s.top.buf wv.word).buf.pos ≠ _
            omega
          · obtain ⟨rfl, -⟩ := Ret.ret.inj h
            exact absurd rfl herr

/-- With a key in front, only a key that finds no room leaves the
position. -/
theorem encodeKeyed_fails {desc : FieldDesc} {wt : WireType} {wv : WireOut}
    (hs : s.top.buf.Ordered) (h : encodeKeyed s desc wt wv = .ret err t)
    (herr : err ≠ .ok) :
    t.top.buf.pos = s.top.buf.pos ↔ bufLeft s.top.buf = 0 := by
  have hkey := @encodeVarint_writes s.mem _ hs (fieldKey desc wt)
  simp only [encodeKeyed] at h
  split at h
  · next hfail =>
      obtain ⟨rfl, rfl⟩ := Ret.ret.inj h
      rw [Enc.written_top]
      exact encodeVarint_fails hs hfail
  · next hok =>
      obtain ⟨hmoves, hroom⟩ := encodeVarint_moves hs (not_not.mp hok)
      obtain ⟨w, hw, hret⟩ := @encodePayload_writes
        (s.written (encodeVarint s.mem s.top.buf (fieldKey desc wt)))
        (by rw [Enc.written_top]; exact hkey.ordered hs) wt wv
      obtain ⟨-, rfl⟩ := Ret.ret.inj (hret.symm.trans h)
      have hpos := hw.pos_le
      rw [Enc.written_top] at hpos ⊢
      refine iff_of_false ?_ hroom
      show w.buf.pos ≠ _
      have hpos' : (encodeVarint s.mem s.top.buf (fieldKey desc wt)).buf.pos
          ≤ w.buf.pos := hpos
      omega

-- ================================================================== a field

/-- A field that is refused, or written. -/
theorem addField_ret (h : addField sch uninit s f value = .ret err t) :
    (err = .unknownField ∧ t = s ∧ s.packed = false ∧
        ∀ m, s.top.msgDesc = some m → sch.owns m f = false) ∨
      (encodeField sch uninit s f value = .ret err t ∧
        (s.packed = false →
          ∃ m, s.top.msgDesc = some m ∧ sch.owns m f = true)) := by
  unfold addField at h
  split at h
  · cases h
  · split at h
    · next hpk =>
        split at h
        · cases h
        · exact .inr ⟨h, fun hno => by rw [hno] at hpk; cases hpk⟩
    · next hpk =>
        split at h
        · cases h
        · next m hm =>
            split at h
            · next howns => exact .inr ⟨h, fun _ => ⟨m, hm, howns⟩⟩
            · next howns =>
                obtain ⟨rfl, rfl⟩ := Ret.ret.inj h
                refine .inl ⟨rfl, rfl, by simpa using hpk, fun m' hm' => ?_⟩
                rw [hm] at hm'
                cases hm'
                simpa using howns

/-- The position behind a field that fails. -/
theorem addField_pos_iff (hs : s.top.buf.Ordered)
    (h : addField sch uninit s f value = .ret err t) (herr : err ≠ .ok) :
    t.top.buf.pos = s.top.buf.pos ↔ s.FailsClean sch f := by
  rcases addField_ret h with ⟨-, rfl, hpk, hno⟩ | ⟨h, howns⟩
  · exact iff_of_true rfl (.inl ⟨hpk, hno⟩)
  · have hown : ¬ (s.packed = false ∧
        ∀ m, s.top.msgDesc = some m → sch.owns m f = false) := by
      intro h
      obtain ⟨hpk, hno⟩ := h
      obtain ⟨m, hm, hown⟩ := howns hpk
      rw [hno m hm] at hown
      cases hown
    unfold Enc.FailsClean
    rw [or_iff_right hown]
    simp only [encodeField] at h
    split at h
    · next hpk =>
        rw [encodePayload_fails hs h herr, encodeWireValue_width,
          and_iff_right hpk]
    · next hpk =>
        rw [or_iff_left fun hboth => hpk hboth.1]
        split at h
        · exact encodeKeyed_fails hs h herr
        · exact encodeKeyed_fails hs h herr

-- =============================================================== the frames

/-- The frames in use are ordered, each behind the position of the one
under it. -/
structure Enc.Stacked (s : Enc) : Prop where
  started : 0 < s.depth
  ordered : ∀ i, i < s.depth → (s.stack i).buf.Ordered
  behind : ∀ i, i + 1 < s.depth →
    (s.stack i).buf.pos ≤ (s.stack (i + 1)).buf.base

theorem Enc.Stacked.top (hs : s.Stacked) : s.top.buf.Ordered :=
  hs.ordered _ (Nat.sub_one_lt_of_lt hs.started)

theorem encoderStart_stacked (msgDesc : MsgRef) (data len : Nat) :
    (encoderStart s msgDesc data len).Stacked where
  started := Nat.one_pos
  ordered := fun i hi =>
    ((encoderStart_sound msgDesc data len).frames i hi).toOrdered
  behind := by
    intro i hi
    have hi : i + 1 < 1 := hi
    omega

/-- What the outermost frame holds lies in front of every position. -/
theorem Enc.Stacked.pos_zero_le (hs : s.Stacked) :
    ∀ i, i < s.depth → (s.stack 0).buf.pos ≤ (s.stack i).buf.pos := by
  intro i
  induction i with
  | zero => exact fun _ => Nat.le_refl _
  | succ i ih =>
      intro hi
      calc (s.stack 0).buf.pos ≤ (s.stack i).buf.pos := ih (by omega)
        _ ≤ (s.stack (i + 1)).buf.base := hs.behind i hi
        _ ≤ (s.stack (i + 1)).buf.pos := (hs.ordered _ hi).base_le_pos

theorem Enc.Stacked.written {w : Written} (hs : s.Stacked)
    (hw : Writes s.mem s.top.buf w) : (s.written w).Stacked where
  started := hs.started
  ordered := by
    intro i hi
    by_cases htop : i = s.depth - 1
    · subst htop
      show (s.written w).top.buf.Ordered
      rw [Enc.written_top]
      exact hw.ordered hs.top
    · rw [Enc.written_below htop]
      exact hs.ordered i hi
  behind := by
    intro i hi
    have hi' : i + 1 < s.depth := hi
    rw [Enc.written_below (by omega)]
    by_cases htop : i + 1 = s.depth - 1
    · have hbehind := hs.behind i hi'
      rw [htop] at hbehind ⊢
      show _ ≤ (s.written w).top.buf.base
      rw [Enc.written_top]
      show _ ≤ w.buf.base
      rw [hw.base]
      exact hbehind
    · rw [Enc.written_below htop]
      exact hs.behind i hi'

theorem addField_stacked (hs : s.Stacked)
    (h : addField sch uninit s f value = .ret err t) : t.Stacked := by
  rcases addField_ret h with ⟨-, rfl, -⟩ | ⟨h, -⟩
  · exact hs
  · obtain ⟨w, hw, hret⟩ :=
      @encodeField_writes sch uninit s hs.top f value
    obtain ⟨-, rfl⟩ := Ret.ret.inj (hret.symm.trans h)
    exact hs.written hw

theorem Enc.Stacked.pop (hs : s.Stacked) {packed : Bool}
    (hdepth : s.depth - 1 ≠ 0) :
    Enc.Stacked { s with depth := s.depth - 1, packed := packed } where
  started := Nat.pos_of_ne_zero hdepth
  ordered := by
    intro i hi
    have hi : i < s.depth - 1 := hi
    exact hs.ordered i (by omega)
  behind := by
    intro i hi
    have hi : i + 1 < s.depth - 1 := hi
    exact hs.behind i (by omega)

/-- An end that comes to something has popped a frame and added its
field. -/
theorem popAdd_ret {packed : Bool}
    (h : popAdd sch uninit s packed = .ret err t) :
    s.depth - 1 ≠ 0 ∧ ∃ f value, s.top.fieldDesc = some f ∧
      addField sch uninit
        { s with depth := s.depth - 1, packed := packed } f value
          = .ret err t := by
  simp only [popAdd] at h
  split at h
  · cases h
  · next hdepth =>
      refine ⟨hdepth, ?_⟩
      split at h
      · cases h
      · next f hf => exact ⟨f, _, hf, h⟩

theorem popAdd_stacked {packed : Bool} (hs : s.Stacked)
    (h : popAdd sch uninit s packed = .ret err t) : t.Stacked := by
  obtain ⟨hdepth, f, value, -, hadd⟩ := popAdd_ret h
  exact addField_stacked (hs.pop hdepth) hadd

/-- A start that succeeds has found room behind the position. -/
theorem pushReserve_stacked {frame : EncFrame} {packed : Bool}
    (hs : s.Stacked) (h : pushReserve s frame packed = .ret .ok t) :
    t.Stacked := by
  unfold pushReserve at h
  split at h
  · cases h
  · split at h
    · cases h
    · dsimp only at h
      split at h
      · cases h
      · next hroom =>
          obtain ⟨-, rfl⟩ := Ret.ret.inj h
          refine ⟨Nat.succ_pos _, ?_, ?_⟩
          · intro i hi
            have hi : i < s.depth + 1 := hi
            rcases Nat.lt_succ_iff_lt_or_eq.mp hi with hlt | rfl
            · rw [Enc.push_below _ _ hlt]
              exact hs.ordered i hlt
            · show (Enc.push s _ _).top.buf.Ordered
              rw [Enc.push_top]
              exact bufInit_ordered _ _
          · intro i hi
            have hi : i + 1 < s.depth + 1 := hi
            rw [Enc.push_below _ _ (by omega)]
            rcases Nat.lt_succ_iff_lt_or_eq.mp hi with hlt | heq
            · rw [Enc.push_below _ _ hlt]
              exact hs.behind i hlt
            · have htop : i = s.depth - 1 := by omega
              rw [heq]
              show _ ≤ (Enc.push s _ _).top.buf.base
              rw [Enc.push_top, htop]
              exact Nat.le_add_right ..

/-- A call that succeeds keeps the frames stacked. -/
theorem call_stacked {c : Call} (hs : s.Stacked)
    (h : c.run sch uninit s = .ret .ok t) : t.Stacked := by
  cases c with
  | start msgDesc data len =>
      obtain ⟨-, rfl⟩ := Ret.ret.inj h
      exact encoderStart_stacked msgDesc data len
  | addField f value => exact addField_stacked hs h
  | nestedStart f =>
      have h : nestedStart sch s f = .ret .ok t := h
      unfold nestedStart at h
      split at h
      · cases h
      · exact pushReserve_stacked hs h
  | packedRepeatedStart f =>
      have h : packedRepeatedStart sch s f = .ret .ok t := h
      unfold packedRepeatedStart at h
      split at h
      · cases h
      · split at h
        · cases h
        · exact pushReserve_stacked hs h
  | nestedEnd => exact popAdd_stacked hs h
  | packedRepeatedEnd =>
      have h : packedRepeatedEnd sch uninit s = .ret .ok t := h
      unfold packedRepeatedEnd at h
      split at h
      · cases h
      · exact popAdd_stacked hs h

/-- So does a run of them. -/
theorem Succeeds.stacked {calls : List (UInt64 × Call)} {u : Enc}
    (h : Succeeds sch s calls u) (hs : s.Stacked) : u.Stacked := by
  induction h with
  | nil s => exact hs
  | cons hcall _ ih => exact ih (call_stacked hs hcall)

-- ================================================================ the output

/-- Where a field fails, the output is as it was if the position is. -/
theorem addField_intact_iff (hs : s.Stacked)
    (h : addField sch uninit s f value = .ret err t) (herr : err ≠ .ok) :
    s.Intact t ↔ s.FailsClean sch f := by
  rw [← addField_pos_iff hs.top h herr]
  rcases addField_ret h with ⟨-, rfl, -⟩ | ⟨h, -⟩
  · exact iff_of_true ⟨rfl, rfl, rfl⟩ rfl
  · obtain ⟨w, hw, hret⟩ :=
      @encodeField_writes sch uninit s hs.top f value
    obtain ⟨-, rfl⟩ := Ret.ret.inj (hret.symm.trans h)
    refine ⟨Enc.Intact.pos, fun hpos => ?_⟩
    have hwpos : w.buf.pos = s.top.buf.pos := by
      rw [Enc.written_top] at hpos
      exact hpos
    have hzero : ((s.written w).stack 0).buf.base = (s.stack 0).buf.base ∧
        ((s.written w).stack 0).buf.pos = (s.stack 0).buf.pos := by
      by_cases htop : 0 = s.depth - 1
      · have hthere : (s.written w).stack 0 = (s.written w).top := by
          unfold Enc.top
          rw [Enc.written_depth, ← htop]
        have hhere : s.stack 0 = s.top := by
          unfold Enc.top
          rw [← htop]
        rw [hthere, hhere, Enc.written_top]
        exact ⟨hw.base, hwpos⟩
      · rw [Enc.written_below htop]
        exact ⟨rfl, rfl⟩
    have hfinish : encoderFinish (s.written w) = encoderFinish s := by
      unfold encoderFinish bufUsed
      rw [hzero.1, hzero.2]
    refine ⟨hpos, hfinish, ?_⟩
    rw [hfinish, hzero.1]
    refine read_congr fun a _ ha => hw.within a (.inl ?_)
    have hused : encoderFinish s
        = (s.stack 0).buf.pos - (s.stack 0).buf.base :=
      (hs.ordered 0 hs.started).used
    have hle := (hs.ordered 0 hs.started).base_le_pos
    have hfront : (s.stack 0).buf.pos ≤ s.top.buf.pos :=
      hs.pos_zero_le _ (Nat.sub_one_lt_of_lt hs.started)
    omega

/-- A field call that fails in a state reached by calls that succeed leaves
the output as it was exactly if it fails before it writes. -/
theorem failed_call_intact_iff {calls : List (UInt64 × Call)}
    {u₀ : UInt64} {s₀ : Enc} {msgDesc : MsgRef} {data len : Nat} {c : Call}
    (hrun : Succeeds sch s₀ ((u₀, .start msgDesc data len) :: calls) s)
    (hadd : c.isAdd = true) (hret : c.run sch uninit s = .ret err t)
    (herr : err ≠ .ok) :
    s.Intact t ↔ c.FailsClean sch s := by
  have hs : s.Stacked := by
    cases hrun with
    | cons hstart hrest =>
        obtain ⟨-, rfl⟩ := Ret.ret.inj hstart
        exact hrest.stacked (encoderStart_stacked msgDesc data len)
  have hend : ∀ {packed : Bool}, popAdd sch uninit s packed = .ret err t →
      (s.Intact t ↔ ∀ f, s.top.fieldDesc = some f → Enc.FailsClean sch
        { s with depth := s.depth - 1, packed := packed } f) := by
    intro packed hpop
    obtain ⟨hdepth, f, value, hf, hadd⟩ := popAdd_ret hpop
    have hiff := addField_intact_iff (hs.pop hdepth) hadd herr
    refine ⟨fun hintact g hg => ?_, fun hall => ?_⟩
    · obtain rfl : g = f := Option.some.inj (hg.symm.trans hf)
      exact hiff.mp ⟨hintact.pos, hintact.finish, hintact.output⟩
    · have hintact := hiff.mpr (hall f hf)
      exact ⟨hintact.pos, hintact.finish, hintact.output⟩
  cases c with
  | start | nestedStart | packedRepeatedStart => cases hadd
  | addField f value => exact addField_intact_iff hs hret herr
  | nestedEnd => exact hend hret
  | packedRepeatedEnd =>
      have hret : packedRepeatedEnd sch uninit s = .ret err t := hret
      unfold packedRepeatedEnd at hret
      split at hret
      · cases hret
      · exact hend hret

/-- The number of the message below, as a value. -/
def seven : RawValue := ⟨7, .ext fun _ => 0, 0⟩

/-- A number, and a nested message that is left without a byte of room. -/
def crowdedRun : List (UInt64 × Call) :=
  [(0, .start 0 100 12), (0, .addField ⟨0, 1⟩ seven), (0, .nestedStart ⟨0, 0⟩)]

/-- A number in the nested message fails then, and leaves the output of the
first one as it was. -/
theorem failed_call_intact_iff_full :
    ∃ s t, Succeeds nestSchema usedEncoder crowdedRun s ∧
      addField nestSchema 0 s ⟨0, 1⟩ seven = .ret .endOfBuf t ∧
      encoderFinish s = 2 ∧ s.Intact t := by
  refine ⟨_, _, .cons rfl (.cons rfl (.cons rfl (.nil _))), rfl, rfl, ?_⟩
  have hrun : Succeeds nestSchema usedEncoder crowdedRun _ :=
    .cons rfl (.cons rfl (.cons rfl (.nil _)))
  refine (@failed_call_intact_iff nestSchema 0 _ _ .endOfBuf _ _ _ _ _ _
    (.addField ⟨0, 1⟩ seven) hrun rfl rfl (by decide)).mpr ?_
  exact .inr (.inl rfl)

/-- With one byte of room the call fails, and its key is the output. -/
theorem failed_call_leaves_key :
    ∃ s t, Succeeds nestSchema usedEncoder [(0, .start 0 100 1)] s ∧
      addField nestSchema 0 s ⟨0, 1⟩ seven = .ret .endOfBuf t ∧
      encoderFinish t = 1 ∧ t.mem 100 = 0x10 ∧ ¬ s.Intact t := by
  refine ⟨_, _, .cons rfl (.nil _), rfl, rfl, rfl, fun hintact => ?_⟩
  have hfinish : 1 = 0 := hintact.finish
  cases hfinish

end Lwpb
