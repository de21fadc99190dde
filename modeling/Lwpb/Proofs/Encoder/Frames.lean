/-
The frames of the encoder, over every run.

Between two calls every frame in use should be an ordered range of the
buffer the caller passed to the last `lwpb_encoder_start`, and the current
frame should have a message descriptor unless a packed run is open
(`Enc.Framed`). Then no call writes outside of the buffer, since every
call writes into the current frame only.

# Where it goes wrong

The two starts push their frame before they test for room. Without room
they return `LWPB_ERR_END_OF_BUF` with the frame pushed and its buffer as
it was: whatever an earlier use of the encoder left in the slot. A caller
that goes on (`lwpb_encoder_nested_end` and then the next field, as
`send_request` does) writes there. The packed start also pushes a frame
without message descriptor and has not entered packed mode yet, so the
next field reads through NULL; the two ends can come to such a frame too,
by leaving packed mode above it.

`Enc.Breaks` lists these calls, as a condition on the state before the
call. It is exact: along a run the frames are kept up to the first such
call and lost by it (`call_keeps_iff`, `encoder_frames_iff`).
-/
import Lwpb.Proofs.Encoder.Writers

namespace Lwpb

open Memory

variable {sch : Schema} {uninit : UInt64} {s t : Enc}

-- ============================================================ the property

/-- `data <= base <= pos <= end <= data + len`. -/
structure Buf.Inside (data len : Nat) (b : Buf) : Prop extends b.Ordered where
  data_le_base : data ≤ b.base
  stop_le : b.stop ≤ data + len

/-- The state between two calls: the frames in use lie in the buffer, and
the current one has a message descriptor outside of packed runs. -/
structure Enc.Framed (s : Enc) : Prop where
  frames : ∀ i, i < s.depth → (s.stack i).buf.Inside s.data s.len
  described : s.packed = false → s.top.msgDesc ≠ none

/-- What is asked of a call: it leaves a framed state and has written
into the buffer only. A call that fails an assertion ends the run; one
that follows a NULL descriptor must not happen. -/
def Enc.Keeps (s : Enc) : Ret → Prop
  | .ret _ t => t.Framed ∧ Within s.mem t.mem t.data (t.data + t.len)
  | .abort => True
  | .fault => False

/-- `P` holds of every call of a run, in the state it is made in. A run
is a list of calls, each with what its uninitialised local holds; it goes
on after every error code. -/
def Along (sch : Schema) (P : Enc → UInt64 → Call → Prop) :
    Enc → List (UInt64 × Call) → Prop
  | _, [] => True
  | s, (uninit, c) :: cs =>
      P s uninit c ∧
        ∀ err t, c.run sch uninit s = .ret err t → Along sch P t cs

/-- The calls that lose the frames. -/
def Enc.Breaks (sch : Schema) (s : Enc) : Call → Prop
  | .nestedStart f =>
      (sch.field f).opts.typ = .message ∧ s.depth < maxDepth ∧
        (bufLeft s.top.buf < 10 ∧
            ¬ (s.stack s.depth).buf.Inside s.data s.len ∨
          s.packed = false ∧ (sch.field f).msgDesc = none)
  | .packedRepeatedStart f =>
      (sch.field f).isPackedRepeated = true ∧ s.packed = false ∧
        s.depth < maxDepth ∧ bufLeft s.top.buf < 10
  | .nestedEnd =>
      s.packed = false ∧ 2 ≤ s.depth ∧
        (s.stack (s.depth - 2)).msgDesc = none
  | .packedRepeatedEnd =>
      s.packed = true ∧ 2 ≤ s.depth ∧
        (s.stack (s.depth - 2)).msgDesc = none
  | .start .. | .addField .. => False

-- =========================================================== the invariant

/-- What carries the property: a started encoder, and a field for every
frame that will be added to another. -/
structure Enc.Sound (s : Enc) : Prop extends s.Framed where
  started : 0 < s.depth
  opened : ∀ i, 0 < i → i < s.depth → (s.stack i).fieldDesc ≠ none

theorem Enc.Sound.top_inside (hs : s.Sound) :
    s.top.buf.Inside s.data s.len :=
  hs.frames _ (Nat.sub_one_lt_of_lt hs.started)

/-- A call's outcome, with the invariant for the property. -/
def Enc.Carries (s : Enc) : Ret → Prop
  | .ret _ t => t.Sound ∧ Within s.mem t.mem t.data (t.data + t.len)
  | .abort => True
  | .fault => False

theorem Enc.Carries.keeps {r : Ret} (h : s.Carries r) : s.Keeps r := by
  cases r with
  | ret err t => exact ⟨h.1.toFramed, h.2⟩
  | abort => trivial
  | fault => exact h

theorem encoderStart_sound (msgDesc : MsgRef) (data len : Nat) :
    (encoderStart s msgDesc data len).Sound where
  frames := by
    intro i hi
    have hzero : i = 0 := Nat.lt_one_iff.mp hi
    subst hzero
    exact ⟨bufInit_ordered data len, Nat.le_refl _, Nat.le_refl _⟩
  described := fun _ => Option.some_ne_none _
  started := Nat.one_pos
  opened := by
    intro i hpos hi
    have hi : i < 1 := hi
    omega

-- ================================================================== fields

theorem Enc.Sound.written {w : Written} (hs : s.Sound)
    (hw : Writes s.mem s.top.buf w) : (s.written w).Sound where
  frames := by
    intro i hi
    have htop := hs.top_inside
    by_cases htopmost : i = s.depth - 1
    · subst htopmost
      show (s.written w).top.buf.Inside s.data s.len
      rw [Enc.written_top]
      refine ⟨hw.ordered htop.toOrdered, ?_, ?_⟩
      · rw [hw.base]
        exact htop.data_le_base
      · rw [hw.stop]
        exact htop.stop_le
    · rw [Enc.written_below htopmost]
      exact hs.frames i hi
  described := by
    rw [Enc.written_top]
    exact hs.described
  started := hs.started
  opened := by
    intro i hpos hi
    by_cases htopmost : i = s.depth - 1
    · subst htopmost
      show (s.written w).top.fieldDesc ≠ none
      rw [Enc.written_top]
      exact hs.opened _ hpos hi
    · rw [Enc.written_below htopmost]
      exact hs.opened i hpos hi

theorem encodeField_carries (hs : s.Sound) (f : FieldRef)
    (value : RawValue) : s.Carries (encodeField sch uninit s f value) := by
  have htop := hs.top_inside
  obtain ⟨w, hw, hret⟩ := encodeField_writes htop.toOrdered f value
  rw [hret]
  refine ⟨hs.written hw, hw.within.mono ?_ htop.stop_le⟩
  exact Nat.le_trans htop.data_le_base htop.base_le_pos

theorem addField_carries (hs : s.Sound) (f : FieldRef)
    (value : RawValue) : s.Carries (addField sch uninit s f value) := by
  have hdepth := hs.started
  rw [addField, if_neg (by omega)]
  cases hpacked : s.packed with
  | true =>
      rw [if_pos rfl]
      split
      · trivial
      · exact encodeField_carries hs f value
  | false =>
      rw [if_neg Bool.false_ne_true]
      cases hdesc : s.top.msgDesc with
      | none => exact absurd hdesc (hs.described hpacked)
      | some m =>
          show s.Carries (if _ then _ else _)
          split
          · exact encodeField_carries hs f value
          · exact ⟨hs, .refl s.mem _ _⟩

-- ================================================================== starts

/-- A push: the frame is one more in use, the others stay. -/
theorem Enc.Sound.push (hs : s.Sound) {frame : EncFrame} {packed : Bool}
    (hbuf : frame.buf.Inside s.data s.len)
    (hfield : frame.fieldDesc ≠ none)
    (hdesc : packed = false → frame.msgDesc ≠ none) :
    (s.push frame packed).Sound where
  frames := by
    intro i hi
    have hi : i < s.depth + 1 := hi
    rcases Nat.lt_succ_iff_lt_or_eq.mp hi with hlt | rfl
    · rw [Enc.push_below frame packed hlt]
      exact hs.frames i hlt
    · show (s.push frame packed).top.buf.Inside s.data s.len
      rw [Enc.push_top]
      exact hbuf
  described := by
    intro hp
    rw [Enc.push_top]
    exact hdesc hp
  started := Nat.succ_pos _
  opened := by
    intro i hpos hi
    have hi : i < s.depth + 1 := hi
    rcases Nat.lt_succ_iff_lt_or_eq.mp hi with hlt | rfl
    · rw [Enc.push_below frame packed hlt]
      exact hs.opened i hpos hlt
    · show (s.push frame packed).top.fieldDesc ≠ none
      rw [Enc.push_top]
      exact hfield

/-- The reserve is cut off the front of the room the parent has left. -/
theorem Buf.Inside.reserve {data len : Nat} {b : Buf}
    (hb : b.Inside data len) (hroom : ¬ bufLeft b < 10) :
    (bufInit (b.pos + 10) (bufLeft b - 10)).Inside data len := by
  have hdata := hb.data_le_base
  have hbase := hb.base_le_pos
  have hpos := hb.pos_le_stop
  have hstop := hb.stop_le
  rw [hb.left] at hroom ⊢
  refine ⟨bufInit_ordered _ _, ?_, ?_⟩
  · show data ≤ b.pos + 10
    omega
  · show b.pos + 10 + (b.stop - b.pos - 10) ≤ data + len
    omega

/-- A start keeps the frames if it finds room, or else a frame in the
slot that will do. -/
theorem pushReserve_carries (hs : s.Sound) {frame : EncFrame}
    {packed : Bool} (hfield : frame.fieldDesc ≠ none)
    (hdesc : packed = false → frame.msgDesc ≠ none)
    (hfull : bufLeft s.top.buf < 10 → s.depth < maxDepth →
      frame.buf.Inside s.data s.len ∧
        (s.packed = false → frame.msgDesc ≠ none)) :
    s.Carries (pushReserve s frame packed) := by
  have hdepth := hs.started
  rw [pushReserve, if_neg (by omega)]
  split
  · trivial
  · next hmax =>
      show s.Carries (if _ then _ else _)
      split
      · next hlt =>
          obtain ⟨hbuf, hd⟩ := hfull hlt (by omega)
          exact ⟨hs.push hbuf hfield hd, .refl s.mem _ _⟩
      · next hroom =>
          refine ⟨?_, .refl s.mem _ _⟩
          exact hs.push (hs.top_inside.reserve hroom) hfield hdesc

/-- A start that pushes a frame and stays outside of packed mode loses
the frames if that frame has no descriptor. -/
theorem pushReserve_loses {frame : EncFrame} {packed : Bool}
    (hdepth : 0 < s.depth) (hmax : s.depth < maxDepth)
    (hpacked : s.packed = false) (hdesc : frame.msgDesc = none)
    (hstay : packed = false ∨ bufLeft s.top.buf < 10) :
    ¬ s.Keeps (pushReserve s frame packed) := by
  rw [pushReserve, if_neg (by omega), if_neg (by omega)]
  show ¬ s.Keeps (if _ then _ else _)
  split
  · intro h
    obtain ⟨hframed, -⟩ := h
    refine hframed.described hpacked ?_
    rw [Enc.push_top]
    exact hdesc
  · next hroom =>
      intro h
      obtain ⟨hframed, -⟩ := h
      refine hframed.described (hstay.resolve_right hroom) ?_
      rw [Enc.push_top]
      exact hdesc

/-- Without room the slot is taken as it is. -/
theorem pushReserve_stale {frame : EncFrame} {packed : Bool}
    (hdepth : 0 < s.depth) (hmax : s.depth < maxDepth)
    (hfull : bufLeft s.top.buf < 10)
    (hstale : ¬ frame.buf.Inside s.data s.len) :
    ¬ s.Keeps (pushReserve s frame packed) := by
  rw [pushReserve, if_neg (by omega), if_neg (by omega)]
  show ¬ s.Keeps (if _ then _ else _)
  rw [if_pos hfull]
  intro h
  obtain ⟨hframed, -⟩ := h
  have hin : (s.push frame s.packed).top.buf.Inside s.data s.len :=
    hframed.frames s.depth (Nat.lt_succ_self _)
  rw [Enc.push_top] at hin
  exact hstale hin

-- ==================================================================== ends

/-- A pop: the frame below is the current one again. -/
theorem Enc.Sound.pop (hs : s.Sound) {packed : Bool}
    (hdepth : 2 ≤ s.depth)
    (hdesc : packed = false → (s.stack (s.depth - 2)).msgDesc ≠ none) :
    Enc.Sound { s with depth := s.depth - 1, packed := packed } where
  frames := by
    intro i hi
    have hi : i < s.depth - 1 := hi
    exact hs.frames i (by omega)
  described := hdesc
  started := by
    show 0 < s.depth - 1
    omega
  opened := by
    intro i hpos hi
    have hi : i < s.depth - 1 := hi
    exact hs.opened i hpos (by omega)

/-- An end keeps the frames if the frame it comes to can take a field. -/
theorem popAdd_carries (hs : s.Sound) {packed : Bool}
    (hdesc : packed = false → 2 ≤ s.depth →
      (s.stack (s.depth - 2)).msgDesc ≠ none) :
    s.Carries (popAdd sch uninit s packed) := by
  have hdepth := hs.started
  simp only [popAdd]
  split
  · trivial
  · next hone =>
      cases hfield : s.top.fieldDesc with
      | none => exact absurd hfield (hs.opened _ (by omega) (by omega))
      | some f =>
          exact addField_carries (hs.pop (by omega) fun hp =>
            hdesc hp (by omega)) f _

/-- Outside of packed mode it has to have a descriptor. -/
theorem popAdd_faults (hdepth : 2 ≤ s.depth)
    (hdesc : (s.stack (s.depth - 2)).msgDesc = none) :
    popAdd sch uninit s false = .fault := by
  simp only [popAdd]
  rw [if_neg (by omega)]
  cases hfield : s.top.fieldDesc with
  | none => rfl
  | some f =>
      have htop : ({ s with depth := s.depth - 1, packed := false } :
          Enc).top.msgDesc = none := hdesc
      show addField sch uninit _ f _ = .fault
      rw [addField, if_neg (by show ¬ s.depth - 1 = 0; omega),
        if_neg Bool.false_ne_true, htop]

-- =================================================================== calls

/-- A call that is none of the breaking ones carries the invariant. -/
theorem call_carries (hs : s.Sound) {c : Call} (hc : ¬ s.Breaks sch c) :
    s.Carries (c.run sch uninit s) := by
  cases c with
  | start msgDesc data len =>
      exact ⟨encoderStart_sound msgDesc data len, .refl s.mem _ _⟩
  | addField f value => exact addField_carries hs f value
  | nestedStart f =>
      show s.Carries (nestedStart sch s f)
      rw [nestedStart]
      split
      · trivial
      · next htyp =>
          have htyp : (sch.field f).opts.typ = .message := by
            simpa using htyp
          by_cases hmax : s.depth < maxDepth
          · have hsafe : ¬ _ := fun h => hc ⟨htyp, hmax, h⟩
            rw [not_or] at hsafe
            have hd : s.packed = false → (sch.field f).msgDesc ≠ none :=
              fun hp hnone => hsafe.2 ⟨hp, hnone⟩
            refine pushReserve_carries hs (Option.some_ne_none f) hd ?_
            intro hfull _
            exact ⟨Classical.byContradiction fun hout =>
              hsafe.1 ⟨hfull, hout⟩, hd⟩
          · have hdepth := hs.started
            rw [pushReserve, if_neg (by omega), if_pos (by omega)]
            trivial
  | packedRepeatedStart f =>
      show s.Carries (packedRepeatedStart sch s f)
      rw [packedRepeatedStart]
      split
      · trivial
      · next htyp =>
          split
          · trivial
          · next hpacked =>
              refine pushReserve_carries hs (Option.some_ne_none f)
                (fun h => absurd h (by decide)) ?_
              intro hfull hmax
              exact absurd ⟨by simpa using htyp, by simpa using hpacked,
                hmax, hfull⟩ hc
  | nestedEnd =>
      exact popAdd_carries hs fun hp hdepth hnone =>
        hc ⟨hp, hdepth, hnone⟩
  | packedRepeatedEnd =>
      show s.Carries (packedRepeatedEnd sch uninit s)
      rw [packedRepeatedEnd]
      split
      · trivial
      · next hpacked =>
          exact popAdd_carries hs fun _ hdepth hnone =>
            hc ⟨by simpa using hpacked, hdepth, hnone⟩

/-- A breaking call loses the frames. -/
theorem call_loses (hs : s.Sound) {c : Call} (hc : s.Breaks sch c) :
    ¬ s.Keeps (c.run sch uninit s) := by
  cases c with
  | start msgDesc data len => exact hc.elim
  | addField f value => exact hc.elim
  | nestedStart f =>
      obtain ⟨htyp, hmax, hwhy⟩ := hc
      show ¬ s.Keeps (nestedStart sch s f)
      rw [nestedStart, if_neg (by simpa using htyp)]
      rcases hwhy with ⟨hfull, hstale⟩ | ⟨hpacked, hdesc⟩
      · exact pushReserve_stale hs.started hmax hfull hstale
      · exact pushReserve_loses hs.started hmax hpacked hdesc (.inl hpacked)
  | packedRepeatedStart f =>
      obtain ⟨htyp, hpacked, hmax, hfull⟩ := hc
      show ¬ s.Keeps (packedRepeatedStart sch s f)
      rw [packedRepeatedStart, if_neg (by simp [htyp]),
        if_neg (by simp [hpacked])]
      exact pushReserve_loses hs.started hmax hpacked rfl (.inr hfull)
  | nestedEnd =>
      obtain ⟨hpacked, hdepth, hdesc⟩ := hc
      show ¬ s.Keeps (popAdd sch uninit s s.packed)
      rw [hpacked, popAdd_faults hdepth hdesc]
      exact id
  | packedRepeatedEnd =>
      obtain ⟨hpacked, hdepth, hdesc⟩ := hc
      show ¬ s.Keeps (packedRepeatedEnd sch uninit s)
      rw [packedRepeatedEnd, if_neg (by simp [hpacked]),
        popAdd_faults hdepth hdesc]
      exact id

/-- One call: the frames are kept by exactly the calls that do not
break. -/
theorem call_keeps_iff (hs : s.Sound) {c : Call} :
    s.Keeps (c.run sch uninit s) ↔ ¬ s.Breaks sch c :=
  ⟨fun h hc => call_loses hs hc h, fun hc => (call_carries hs hc).keeps⟩

-- ==================================================================== runs

/-- Every call of the run keeps the frames. -/
def FramesKept (sch : Schema) (s : Enc) (calls : List (UInt64 × Call)) :
    Prop :=
  Along sch (fun s uninit c => s.Keeps (c.run sch uninit s)) s calls

/-- No call of the run breaks. -/
def NoneBreaks (sch : Schema) (s : Enc) (calls : List (UInt64 × Call)) :
    Prop :=
  Along sch (fun s _ c => ¬ s.Breaks sch c) s calls

/-- What one call keeps, a run keeps. -/
theorem framesKept_iff (hs : s.Sound) (calls : List (UInt64 × Call)) :
    FramesKept sch s calls ↔ NoneBreaks sch s calls := by
  induction calls generalizing s with
  | nil => exact Iff.rfl
  | cons call calls ih =>
      obtain ⟨uninit, c⟩ := call
      have hnext : ¬ s.Breaks sch c → ∀ err t,
          c.run sch uninit s = .ret err t →
          (FramesKept sch t calls ↔ NoneBreaks sch t calls) := by
        intro hc err t hret
        have hcarries : s.Carries (c.run sch uninit s) := call_carries hs hc
        rw [hret] at hcarries
        exact ih hcarries.1
      constructor
      · intro h
        obtain ⟨hkeeps, hrest⟩ := h
        have hc : ¬ s.Breaks sch c := (call_keeps_iff hs).mp hkeeps
        exact ⟨hc, fun err t hret =>
          (hnext hc err t hret).mp (hrest err t hret)⟩
      · intro h
        obtain ⟨hc, hrest⟩ := h
        exact ⟨(call_keeps_iff hs).mpr hc, fun err t hret =>
          (hnext hc err t hret).mpr (hrest err t hret)⟩

/-- The frames are kept along a run exactly if none of its calls breaks
in the state it is made in: whatever the encoder was used for before, and
whatever the caller does after an error. -/
theorem encoder_frames_iff (sch : Schema) (s : Enc) (uninit : UInt64)
    (msgDesc : MsgRef) (data len : Nat) (calls : List (UInt64 × Call)) :
    FramesKept sch s ((uninit, .start msgDesc data len) :: calls) ↔
      NoneBreaks sch s ((uninit, .start msgDesc data len) :: calls) := by
  have hs := encoderStart_sound (s := s) msgDesc data len
  constructor
  · intro h
    obtain ⟨-, hrest⟩ := h
    refine ⟨id, fun err t hret => ?_⟩
    obtain ⟨-, rfl⟩ := Ret.ret.inj hret
    exact (framesKept_iff hs calls).mp (hrest .ok _ rfl)
  · intro h
    obtain ⟨-, hrest⟩ := h
    refine ⟨⟨hs.toFramed, .refl s.mem _ _⟩, fun err t hret => ?_⟩
    obtain ⟨-, rfl⟩ := Ret.ret.inj hret
    exact (framesKept_iff hs calls).mpr (hrest .ok _ rfl)

-- ======================================================== a frame left over

/-- A message with a nested message and a number. -/
def nestSchema : Schema :=
  ⟨[⟨[⟨1, ⟨.optional, .message, 0⟩, some 0, "inner"⟩,
    ⟨2, ⟨.optional, .int32, 0⟩, none, "n"⟩]⟩]⟩

/-- An encoder whose second frame was last used in a buffer at 200. -/
def usedEncoder : Enc where
  stack := fun _ => ⟨⟨200, 200, 300⟩, none, none⟩
  depth := 0
  packed := false
  mem := fun _ => 0
  data := 200
  len := 100

/-- A nested message started in a buffer of five bytes at 100, and a
number added to it after the error. -/
def fullRun : List (UInt64 × Call) :=
  [(0, .start 0 100 5), (0, .nestedStart ⟨0, 0⟩),
    (0, .addField ⟨0, 1⟩ ⟨7, .ext fun _ => 0, 0⟩)]

/-- The frame of the nested message is the one left over from the earlier
use, so the frames are not kept; the number goes to address 200. -/
theorem encoder_frames_break :
    ¬ FramesKept nestSchema usedEncoder fullRun ∧
      ∃ s t : Enc,
        nestedStart nestSchema (encoderStart usedEncoder 0 100 5) ⟨0, 0⟩
          = .ret .endOfBuf s ∧
        addField nestSchema 0 s ⟨0, 1⟩ ⟨7, .ext fun _ => 0, 0⟩
          = .ret .ok t ∧
        s.mem 200 = 0 ∧ t.mem 200 = 16 := by
  refine ⟨?_, _, _, rfl, rfl, rfl, rfl⟩
  intro h
  obtain ⟨-, hrest⟩ := h
  obtain ⟨⟨hframed, -⟩, -⟩ := hrest .ok _ rfl
  have hstop := (hframed.frames 1 (by decide)).stop_le
  exact absurd hstop (by decide)

end Lwpb
