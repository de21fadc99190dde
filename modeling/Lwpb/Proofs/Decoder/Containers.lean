/-
The message a field stands in.

A handler that dispatches on `msg_desc` expects the descriptor of the
message the field occurrence stands in: the innermost message that was
started and not ended when the call is made. The decoder passes the top
frame's descriptor along with a value, and the descriptor of the outermost
message along with a submessage, so a submessage is reported for the wrong
message from depth two on (`decode_containers_iff`).

# The invariant

A handler that counts starts and ends (`containing`) knows the
descriptors of the frames that have been announced. `Dec.Announced` says
which these are: every frame but a top one that is still to be entered for
the first time, which is a frame of which nothing was used. Frames under
the top one have had a key read in them, so a frame that is popped back to
is not announced twice.
-/
import Lwpb.Lib.Watch
import Lwpb.Proofs.Decoder.Unknown

namespace Lwpb

open Machine

variable {sch : Schema} {root : MsgRef} {data : Bytes} {uninit : UInt64}

-- ============================================================= what is open

/-- The messages that were started and not ended, innermost first, behind
one more call. -/
def Event.track {σ : Type} (opened : List MsgRef) :
    Event σ → List MsgRef
  | .msgStart m _ => m :: opened
  | .msgEnd _ _ => opened.tail
  | .field _ _ _ _ => opened

/-- A call for a field names the innermost message that is open. -/
def Event.Names {σ : Type} (opened : List MsgRef) : Event σ → Prop
  | .field m _ _ _ => opened.head? = some m
  | _ => True

/-- A handler that keeps track of the open messages. -/
def containing (σ : Type) : Watch (List MsgRef) (Event σ) where
  see := Event.track
  ok := Event.Names

/-- Every call for a field names the message the field stands in. -/
def NamesContainers {σ : Type} (out : List (Event σ)) : Prop :=
  (containing σ).Accepts [] out

section

variable {σ : Type} {opened : List MsgRef} {m : MsgRef} {packed : Bool}
  {es : List (Event σ)}

theorem accepts_start :
    (containing σ).Accepts opened (.msgStart m packed :: es) ↔
      (containing σ).Accepts (m :: opened) es :=
  and_iff_right trivial

theorem accepts_end :
    (containing σ).Accepts opened (.msgEnd m packed :: es) ↔
      (containing σ).Accepts opened.tail es :=
  and_iff_right trivial

theorem accepts_field {f : FieldRef} {v : Option (Value σ)} :
    (containing σ).Accepts opened (.field m f v packed :: es) ↔
      opened.head? = some m ∧ (containing σ).Accepts opened es :=
  Iff.rfl

end

/-- Reading strings from the input changes nothing here. -/
theorem namesContainers_resolve (out : List (Event Span)) :
    NamesContainers (resolve data out) ↔ NamesContainers out := by
  unfold NamesContainers
  generalize ([] : List MsgRef) = opened
  induction out generalizing opened with
  | nil => exact Iff.rfl
  | cons e out ih =>
      cases e with
      | msgStart m packed => exact and_congr_right fun _ => ih (m :: opened)
      | msgEnd m packed => exact and_congr_right fun _ => ih opened.tail
      | field m f v packed => exact and_congr_right fun _ => ih opened

-- ============================================================ the invariant

/-- The frames that have been announced. -/
def Dec.announced (s : Dec) : List Frame :=
  if s.point = .nested ∧ bufUsed s.frame.buf = 0 then s.below
  else s.frame :: s.below

/-- What a handler knows in front of a move, and what the stack is like
then. -/
structure Dec.Announced (sch : Schema) (data : Bytes)
    (opened : List MsgRef) (s : Dec) : Prop where
  opened : opened = s.announced.filterMap Frame.msgDesc
  top : s.frame.buf.base ≤ s.frame.buf.pos
  below : ∀ fr ∈ s.below, fr.buf.base < fr.buf.pos
  packed : s.packed = true →
    ∃ f, s.fieldDesc = some f ∧ (sch.field f).isPackedRepeated = true
  bounded : s.Bounded data

theorem decodeInit_announced :
    (decodeInit root data uninit).Announced sch data [] where
  opened := rfl
  top := Nat.le_refl 0
  below := nofun
  packed := nofun
  bounded := decodeInit_bounded

theorem bufUsed_eq_zero_iff {b : Buf} (h : b.base ≤ b.pos) :
    bufUsed b = 0 ↔ b.pos = b.base := by
  unfold bufUsed
  rw [ptrDiff_of_le h]
  omega

theorem Dec.announced_loop {s : Dec} (h : s.point = .loop) :
    s.announced = s.frame :: s.below := by
  unfold Dec.announced
  rw [if_neg]
  intro h
  obtain ⟨hpt, -⟩ := h
  rw [h] at hpt
  cases hpt

/-- A frame with bytes used is not announced again. -/
theorem Dec.announced_used {s : Dec}
    (h : s.frame.buf.base < s.frame.buf.pos) :
    s.announced = s.frame :: s.below := by
  unfold Dec.announced
  rw [if_neg]
  intro h
  obtain ⟨-, hused⟩ := h
  have := (bufUsed_eq_zero_iff (Nat.le_of_lt h)).mp hused
  omega

/-- A frame with bytes used is entered without a call. -/
theorem notifyStart_used {s : Dec} (h : bufUsed s.frame.buf ≠ 0) :
    notifyStart s = [] := by
  unfold notifyStart
  cases s.frame.msgDesc with
  | none => rfl
  | some m => exact if_neg h

/-- A read leaves a frame that has bytes used, and the rest alone. -/
theorem Reads.announced {s t : Dec} {wt : WireType} {opened : List MsgRef}
    (hs : s.Announced sch data opened) (hpt : s.point = .loop)
    (h : Reads sch data s wt t) :
    t.frame.buf.base < t.frame.buf.pos ∧ t.Announced sch data opened := by
  obtain ⟨hbuf, hadv, -⟩ := h.advance hs.bounded.frame
  obtain ⟨hdesc, hbelow, hpk, hpoint⟩ := h.frame
  have hbase : t.frame.buf.base = s.frame.buf.base := by rw [hbuf]
  have hused : t.frame.buf.base < t.frame.buf.pos := by
    have := hs.top
    omega
  refine ⟨hused, ?_, Nat.le_of_lt hused, ?_, ?_, h.bounded hs.bounded⟩
  · rw [hs.opened, Dec.announced_loop hpt,
      Dec.announced_loop (hpoint.trans hpt), List.filterMap_cons,
      List.filterMap_cons, hdesc, hbelow]
  · rw [hbelow]
    exact hs.below
  · intro hpk'
    rw [hpk] at hpk'
    obtain ⟨f, hf, hrun⟩ := hs.packed hpk'
    cases h with
    | mk hkey hval =>
        obtain ⟨-, rfl, -, -⟩ := readKey_packed hpk' hkey
        exact ⟨f, hf, hrun⟩

/-- A frame that is pushed is not announced before it is entered. -/
theorem Opens.announced {t s' : Dec} {desc : Option MsgRef} {packed : Bool}
    {opened : List MsgRef} (ht : t.Announced sch data opened)
    (hpt : t.point = .loop) (hused : t.frame.buf.base < t.frame.buf.pos)
    (hpacked : packed = true →
      ∃ f, t.fieldDesc = some f ∧ (sch.field f).isPackedRepeated = true)
    (h : Opens data t desc packed s') : s'.Announced sch data opened := by
  have hbounded := h.bounded ht.bounded
  obtain ⟨-, p, -, -, rfl⟩ := h
  refine ⟨?_, Nat.le_refl _, ?_, hpacked, hbounded⟩
  · rw [ht.opened, Dec.announced_loop hpt]
    unfold Dec.announced
    rw [if_pos ⟨rfl, ptrDiff_self _⟩]
  · intro fr hfr
    rcases List.mem_cons.mp hfr with rfl | hfr
    · exact hused
    · exact ht.below fr hfr

/-- A move keeps the handler in step. -/
theorem Moves.announced {s s' : Dec} {out : List (Event Span)}
    {opened : List MsgRef} (hs : s.Announced sch data opened)
    (h : Moves sch root data s s' out) :
    s'.Announced sch data ((containing Span).after opened out) := by
  have hbounded := h.bounded hs.bounded
  cases h with
  | enter hpt =>
      refine ⟨?_, hs.top, hs.below, hs.packed, hbounded⟩
      have hopened := hs.opened
      unfold Dec.announced at hopened ⊢
      rw [if_neg (by rintro ⟨hpt', -⟩; cases hpt')]
      by_cases hused : bufUsed s.frame.buf = 0
      · rw [if_pos ⟨hpt, hused⟩] at hopened
        unfold notifyStart
        cases hdesc : s.frame.msgDesc with
        | none =>
            rw [List.filterMap_cons, hdesc]
            exact hopened
        | some m =>
            rw [List.filterMap_cons, hdesc]
            simp only [if_pos hused]
            exact congrArg (m :: ·) hopened
      · rw [if_neg fun hboth => hused hboth.2] at hopened
        rw [notifyStart_used hused]
        exact hopened
  | @pop frame below hpt hleft hbelow =>
      have hframe : frame.buf.base < frame.buf.pos :=
        hs.below frame (by rw [hbelow]; exact List.mem_cons_self ..)
      refine ⟨?_, Nat.le_of_lt hframe, fun fr hfr => ?_, nofun, hbounded⟩
      · have hopened := hs.opened
        rw [Dec.announced_loop hpt, hbelow, List.filterMap_cons] at hopened
        rw [Dec.announced_used hframe]
        unfold notifyEnd
        cases hdesc : s.frame.msgDesc with
        | none =>
            rw [hdesc] at hopened
            exact hopened
        | some m =>
            rw [hdesc] at hopened
            exact congrArg List.tail hopened
      · exact hs.below fr (by rw [hbelow]; exact List.mem_cons_of_mem _ hfr)
  | skip hpt hleft hreads hnone => exact (hreads.announced hs hpt).2
  | run hpt hleft hreads hf hrun hopen =>
      obtain ⟨hused, ht⟩ := hreads.announced hs hpt
      exact hopen.announced ht (hreads.frame.2.2.2.trans hpt) hused
        fun _ => ⟨_, hf, hrun⟩
  | sub hpt hleft hreads hf hnot hmsg hopen =>
      obtain ⟨hused, ht⟩ := hreads.announced hs hpt
      exact hopen.announced ht (hreads.frame.2.2.2.trans hpt) hused ht.packed
  | value hpt hleft hreads hf hnot hmsg hm =>
      exact (hreads.announced hs hpt).2

-- ================================================================ the calls

/-- The next pass does not open a submessage, or the frame is one of the
outermost message's. -/
def Dec.SubsInRoot (sch : Schema) (root : MsgRef) (data : Bytes)
    (s : Dec) : Prop :=
  s.OpensSub sch data → s.frame.msgDesc = some root

/-- A submessage is opened by a frame with a descriptor. -/
theorem Reads.sub_described {s t : Dec} {wt : WireType} {f : FieldRef}
    {opened : List MsgRef} (hs : s.Announced sch data opened)
    (h : Reads sch data s wt t) (hf : t.fieldDesc = some f)
    (hnot : ¬ (wt = .string ∧ (sch.field f).isPackedRepeated = true))
    (hmsg : (sch.field f).opts.typ.isMessage = true) :
    ∃ m, s.frame.msgDesc = some m := by
  cases h with
  | @mk fd wv buf buf' hkey hval =>
      cases hpk : s.packed with
      | true =>
          -- a packed message would be another packed run
          obtain ⟨g, hg, hrun⟩ := hs.packed hpk
          obtain ⟨-, rfl, -, g', hg', hwt⟩ := readKey_packed hpk hkey
          have hgf : g = f := Option.some.inj (hg.symm.trans hf)
          have hgf' : g' = f := Option.some.inj (hg'.symm.trans hf)
          subst hgf hgf'
          cases htyp : (sch.field g').opts.typ with
          | message =>
              rw [htyp] at hwt
              exact absurd ⟨(Option.some.inj hwt).symm, hrun⟩ hnot
          | group => rw [htyp] at hwt; cases hwt
          | _ => rw [htyp] at hmsg; cases hmsg
      | false =>
          obtain ⟨key, m, -, hm, -⟩ := readKey_plain hpk hkey
          exact ⟨m, hm⟩

/-- The calls of one move name the right messages, unless it opens a
submessage of another message than the outermost. -/
theorem Calls.names_iff {s : Dec} {out : List (Event Span)}
    {opened : List MsgRef} (hs : s.Announced sch data opened)
    (h : Calls sch root data s out) :
    (containing Span).Accepts opened out ↔ s.SubsInRoot sch root data := by
  have hloop : s.point = .nested → ¬ s.OpensSub sch data := by
    intro hpt h
    obtain ⟨hpt', -⟩ := h
    rw [hpt] at hpt'
    cases hpt'
  cases h with
  | enter hpt =>
      refine iff_of_true ?_ fun hopens => absurd hopens (hloop hpt)
      unfold notifyStart
      split
      · split
        · exact ⟨trivial, trivial⟩
        · trivial
      · trivial
  | leave hpt hleft =>
      refine iff_of_true ?_ fun hopens => absurd hopens.2.1 (by omega)
      unfold notifyEnd
      split
      · exact ⟨trivial, trivial⟩
      · trivial
  | quiet hno => exact iff_of_true trivial fun hopens => absurd hopens hno
  | @sub wt t f hreads hf hnot hmsg hopens =>
      obtain ⟨m, hm⟩ := hreads.sub_described hs hf hnot hmsg
      have hhead : opened.head? = some m := by
        rw [hs.opened, Dec.announced_loop hopens.1, List.filterMap_cons, hm]
        rfl
      have hroot : (containing Span).ok opened
          (.field root f none t.packed) ↔ s.frame.msgDesc = some root := by
        rw [hm, ← hhead]
        exact Iff.rfl
      rw [Watch.accepts_single, hroot]
      exact ⟨fun heq _ => heq, fun hall => hall hopens⟩
  | @value wt t f m hpt hno hreads hf hm =>
      refine iff_of_true ?_ fun hopens => absurd hopens hno
      rw [hreads.frame.1] at hm
      rw [Watch.accepts_single]
      show opened.head? = some m
      rw [hs.opened, Dec.announced_loop hpt, List.filterMap_cons, hm]
      rfl

/-- On every input, the calls of the field handler name the right messages
exactly if every submessage that is opened stands in a message of the
outermost descriptor. -/
theorem Decodes.names_iff {out : List (Event Span)} {r : Result}
    (h : Decodes sch root data uninit out r) :
    NamesContainers out ↔
      ∀ s, DecReach sch root data uninit s → s.SubsInRoot sch root data :=
  Halts.accepts_iff (w := containing Span)
    (J := fun opened s => s.Announced sch data opened)
    (fun _ s hs => (decodeMove_calls sch root data s).names_iff hs)
    (fun _ _ _ _ hs hmove => (decodeMove_next hmove).announced hs)
    decodeInit_announced h

-- ================================================================ the trees

namespace Wire

/-- Every submessage of a message with descriptor `m` stands in a message
of descriptor `root`. -/
def SubsIn (sch : Schema) (root m : MsgRef) : Wire → Prop
  | .nil => True
  | .unknown _ _ rest => SubsIn sch root m rest
  | .scalar _ _ _ rest => SubsIn sch root m rest
  | .sub f _ _ body rest =>
      m = root ∧ SubsIn sch root (sch.subDesc f) body ∧
        SubsIn sch root m rest
  | .run _ _ _ _ rest => SubsIn sch root m rest

/-- The calls for the elements of a run, and what is behind them. -/
theorem elemNotifs_names {m : MsgRef} (f : FieldRef)
    {opened : List MsgRef} (hm : opened.head? = some m)
    (elems : List Payload) (es : List (Event Bytes)) :
    (containing Bytes).Accepts opened (elemNotifs sch m f elems ++ es) ↔
      (containing Bytes).Accepts opened es := by
  induction elems with
  | nil => exact Iff.rfl
  | cons e elems ih => exact (and_iff_right hm).trans ih

/-- The calls a message is reported with, and what is behind them. -/
theorem notifs_names (w : Wire) :
    ∀ (m : MsgRef) (opened : List MsgRef) (es : List (Event Bytes)),
      (containing Bytes).Accepts (m :: opened)
          (w.notifs sch root m ++ es) ↔
        w.SubsIn sch root m ∧
          (containing Bytes).Accepts (m :: opened) es := by
  induction w with
  | nil => intro m opened es; exact (and_iff_right trivial).symm
  | unknown key p rest ih => exact ih
  | scalar f key p rest ih =>
      intro m opened es
      rw [notifs, List.cons_append, accepts_field]
      exact (and_iff_right rfl).trans (ih m opened es)
  | sub f key len body rest ihb ihr =>
      intro m opened es
      have hhead : (m :: opened).head? = some root ↔ m = root :=
        Option.some_inj
      rw [notifs, SubsIn]
      simp only [List.cons_append, List.append_assoc]
      rw [accepts_field, accepts_start, hhead, ihb, accepts_end,
        List.tail_cons, ihr, and_assoc, and_assoc]
  | run f key len elems rest ih =>
      intro m opened es
      rw [notifs, SubsIn]
      simp only [List.cons_append, List.append_assoc]
      rw [accepts_start]
      refine (elemNotifs_names f rfl elems _).trans ?_
      rw [accepts_end]
      exact ih m opened es

theorem report_names (w : Wire) :
    NamesContainers (w.report sch root) ↔ w.SubsIn sch root root := by
  unfold NamesContainers report
  rw [List.cons_append, accepts_start, notifs_names]
  exact and_iff_left ⟨trivial, trivial⟩

end Wire

/-- Every submessage stands directly in a message of the outermost
descriptor: on any input, of those the decoder opens; in a well-formed
message that it reads to its end, of those the message has. -/
theorem decode_containers_iff (sch : Schema) (root : MsgRef) (data : Bytes)
    (uninit : UInt64) :
    (NamesContainers (decode sch root data uninit).1 ↔
      ∀ s, DecReach sch root data uninit s →
        s.SubsInRoot sch root data) ∧
    ∀ w : Wire, w.bytes = data → w.WellFormed sch typed root →
      w.Leading sch false root → w.nesting ≤ maxDepth →
      (NamesContainers (decode sch root data uninit).1 ↔
        w.SubsIn sch root root) := by
  refine ⟨(decode_spec sch root data uninit).names_iff, ?_⟩
  intro w h hw hlead hnest
  subst h
  obtain ⟨out, hdec, hout⟩ := decode_wire uninit hw hlead hnest
  rw [hdec.decode_eq, ← w.report_names, ← hout.resolves]
  exact (namesContainers_resolve out).symm

/-- A message with a submessage with a submessage. -/
def twoDeep : Schema :=
  ⟨[⟨[⟨1, ⟨.optional, .message, 0⟩, some 1, "a"⟩]⟩,
    ⟨[⟨1, ⟨.optional, .message, 0⟩, some 2, "x"⟩]⟩,
    ⟨[]⟩]⟩

/-- `a { }`. -/
def oneDeepMessage : Wire := .sub ⟨0, 0⟩ [0x0a] [0x00] .nil .nil

/-- A submessage of the outermost message is reported for it. -/
theorem decode_containers_iff_oneDeep :
    NamesContainers (decode twoDeep 0 oneDeepMessage.bytes 0).1 := by
  have hw : oneDeepMessage.WellFormed twoDeep typed 0 :=
    ⟨⟨by decide, rfl⟩, by decide, rfl, rfl, rfl, ⟨rfl, fun _ => rfl⟩,
      ⟨1, rfl⟩, trivial, trivial⟩
  obtain ⟨-, htree⟩ := decode_containers_iff twoDeep 0 oneDeepMessage.bytes 0
  exact (htree oneDeepMessage rfl hw ⟨trivial, trivial⟩ (by decide)).mpr
    ⟨rfl, trivial, trivial⟩

/-- `a { x { } }`. -/
def twoDeepMessage : Wire :=
  .sub ⟨0, 0⟩ [0x0a] [0x02] (.sub ⟨1, 0⟩ [0x0a] [0x00] .nil .nil) .nil

/-- `x` is reported for the message that `a` stands in. -/
theorem decode_names_root :
    twoDeepMessage.WellFormed twoDeep typed 0 ∧
      ¬ NamesContainers (decode twoDeep 0 twoDeepMessage.bytes 0).1 := by
  refine ⟨?_, ?_⟩
  · refine ⟨⟨by decide, rfl⟩, by decide, rfl, rfl, rfl,
      ⟨rfl, fun _ => rfl⟩, ⟨1, rfl⟩, ?_, trivial⟩
    exact ⟨⟨by decide, rfl⟩, by decide, rfl, rfl, rfl,
      ⟨rfl, fun _ => rfl⟩, ⟨2, rfl⟩, trivial, trivial⟩
  · have hrun : Decodes twoDeep 0 twoDeepMessage.bytes 0
        [.msgStart 0 false, .field 0 ⟨0, 0⟩ none false, .msgStart 1 false,
          .field 0 ⟨1, 0⟩ none false, .msgStart 2 false, .msgEnd 2 false,
          .msgEnd 1 false, .msgEnd 0 false] (.ok 4) := halts_of_eval 12 rfl
    rw [hrun.decode_eq]
    intro h
    obtain ⟨-, -, -, hx, -⟩ := h
    cases hx

end Lwpb
