/-
The decoder walks a well-formed message.

`Level` is what stays fixed while one frame is processed: its bounds, its
descriptor, the slots under it, and the mode. `Stands lv p` says that the
decoder is in the loop of that frame, at `p`. One field takes it from one
position to another, and the lemmas of the first half say which:

- `Stands.reads`, `Stands.reads_elem`: the first half of a pass over a
  field that stands there, respectively over a packed element;
- `Reads.skips`, `Reads.reports`, `Reads.opens`: its second half;
- `Stands.close`: the end of a frame, and the parent resumed where it
  stood.

`Wire.walk` is the induction on the tree that strings them together, and
`Wire.walk_deep` its counterpart for a tree the stack does not hold. In
both, what `field_desc` holds matters only as long as unknown fields may
come, which is what the `seen` argument of `Leading` keeps track of.
-/
import Lwpb.Proofs.Decoder.Readers

namespace Lwpb

open Machine Base128 Slice

variable {sch : Schema} {root : MsgRef} {data : Bytes} {uninit : UInt64}

-- ================================================================== levels

/-- What stays fixed while one frame is processed. -/
structure Level where
  desc : MsgRef
  base : Nat
  stop : Nat
  below : List Frame
  packed : Bool

/-- The frame of a level, with its position. -/
def Level.frame (lv : Level) (p : Nat) : Frame :=
  ⟨⟨lv.base, p, lv.stop⟩, some lv.desc⟩

/-- The level of a frame opened on `lv` at `p`. -/
def Level.child (lv : Level) (p : Nat) (desc : MsgRef) (packed : Bool)
    (base len : Nat) : Level :=
  ⟨desc, base, base + len, lv.frame p :: lv.below, packed⟩

/-- The decoder is in the loop that processes a frame, at `p`. -/
structure Dec.Stands (s : Dec) (lv : Level) (p : Nat) : Prop where
  point : s.point = .loop
  frame : s.frame = lv.frame p
  below : s.below = lv.below
  packed : s.packed = lv.packed

/-- The bytes stand in the frame, at `p`. -/
structure Level.Holds (data : Bytes) (lv : Level) (p : Nat)
    (xs : Bytes) : Prop where
  base_le : lv.base ≤ p
  at_pos : At data p xs
  end_le : p + xs.length ≤ lv.stop
  stop_le : lv.stop ≤ data.length

/-- The first part of what a level holds. -/
theorem Level.Holds.left {lv : Level} {p : Nat} {xs ys : Bytes}
    (h : lv.Holds data p (xs ++ ys)) : lv.Holds data p xs := by
  have hend := h.end_le
  rw [List.length_append] at hend
  exact ⟨h.base_le, (at_append.mp h.at_pos).1, by omega, h.stop_le⟩

/-- And the second, behind it. -/
theorem Level.Holds.right {lv : Level} {p : Nat} {xs ys : Bytes}
    (h : lv.Holds data p (xs ++ ys)) :
    lv.Holds data (p + xs.length) ys := by
  have hbase := h.base_le
  have hend := h.end_le
  rw [List.length_append] at hend
  exact ⟨by omega, (at_append.mp h.at_pos).2, by omega, h.stop_le⟩

/-- The cursor of a level lies in its frame. -/
theorem Level.Holds.ordered {lv : Level} {p : Nat} {xs : Bytes}
    (h : lv.Holds data p xs) : Buf.Ordered ⟨lv.base, p, lv.stop⟩ :=
  ⟨h.base_le, Nat.le_trans (Nat.le_add_right p xs.length) h.end_le⟩

/-- Before bytes of the level, the frame is not at its end. -/
theorem Level.Holds.bytes_left {lv : Level} {p : Nat} {xs : Bytes}
    (h : lv.Holds data p xs) (hne : 0 < xs.length) {s : Dec}
    (hs : s.Stands lv p) : 0 < bufLeft s.frame.buf := by
  have hend := h.end_le
  rw [hs.frame]
  show 0 < bufLeft ⟨lv.base, p, lv.stop⟩
  rw [h.ordered.left]
  show 0 < lv.stop - p
  omega

/-- Behind a key the frame is in use. -/
theorem Level.Holds.used {lv : Level} {p : Nat} {key xs : Bytes}
    {wt : WireType} (h : lv.Holds data p (key ++ xs))
    (hkey : Wire.Announces key wt) :
    lv.base < p + (key ++ xs).length := by
  have hbase := h.base_le
  have hlen := hkey.1.1.length_pos
  rw [List.length_append]
  omega

-- ================================================== the first half of a pass

/-- A key has a byte. -/
theorem Wire.Announces.length_pos {key : Bytes} {wt : WireType}
    (h : Wire.Announces key wt) : 0 < key.length :=
  h.1.1.length_pos

/-- A key that stands in the frame is read to its end. -/
theorem Dec.Stands.key_read {s : Dec} {lv : Level} {p : Nat}
    (hs : s.Stands lv p) (hpk : lv.packed = false) {key : Bytes}
    {wt : WireType} (hkey : Wire.Announces key wt)
    (hin : lv.Holds data p key) :
    readKey sch data s
      = .ok (wt, (sch.find lv.desc (UInt32.ofNat (keyNumber key))).or
          s.fieldDesc, ⟨lv.base, p + key.length, lv.stop⟩) := by
  obtain ⟨hvar, hwt⟩ := hkey
  have hread : decodeVarint data ⟨lv.base, p, lv.stop⟩
      = .ok (varintWord key, ⟨lv.base, p + key.length, lv.stop⟩) :=
    decodeVarint_of_at hvar hin.at_pos hin.end_le
  unfold readKey
  rw [if_neg (by rw [hs.packed, hpk]; exact nofun), hs.frame]
  show (decodeVarint data ⟨lv.base, p, lv.stop⟩ >>= _) = _
  rw [hread, Outcome.ok_bind]
  show Outcome.ok _ = Outcome.ok _
  rw [code_number, hwt]

/-- A field that stands in the frame is read to its end. -/
theorem Dec.Stands.reads {s : Dec} {lv : Level} {p : Nat}
    (hs : s.Stands lv p) (sch : Schema) (hpk : lv.packed = false) {key : Bytes}
    {pl : Payload} (hkey : Wire.Announces key pl.wireType)
    (hpl : pl.Complete) (hin : lv.Holds data p (key ++ pl.bytes)) :
    ∃ t, Reads sch data s pl.wireType t ∧
      t.Stands lv (p + (key ++ pl.bytes).length) ∧
      t.fieldDesc = (sch.find lv.desc (UInt32.ofNat (keyNumber key))).or
        s.fieldDesc ∧
      Carries data t.wireValue pl := by
  have hright := hin.right
  obtain ⟨wv, hval, hwv⟩ := readWireValue_of_at s.wireValue hpl
    hright.ordered hright.at_pos hright.end_le hright.stop_le
  refine ⟨_, .mk (hs.key_read hpk hkey hin.left) hval,
    ⟨hs.point, ?_, hs.below, hs.packed⟩, rfl, hwv⟩
  show Frame.mk _ s.frame.msgDesc = _
  rw [hs.frame, List.length_append, ← Nat.add_assoc]
  rfl

/-- A packed element that stands in the frame is read to its end. -/
theorem Dec.Stands.reads_elem {s : Dec} {lv : Level} {p : Nat}
    {f : FieldRef} (hs : s.Stands lv p) (hpk : lv.packed = true)
    (hf : s.fieldDesc = some f) {e : Payload}
    (hwt : fieldWireType (sch.field f).opts.typ = some e.wireType)
    (he : e.Complete) (hin : lv.Holds data p e.bytes) :
    ∃ t, Reads sch data s e.wireType t ∧
      t.Stands lv (p + e.bytes.length) ∧ t.fieldDesc = some f ∧
      Carries data t.wireValue e := by
  obtain ⟨wv, hval, hwv⟩ := readWireValue_of_at s.wireValue he
    hin.ordered hin.at_pos hin.end_le hin.stop_le
  have hkey : readKey sch data s
      = .ok (e.wireType, some f, ⟨lv.base, p, lv.stop⟩) := by
    unfold readKey
    rw [if_pos (by rw [hs.packed, hpk])]
    simp only [hf, hwt, hs.frame]
    rfl
  refine ⟨_, .mk hkey hval, ⟨hs.point, ?_, hs.below, hs.packed⟩, rfl, hwv⟩
  show Frame.mk _ s.frame.msgDesc = _
  rw [hs.frame]
  rfl

/-- A payload has one. -/
theorem Payload.Complete.length_pos {e : Payload} (h : e.Complete) :
    0 < e.bytes.length := by
  cases e with
  | varint v => exact h.1.length_pos
  | bit64 b =>
      have hb : b.length = 8 := h
      show 0 < b.length
      omega
  | string len content =>
      have hlen := h.1.1.length_pos
      show 0 < (len ++ content).length
      rw [List.length_append]
      omega
  | bit32 b =>
      have hb : b.length = 4 := h
      show 0 < b.length
      omega

-- ================================================= the second half of a pass

/-- A pass that has read a field goes on as the dispatch says. -/
theorem Reads.exec {s t u : Dec} {wt : WireType} {out : List (Event Span)}
    (h : Reads sch data s wt t) (hpt : s.point = .loop)
    (hleft : 0 < bufLeft s.frame.buf)
    (hmove : dispatch sch root data wt t = .next u out) :
    Exec (Lwpb.decodeMove sch root data) s out u := by
  refine .single ?_
  rw [h.decodeMove hpt hleft]
  exact hmove

/-- A field without a descriptor is skipped. -/
theorem dispatch_skip {t : Dec} {wt : WireType} (hf : t.fieldDesc = none) :
    dispatch sch root data wt t = .next t [] := by
  unfold dispatch
  rw [hf]

/-- A field that opens no frame is reported. -/
theorem dispatch_value {t : Dec} {wt : WireType} {f : FieldRef}
    {m : MsgRef} (hf : t.fieldDesc = some f)
    (hrun : ¬ (wt = .string ∧ (sch.field f).isPackedRepeated = true))
    (hmsg : (sch.field f).opts.typ.isMessage = false)
    (hm : t.frame.msgDesc = some m) :
    dispatch sch root data wt t = .next t
      [.field m f (some (convert (sch.field f).opts.typ t.wireValue))
        t.packed] := by
  unfold dispatch
  simp only [hf, hm]
  rw [if_neg (by simpa using hrun), if_neg (by rw [hmsg]; exact nofun)]

/-- A packed run is pushed with its parent's descriptor. -/
theorem dispatch_run {t : Dec} {f : FieldRef} (hf : t.fieldDesc = some f)
    (hrun : (sch.field f).isPackedRepeated = true) :
    dispatch sch root data .string t
      = pushStackFrame data t t.frame.msgDesc true [] := by
  unfold dispatch
  simp only [hf]
  rw [if_pos (by simpa using hrun)]

/-- A submessage is announced, and pushed with its own descriptor. -/
theorem dispatch_sub {t : Dec} {wt : WireType} {f : FieldRef}
    (hf : t.fieldDesc = some f)
    (hrun : ¬ (wt = .string ∧ (sch.field f).isPackedRepeated = true))
    (hmsg : (sch.field f).opts.typ.isMessage = true) :
    dispatch sch root data wt t
      = pushStackFrame data t (sch.field f).msgDesc t.packed
          [.field root f none t.packed] := by
  unfold dispatch
  simp only [hf]
  rw [if_neg (by simpa using hrun), if_pos hmsg]

/-- Opening a frame on a range of the input: the push, and the start
notification of a frame of which nothing was used. -/
theorem pushStackFrame_opens {t : Dec} {lv : Level} {p q : Nat}
    (sch : Schema) (root d : MsgRef) (packed : Bool)
    (out : List (Event Span)) (ht : t.Stands lv p)
    (hdepth : lv.below.length + 2 ≤ maxDepth)
    (hq : t.wireValue.data = some q)
    (hfit : q + t.wireValue.word.toNat ≤ data.length) :
    ∃ u v, pushStackFrame data t (some d) packed out = .next u out ∧
      Exec (decodeMove sch root data) u [.msgStart d packed] v ∧
      v.Stands (lv.child p d packed q t.wireValue.word.toNat) q ∧
      v.fieldDesc = t.fieldDesc := by
  have hd : t.depth + 1 ≤ maxDepth := by
    unfold Dec.depth
    rw [ht.below]
    exact hdepth
  have hpush : pushStackFrame data t (some d) packed out = .next
      { t with
        frame := ⟨bufInit q t.wireValue.word.toNat, some d⟩
        below := t.frame :: t.below
        packed := packed
        point := .nested } out := by
    unfold pushStackFrame
    rw [if_pos hd, hq]
    dsimp only
    rw [if_neg (by omega)]
  refine ⟨_, { t with
    frame := ⟨bufInit q t.wireValue.word.toNat, some d⟩
    below := t.frame :: t.below
    packed := packed
    point := .loop }, hpush, .single ?_, ⟨rfl, rfl, ?_, rfl⟩, rfl⟩
  · unfold decodeMove notifyStart bufUsed bufInit
    simp
  · show t.frame :: t.below = lv.frame p :: lv.below
    rw [ht.frame, ht.below]

/-- A frame too many fails the assertion. -/
theorem pushStackFrame_abort {t : Dec} {lv : Level} {p : Nat}
    {desc : Option MsgRef} {packed : Bool} {out : List (Event Span)}
    (ht : t.Stands lv p) (hdepth : maxDepth < lv.below.length + 2) :
    pushStackFrame data t desc packed out = .halt .abort out := by
  have hd : ¬ t.depth + 1 ≤ maxDepth := by
    unfold Dec.depth
    rw [ht.below]
    omega
  unfold pushStackFrame
  rw [if_neg hd]

/-- A parent frame is resumed where it stood, without a second start
notification. -/
theorem resumes (sch : Schema) (root : MsgRef) (data : Bytes) {u : Dec}
    {lv : Level} {p : Nat} (hpt : u.point = .nested)
    (hframe : u.frame = lv.frame p) (hbelow : u.below = lv.below)
    (hpk : u.packed = lv.packed) (hused : lv.base < p) :
    Exec (decodeMove sch root data) u [] { u with point := .loop } ∧
      Dec.Stands { u with point := .loop } lv p := by
  refine ⟨.single ?_, rfl, hframe, hbelow, hpk⟩
  have hne : bufUsed u.frame.buf ≠ 0 := by
    rw [hframe]
    show ptrDiff p lv.base ≠ 0
    rw [ptrDiff_of_le (by omega)]
    omega
  have hstart : notifyStart u = [] := by
    unfold notifyStart
    split
    · rw [if_neg hne]
    · rfl
  unfold decodeMove
  rw [hpt, hstart]

/-- At its end a frame is popped and its parent resumed. -/
theorem Dec.Stands.close (sch : Schema) (root : MsgRef) {s : Dec} {lv : Level}
    {p : Nat} {d : MsgRef} {packed : Bool} {base len : Nat}
    (hs : s.Stands (lv.child p d packed base len) (base + len))
    (hpk : lv.packed = false) (hused : lv.base < p) :
    ∃ u, Exec (decodeMove sch root data) s [.msgEnd d packed] u ∧
      u.Stands lv p ∧ u.fieldDesc = s.fieldDesc := by
  have hleft : bufLeft s.frame.buf = 0 := by
    rw [hs.frame]
    exact ptrDiff_self _
  have hpop : decodeMove sch root data s = .next
      { s with
        frame := lv.frame p
        below := lv.below
        packed := false
        point := .nested } [.msgEnd d packed] := by
    unfold decodeMove
    rw [hs.point]
    dsimp only
    rw [if_neg (by omega)]
    unfold leave notifyEnd
    simp only [hs.below, Level.child, hs.frame, Level.frame, hs.packed]
  obtain ⟨hresume, hu⟩ := resumes sch root data (u := { s with
    frame := lv.frame p
    below := lv.below
    packed := false
    point := .nested }) rfl rfl rfl hpk.symm hused
  exact ⟨_, (Exec.single hpop).trans hresume, hu, rfl⟩

-- ============================================================ one occurrence

/-- What the decoder does with the field `key ++ pl.bytes` when it stands
in the frame: the pass reads it, with `fd` in `field_desc`. -/
structure Occurs (sch : Schema) (data : Bytes) (s : Dec) (lv : Level)
    (p : Nat) (pl : Payload) (n : Nat) (fd : Option FieldRef)
    (t : Dec) : Prop where
  reads : Reads sch data s pl.wireType t
  point : s.point = .loop
  left : 0 < bufLeft s.frame.buf
  stands : t.Stands lv (p + n)
  desc : t.fieldDesc = fd
  carries : Carries data t.wireValue pl

/-- Outside a run, a key and a payload are read, and the field is that of the
number, or the last known one. -/
theorem Dec.Stands.occurs {s : Dec} {lv : Level} {p : Nat}
    (hs : s.Stands lv p) (sch : Schema) (hpk : lv.packed = false) {key : Bytes}
    {pl : Payload} (hkey : Wire.Announces key pl.wireType)
    (hpl : pl.Complete) (hin : lv.Holds data p (key ++ pl.bytes)) :
    ∃ t, Occurs sch data s lv p pl (key ++ pl.bytes).length
      ((sch.find lv.desc (UInt32.ofNat (keyNumber key))).or s.fieldDesc) t := by
  have hlen : 0 < (key ++ pl.bytes).length := by
    have := hkey.length_pos
    rw [List.length_append]
    omega
  obtain ⟨t, hreads, ht, hf, hwv⟩ := hs.reads sch hpk hkey hpl hin
  exact ⟨t, hreads, hs.point, hin.bytes_left hlen hs, ht, hf, hwv⟩

/-- In a run there is no key, and the field is that of the run. -/
theorem Dec.Stands.occurs_elem {s : Dec} {lv : Level} {p : Nat}
    {f : FieldRef} (hs : s.Stands lv p) (hpk : lv.packed = true)
    (hf : s.fieldDesc = some f) {e : Payload}
    (hwt : fieldWireType (sch.field f).opts.typ = some e.wireType)
    (he : e.Complete) (hin : lv.Holds data p e.bytes) :
    ∃ t, Occurs sch data s lv p e e.bytes.length (some f) t := by
  obtain ⟨t, hreads, ht, hf', hwv⟩ := hs.reads_elem hpk hf hwt he hin
  exact ⟨t, hreads, hs.point, hin.bytes_left he.length_pos hs, ht, hf', hwv⟩

namespace Occurs

variable {s t : Dec} {lv : Level} {p n : Nat} {pl : Payload} {f : FieldRef}
  {len content : Bytes}

/-- An occurrence without a field gives no notice. -/
theorem skips (root : MsgRef) (h : Occurs sch data s lv p pl n none t) :
    Exec (decodeMove sch root data) s [] t :=
  h.reads.exec h.point h.left (dispatch_skip h.desc)

/-- One with a field that opens no frame is reported with its value. -/
theorem reports (root : MsgRef)
    (h : Occurs sch data s lv p pl n (some f) t)
    (hrun : ¬ (pl.wireType = .string ∧
      (sch.field f).isPackedRepeated = true))
    (hmsg : (sch.field f).opts.typ.isMessage = false) :
    Exec (decodeMove sch root data) s
      [.field lv.desc f (some (convert (sch.field f).opts.typ t.wireValue))
        lv.packed] t := by
  rw [← h.stands.packed]
  refine h.reads.exec h.point h.left (dispatch_value h.desc hrun hmsg ?_)
  rw [h.stands.frame]
  rfl

/-- What the frame of a length-delimited payload holds. -/
theorem content_holds (h : Occurs sch data s lv p (.string len content) n
      (some f) t) (hpl : (Payload.string len content).Complete) (d : MsgRef)
    (packed : Bool) :
    ∃ q, t.wireValue.data = some q ∧
      q + t.wireValue.word.toNat ≤ data.length ∧
      t.wireValue.word.toNat = content.length ∧
      (lv.child (p + n) d packed q content.length).Holds data q content := by
  obtain ⟨hword, q, hq, hat, hle⟩ := h.carries
  have hlen : t.wireValue.word.toNat = content.length := by
    rw [hword, hpl.2]
  exact ⟨q, hq, by omega, hlen, Nat.le_refl q, hat, Nat.le_refl _, hle⟩

/-- A packed run is entered. -/
theorem enters_run (root : MsgRef)
    (h : Occurs sch data s lv p (.string len content) n (some f) t)
    (hpl : (Payload.string len content).Complete)
    (hrun : (sch.field f).isPackedRepeated = true)
    (hdepth : lv.below.length + 2 ≤ maxDepth) :
    ∃ v q, Exec (decodeMove sch root data) s [.msgStart lv.desc true] v ∧
      v.Stands (lv.child (p + n) lv.desc true q content.length) q ∧
      (lv.child (p + n) lv.desc true q content.length).Holds data q
        content ∧
      v.fieldDesc = some f := by
  obtain ⟨q, hq, hfit, hlen, hin⟩ := h.content_holds hpl lv.desc true
  obtain ⟨u, v, hpush, hexec, hv, hf⟩ := pushStackFrame_opens sch root
    lv.desc true [] h.stands hdepth hq hfit
  have hdesc : t.frame.msgDesc = some lv.desc := by
    rw [h.stands.frame]
    rfl
  rw [hlen] at hv
  have hmove : dispatch sch root data .string t = .next u [] := by
    rw [dispatch_run h.desc hrun, hdesc]
    exact hpush
  exact ⟨v, q, (h.reads.exec h.point h.left hmove).trans hexec, hv, hin,
    hf.trans h.desc⟩

/-- A submessage is entered. -/
theorem enters_sub (root : MsgRef)
    (h : Occurs sch data s lv p (.string len content) n (some f) t)
    (hpl : (Payload.string len content).Complete) {d : MsgRef}
    (hrun : (sch.field f).isPackedRepeated = false)
    (hmsg : (sch.field f).opts.typ.isMessage = true)
    (hd : (sch.field f).msgDesc = some d) (hpk : lv.packed = false)
    (hdepth : lv.below.length + 2 ≤ maxDepth) :
    ∃ v q, Exec (decodeMove sch root data) s
        [.field root f none false, .msgStart d false] v ∧
      v.Stands (lv.child (p + n) d false q content.length) q ∧
      (lv.child (p + n) d false q content.length).Holds data q content ∧
      v.fieldDesc = some f := by
  obtain ⟨q, hq, hfit, hlen, hin⟩ := h.content_holds hpl d false
  obtain ⟨u, v, hpush, hexec, hv, hf⟩ := pushStackFrame_opens sch root d
    false [.field root f none false] h.stands hdepth hq hfit
  rw [hlen] at hv
  have hmove : dispatch sch root data .string t
      = .next u [.field root f none false] := by
    rw [dispatch_sub h.desc (by rw [hrun]; exact fun hboth => nomatch hboth.2)
      hmsg, hd, h.stands.packed, hpk]
    exact hpush
  exact ⟨v, q, (h.reads.exec h.point h.left hmove).trans hexec, hv, hin,
    hf.trans h.desc⟩

/-- A submessage is passed, if its contents are: from its key to the byte
behind it. -/
theorem passes_sub (root : MsgRef)
    (h : Occurs sch data s lv p (.string len content) n (some f) t)
    (hpl : (Payload.string len content).Complete) {d : MsgRef}
    (hrun : (sch.field f).isPackedRepeated = false)
    (hmsg : (sch.field f).opts.typ.isMessage = true)
    (hd : (sch.field f).msgDesc = some d) (hpk : lv.packed = false)
    (hdepth : lv.below.length + 2 ≤ maxDepth) (hused : lv.base < p + n)
    {P : List (Event Span) → Prop}
    (hbody : ∀ v q, v.Stands (lv.child (p + n) d false q content.length) q →
      (lv.child (p + n) d false q content.length).Holds data q content →
      ∃ v' o, Exec (decodeMove sch root data) v o v' ∧
        v'.Stands (lv.child (p + n) d false q content.length)
          (q + content.length) ∧ P o) :
    ∃ u o, Exec (decodeMove sch root data) s
        ([.field root f none false, .msgStart d false] ++ o
          ++ [.msgEnd d false]) u ∧
      u.Stands lv (p + n) ∧ P o := by
  obtain ⟨v, q, hopen, hv, hcontent, -⟩ := h.enters_sub root hpl hrun hmsg
    hd hpk hdepth
  obtain ⟨v', o, hwalk, hv', ho⟩ := hbody v q hv hcontent
  obtain ⟨u, hclose, hu, -⟩ := hv'.close sch root hpk hused
  exact ⟨u, o, (hopen.trans hwalk).trans hclose, hu, ho⟩

/-- A packed run is passed, if its elements are. -/
theorem passes_run (root : MsgRef)
    (h : Occurs sch data s lv p (.string len content) n (some f) t)
    (hpl : (Payload.string len content).Complete)
    (hrun : (sch.field f).isPackedRepeated = true) (hpk : lv.packed = false)
    (hdepth : lv.below.length + 2 ≤ maxDepth) (hused : lv.base < p + n)
    {P : List (Event Span) → Prop}
    (helems : ∀ v q,
      v.Stands (lv.child (p + n) lv.desc true q content.length) q →
      (lv.child (p + n) lv.desc true q content.length).Holds data q
        content → v.fieldDesc = some f →
      ∃ v' o, Exec (decodeMove sch root data) v o v' ∧
        v'.Stands (lv.child (p + n) lv.desc true q content.length)
          (q + content.length) ∧ P o) :
    ∃ u o, Exec (decodeMove sch root data) s
        ([.msgStart lv.desc true] ++ o ++ [.msgEnd lv.desc true]) u ∧
      u.Stands lv (p + n) ∧ P o := by
  obtain ⟨v, q, hopen, hv, hcontent, hf⟩ := h.enters_run root hpl hrun
    hdepth
  obtain ⟨v', o, hwalk, hv', ho⟩ := helems v q hv hcontent hf
  obtain ⟨u, hclose, hu, -⟩ := hv'.close sch root hpk hused
  exact ⟨u, o, (hopen.trans hwalk).trans hclose, hu, ho⟩

/-- A frame that the stack does not hold aborts the call. -/
theorem aborts (root : MsgRef)
    (h : Occurs sch data s lv p (.string len content) n (some f) t)
    (hpush : (sch.field f).isPackedRepeated = true ∨
      (sch.field f).opts.typ.isMessage = true)
    (hdepth : maxDepth < lv.below.length + 2) :
    ∃ out, Halts (decodeMove sch root data) s out .abort := by
  have hmove : decodeMove sch root data s
      = dispatch sch root data .string t := h.reads.decodeMove h.point h.left
  by_cases hrun : (sch.field f).isPackedRepeated = true
  · refine ⟨[], .stop ?_⟩
    rw [hmove, dispatch_run h.desc hrun]
    exact pushStackFrame_abort h.stands hdepth
  · have hmsg := hpush.resolve_left hrun
    refine ⟨[.field root f none t.packed], .stop ?_⟩
    rw [hmove, dispatch_sub h.desc (fun hboth => hrun hboth.2) hmsg]
    exact pushStackFrame_abort h.stands hdepth

end Occurs

end Lwpb
