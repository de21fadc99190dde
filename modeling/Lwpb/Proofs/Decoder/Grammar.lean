/-
What the decoder accepts.

The grammar is the set of serialised trees whose occurrences may have any
wire type (`untyped`): a concatenation of complete fields, with the
payloads of known submessages and packed runs complete in turn.

A pass `LeavesGrammar` if it goes on where the grammar does not, or opens
a frame where the grammar has none: it reads a varint missing at the end
of its frame, or one of more than ten bytes inside its frame, or takes a
wire type without a meaning for a field (the assertion in that branch
asserts `1`), or an element of a packed group, which has no wire type, or
it opens a frame for an occurrence that is not a length-delimited one of
that very field. What ends beyond its frame is refused before any of
this, so such an input does not leave the grammar. A run without such a
pass follows the grammar step by step, in both directions:

- `Wire.accepted`, by induction on the tree: the run gets to its end;
- `parsed`, by induction on the bytes left of the frame: a run that
  returns `LWPB_ERR_OK` has walked a tree.
-/
import Lwpb.Proofs.Decoder.Trees

namespace Lwpb

open Machine Base128 Slice

variable {sch : Schema} {root : MsgRef} {data : Bytes} {uninit : UInt64}

/-- The byte string is a message of the wire grammar. -/
def InGrammar (sch : Schema) (root : MsgRef) (data : Bytes) : Prop :=
  ∃ w : Wire, w.WellFormed sch untyped root ∧ w.bytes = data

/-- The decoder accepts what is in the grammar, and returns an error for
all else. -/
structure AcceptsGrammar (sch : Schema) (root : MsgRef) (data : Bytes)
    (uninit : UInt64) : Prop where
  accepts : InGrammar sch root data →
    ∃ out used, Decodes sch root data uninit out (.ok used)
  rejects : ¬ InGrammar sch root data →
    ∃ out e, Decodes sch root data uninit out (.err e)

/-- The key of the pass announces the field `f`, by its exact number. -/
def OwnField (sch : Schema) (data : Bytes) (s : Dec) (f : FieldRef) :
    Prop :=
  ∃ key buf m, decodeVarint data s.frame.buf = .ok (key, buf) ∧
    s.frame.msgDesc = some m ∧ sch.known m (key.toNat / 8) = some f

/-- An occurrence of `f` that the grammar has a frame for: it is
length-delimited, it stands in a message, its number is that of `f`, and
`f` is a packed field or has a descriptor. -/
structure OpensOwn (sch : Schema) (data : Bytes) (s : Dec) (wt : WireType)
    (f : FieldRef) : Prop where
  wireType : wt = .string
  plain : s.packed = false
  own : OwnField sch data s f
  described : (sch.field f).isPackedRepeated = false →
    ∃ d, (sch.field f).msgDesc = some d

/-- The pass leaves the grammar. -/
def LeavesGrammar (sch : Schema) (data : Bytes) (s : Dec) : Prop :=
  MissesValue sch data s ∨
    (s.point = .loop ∧ 0 < bufLeft s.frame.buf ∧
      ((s.packed = false ∧ OverlongIn data s.frame.buf) ∨
        (s.packed = true ∧ ∃ f, s.fieldDesc = some f ∧
          fieldWireType (sch.field f).opts.typ = none) ∨
        (∃ wt fd buf, readKey sch data s = .ok (wt, fd, buf) ∧
          ((∃ code, wt = .unknown code) ∨
            ((wt = .varint ∨ wt = .string) ∧ OverlongIn data buf))) ∨
        ∃ wt t f, Reads sch data s wt t ∧ t.fieldDesc = some f ∧
          Pushes sch wt f ∧ ¬ OpensOwn sch data s wt f))

instance (data : Bytes) (buf : Buf) : Decidable (OverlongIn data buf) :=
  decidable_of_iff (((data.drop buf.pos).take 11).length = 11 ∧
    Open ((data.drop buf.pos).take 10) ∧ buf.pos + 11 ≤ buf.stop) (by
    constructor
    · intro h
      obtain ⟨hlen, hopen, hstop⟩ := h
      refine ⟨⟨_, List.take_prefix 11 _, hlen, ?_⟩, hstop⟩
      rwa [List.take_take]
    · intro h
      obtain ⟨⟨bs, hat, hlen, hopen⟩, hstop⟩ := h
      have hbs : (data.drop buf.pos).take 11 = bs := by
        rw [List.prefix_iff_eq_take.mp hat, hlen]
      have hten : (data.drop buf.pos).take 10 = bs.take 10 := by
        rw [← hbs, List.take_take]
        rfl
      rw [hbs, hten]
      exact ⟨hlen, hopen, hstop⟩)

instance : (wt : WireType) → Decidable (∃ code, wt = .unknown code)
  | .unknown code => isTrue ⟨code, rfl⟩
  | .varint | .bit64 | .string | .bit32 => isFalse (by simp)

instance (sch : Schema) (data : Bytes) (s : Dec) (f : FieldRef) :
    Decidable (OwnField sch data s f) :=
  decidable_of_iff (∃ key, decodeVarint data s.frame.buf = .ok key ∧
    ∃ m ∈ s.frame.msgDesc, sch.known m (key.1.toNat / 8) = some f) (by
    simp [OwnField])

instance (sch : Schema) (data : Bytes) (s : Dec) (wt : WireType)
    (f : FieldRef) : Decidable (OpensOwn sch data s wt f) :=
  decidable_of_iff (wt = .string ∧ s.packed = false ∧
    OwnField sch data s f ∧ ((sch.field f).isPackedRepeated = false →
      ∃ d, (sch.field f).msgDesc = some d))
    ⟨fun h => ⟨h.1, h.2.1, h.2.2.1, h.2.2.2⟩,
      fun h => ⟨h.wireType, h.plain, h.own, h.described⟩⟩

/-- Whether a pass leaves the grammar is found by taking it. -/
instance (sch : Schema) (data : Bytes) (s : Dec) :
    Decidable (LeavesGrammar sch data s) :=
  decidable_of_iff (MissesValue sch data s ∨
    (s.point = .loop ∧ 0 < bufLeft s.frame.buf ∧
      ((s.packed = false ∧ OverlongIn data s.frame.buf) ∨
        (s.packed = true ∧ ∃ f ∈ s.fieldDesc,
          fieldWireType (sch.field f).opts.typ = none) ∨
        (∃ key, readKey sch data s = .ok key ∧
          ((∃ code, key.1 = .unknown code) ∨
            ((key.1 = .varint ∨ key.1 = .string) ∧
              OverlongIn data key.2.2))) ∨
        ∃ wt t, Reads sch data s wt t ∧ ∃ f ∈ t.fieldDesc,
          Pushes sch wt f ∧ ¬ OpensOwn sch data s wt f))) (by
    simp [LeavesGrammar])

-- ============================================================ one pass

/-- The field a pass that stays in the grammar has read. -/
theorem occurs_of_reads {s t : Dec} {lv : Level} {p : Nat} {wt : WireType}
    (hs : s.Stands lv p) (hpk : lv.packed = false) (hin : s.Inside data)
    (hleft : 0 < bufLeft s.frame.buf) (hstay : ¬ LeavesGrammar sch data s)
    (h : Reads sch data s wt t) :
    ∃ key pl, Wire.Announces key wt ∧ pl.wireType = wt ∧ pl.Complete ∧
      lv.Holds data p (key ++ pl.bytes) ∧
      t.fieldDesc = (sch.find lv.desc (UInt32.ofNat (keyNumber key))).or
        s.fieldDesc ∧
      (∀ f, OwnField sch data s f ↔
        sch.known lv.desc (keyNumber key) = some f) ∧
      Occurs sch data s lv p pl (key ++ pl.bytes).length t.fieldDesc t := by
  have hmiss : ¬ MissesValue sch data s := fun hmiss => hstay (.inl hmiss)
  have htop := h.inside hs.point hleft hmiss hin t.frame
    (List.mem_cons_self ..)
  have htop₀ := hin s.frame (List.mem_cons_self ..)
  have hframe := h.frame
  have hpk' : s.packed = false := by rw [hs.packed, hpk]
  cases h with
  | @mk fd wv buf buf' hkey hval =>
      have hdesc : s.frame.msgDesc = some lv.desc := by
        rw [hs.frame]
        rfl
      obtain ⟨word, m, hread₀, hm, hwt, hfd⟩ := readKey_plain hpk' hkey
      obtain rfl := Option.some.inj (hdesc.symm.trans hm)
      have hread := hread₀
      rw [hs.frame] at hread
      obtain ⟨key, hvar, hat, rfl, rfl⟩ := decodeVarint_inv_at hread
        (fun hover => hstay (.inr ⟨hs.point, hleft, .inl ⟨hpk', by
          rw [hs.frame]
          exact hover⟩⟩))
      rw [code_number] at hfd
      obtain ⟨pl, hpt, hpl, hatp, rfl, hwv⟩ := readWireValue_inv
        (fun code hcode => hstay (.inr ⟨hs.point, hleft,
          .inr (.inr (.inl ⟨wt, fd, _, hkey, .inl ⟨code, hcode⟩⟩))⟩))
        (fun hv hover => hstay (.inr ⟨hs.point, hleft,
          .inr (.inr (.inl ⟨wt, fd, _, hkey, .inr ⟨hv, hover⟩⟩))⟩)) hval
      have hend : p + (key ++ pl.bytes).length ≤ lv.stop := by
        have hle := htop.ordered.pos_le_stop
        have hle' : p + key.length + pl.bytes.length ≤ lv.stop := hle
        rw [List.length_append]
        omega
      have hbase : lv.base ≤ p := by
        have hle := htop₀.ordered.base_le_pos
        rw [hs.frame] at hle
        exact hle
      have hstop : lv.stop ≤ data.length := by
        have hle := htop₀.stop_le
        rw [hs.frame] at hle
        exact hle
      refine ⟨key, pl, ⟨hvar, hwt⟩, hpt, hpl,
        ⟨hbase, at_append.mpr ⟨hat, hatp⟩, hend, hstop⟩, hfd.symm, ?_,
        ?_, hs.point, hleft, ⟨hs.point, ?_, hs.below, hs.packed⟩, rfl, hwv⟩
      · intro f
        constructor
        · intro h
          obtain ⟨word, b, m, hword, hm, hknown⟩ := h
          rw [hread₀] at hword
          cases hword
          rw [hdesc] at hm
          cases hm
          exact hknown
        · intro hknown
          exact ⟨_, _, lv.desc, hread₀, hdesc, hknown⟩
      · rw [hpt]
        exact .mk hkey hval
      · show Frame.mk _ s.frame.msgDesc = _
        rw [hs.frame, List.length_append, ← Nat.add_assoc]
        rfl

/-- An element that is read in packed mode. -/
theorem occurs_of_reads_elem {s t : Dec} {lv : Level} {p : Nat}
    {wt : WireType} {f : FieldRef} (hs : s.Stands lv p)
    (hpk : lv.packed = true) (hf : s.fieldDesc = some f)
    (hin : s.Inside data) (hleft : 0 < bufLeft s.frame.buf)
    (hstay : ¬ LeavesGrammar sch data s) (h : Reads sch data s wt t) :
    ∃ e : Payload, e.Complete ∧
      fieldWireType (sch.field f).opts.typ = some e.wireType ∧
      lv.Holds data p e.bytes ∧
      Occurs sch data s lv p e e.bytes.length (some f) t := by
  have hmiss : ¬ MissesValue sch data s := fun hmiss => hstay (.inl hmiss)
  have htop := h.inside hs.point hleft hmiss hin t.frame
    (List.mem_cons_self ..)
  have htop₀ := hin s.frame (List.mem_cons_self ..)
  cases h with
  | @mk fd wv buf buf' hkey hval =>
      obtain ⟨rfl, rfl, hdef, g, hg, hwt⟩ :=
        readKey_packed (by rw [hs.packed, hpk]) hkey
      rw [hf] at hg
      cases hg
      obtain ⟨e, rfl, he, hat, rfl, hwv⟩ := readWireValue_inv hdef
        (fun hv hover => hstay (.inr ⟨hs.point, hleft,
          .inr (.inr (.inl ⟨wt, _, _, hkey, .inr ⟨hv, hover⟩⟩))⟩)) hval
      have hreads := Reads.mk hkey hval
      rw [hs.frame] at hat htop₀
      refine ⟨e, he, hwt, ⟨htop₀.ordered.base_le_pos, hat, ?_,
        htop₀.stop_le⟩, hreads, hs.point, hleft,
        ⟨hs.point, ?_, hs.below, hs.packed⟩, hf, hwv⟩
      · have hle := htop.ordered.pos_le_stop
        have hle' : s.frame.buf.pos + e.bytes.length
            ≤ s.frame.buf.stop := hle
        rw [hs.frame] at hle'
        exact hle'
      · show Frame.mk { s.frame.buf with
          pos := s.frame.buf.pos + e.bytes.length } s.frame.msgDesc = _
        rw [hs.frame]
        rfl

/-- Every frame has a descriptor, and packed mode is a packed field's. -/
structure Dec.Framed (sch : Schema) (s : Dec) : Prop where
  desc : ∀ fr ∈ s.frame :: s.below, ∃ m, fr.msgDesc = some m
  packed : s.packed = true → ∃ f, s.fieldDesc = some f ∧
    (sch.field f).isPackedRepeated = true

theorem decodeInit_framed (root : MsgRef) (data : Bytes) (uninit : UInt64) :
    (decodeInit root data uninit).Framed sch where
  desc := fun fr hmem => by
    rw [List.mem_singleton.mp hmem]
    exact ⟨root, rfl⟩
  packed := nofun

theorem Reads.framed {s t : Dec} {wt : WireType}
    (h : Reads sch data s wt t) (hs : s.Framed sch) : t.Framed sch := by
  obtain ⟨hfr, hbelow, hpk, -⟩ := h.frame
  constructor
  · intro fr hmem
    rw [hbelow] at hmem
    rcases List.mem_cons.mp hmem with rfl | hmem
    · rw [hfr]
      exact hs.desc s.frame (List.mem_cons_self ..)
    · exact hs.desc fr (List.mem_cons_of_mem _ hmem)
  · intro hpk'
    rw [hpk] at hpk'
    cases h with
    | mk hkey hval =>
        obtain ⟨-, rfl, -, -⟩ := readKey_packed hpk' hkey
        exact hs.packed hpk'

/-- With bytes left, a run that returns `LWPB_ERR_OK` goes on. -/
theorem moves_of_ok {s : Dec} {out : List (Event Span)} {used : Nat}
    (hleft : 0 < bufLeft s.frame.buf)
    (hhalt : Halts (decodeMove sch root data) s out (.ok used)) :
    ∃ s' o, Moves sch root data s s' o ∧
      decodeMove sch root data s = .next s' o := by
  cases hhalt with
  | stop hmove =>
      cases decodeMove_halt hmove with
      | done _ hzero => omega
  | step hmove _ => exact ⟨_, _, decodeMove_next hmove, hmove⟩

-- ================================================================== walks

/-- The run goes over these bytes to the end of the frame. -/
structure Walks (sch : Schema) (root : MsgRef) (data : Bytes) (s : Dec)
    (lv : Level) (p : Nat) (bs : Bytes) : Prop where
  at_pos : At data p bs
  length_eq : p + bs.length = lv.stop
  exec : ∃ s' o, Exec (decodeMove sch root data) s o s' ∧
    s'.Stands lv lv.stop

/-- At the end of the frame nothing is left. -/
theorem Walks.done {s : Dec} {lv : Level} (hs : s.Stands lv lv.stop) :
    Walks sch root data s lv lv.stop [] :=
  ⟨at_nil, rfl, s, [], .refl s, hs⟩

/-- The bytes of a field, and then the rest. -/
theorem Walks.behind {s u : Dec} {lv : Level} {p : Nat} {bs bs' : Bytes}
    {o : List (Event Span)}
    (h : Walks sch root data u lv (p + bs.length) bs')
    (hin : lv.Holds data p bs) (hexec : Exec (decodeMove sch root data) s o u) :
    Walks sch root data s lv p (bs ++ bs') := by
  obtain ⟨hat, hlen, s', o', hwalk, hs'⟩ := h
  refine ⟨at_append.mpr ⟨hin.at_pos, hat⟩, ?_, s', _, hexec.trans hwalk, hs'⟩
  rw [List.length_append]
  omega

/-- All of a frame is what its length says. -/
theorem Walks.content {s : Dec} {lv : Level} {p d q : Nat} {packed : Bool}
    {bs content : Bytes}
    (h : Walks sch root data s (lv.child p d packed q content.length) q bs)
    (hin : (lv.child p d packed q content.length).Holds data q content) :
    content = bs := by
  have hlen : q + bs.length = q + content.length := h.length_eq
  exact hin.at_pos.unique h.at_pos (by omega)

/-- A field has a key, so what is behind it stands further on. -/
theorem Wire.Announces.behind {key : Bytes} {wt : WireType}
    (h : Wire.Announces key wt) (p : Nat) (pl : Payload) :
    p < p + (key ++ pl.bytes).length := by
  have hpos := h.length_pos
  rw [List.length_append]
  omega

-- ======================================================= runs that stay

/-- A run whose passes all stay in the grammar, on an input whose nesting
the stack holds. -/
structure StaysInGrammar (sch : Schema) (root : MsgRef) (data : Bytes)
    (uninit : UInt64) : Prop where
  fits : ∀ out, ¬ Decodes sch root data uninit out .abort
  stays : ∀ s, DecReach sch root data uninit s →
    ¬ LeavesGrammar sch data s

namespace StaysInGrammar

theorem safe (hr : StaysInGrammar sch root data uninit) {s : Dec}
    (hs : DecReach sch root data uninit s) :
    ¬ MissesValue sch data s ∧ ¬ OpensStale sch data s := by
  refine ⟨fun hmiss => hr.stays s hs (.inl hmiss), ?_⟩
  intro h
  obtain ⟨hpt, hleft, wt, t, f, hreads, hwt, hf, hmsg, -⟩ := h
  exact hr.stays s hs (.inr ⟨hpt, hleft, .inr (.inr (.inr
    ⟨wt, t, f, hreads, hf, .inr hmsg, fun hown => hwt hown.wireType⟩))⟩)

theorem inside (hr : StaysInGrammar sch root data uninit) {s : Dec}
    (hs : DecReach sch root data uninit s) : s.Inside data :=
  DecReach.inside (fun _ h => hr.safe h) hs

/-- A frame is opened for an occurrence the grammar has a frame for. -/
theorem own (hr : StaysInGrammar sch root data uninit) {s t : Dec}
    {wt : WireType} {f : FieldRef} (hs : DecReach sch root data uninit s)
    (hpt : s.point = .loop) (hleft : 0 < bufLeft s.frame.buf)
    (h : Reads sch data s wt t) (hf : t.fieldDesc = some f)
    (hpush : Pushes sch wt f) : OpensOwn sch data s wt f := by
  by_contra hforeign
  exact hr.stays s hs (.inr ⟨hpt, hleft, .inr (.inr (.inr
    ⟨wt, t, f, h, hf, hpush, hforeign⟩))⟩)

/-- What a move leaves, of the moves that the grammar allows. -/
theorem moves_framed (hr : StaysInGrammar sch root data uninit)
    {s s' : Dec} {out : List (Event Span)}
    (hreach : DecReach sch root data uninit s) (hs : s.Framed sch)
    (hmove : Moves sch root data s s' out) : s'.Framed sch := by
  cases hmove with
  | enter => exact ⟨hs.desc, hs.packed⟩
  | pop hpt hleft hbelow =>
      refine ⟨fun fr hmem => hs.desc fr ?_, nofun⟩
      rw [hbelow]
      exact List.mem_cons_of_mem _ hmem
  | skip hpt hleft h hnone => exact h.framed hs
  | @run t _ f hpt hleft h hf hrun hopen =>
      have ht := h.framed hs
      obtain ⟨-, q, -, -, rfl⟩ := hopen
      refine ⟨?_, fun _ => ⟨f, hf, hrun⟩⟩
      intro fr hmem
      rcases List.mem_cons.mp hmem with rfl | hmem
      · exact ht.desc t.frame (List.mem_cons_self ..)
      · exact ht.desc fr hmem
  | @sub wt t _ f hpt hleft h hf hrun hmsg hopen =>
      have hown := hr.own hreach hpt hleft h hf (.inr hmsg)
      have hnorun : (sch.field f).isPackedRepeated = false := by
        cases hpk : (sch.field f).isPackedRepeated with
        | false => rfl
        | true => exact absurd ⟨hown.wireType, hpk⟩ hrun
      have ht := h.framed hs
      obtain ⟨-, q, -, -, rfl⟩ := hopen
      constructor
      · intro fr hmem
        rcases List.mem_cons.mp hmem with rfl | hmem
        · exact hown.described hnorun
        · exact ht.desc fr hmem
      · intro hpk
        obtain ⟨g, hg, hrung⟩ := ht.packed hpk
        have hfg : some f = some g := hf.symm.trans hg
        rw [← Option.some.inj hfg, hnorun] at hrung
        cases hrung
  | value hpt hleft h => exact h.framed hs

theorem framed (hr : StaysInGrammar sch root data uninit) {s : Dec}
    (hs : DecReach sch root data uninit s) : s.Framed sch := by
  have hboth := Reach.invariant
    (I := fun s => DecReach sch root data uninit s ∧ s.Framed sch) ?_ hs
    ⟨Reach.refl _, decodeInit_framed root data uninit⟩
  · exact hboth.2
  intro s s' out h hmove
  exact ⟨Reach.step h.1 hmove,
    hr.moves_framed h.1 h.2 (decodeMove_next hmove)⟩

/-- The descriptors a pass of the run needs are there. -/
theorem ready (hr : StaysInGrammar sch root data uninit) {s : Dec}
    (hs : DecReach sch root data uninit s)
    (hleft : 0 < bufLeft s.frame.buf) (hpt : s.point = .loop) :
    s.Ready sch := by
  have h := hr.framed hs
  refine ⟨h.desc s.frame (List.mem_cons_self ..), fun hpk => ?_⟩
  obtain ⟨f, hf, -⟩ := h.packed hpk
  cases hwt : fieldWireType (sch.field f).opts.typ with
  | none =>
      exact absurd (.inr ⟨hpt, hleft, .inr (.inl ⟨hpk, f, hf, hwt⟩)⟩)
        (hr.stays s hs)
  | some wt => exact ⟨f, wt, hf, hwt⟩

/-- An element of a packed run is no string: it would open a frame in
packed mode. -/
theorem elem_typed (hr : StaysInGrammar sch root data uninit)
    {s t : Dec} {lv : Level} {p n : Nat} {e : Payload} {f : FieldRef}
    (hreach : DecReach sch root data uninit s) (hs : s.Stands lv p)
    (hpk : lv.packed = true) (hrun : (sch.field f).isPackedRepeated = true)
    (hwt : fieldWireType (sch.field f).opts.typ = some e.wireType)
    (hocc : Occurs sch data s lv p e n (some f) t) :
    typed (sch.field f) e.wireType := by
  refine ⟨hwt, fun hstr => ?_⟩
  have hown := hr.own hreach hocc.point hocc.left hocc.reads hocc.desc
    (.inl ⟨hstr, hrun⟩)
  have hplain := hown.plain
  rw [hs.packed, hpk] at hplain
  cases hplain

/-- The bytes left of the frame the decoder stands in. -/
theorem left_eq (hr : StaysInGrammar sch root data uninit) {s : Dec}
    {lv : Level} {p : Nat} (hreach : DecReach sch root data uninit s)
    (hs : s.Stands lv p) :
    bufLeft s.frame.buf = lv.stop - p ∧ p ≤ lv.stop := by
  have htop := hr.inside hreach s.frame (List.mem_cons_self ..)
  have hle := htop.ordered.pos_le_stop
  have hleft := htop.ordered.left
  rw [hs.frame] at hle hleft ⊢
  exact ⟨hleft, hle⟩

-- ================================================================ soundness

/-- A packed run that the call returns from is a sequence of complete
elements. -/
theorem parsed_elems (hr : StaysInGrammar sch root data uninit)
    {f : FieldRef} (hrun : (sch.field f).isPackedRepeated = true) :
    ∀ (n : Nat) {s : Dec} {lv : Level} {p used : Nat}
      {out : List (Event Span)}, lv.stop - p ≤ n →
      DecReach sch root data uninit s → s.Stands lv p →
      lv.packed = true → s.fieldDesc = some f →
      Halts (decodeMove sch root data) s out (.ok used) →
      ∃ elems : List Payload,
        (∀ e ∈ elems, e.Complete ∧
          fieldWireType (sch.field f).opts.typ = some e.wireType) ∧
        Walks sch root data s lv p (elemBytes elems) := by
  intro n
  induction n with
  | zero =>
      intro s lv p used out hn hreach hs hpk hf hhalt
      obtain ⟨-, hle⟩ := hr.left_eq hreach hs
      have hend : p = lv.stop := by omega
      subst hend
      exact ⟨[], nofun, .done hs⟩
  | succ n ih =>
      intro s lv p used out hn hreach hs hpk hf hhalt
      obtain ⟨hleft, hle⟩ := hr.left_eq hreach hs
      by_cases hend : p = lv.stop
      · subst hend
        exact ⟨[], nofun, .done hs⟩
      have hleft' : 0 < bufLeft s.frame.buf := by omega
      -- what the pass reads is an element, and it is reported
      obtain ⟨s₁, o₁, hmoves, -⟩ := moves_of_ok hleft' hhalt
      have hread : ∃ wt t, Reads sch data s wt t := by
        cases hmoves with
        | enter hpt => rw [hs.point] at hpt; cases hpt
        | pop _ hzero => omega
        | skip _ _ h => exact ⟨_, _, h⟩
        | run _ _ h => exact ⟨_, _, h⟩
        | sub _ _ h => exact ⟨_, _, h⟩
        | value _ _ h => exact ⟨_, _, h⟩
      obtain ⟨wt, t, hreads⟩ := hread
      obtain ⟨e, he, hwt, hin, hocc⟩ := occurs_of_reads_elem hs hpk hf
        (hr.inside hreach) hleft' (hr.stays s hreach) hreads
      have htyped := hr.elem_typed hreach hs hpk hrun hwt hocc
      have hnostr := htyped.not_string hrun
      have hexec := hocc.reports root (fun hboth => hnostr hboth.1)
        (htyped.not_message fun hopens => hnostr hopens.1)
      obtain ⟨o', -, hhalt'⟩ := hexec.halts_iff.mp hhalt
      have hpos := he.length_pos
      obtain ⟨elems, hall, hwalks⟩ :=
        ih (by omega) (Reach.trans hreach ⟨_, hexec⟩) hocc.stands hpk
          hocc.desc hhalt'
      refine ⟨e :: elems, ?_, hwalks.behind hin hexec⟩
      intro e' he'
      rcases List.mem_cons.mp he' with rfl | he'
      · exact ⟨he, hwt⟩
      · exact hall e' he'

/-- From here on the frame is a message of the grammar. -/
def Parsed (sch : Schema) (root : MsgRef) (data : Bytes) (s : Dec)
    (lv : Level) (p : Nat) : Prop :=
  ∃ w : Wire, w.WellFormed sch untyped lv.desc ∧
    Walks sch root data s lv p w.bytes

section Fields

variable {s t : Dec} {lv : Level} {p : Nat} {wt : WireType} {f : FieldRef}

/-- An occurrence that is passed over. -/
theorem parsed_skip (hr : StaysInGrammar sch root data uninit)
    (hreach : DecReach sch root data uninit s) (hs : s.Stands lv p)
    (hpk : lv.packed = false) (hleft : 0 < bufLeft s.frame.buf)
    (hreads : Reads sch data s wt t) (hnone : t.fieldDesc = none)
    {o : List (Event Span)} (hexec : Exec (decodeMove sch root data) s o t)
    (hrest : ∀ {u q o}, Exec (decodeMove sch root data) s o u →
      u.Stands lv q → p < q → Parsed sch root data u lv q) :
    Parsed sch root data s lv p := by
  obtain ⟨key, pl, hkey, rfl, hpl, hin, hfd, -, hocc⟩ :=
    occurs_of_reads hs hpk (hr.inside hreach) hleft (hr.stays s hreach)
      hreads
  have hunknown : sch.known lv.desc (keyNumber key) = none := by
    cases hknown : sch.known lv.desc (keyNumber key) with
    | none => rfl
    | some g =>
        rw [Schema.find_of_known hknown, hnone] at hfd
        cases hfd
  obtain ⟨w, hwf, hwalks⟩ := hrest hexec hocc.stands (hkey.behind p pl)
  exact ⟨.unknown key pl w, ⟨hkey, hpl, hunknown, hwf⟩,
    hwalks.behind hin hexec⟩

/-- An occurrence that is reported. It may be one of an unknown field. -/
theorem parsed_value (hr : StaysInGrammar sch root data uninit)
    (hreach : DecReach sch root data uninit s) (hs : s.Stands lv p)
    (hpk : lv.packed = false) (hleft : 0 < bufLeft s.frame.buf)
    (hreads : Reads sch data s wt t) (hf : t.fieldDesc = some f)
    (hrun : ¬ (wt = .string ∧ (sch.field f).isPackedRepeated = true))
    (hmsg : (sch.field f).opts.typ.isMessage = false)
    {o : List (Event Span)} (hexec : Exec (decodeMove sch root data) s o t)
    (hrest : ∀ {u q o}, Exec (decodeMove sch root data) s o u →
      u.Stands lv q → p < q → Parsed sch root data u lv q) :
    Parsed sch root data s lv p := by
  obtain ⟨key, pl, hkey, rfl, hpl, hin, hfd, -, hocc⟩ :=
    occurs_of_reads hs hpk (hr.inside hreach) hleft (hr.stays s hreach)
      hreads
  obtain ⟨w, hwf, hwalks⟩ := hrest hexec hocc.stands (hkey.behind p pl)
  have hwalks := hwalks.behind hin hexec
  cases hknown : sch.known lv.desc (keyNumber key) with
  | none => exact ⟨.unknown key pl w, ⟨hkey, hpl, hknown, hwf⟩, hwalks⟩
  | some g =>
      rw [Schema.find_of_known hknown, hf] at hfd
      cases hfd
      refine ⟨.scalar f key pl w, ⟨hkey, hpl, hknown, ?_, trivial, hwf⟩,
        hwalks⟩
      intro h
      obtain ⟨hstr, hopens⟩ := h
      rcases hopens with hpacked | hmessage
      · exact hrun ⟨hstr, hpacked⟩
      · rw [hmsg] at hmessage
        cases hmessage

/-- A packed run. -/
theorem parsed_run (hr : StaysInGrammar sch root data uninit)
    (hreach : DecReach sch root data uninit s) (hs : s.Stands lv p)
    (hpk : lv.packed = false) (hleft : 0 < bufLeft s.frame.buf)
    (hreads : Reads sch data s .string t) (hf : t.fieldDesc = some f)
    (hrun : (sch.field f).isPackedRepeated = true)
    (hroom : t.depth + 1 ≤ maxDepth) {out : List (Event Span)} {used : Nat}
    (hhalt : Halts (decodeMove sch root data) s out (.ok used))
    (hrest : ∀ {u q o}, Exec (decodeMove sch root data) s o u →
      u.Stands lv q → p < q → Parsed sch root data u lv q) :
    Parsed sch root data s lv p := by
  have hown := hr.own hreach hs.point hleft hreads hf (.inl ⟨rfl, hrun⟩)
  obtain ⟨key, pl, hkey, hplt, hpl, hin, -, hiff, hocc⟩ :=
    occurs_of_reads hs hpk (hr.inside hreach) hleft (hr.stays s hreach)
      hreads
  cases pl with
  | varint | bit64 | bit32 => cases hplt
  | string len content =>
      rw [hf] at hocc
      unfold Dec.depth at hroom
      rw [hocc.stands.below] at hroom
      obtain ⟨v, q, henter, hv, hcontent, hfv⟩ :=
        hocc.enters_run root hpl hrun hroom
      obtain ⟨o', -, hhalt'⟩ := henter.halts_iff.mp hhalt
      obtain ⟨elems, hall, hwalks⟩ :=
        hr.parsed_elems hrun _ (Nat.le_refl _)
          (Reach.trans hreach ⟨_, henter⟩) hv rfl hfv hhalt'
      obtain rfl := hwalks.content hcontent
      obtain ⟨v', oe, hwalk, hv'⟩ := hwalks.exec
      obtain ⟨u, hclose, hu, -⟩ := hv'.close sch root hpk (hin.used hkey)
      have hpass := (henter.trans hwalk).trans hclose
      obtain ⟨w, hwf, hwalksw⟩ := hrest hpass hu (hkey.behind p _)
      exact ⟨.run f key len elems w, ⟨hkey, hpl, (hiff f).mp hown.own, hrun,
        fun e he => ⟨(hall e he).1, trivial, (hall e he).2⟩, hwf⟩,
        hwalksw.behind hin hpass⟩

/-- A submessage, if its contents are a message. -/
theorem parsed_sub (hr : StaysInGrammar sch root data uninit)
    (hreach : DecReach sch root data uninit s) (hs : s.Stands lv p)
    (hpk : lv.packed = false) (hleft : 0 < bufLeft s.frame.buf)
    (hreads : Reads sch data s wt t) (hf : t.fieldDesc = some f)
    (hrun : ¬ (wt = .string ∧ (sch.field f).isPackedRepeated = true))
    (hmsg : (sch.field f).opts.typ.isMessage = true)
    (hroom : t.depth + 1 ≤ maxDepth)
    (hinner : ∀ {u lv' q o}, Exec (decodeMove sch root data) s o u →
      u.Stands lv' q → lv'.packed = false → lv'.stop - q < lv.stop - p →
      Parsed sch root data u lv' q)
    (hrest : ∀ {u q o}, Exec (decodeMove sch root data) s o u →
      u.Stands lv q → p < q → Parsed sch root data u lv q) :
    Parsed sch root data s lv p := by
  have hown := hr.own hreach hs.point hleft hreads hf (.inr hmsg)
  obtain rfl := hown.wireType
  have hnorun : (sch.field f).isPackedRepeated = false := by
    cases hpacked : (sch.field f).isPackedRepeated with
    | false => rfl
    | true => exact absurd ⟨rfl, hpacked⟩ hrun
  obtain ⟨d, hd⟩ := hown.described hnorun
  have hsub := Schema.subDesc_eq hd
  obtain ⟨key, pl, hkey, hplt, hpl, hin, -, hiff, hocc⟩ :=
    occurs_of_reads hs hpk (hr.inside hreach) hleft (hr.stays s hreach)
      hreads
  cases pl with
  | varint | bit64 | bit32 => cases hplt
  | string len content =>
      rw [hf] at hocc
      unfold Dec.depth at hroom
      rw [hocc.stands.below] at hroom
      obtain ⟨v, q, henter, hv, hcontent, -⟩ :=
        hocc.enters_sub root hpl hnorun hmsg hd hpk hroom
      have hshort : content.length < lv.stop - p := by
        have hend := hin.end_le
        have hpos := hkey.length_pos
        rw [List.length_append, Payload.bytes, List.length_append] at hend
        omega
      obtain ⟨body, hbody, hwalks⟩ := hinner henter hv rfl (by
        show q + content.length - q < lv.stop - p
        omega)
      obtain rfl := hwalks.content hcontent
      obtain ⟨v', ob, hwalk, hv'⟩ := hwalks.exec
      obtain ⟨u, hclose, hu, -⟩ := hv'.close sch root hpk (hin.used hkey)
      have hpass := (henter.trans hwalk).trans hclose
      obtain ⟨w, hwf, hwalksw⟩ := hrest hpass hu (hkey.behind p _)
      refine ⟨.sub f key len body w, ⟨hkey, hpl, (hiff f).mp hown.own,
        hnorun, hmsg, trivial, ⟨d, hd⟩, ?_, hwf⟩, hwalksw.behind hin hpass⟩
      rw [hsub]
      exact hbody

end Fields

/-- A frame that the call returns from is a message of the grammar. -/
theorem parsed (hr : StaysInGrammar sch root data uninit) :
    ∀ (n : Nat) {s : Dec} {lv : Level} {p used : Nat}
      {out : List (Event Span)}, lv.stop - p ≤ n →
      DecReach sch root data uninit s → s.Stands lv p →
      lv.packed = false →
      Halts (decodeMove sch root data) s out (.ok used) →
      Parsed sch root data s lv p := by
  intro n
  induction n with
  | zero =>
      intro s lv p used out hn hreach hs hpk hhalt
      obtain ⟨-, hle⟩ := hr.left_eq hreach hs
      have hend : p = lv.stop := by omega
      subst hend
      exact ⟨.nil, trivial, .done hs⟩
  | succ n ih =>
      intro s lv p used out hn hreach hs hpk hhalt
      obtain ⟨hleft, hle⟩ := hr.left_eq hreach hs
      by_cases hend : p = lv.stop
      · subst hend
        exact ⟨.nil, trivial, .done hs⟩
      have hleft' : 0 < bufLeft s.frame.buf := by omega
      -- a frame with less left is a message, the rest of this one included
      have hinner : ∀ {u lv' q o}, Exec (decodeMove sch root data) s o u →
          u.Stands lv' q → lv'.packed = false →
          lv'.stop - q < lv.stop - p → Parsed sch root data u lv' q := by
        intro u lv' q o hexec hu hpk' hless
        obtain ⟨o', -, hhalt'⟩ := hexec.halts_iff.mp hhalt
        exact ih (by omega) (Reach.trans hreach ⟨_, hexec⟩) hu hpk' hhalt'
      have hrest : ∀ {u q o}, Exec (decodeMove sch root data) s o u →
          u.Stands lv q → p < q → Parsed sch root data u lv q :=
        fun hexec hu hlt => hinner hexec hu hpk (by omega)
      obtain ⟨s₁, o₁, hmoves, hmove⟩ := moves_of_ok hleft' hhalt
      cases hmoves with
      | enter hpt => rw [hs.point] at hpt; cases hpt
      | pop _ hzero => omega
      | skip _ _ hreads hnone =>
          exact hr.parsed_skip hreach hs hpk hleft' hreads hnone
            (.single hmove) hrest
      | value _ _ hreads hf hrun hmsg _ =>
          exact hr.parsed_value hreach hs hpk hleft' hreads hf hrun hmsg
            (.single hmove) hrest
      | run _ _ hreads hf hrun hopen =>
          exact hr.parsed_run hreach hs hpk hleft' hreads hf hrun hopen.depth
            hhalt hrest
      | sub _ _ hreads hf hrun hmsg hopen =>
          exact hr.parsed_sub hreach hs hpk hleft' hreads hf hrun hmsg
            hopen.depth hinner hrest

-- ============================================================ completeness

/-- The pass over an occurrence of field `f` that is not one of the
frames of the grammar does not push a frame. -/
theorem not_pushes (hr : StaysInGrammar sch root data uninit) {s t : Dec}
    {lv : Level} {p n : Nat} {pl : Payload} {f : FieldRef}
    (hreach : DecReach sch root data uninit s)
    (hocc : Occurs sch data s lv p pl n (some f) t)
    (hforeign : ¬ OpensOwn sch data s pl.wireType f) :
    ¬ (pl.wireType = .string ∧ (sch.field f).isPackedRepeated = true) ∧
      (sch.field f).opts.typ.isMessage = false := by
  have hno : ¬ Pushes sch pl.wireType f := fun hpush =>
    hforeign (hr.own hreach hocc.point hocc.left hocc.reads hocc.desc hpush)
  refine ⟨fun hrun => hno (.inl hrun), ?_⟩
  cases hmsg : (sch.field f).opts.typ.isMessage with
  | false => rfl
  | true => exact absurd (.inr hmsg) hno

/-- The field of the grammar's key is the one the decoder looks up. -/
theorem own_iff (hr : StaysInGrammar sch root data uninit) {s t : Dec}
    {lv : Level} {p : Nat} {key : Bytes} {pl : Payload}
    {fd : Option FieldRef} (hreach : DecReach sch root data uninit s)
    (hs : s.Stands lv p) (hpk : lv.packed = false)
    (hkey : Wire.Announces key pl.wireType)
    (hin : lv.Holds data p (key ++ pl.bytes))
    (hocc : Occurs sch data s lv p pl (key ++ pl.bytes).length fd t)
    (f : FieldRef) :
    OwnField sch data s f ↔ sch.known lv.desc (keyNumber key) = some f := by
  obtain ⟨key', pl', hkey', -, -, hin', -, hiff, -⟩ :=
    occurs_of_reads hs hpk (hr.inside hreach) hocc.left
      (hr.stays s hreach) hocc.reads
  -- the key that was read is the key that stands there
  obtain ⟨zs, hzs⟩ := hin.left.at_pos
  obtain ⟨zs', hzs'⟩ := hin'.left.at_pos
  obtain ⟨rfl, -⟩ := hkey.1.1.prefix_free hkey'.1.1 (hzs.trans hzs'.symm)
  exact hiff f

/-- A push in this run finds a slot. -/
theorem room (hr : StaysInGrammar sch root data uninit) {s t : Dec}
    {lv : Level} {p n : Nat} {f : FieldRef} {len content : Bytes}
    (hreach : DecReach sch root data uninit s)
    (hocc : Occurs sch data s lv p (.string len content) n (some f) t)
    (hpush : (sch.field f).isPackedRepeated = true ∨
      (sch.field f).opts.typ.isMessage = true) :
    lv.below.length + 2 ≤ maxDepth := by
  by_contra hfull
  obtain ⟨o₁, hexec⟩ := hreach
  obtain ⟨out, habort⟩ := hocc.aborts root hpush (Nat.not_le.mp hfull)
  exact hr.fits _ (hexec.halts habort)

/-- A field that the grammar does not know is passed over, or reported as
the field before it. -/
theorem passes_unknown (hr : StaysInGrammar sch root data uninit)
    {s t : Dec} {lv : Level} {p : Nat} {key : Bytes} {pl : Payload}
    (hreach : DecReach sch root data uninit s) (hs : s.Stands lv p)
    (hpk : lv.packed = false) (hkey : Wire.Announces key pl.wireType)
    (hin : lv.Holds data p (key ++ pl.bytes))
    (hunknown : sch.known lv.desc (keyNumber key) = none)
    (hocc : Occurs sch data s lv p pl (key ++ pl.bytes).length
      ((sch.find lv.desc (UInt32.ofNat (keyNumber key))).or s.fieldDesc) t) :
    ∃ o, Exec (decodeMove sch root data) s o t := by
  generalize hfd : (sch.find lv.desc
    (UInt32.ofNat (keyNumber key))).or s.fieldDesc = fd at hocc
  cases fd with
  | none => exact ⟨_, hocc.skips root⟩
  | some g =>
      have hforeign : ¬ OpensOwn sch data s pl.wireType g := by
        intro hown
        have hknown :=
          (hr.own_iff hreach hs hpk hkey hin hocc g).mp hown.own
        rw [hunknown] at hknown
        cases hknown
      obtain ⟨hrun, hmsg⟩ := hr.not_pushes hreach hocc hforeign
      exact ⟨_, hocc.reports root hrun hmsg⟩

/-- A field without a frame of its own is reported. -/
theorem passes_scalar (hr : StaysInGrammar sch root data uninit)
    {s t : Dec} {lv : Level} {p n : Nat} {pl : Payload} {f : FieldRef}
    (hreach : DecReach sch root data uninit s)
    (hnot : ¬ (sch.field f).opens pl.wireType)
    (hocc : Occurs sch data s lv p pl n (some f) t) :
    ∃ o, Exec (decodeMove sch root data) s o t := by
  by_cases hstr : pl.wireType = .string
  · refine ⟨_, hocc.reports root
      (fun hrun => hnot ⟨hstr, .inl hrun.2⟩) ?_⟩
    cases hmsg : (sch.field f).opts.typ.isMessage with
    | false => rfl
    | true => exact absurd ⟨hstr, .inr hmsg⟩ hnot
  · obtain ⟨hrun, hmsg⟩ := hr.not_pushes hreach hocc
      fun hown => hstr hown.wireType
    exact ⟨_, hocc.reports root hrun hmsg⟩

/-- A field that is passed, and the rest behind it. -/
theorem behind_field {s u : Dec} {lv : Level} {p : Nat} {bs rest : Bytes}
    {o : List (Event Span)} (hpass : Exec (decodeMove sch root data) s o u)
    (h : ∃ s' o, Exec (decodeMove sch root data) u o s' ∧
      s'.Stands lv (p + bs.length + rest.length)) :
    ∃ s' o, Exec (decodeMove sch root data) s o s' ∧
      s'.Stands lv (p + (bs ++ rest).length) := by
  obtain ⟨s', o', hwalk, hs'⟩ := h
  refine ⟨s', _, hpass.trans hwalk, ?_⟩
  rw [List.length_append, ← Nat.add_assoc]
  exact hs'

/-- The elements of a run that is entered are typed. -/
theorem elems_typed (hr : StaysInGrammar sch root data uninit)
    {s t : Dec} {lv : Level} {p n : Nat} {f : FieldRef} {len : Bytes}
    {elems : List Payload} (hreach : DecReach sch root data uninit s)
    (hocc : Occurs sch data s lv p (.string len (elemBytes elems)) n
      (some f) t)
    (hpl : (Payload.string len (elemBytes elems)).Complete)
    (hrun : (sch.field f).isPackedRepeated = true)
    (hdepth : lv.below.length + 2 ≤ maxDepth)
    (hall : ∀ e ∈ elems, e.Complete ∧
      fieldWireType (sch.field f).opts.typ = some e.wireType) :
    ∀ e ∈ elems, typed (sch.field f) e.wireType := by
  cases elems with
  | nil => exact fun e he => absurd he List.not_mem_nil
  | cons e₀ elems =>
      obtain ⟨v, q, henter, hv, hcontent, hfv⟩ :=
        hocc.enters_run root hpl hrun hdepth
      obtain ⟨he, hwt⟩ := hall e₀ (List.mem_cons_self ..)
      have hin : (lv.child (p + n) lv.desc true q _).Holds data q
          (e₀.bytes ++ elemBytes elems) := hcontent
      obtain ⟨u, hocc'⟩ := hv.occurs_elem rfl hfv hwt he hin.left
      have htyped := hr.elem_typed (Reach.trans hreach ⟨_, henter⟩) hv rfl
        hrun hwt hocc'
      -- the type decides the wire type, of all elements alike
      intro e hmem
      obtain ⟨-, hwt'⟩ := hall e hmem
      rw [hwt] at hwt'
      rw [← Option.some.inj hwt']
      exact htyped

/-- A message of the grammar is walked to its end. -/
theorem accepted (hr : StaysInGrammar sch root data uninit) {w : Wire} :
    ∀ {s : Dec} {lv : Level} {p : Nat},
      DecReach sch root data uninit s → s.Stands lv p →
      lv.packed = false → w.WellFormed sch untyped lv.desc →
      lv.Holds data p w.bytes →
      ∃ s' o, Exec (decodeMove sch root data) s o s' ∧
        s'.Stands lv (p + w.bytes.length) := by
  induction w with
  | nil =>
      intro s lv p _ hs _ _ _
      exact ⟨s, [], .refl s, hs⟩
  | unknown key pl rest ih =>
      intro s lv p hreach hs hpk hwf hin
      obtain ⟨hkey, hpl, hunknown, hrest⟩ := hwf
      obtain ⟨t, hocc⟩ := hs.occurs sch hpk hkey hpl hin.left
      obtain ⟨o, hpass⟩ := hr.passes_unknown hreach hs hpk hkey hin.left
        hunknown hocc
      exact behind_field hpass (ih (Reach.trans hreach ⟨o, hpass⟩)
        hocc.stands hpk hrest hin.right)
  | scalar f key pl rest ih =>
      intro s lv p hreach hs hpk hwf hin
      obtain ⟨hkey, hpl, hknown, hnot, -, hrest⟩ := hwf
      obtain ⟨t, hocc⟩ := hs.occurs sch hpk hkey hpl hin.left
      rw [Wire.find_of_item hknown] at hocc
      obtain ⟨o, hpass⟩ := hr.passes_scalar hreach hnot hocc
      exact behind_field hpass (ih (Reach.trans hreach ⟨o, hpass⟩)
        hocc.stands hpk hrest hin.right)
  | sub f key len body rest ihb ihr =>
      intro s lv p hreach hs hpk hwf hin
      obtain ⟨hkey, hpl, hknown, hnorun, hmsg, -, ⟨d, hd⟩, hbody, hrest⟩ :=
        hwf
      have hsub := Schema.subDesc_eq hd
      rw [hsub] at hbody
      obtain ⟨t, hocc⟩ := hs.occurs sch hpk hkey hpl hin.left
      rw [Wire.find_of_item hknown] at hocc
      have hdepth := hr.room hreach hocc (.inr hmsg)
      obtain ⟨v, q, henter, hv, hcontent, -⟩ := hocc.enters_sub root hpl
        hnorun hmsg hd hpk hdepth
      obtain ⟨v', ob, hwalk, hv'⟩ := ihb (Reach.trans hreach ⟨_, henter⟩)
        hv rfl hbody hcontent
      obtain ⟨u, hclose, hu, -⟩ := hv'.close sch root hpk
        (hin.left.used hkey)
      have hpass := (henter.trans hwalk).trans hclose
      exact behind_field hpass (ihr (Reach.trans hreach ⟨_, hpass⟩) hu hpk
        hrest hin.right)
  | run f key len elems rest ih =>
      intro s lv p hreach hs hpk hwf hin
      obtain ⟨hkey, hpl, hknown, hrun, hall, hrest⟩ := hwf
      obtain ⟨t, hocc⟩ := hs.occurs sch hpk hkey hpl hin.left
      rw [Wire.find_of_item hknown] at hocc
      have hdepth := hr.room hreach hocc (.inl hrun)
      have htyped := hr.elems_typed hreach hocc hpl hrun hdepth
        (fun e he => ⟨(hall e he).1, (hall e he).2.2⟩)
      obtain ⟨u, o, hpass, hu, -⟩ := Wire.passes_packed root hs hpk hkey hpl
        hknown hrun (fun e he => ⟨(hall e he).1, htyped e he,
          (hall e he).2.2⟩) hdepth hin.left
      exact behind_field hpass (ih (Reach.trans hreach ⟨_, hpass⟩) hu hpk
        hrest hin.right)

/-- The call returns to its caller. -/
theorem returned (hr : StaysInGrammar sch root data uninit)
    {out : List (Event Span)} {r : Result}
    (hdec : Decodes sch root data uninit out r) : r.Returned := by
  cases r with
  | ok used => exact .inl ⟨used, rfl⟩
  | err e => exact .inr ⟨e, rfl⟩
  | abort => exact absurd hdec (hr.fits out)
  | fault f =>
      obtain ⟨s, o₁, o₂, he, hmove, -⟩ := hdec.last
      have hreach : DecReach sch root data uninit s := ⟨o₁, he⟩
      obtain ⟨hmiss, hstale⟩ := hr.safe hreach
      exact absurd hmove (decodeMove_no_fault (hr.ready hreach)
        (hr.inside hreach) hmiss hstale f o₂)

end StaysInGrammar

/-- A run that stays in the grammar returns `LWPB_ERR_OK` exactly on the
byte strings of the grammar, and an error on all others. -/
theorem decode_accepts_grammar
    (hr : StaysInGrammar sch root data uninit) :
    AcceptsGrammar sch root data uninit := by
  obtain ⟨s, henter, hs, -⟩ := decodeInit_enter sch root data uninit
  have hreach : DecReach sch root data uninit s := ⟨_, henter⟩
  constructor
  · intro h
    obtain ⟨w, hwf, rfl⟩ := h
    obtain ⟨s', o, hwalk, hs'⟩ := hr.accepted hreach hs rfl hwf
      (rootLevel_holds root w.bytes)
    rw [Nat.zero_add] at hs'
    exact ⟨_, _, (henter.trans hwalk).halts hs'.done⟩
  · intro hnot
    obtain ⟨out, r, hdec⟩ := decode_halts sch root data uninit
    rcases hr.returned hdec with ⟨used, rfl⟩ | ⟨e, rfl⟩
    · obtain ⟨o', -, hhalt⟩ := henter.halts_iff.mp hdec
      obtain ⟨w, hwf, hwalks⟩ := hr.parsed _ (Nat.le_refl _) hreach hs rfl
        hhalt
      have hlen : 0 + w.bytes.length = data.length := hwalks.length_eq
      exact absurd
        ⟨w, hwf, hwalks.at_pos.unique (at_zero data) (by omega)⟩ hnot
    · exact ⟨out, e, hdec⟩

/-- The run over a submessage and a packed run stays in the grammar. -/
theorem decode_accepts_grammar_nested :
    AcceptsGrammar nestedSchema 0 nestedInput 0 := by
  obtain ⟨out, hdec⟩ : ∃ out, Decodes nestedSchema 0 nestedInput 0 out
      (.ok 23) := halts_of_result 20 (by decide +kernel)
  refine decode_accepts_grammar ⟨hdec.only nofun, fun s hs => ?_⟩
  exact hs.of_checked (P := fun s => ¬ LeavesGrammar nestedSchema nestedInput s)
    20 (by decide +kernel)

/-- Eleven bytes of a key, two of them inside the frame: the reader refuses
them there, and the run stays in the grammar. -/
example :
    let data : Bytes := [0x0a, 2] ++ List.replicate 10 0x80 ++ [0]
    checked (decodeMove nestedSchema 0 data)
      (fun s => decide (¬ LeavesGrammar nestedSchema data s)) 20
      (decodeInit 0 data 0) = true := by
  decide +kernel

/-- A key of an unknown field with the undefined wire type 3 is a whole
message for the decoder. -/
theorem decode_accepts_undefined : ¬ AcceptsGrammar oneInt32 0 [0x13] 0 := by
  intro h
  have hnot : ¬ InGrammar oneInt32 0 [0x13] := by
    intro h
    obtain ⟨w, hwf, hbytes⟩ := h
    -- a key and a payload take two bytes at least
    have htwo : w = .nil ∨ 2 ≤ w.bytes.length := by
      cases w with
      | nil => exact .inl rfl
      | unknown key p rest =>
          have hkey := hwf.1.length_pos
          have hp := hwf.2.1.length_pos
          refine .inr ?_
          simp only [Wire.bytes, List.length_append]
          omega
      | scalar f key p rest =>
          have hkey := hwf.1.length_pos
          have hp := hwf.2.1.length_pos
          refine .inr ?_
          simp only [Wire.bytes, List.length_append]
          omega
      | sub f key len body rest =>
          have hkey := hwf.1.length_pos
          have hlen := hwf.2.1.1.1.length_pos
          refine .inr ?_
          simp only [Wire.bytes, List.length_append]
          omega
      | run f key len elems rest =>
          have hkey := hwf.1.length_pos
          have hlen := hwf.2.1.1.1.length_pos
          refine .inr ?_
          simp only [Wire.bytes, List.length_append]
          omega
    rcases htwo with rfl | htwo
    · cases hbytes
    · rw [hbytes] at htwo
      exact absurd htwo (by decide)
  obtain ⟨out, e, hdec⟩ := h.rejects hnot
  have hok : Decodes oneInt32 0 [0x13] 0
      [.msgStart 0 false, .msgEnd 0 false] (.ok 1) := halts_of_eval 4 rfl
  cases (hdec.unique hok).2

end Lwpb
