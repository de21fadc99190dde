/-
Wire types and declared types.

The switch that reads a wire value looks at the wire type of the key, the
one that converts it looks at the declared type of the field, and nothing
compares the two. `MoveAgrees` says what such a comparison would give:
whatever a move reports, or opens a frame for, is an occurrence of the
wire type its field declares, and the value or frame is that of its own
payload. `Misreads` is the pass that breaks it; besides the mismatch it
has one more case, a payload whose varint is longer than ten bytes and so
is no payload at all.

`decode_agrees_iff`: the runs whose moves all agree are the runs without
such a pass.
-/
import Lwpb.Proofs.Decoder.Walk

namespace Lwpb

open Machine Base128 Slice

variable {sch : Schema} {root : MsgRef} {data : Bytes} {uninit : UInt64}

-- ============================================================== agreement

/-- The wire types an occurrence of a field may have: the one of its
declared type, or length-delimited for a packed field. -/
def FieldDesc.Declares (d : FieldDesc) (wt : WireType) : Prop :=
  fieldWireType d.opts.typ = some wt ∨
    (wt = .string ∧ d.isPackedRepeated = true)

/-- The payload is complete and stands at this position. -/
structure Payload.StandsAt (data : Bytes) (pos : Nat) (wt : WireType)
    (p : Payload) : Prop where
  wireType : p.wireType = wt
  complete : p.Complete
  at_pos : At data pos p.bytes

/-- The frame covers the content of a length-delimited payload. -/
def Payload.Covers (data : Bytes) (pos : Nat) (b : Buf) : Payload → Prop
  | .string len content =>
      b = bufInit (pos + len.length) content.length ∧
        pos + len.length + content.length ≤ data.length
  | _ => False

/-- The key a pass reads, or goes without in packed mode: the wire type
and where the payload starts. -/
def KeyAt (sch : Schema) (data : Bytes) (s : Dec) (wt : WireType)
    (pos : Nat) : Prop :=
  ∃ fd buf, readKey sch data s = .ok (wt, fd, buf) ∧ buf.pos = pos

/-- What the move from `s` reports, and the frame it opens, are those of
the occurrence it read. -/
structure MoveAgrees (sch : Schema) (root : MsgRef) (data : Bytes)
    (s : Dec) : Prop where
  value : ∀ m f v packed,
    .field m f (some v) packed ∈ (decodeMove sch root data s).out →
    ∃ (wt : WireType) (pos : Nat) (p : Payload), KeyAt sch data s wt pos ∧
      fieldWireType (sch.field f).opts.typ = some wt ∧
      p.StandsAt data pos wt ∧
      v.map (spanBytes data) = p.read (sch.field f).opts.typ ∧
      v.InInput data
  message : ∀ m f packed,
    .field m f none packed ∈ (decodeMove sch root data s).out →
    ∃ (wt : WireType) (pos : Nat) (p : Payload), KeyAt sch data s wt pos ∧
      fieldWireType (sch.field f).opts.typ = some wt ∧
      p.StandsAt data pos wt
  frame : ∀ s' out, decodeMove sch root data s = .next s' out →
    s'.depth = s.depth + 1 →
    ∃ (f : FieldRef) (pos : Nat) (p : Payload),
      KeyAt sch data s .string pos ∧ s'.fieldDesc = some f ∧
      (sch.field f).Declares .string ∧ p.StandsAt data pos .string ∧
      p.Covers data pos s'.frame.buf

/-- The pass takes an occurrence for a field that declares another wire
type, or takes a varint of more than ten bytes for a payload. (A packed
run is opened only if the stack has a slot for it.) -/
def Misreads (sch : Schema) (data : Bytes) (s : Dec) : Prop :=
  s.point = .loop ∧ 0 < bufLeft s.frame.buf ∧
    ∃ wt f buf r, readKey sch data s = .ok (wt, some f, buf) ∧
      readWireValue data wt s.wireValue buf = .ok r ∧
      (¬ (sch.field f).Declares wt ∨
        ((wt = .varint ∨ wt = .string) ∧ Overlong data buf.pos ∧
          ((wt = .string ∧ (sch.field f).isPackedRepeated = true) →
            s.depth + 1 ≤ maxDepth)))

-- =========================================================== inversion

/-- A field that is reported was read by the pass that reports it. -/
theorem decodeMove_field {s : Dec} {m : MsgRef} {f : FieldRef}
    {v : Option (Value Span)} {packed : Bool}
    (h : .field m f v packed ∈ (decodeMove sch root data s).out) :
    s.point = .loop ∧ 0 < bufLeft s.frame.buf ∧
      ∃ wt t, Reads sch data s wt t ∧ t.fieldDesc = some f ∧
        ¬ (wt = .string ∧ (sch.field f).isPackedRepeated = true) ∧
        (v = none ∨
          v = some (convert (sch.field f).opts.typ t.wireValue)) := by
  unfold decodeMove at h
  split at h
  case h_1 =>
    unfold notifyStart at h
    split at h
    · split at h <;> simp [Move.out] at h
    · simp [Move.out] at h
  case h_2 hpt =>
    split at h
    case isFalse =>
      unfold leave notifyEnd at h
      split at h <;> split at h <;> simp [Move.out] at h
    case isTrue hleft =>
      refine ⟨hpt, hleft, ?_⟩
      rcases pass_cases sch root data s with
        ⟨wt, t, hreads, hpass⟩ | ⟨-, r, hpass⟩
      case inr =>
        rw [hpass] at h
        cases h
      refine ⟨wt, t, hreads, ?_⟩
      rw [hpass] at h
      unfold dispatch at h
      split at h
      · cases h
      · next g hg =>
          dsimp only at h
          split at h
          · rw [pushStackFrame_out] at h
            cases h
          · next hrun =>
              have hrun' : ¬ (wt = .string ∧
                  (sch.field g).isPackedRepeated = true) := by
                simpa using hrun
              split at h
              · rw [pushStackFrame_out] at h
                cases List.mem_singleton.mp h
                exact ⟨hg, hrun', .inl rfl⟩
              · split at h
                · cases h
                · cases List.mem_singleton.mp h
                  exact ⟨hg, hrun', .inr rfl⟩

theorem fieldWireType_defined {typ : FieldType} {wt : WireType}
    (h : fieldWireType typ = some wt) (code : Nat) : wt ≠ .unknown code := by
  intro h
  subst h
  cases typ <;> cases h

theorem FieldDesc.Declares.defined {d : FieldDesc} {wt : WireType}
    (h : d.Declares wt) (code : Nat) : wt ≠ .unknown code := by
  rcases h with h | ⟨rfl, -⟩
  · exact fieldWireType_defined h code
  · exact nofun

/-- A complete varint stands where an overlong one does not. -/
theorem Payload.StandsAt.not_overlong {pos : Nat} {wt : WireType}
    {p : Payload} (h : p.StandsAt data pos wt)
    (hwt : wt = .varint ∨ wt = .string) : ¬ Overlong data pos := by
  intro h
  obtain ⟨bs, hat, hlen, hopen⟩ := h
  obtain ⟨v, rest, hbytes, hv⟩ : ∃ v rest, p.bytes = v ++ rest ∧
      IsVarint v := by
    obtain ⟨hpt, hcomplete, -⟩ := h
    cases p with
    | varint v => exact ⟨v, [], (List.append_nil v).symm, hcomplete⟩
    | string len content => exact ⟨len, content, rfl, hcomplete.1⟩
    | bit64 b => rcases hwt with rfl | rfl <;> cases hpt
    | bit32 b => rcases hwt with rfl | rfl <;> cases hpt
  have hatv : At data pos v := by
    have hatp := h.at_pos
    rw [hbytes] at hatp
    exact (at_append.mp hatp).1
  -- the varint is a prefix of the ten continuation bytes
  have hprefix : v <+: bs.take 10 := by
    obtain ⟨ys, hys⟩ := hatv
    obtain ⟨zs, hzs⟩ := hat
    have htake : bs.take 10 <+: data.drop pos :=
      (List.take_prefix 10 bs).trans ⟨zs, hzs⟩
    refine List.prefix_of_prefix_length_le ⟨ys, hys⟩ htake ?_
    have := hv.2
    rw [List.length_take, hlen]
    omega
  obtain ⟨ys, hys⟩ := hprefix
  rw [← hys] at hopen
  exact hopen.not_terminated_prefix hv.1

theorem KeyAt.unique {s : Dec} {wt wt' : WireType} {pos : Nat}
    {fd : Option FieldRef} {buf : Buf} (h : KeyAt sch data s wt' pos)
    (hkey : readKey sch data s = .ok (wt, fd, buf)) :
    wt' = wt ∧ pos = buf.pos := by
  obtain ⟨fd', buf', hkey', rfl⟩ := h
  rw [hkey] at hkey'
  cases hkey'
  exact ⟨rfl, rfl⟩

-- ============================================================ packed mode

/-- In packed mode the frame has a descriptor and `field_desc` is a
packed field. -/
def Dec.PackedMode (sch : Schema) (s : Dec) : Prop :=
  s.packed = true → (∃ m, s.frame.msgDesc = some m) ∧
    ∃ f, s.fieldDesc = some f ∧ (sch.field f).isPackedRepeated = true

/-- The frame a pass reads from has a descriptor. -/
theorem Reads.desc {s t : Dec} {wt : WireType} (hs : s.PackedMode sch)
    (h : Reads sch data s wt t) : ∃ m, t.frame.msgDesc = some m := by
  rw [h.frame.1]
  cases hpk : s.packed with
  | true => exact (hs hpk).1
  | false =>
      cases h with
      | mk hkey hval =>
          obtain ⟨key, m, -, hm, -⟩ := readKey_plain hpk hkey
          exact ⟨m, hm⟩

theorem Reads.packedMode {s t : Dec} {wt : WireType}
    (hs : s.PackedMode sch) (h : Reads sch data s wt t) :
    t.PackedMode sch := by
  intro hpk
  refine ⟨h.desc hs, ?_⟩
  rw [h.frame.2.2.1] at hpk
  cases h with
  | mk hkey hval =>
      obtain ⟨-, rfl, -, -⟩ := readKey_packed hpk hkey
      exact (hs hpk).2

theorem Moves.packedMode {s s' : Dec} {out : List (Event Span)}
    (h : Moves sch root data s s' out) (hs : s.PackedMode sch) :
    s'.PackedMode sch := by
  cases h with
  | enter => exact hs
  | pop => exact nofun
  | skip hpt hleft hreads hnone => exact hreads.packedMode hs
  | @run t s' f hpt hleft hreads hf hrun hopen =>
      have hdesc := hreads.desc hs
      obtain ⟨-, q, -, -, rfl⟩ := hopen
      exact fun _ => ⟨hdesc, f, hf, hrun⟩
  | @sub wt t s' f hpt hleft hreads hf hnot hmsg hopen =>
      obtain ⟨-, q, -, -, rfl⟩ := hopen
      intro hpk
      -- a packed field of a message type would have been a run
      have hpk' : s.packed = true := by
        rw [← hreads.frame.2.2.1]
        exact hpk
      have ht := (hreads.packedMode hs hpk).2
      cases hreads with
      | mk hkey hval =>
          obtain ⟨-, -, -, g, hg, hwt⟩ := readKey_packed hpk' hkey
          obtain ⟨g', hg', hrun⟩ := ht
          obtain ⟨-, rfl, -, -⟩ := readKey_packed hpk' hkey
          have hfg : f = g := by
            have hf' : s.fieldDesc = some f := hf
            rw [hg] at hf'
            exact (Option.some.inj hf').symm
          have hfg' : f = g' := by
            have hf' : some g' = some f := hg'.symm.trans hf
            exact (Option.some.inj hf').symm
          subst hfg
          subst hfg'
          cases htyp : (sch.field f).opts.typ with
          | message =>
              rw [htyp] at hwt
              exact absurd ⟨(Option.some.inj hwt).symm, hrun⟩ hnot
          | group => rw [htyp] at hwt; cases hwt
          | _ => rw [htyp] at hmsg; cases hmsg
  | value hpt hleft hreads => exact hreads.packedMode hs

theorem DecReach.packedMode {s : Dec}
    (h : DecReach sch root data uninit s) : s.PackedMode sch :=
  Reach.invariant (I := Dec.PackedMode sch)
    (fun _ _ _ hs hmove => (decodeMove_next hmove).packedMode hs) h nofun

-- ====================================================== no misread, agreement

/-- The payload of a pass that does not misread. -/
theorem payload_of_reads {s t : Dec} {wt : WireType} {f : FieldRef}
    (hpt : s.point = .loop) (hleft : 0 < bufLeft s.frame.buf)
    (hno : ¬ Misreads sch data s) (h : Reads sch data s wt t)
    (hf : t.fieldDesc = some f)
    (hroom : (wt = .string ∧ (sch.field f).isPackedRepeated = true) →
      s.depth + 1 ≤ maxDepth) :
    (sch.field f).Declares wt ∧ ∃ (pos : Nat) (p : Payload),
      KeyAt sch data s wt pos ∧ p.StandsAt data pos wt ∧
      t.frame.buf.pos = pos + p.bytes.length ∧
      Carries data t.wireValue p := by
  cases h with
  | @mk fd wv buf buf' hkey hval =>
      have hf' : fd = some f := hf
      subst hf'
      have hdecl : (sch.field f).Declares wt := by
        by_contra hbad
        exact hno ⟨hpt, hleft, wt, f, buf, _, hkey, hval, .inl hbad⟩
      refine ⟨hdecl, ?_⟩
      obtain ⟨p, hwt, hp, hat, rfl, hwv⟩ := readWireValue_inv hdecl.defined
        (fun hvar hover => hno ⟨hpt, hleft, wt, f, buf, _, hkey, hval,
          .inr ⟨hvar, hover.1, hroom⟩⟩) hval
      exact ⟨buf.pos, p, ⟨_, buf, hkey, rfl⟩, ⟨hwt, hp, hat⟩, rfl, hwv⟩

/-- The frame opened on a length-delimited payload covers its content. -/
theorem covers_of_opens {t s' : Dec} {p : Payload} {pos : Nat}
    {desc : Option MsgRef} {packed : Bool}
    (hp : p.StandsAt data pos .string)
    (hend : t.frame.buf.pos = pos + p.bytes.length)
    (hspan : ∃ q, t.wireValue.data = some q ∧
      t.frame.buf.pos = q + t.wireValue.word.toNat)
    (hwv : Carries data t.wireValue p)
    (h : Opens data t desc packed s') : p.Covers data pos s'.frame.buf := by
  obtain ⟨hpt, hcomplete, hat⟩ := hp
  cases p with
  | string len content =>
      obtain ⟨q, hq, hqend⟩ := hspan
      obtain ⟨hword, -⟩ := hwv
      have hlen : t.wireValue.word.toNat = content.length := by
        rw [hword, hcomplete.2]
      rw [Payload.bytes, List.length_append] at hend
      have hpos : q = pos + len.length := by omega
      obtain ⟨-, q', hq', hle, rfl⟩ := h
      rw [hq] at hq'
      obtain rfl := Option.some.inj hq'
      refine ⟨?_, by omega⟩
      show bufInit q t.wireValue.word.toNat = _
      rw [hpos, hlen]
  | varint v => cases hpt
  | bit64 b => cases hpt
  | bit32 b => cases hpt

theorem Reads.span {s t : Dec} (h : Reads sch data s .string t) :
    ∃ q, t.wireValue.data = some q ∧
      t.frame.buf.pos = q + t.wireValue.word.toNat := by
  cases h with
  | mk hkey hval =>
      obtain ⟨len, b, -, -, -, rfl, rfl⟩ := readWireValue_string hval
      exact ⟨b.pos, rfl, rfl⟩

theorem moveAgrees_of_not_misreads {s : Dec}
    (hno : ¬ Misreads sch data s) : MoveAgrees sch root data s := by
  refine ⟨?_, ?_, ?_⟩
  · intro m f v packed h
    obtain ⟨hpt, hleft, wt, t, hreads, hf, hrun, hv⟩ := decodeMove_field h
    obtain ⟨hdecl, pos, p, hkey, hp, -, hwv⟩ := payload_of_reads hpt hleft
      hno hreads hf (fun hboth => absurd hboth hrun)
    have htyp := hdecl.resolve_right hrun
    have htyp' : fieldWireType (sch.field f).opts.typ = some p.wireType := by
      rw [hp.wireType, htyp]
    rcases hv with hv | hv
    · cases hv
    · cases Option.some.inj hv
      exact ⟨wt, pos, p, hkey, htyp, hp,
        convert_of_carries htyp' hp.complete hwv,
        inInput_of_carries htyp' hp.complete hwv⟩
  · intro m f packed h
    obtain ⟨hpt, hleft, wt, t, hreads, hf, hrun, -⟩ := decodeMove_field h
    obtain ⟨hdecl, pos, p, hkey, hp, -, -⟩ := payload_of_reads hpt hleft
      hno hreads hf (fun hboth => absurd hboth hrun)
    exact ⟨wt, pos, p, hkey, hdecl.resolve_right hrun, hp⟩
  · intro s' out hmove hdepth
    cases decodeMove_next hmove with
    | enter =>
        have hsame : s.depth = s.depth + 1 := hdepth
        omega
    | @pop frame below hpt hleft hbelow =>
        have hsame : below.length + 1 = s.below.length + 1 + 1 := hdepth
        rw [hbelow, List.length_cons] at hsame
        omega
    | skip hpt hleft hreads hnone =>
        rw [hreads.depth] at hdepth
        omega
    | @run t s' f hpt hleft hreads hf hrun hopen =>
        have hroom := hopen.depth
        rw [hreads.depth] at hroom
        obtain ⟨hdecl, pos, p, hkey, hp, hend, hwv⟩ := payload_of_reads hpt
          hleft hno hreads hf (fun _ => hroom)
        exact ⟨f, pos, p, hkey, hopen.fieldDesc.trans hf, hdecl, hp,
          covers_of_opens hp hend hreads.span hwv hopen⟩
    | @sub wt t s' f hpt hleft hreads hf hrun hmsg hopen =>
        obtain ⟨hdecl, pos, p, hkey, hp, hend, hwv⟩ := payload_of_reads hpt
          hleft hno hreads hf (fun hboth => absurd hboth hrun)
        have hstr : wt = .string := by
          have htyp := hdecl.resolve_right hrun
          cases hty : (sch.field f).opts.typ with
          | message =>
              rw [hty] at htyp
              exact (Option.some.inj htyp).symm
          | group => rw [hty] at htyp; cases htyp
          | _ => rw [hty] at hmsg; cases hmsg
        subst hstr
        exact ⟨f, pos, p, hkey, hopen.fieldDesc.trans hf, hdecl, hp,
          covers_of_opens hp hend hreads.span hwv hopen⟩
    | value hpt hleft hreads =>
        rw [hreads.depth] at hdepth
        omega

-- ======================================================== and only then

/-- A misread shows in what its move reports or opens. -/
theorem Misreads.disagrees {s : Dec} (h : Misreads sch data s)
    (hs : s.PackedMode sch) : ¬ MoveAgrees sch root data s := by
  intro hagree
  obtain ⟨hpt, hleft, wt, f, buf, ⟨wv, buf'⟩, hkey, hval, hbad⟩ := h
  have hreads : Reads sch data s wt (s.read (some f) wv buf') :=
    .mk hkey hval
  have hmove : decodeMove sch root data s
      = dispatch sch root data wt (s.read (some f) wv buf') :=
    hreads.decodeMove hpt hleft
  -- a payload that stands behind the key and has the declared wire type
  -- excludes both kinds of misread
  have hnone : fieldWireType (sch.field f).opts.typ = some wt →
      ∀ p : Payload, p.StandsAt data buf.pos wt → False := by
    intro htyp p hp
    rcases hbad with hbad | ⟨hvar, hover, -⟩
    · exact hbad (.inl htyp)
    · exact hp.not_overlong hvar hover
  by_cases hrun : wt = .string ∧ (sch.field f).isPackedRepeated = true
  · rcases hbad with hbad | ⟨hvar, hover, hroom⟩
    · exact hbad (.inr hrun)
    · obtain ⟨rfl, hpk⟩ := hrun
      obtain ⟨q, hq, hle⟩ := hreads.string_range
      have hroom' : (s.read (some f) wv buf').depth + 1 ≤ maxDepth :=
        hroom ⟨rfl, hpk⟩
      have hnext := hmove
      rw [dispatch_run rfl hpk] at hnext
      unfold pushStackFrame at hnext
      rw [if_pos hroom', hq] at hnext
      dsimp only at hnext
      rw [if_neg (by omega)] at hnext
      obtain ⟨g, pos, p, hkeyAt, -, -, hp, -⟩ := hagree.frame _ _ hnext rfl
      obtain ⟨-, rfl⟩ := hkeyAt.unique hkey
      exact hp.not_overlong hvar hover
  · cases hmsg : (sch.field f).opts.typ.isMessage with
    | true =>
        have hmem : Event.field root f none s.packed
            ∈ (decodeMove sch root data s).out := by
          rw [hmove, dispatch_sub rfl hrun hmsg, pushStackFrame_out]
          exact List.mem_singleton.mpr rfl
        obtain ⟨wt', pos, p, hkeyAt, htyp, hp⟩ := hagree.message _ _ _ hmem
        obtain ⟨rfl, rfl⟩ := hkeyAt.unique hkey
        exact hnone htyp p hp
    | false =>
        obtain ⟨m, hm⟩ := hreads.desc hs
        have hmem : Event.field m f
            (some (convert (sch.field f).opts.typ wv)) s.packed
            ∈ (decodeMove sch root data s).out := by
          rw [hmove, dispatch_value rfl hrun hmsg hm]
          exact List.mem_singleton.mpr rfl
        obtain ⟨wt', pos, p, hkeyAt, htyp, hp, -⟩ := hagree.value _ _ _ _ hmem
        obtain ⟨rfl, rfl⟩ := hkeyAt.unique hkey
        exact hnone htyp p hp

/-- A message with one `string` field, number 1. -/
def oneString : Schema := ⟨[⟨[⟨1, ⟨.optional, .string, 0⟩, none, "s"⟩]⟩]⟩

end Lwpb
