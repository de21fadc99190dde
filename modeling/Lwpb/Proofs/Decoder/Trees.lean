/-
The decoder on well-formed messages: what it reports, and how deep it
can go.

`Wire.walk`: a message whose occurrences carry their declared wire types,
whose unknown fields lead and whose nesting the stack holds is walked to
its end, and the calls of the handlers are `notifs`. `Wire.walk_deep`:
one whose nesting the stack does not hold fails the assertion of
`push_stack_frame`. Both are inductions on the tree; the invariant is
that the decoder stands in the frame where the rest of the tree begins.

`decode_wire` and `decode_wire_deep` are the same for a whole call.
-/
import Lwpb.Proofs.Decoder.Walk

namespace Lwpb

open Machine Base128 Slice

variable {sch : Schema} {root : MsgRef} {data : Bytes} {uninit : UInt64}

theorem resolve_append (out out' : List (Event Span)) :
    resolve data (out ++ out') = resolve data out ++ resolve data out' :=
  List.map_append

theorem Reports.nil : Reports data [] [] :=
  ⟨rfl, fun _ he => absurd he List.not_mem_nil⟩

theorem Reports.append {out out' : List (Event Span)}
    {es es' : List (Event Bytes)} (h : Reports data out es)
    (h' : Reports data out' es') :
    Reports data (out ++ out') (es ++ es') := by
  refine ⟨by rw [resolve_append, h.resolves, h'.resolves], ?_⟩
  intro e he
  rcases List.mem_append.mp he with he | he
  · exact h.inInput e he
  · exact h'.inInput e he

/-- A call without a string. -/
theorem Reports.single {e : Event Span} {e' : Event Bytes}
    (h : e.resolve data = e') (hin : e.InInput data) :
    Reports data [e] [e'] := by
  refine ⟨congrArg ([·]) h, fun x hx => ?_⟩
  rw [List.mem_singleton.mp hx]
  exact hin

/-- The call for an occurrence of the declared wire type. -/
theorem Reports.value {m : MsgRef} {f : FieldRef} {packed : Bool}
    {typ : FieldType} {wv : WireValue} {p : Payload}
    (htyp : fieldWireType typ = some p.wireType) (hp : p.Complete)
    (hwv : Carries data wv p) :
    Reports data [.field m f (some (convert typ wv)) packed]
      [.field m f (some (p.read typ)) packed] := by
  refine .single ?_ (inInput_of_carries htyp hp hwv)
  show Event.field m f (some _) packed = _
  rw [convert_of_carries htyp hp hwv]

/-- The calls of a submessage, around those for what is in it. -/
theorem Reports.submessage {m d : MsgRef} {f : FieldRef}
    {out : List (Event Span)} {es : List (Event Bytes)}
    (h : Reports data out es) :
    Reports data
      ([.field m f none false, .msgStart d false] ++ out ++ [.msgEnd d false])
      (.field m f none false :: .msgStart d false :: es
        ++ [.msgEnd d false]) := by
  have hfield : Reports data [.field m f none false]
      [.field m f none false] := .single rfl trivial
  have hstart : Reports data [.msgStart d false] [.msgStart d false] :=
    .single rfl trivial
  have hend : Reports data [.msgEnd d false] [.msgEnd d false] :=
    .single rfl trivial
  exact ((hfield.append hstart).append h).append hend

/-- The calls of a packed run, around those for its elements. -/
theorem Reports.packedRun {m : MsgRef} {out : List (Event Span)}
    {es : List (Event Bytes)} (h : Reports data out es) :
    Reports data ([.msgStart m true] ++ out ++ [.msgEnd m true])
      (.msgStart m true :: es ++ [.msgEnd m true]) := by
  have hstart : Reports data [.msgStart m true] [.msgStart m true] :=
    .single rfl trivial
  have hend : Reports data [.msgEnd m true] [.msgEnd m true] :=
    .single rfl trivial
  exact (hstart.append h).append hend

/-- A typed occurrence that opens no frame is no message. -/
theorem typed.not_message {d : FieldDesc} {wt : WireType} (h : typed d wt)
    (hno : ¬ d.opens wt) : d.opts.typ.isMessage = false := by
  obtain ⟨hwt, -⟩ := h
  cases htyp : d.opts.typ with
  | message =>
      rw [htyp] at hwt
      have hstr : wt = .string := (Option.some.inj hwt).symm
      exact absurd ⟨hstr, .inr (by rw [htyp]; rfl)⟩ hno
  | group => rw [htyp] at hwt; cases hwt
  | _ => rfl

/-- A typed element of a packed run is no string. -/
theorem typed.not_string {d : FieldDesc} {wt : WireType} (h : typed d wt)
    (hrun : d.isPackedRepeated = true) : wt ≠ .string := by
  intro hwt
  have hno := h.2 hwt
  rw [hrun] at hno
  cases hno

/-- The calls for the elements of a packed run. -/
def elemNotifs (sch : Schema) (m : MsgRef) (f : FieldRef)
    (elems : List Payload) : List (Event Bytes) :=
  elems.map fun e => .field m f (some (e.read (sch.field f).opts.typ)) true

/-- A packed run is walked to its end. -/
theorem walk_elems (root : MsgRef) {lv : Level} {f : FieldRef}
    (hpk : lv.packed = true)
    (hrun : (sch.field f).isPackedRepeated = true) :
    ∀ {elems : List Payload} {s : Dec} {p : Nat}, s.Stands lv p →
      s.fieldDesc = some f →
      (∀ e ∈ elems, e.Complete ∧ typed (sch.field f) e.wireType ∧
        fieldWireType (sch.field f).opts.typ = some e.wireType) →
      lv.Holds data p (elemBytes elems) →
      ∃ s' o, Exec (decodeMove sch root data) s o s' ∧
        s'.Stands lv (p + (elemBytes elems).length) ∧
        s'.fieldDesc = some f ∧
        Reports data o (elemNotifs sch lv.desc f elems) := by
  intro elems
  induction elems with
  | nil =>
      intro s p hs hf _ _
      exact ⟨s, [], .refl s, hs, hf, .nil⟩
  | cons e elems ih =>
      intro s p hs hf hall hin
      obtain ⟨he, htyped, hwt⟩ := hall e (List.mem_cons_self ..)
      have hin' : lv.Holds data p (e.bytes ++ elemBytes elems) := hin
      obtain ⟨t, hocc⟩ := hs.occurs_elem hpk hf hwt he hin'.left
      have hnostr := htyped.not_string hrun
      have hmsg := htyped.not_message fun hopens => hnostr hopens.1
      have hexec := hocc.reports root
        (fun hboth => hnostr hboth.1) hmsg
      obtain ⟨s', o, hexec', hs', hf', ho⟩ := ih hocc.stands hocc.desc
        (fun e' he' => hall e' (List.mem_cons_of_mem _ he')) hin'.right
      refine ⟨s', _, hexec.trans hexec', ?_, hf', ?_⟩
      · show s'.Stands lv (p + (e.bytes ++ elemBytes elems).length)
        rw [List.length_append, ← Nat.add_assoc]
        exact hs'
      · rw [hpk]
        exact (Reports.value hwt he hocc.carries).append ho

namespace Wire

/-- The decoder after the known field of an item is looked up. -/
theorem find_of_item {m : MsgRef} {key : Bytes} {f : FieldRef}
    {fd : Option FieldRef} (h : sch.known m (keyNumber key) = some f) :
    (sch.find m (UInt32.ofNat (keyNumber key))).or fd = some f := by
  rw [Schema.find_of_known h]
  rfl

/-- A field that is passed, and the walk over what is behind it. -/
theorem walk_behind {s u : Dec} {lv : Level} {p : Nat} {bs rest : Bytes}
    {o : List (Event Span)} {es es' : List (Event Bytes)}
    (hpass : Exec (decodeMove sch root data) s o u) (ho : Reports data o es)
    (h : ∃ s' o', Exec (decodeMove sch root data) u o' s' ∧
      s'.Stands lv (p + bs.length + rest.length) ∧ Reports data o' es') :
    ∃ s' o', Exec (decodeMove sch root data) s o' s' ∧
      s'.Stands lv (p + (bs ++ rest).length) ∧
      Reports data o' (es ++ es') := by
  obtain ⟨s', o', hwalk, hs', ho'⟩ := h
  refine ⟨s', _, hpass.trans hwalk, ?_, ho.append ho'⟩
  rw [List.length_append, ← Nat.add_assoc]
  exact hs'

section Passing

variable {s : Dec} {lv : Level} {p : Nat} {key : Bytes} {f : FieldRef}

/-- An unknown field in front of the known ones is passed over. -/
theorem passes_unknown (root : MsgRef) {pl : Payload} (hs : s.Stands lv p)
    (hpk : lv.packed = false) (hdesc : s.fieldDesc = none)
    (hkey : Announces key pl.wireType) (hpl : pl.Complete)
    (hfind : sch.find lv.desc (UInt32.ofNat (keyNumber key)) = none)
    (hin : lv.Holds data p (key ++ pl.bytes)) :
    ∃ t, Exec (decodeMove sch root data) s [] t ∧
      t.Stands lv (p + (key ++ pl.bytes).length) ∧ t.fieldDesc = none := by
  obtain ⟨t, hocc⟩ := hs.occurs sch hpk hkey hpl hin
  rw [hfind, hdesc] at hocc
  exact ⟨t, hocc.skips root, hocc.stands, hocc.desc⟩

/-- A known field of one value is passed and reported. -/
theorem passes_scalar (root : MsgRef) {pl : Payload} (hs : s.Stands lv p)
    (hpk : lv.packed = false) (hkey : Announces key pl.wireType)
    (hpl : pl.Complete) (hknown : sch.known lv.desc (keyNumber key) = some f)
    (hnot : ¬ (sch.field f).opens pl.wireType)
    (htyped : typed (sch.field f) pl.wireType)
    (hin : lv.Holds data p (key ++ pl.bytes)) :
    ∃ t o, Exec (decodeMove sch root data) s o t ∧
      t.Stands lv (p + (key ++ pl.bytes).length) ∧
      Reports data o [.field lv.desc f
        (some (pl.read (sch.field f).opts.typ)) false] := by
  obtain ⟨t, hocc⟩ := hs.occurs sch hpk hkey hpl hin
  rw [find_of_item hknown] at hocc
  have hexec := hocc.reports root
    (fun hboth => hnot ⟨hboth.1, .inl hboth.2⟩) (htyped.not_message hnot)
  have hreports := @Reports.value data lv.desc f lv.packed _ _ _ htyped.1 hpl
    hocc.carries
  rw [hpk] at hreports hexec
  exact ⟨t, _, hexec, hocc.stands, hreports⟩

/-- A packed run for which the stack has room is passed, and reported
element by element. -/
theorem passes_packed (root : MsgRef) {len : Bytes} {elems : List Payload}
    (hs : s.Stands lv p) (hpk : lv.packed = false)
    (hkey : Announces key .string)
    (hpl : (Payload.string len (elemBytes elems)).Complete)
    (hknown : sch.known lv.desc (keyNumber key) = some f)
    (hrun : (sch.field f).isPackedRepeated = true)
    (hall : ∀ e ∈ elems, e.Complete ∧ typed (sch.field f) e.wireType ∧
      fieldWireType (sch.field f).opts.typ = some e.wireType)
    (hdepth : lv.below.length + 2 ≤ maxDepth)
    (hin : lv.Holds data p
      (key ++ (Payload.string len (elemBytes elems)).bytes)) :
    ∃ t o, Exec (decodeMove sch root data) s o t ∧
      t.Stands lv
        (p + (key ++ (Payload.string len (elemBytes elems)).bytes).length) ∧
      Reports data o (.msgStart lv.desc true
        :: elemNotifs sch lv.desc f elems ++ [.msgEnd lv.desc true]) := by
  obtain ⟨t, hocc⟩ := hs.occurs sch hpk hkey hpl hin
  rw [find_of_item hknown] at hocc
  obtain ⟨u, o, hpass, hu, ho⟩ := hocc.passes_run root hpl hrun hpk hdepth
    (hin.used hkey)
    (P := fun o => Reports data o (elemNotifs sch lv.desc f elems))
    (fun v q hv hcontent hf => by
      obtain ⟨v', o, hwalk, hv', -, ho⟩ := walk_elems root rfl hrun hv hf
        hall hcontent
      exact ⟨v', o, hwalk, hv', ho⟩)
  exact ⟨u, _, hpass, hu, ho.packedRun⟩

end Passing

/-- A message that leads with its unknown fields and fits the stack is
walked to its end. -/
theorem walk {w : Wire} :
    ∀ {s : Dec} {lv : Level} {p : Nat} {seen : Bool},
      s.Stands lv p → lv.packed = false →
      (seen = false → s.fieldDesc = none) →
      w.WellFormed sch typed lv.desc → w.Leading sch seen lv.desc →
      lv.below.length + w.nesting ≤ maxDepth →
      lv.Holds data p w.bytes →
      ∃ s' o, Exec (decodeMove sch root data) s o s' ∧
        s'.Stands lv (p + w.bytes.length) ∧
        Reports data o (w.notifs sch root lv.desc) := by
  -- behind a known field no unknown one comes, so `field_desc` may be set
  have hseen' : ∀ t : Dec, true = false → t.fieldDesc = none :=
    fun _ hno => nomatch hno
  induction w with
  | nil =>
      intro s lv p seen hs _ _ _ _ _ _
      exact ⟨s, [], .refl s, hs, .nil⟩
  | unknown key pl rest ih =>
      intro s lv p seen hs hpk hseen hwf hlead hdepth hin
      obtain ⟨hkey, hpl, -, hrest⟩ := hwf
      obtain ⟨hno, hfind, hlead⟩ := hlead
      obtain ⟨t, hpass, ht, hdesc⟩ := passes_unknown root hs hpk (hseen hno)
        hkey hpl hfind hin.left
      exact walk_behind hpass .nil (ih ht hpk (fun _ => hdesc) hrest hlead
        hdepth hin.right)
  | scalar f key pl rest ih =>
      intro s lv p seen hs hpk hseen hwf hlead hdepth hin
      obtain ⟨hkey, hpl, hknown, hnot, htyped, hrest⟩ := hwf
      obtain ⟨t, o, hpass, ht, ho⟩ := passes_scalar root hs hpk hkey hpl
        hknown hnot htyped hin.left
      exact walk_behind hpass ho (ih ht hpk (hseen' t) hrest hlead hdepth
        hin.right)
  | sub f key len body rest ihb ihr =>
      intro s lv p seen hs hpk hseen hwf hlead hdepth hin
      obtain ⟨hkey, hpl, hknown, hnorun, hmsg, -, ⟨d, hd⟩, hbody, hrest⟩ :=
        hwf
      have hsub := Schema.subDesc_eq hd
      obtain ⟨hleadb, hleadr⟩ := hlead
      rw [hsub] at hbody hleadb
      rw [nesting] at hdepth
      obtain ⟨t, hocc⟩ := hs.occurs sch hpk hkey hpl hin.left
      rw [find_of_item hknown] at hocc
      have hone := body.nesting_pos
      obtain ⟨u, ob, hpass, hu, hob⟩ := hocc.passes_sub root hpl hnorun hmsg
        hd hpk (by omega) (hin.left.used hkey)
        (P := fun o => Reports data o (body.notifs sch root d))
        (fun v q hv hcontent => ihb hv rfl (hseen' v) hbody hleadb
          (by
            show lv.below.length + 1 + body.nesting ≤ maxDepth
            omega) hcontent)
      rw [notifs, hsub, List.append_cons]
      exact walk_behind hpass (Reports.submessage hob)
        (ihr hu hpk (hseen' u) hrest hleadr (by omega) hin.right)
  | run f key len elems rest ih =>
      intro s lv p seen hs hpk hseen hwf hlead hdepth hin
      obtain ⟨hkey, hpl, hknown, hrun, hall, hrest⟩ := hwf
      rw [nesting] at hdepth
      obtain ⟨u, o, hpass, hu, ho⟩ := passes_packed root hs hpk hkey hpl
        hknown hrun hall (by omega) hin.left
      rw [notifs, List.append_cons]
      exact walk_behind hpass ho
        (ih hu hpk (hseen' u) hrest hlead (by omega) hin.right)

/-- A message that leads with its unknown fields and does not fit the
stack fails the assertion of `push_stack_frame`. -/
theorem walk_deep {w : Wire} :
    ∀ {s : Dec} {lv : Level} {p : Nat} {seen : Bool},
      s.Stands lv p → lv.packed = false →
      (seen = false → s.fieldDesc = none) →
      w.WellFormed sch typed lv.desc → w.Leading sch seen lv.desc →
      lv.below.length + 1 ≤ maxDepth →
      maxDepth < lv.below.length + w.nesting →
      lv.Holds data p w.bytes →
      ∃ out, Halts (decodeMove sch root data) s out .abort := by
  have hseen' : ∀ t : Dec, true = false → t.fieldDesc = none :=
    fun _ hno => nomatch hno
  induction w with
  | nil =>
      intro s lv p seen _ _ _ _ _ hfits hdeep _
      rw [nesting] at hdeep
      omega
  | unknown key pl rest ih =>
      intro s lv p seen hs hpk hseen hwf hlead hfits hdeep hin
      obtain ⟨hkey, hpl, -, hrest⟩ := hwf
      obtain ⟨hno, hfind, hlead⟩ := hlead
      obtain ⟨t, hpass, ht, hdesc⟩ := passes_unknown root hs hpk (hseen hno)
        hkey hpl hfind hin.left
      obtain ⟨out, hhalt⟩ := ih ht hpk (fun _ => hdesc) hrest hlead hfits
        hdeep hin.right
      exact ⟨_, hpass.halts hhalt⟩
  | scalar f key pl rest ih =>
      intro s lv p seen hs hpk hseen hwf hlead hfits hdeep hin
      obtain ⟨hkey, hpl, hknown, hnot, htyped, hrest⟩ := hwf
      obtain ⟨t, o, hpass, ht, -⟩ := passes_scalar root hs hpk hkey hpl
        hknown hnot htyped hin.left
      obtain ⟨out, hhalt⟩ := ih ht hpk (hseen' t) hrest hlead hfits hdeep
        hin.right
      exact ⟨_, hpass.halts hhalt⟩
  | sub f key len body rest ihb ihr =>
      intro s lv p seen hs hpk hseen hwf hlead hfits hdeep hin
      obtain ⟨hkey, hpl, hknown, hnorun, hmsg, -, ⟨d, hd⟩, hbody, hrest⟩ :=
        hwf
      have hsub := Schema.subDesc_eq hd
      obtain ⟨hleadb, hleadr⟩ := hlead
      rw [hsub] at hbody hleadb
      rw [nesting] at hdeep
      obtain ⟨t, hocc⟩ := hs.occurs sch hpk hkey hpl hin.left
      rw [find_of_item hknown] at hocc
      by_cases hroom : lv.below.length + 2 ≤ maxDepth
      · by_cases hbodyfits : lv.below.length + 1 + body.nesting ≤ maxDepth
        · -- the body fits, so the rest does not
          obtain ⟨u, ob, hpass, hu, -⟩ := hocc.passes_sub root hpl hnorun
            hmsg hd hpk hroom (hin.left.used hkey)
            (P := fun o => Reports data o (body.notifs sch root d))
            (fun v q hv hcontent =>
              walk hv rfl (hseen' v) hbody hleadb hbodyfits hcontent)
          obtain ⟨out, hhalt⟩ := ihr hu hpk (hseen' u) hrest hleadr hfits
            (by omega) hin.right
          exact ⟨_, hpass.halts hhalt⟩
        · obtain ⟨v, q, hopen, hv, hcontent, -⟩ := hocc.enters_sub root hpl
            hnorun hmsg hd hpk hroom
          obtain ⟨out, hhalt⟩ := ihb hv rfl (hseen' v) hbody hleadb hroom
            (Nat.not_le.mp hbodyfits) hcontent
          exact ⟨_, hopen.halts hhalt⟩
      · exact hocc.aborts root (.inr hmsg) (by omega)
  | run f key len elems rest ih =>
      intro s lv p seen hs hpk hseen hwf hlead hfits hdeep hin
      obtain ⟨hkey, hpl, hknown, hrun, hall, hrest⟩ := hwf
      rw [nesting] at hdeep
      by_cases hroom : lv.below.length + 2 ≤ maxDepth
      · obtain ⟨u, o, hpass, hu, -⟩ := passes_packed root hs hpk hkey hpl
          hknown hrun hall hroom hin.left
        obtain ⟨out, hhalt⟩ := ih hu hpk (hseen' u) hrest hlead hfits
          (by omega) hin.right
        exact ⟨_, hpass.halts hhalt⟩
      · obtain ⟨t, hocc⟩ := hs.occurs sch hpk hkey hpl hin.left
        rw [find_of_item hknown] at hocc
        exact hocc.aborts root (.inl hrun) (by omega)

end Wire

-- ============================================================= a whole call

/-- The level of the outermost message. -/
def rootLevel (root : MsgRef) (data : Bytes) : Level :=
  ⟨root, 0, data.length, [], false⟩

theorem decodeInit_enter (sch : Schema) (root : MsgRef) (data : Bytes)
    (uninit : UInt64) :
    ∃ s, Exec (decodeMove sch root data) (decodeInit root data uninit)
        [.msgStart root false] s ∧
      s.Stands (rootLevel root data) 0 ∧ s.fieldDesc = none := by
  refine ⟨{ decodeInit root data uninit with point := .loop },
    .single rfl, ⟨rfl, ?_, rfl, rfl⟩, rfl⟩
  show (⟨bufInit 0 data.length, some root⟩ : Frame) = _
  unfold bufInit Level.frame rootLevel
  rw [Nat.zero_add]

theorem rootLevel_holds (root : MsgRef) (data : Bytes) :
    (rootLevel root data).Holds data 0 data :=
  ⟨Nat.le_refl 0, at_zero data, by rw [Nat.zero_add]; exact Nat.le_refl _,
    Nat.le_refl _⟩

/-- The end of the outermost frame ends the call. -/
theorem Dec.Stands.done {s : Dec}
    (hs : s.Stands (rootLevel root data) data.length) :
    Halts (decodeMove sch root data) s [.msgEnd root false]
      (.ok data.length) := by
  refine .stop ?_
  have hused : bufUsed s.frame.buf = data.length := by
    rw [hs.frame]
    exact ptrDiff_of_le (Nat.zero_le _)
  have hleft : bufLeft s.frame.buf = 0 := by
    rw [hs.frame]
    exact ptrDiff_self _
  unfold decodeMove
  rw [hs.point]
  dsimp only
  rw [if_neg (by omega)]
  unfold leave notifyEnd
  rw [hused]
  simp only [hs.below, rootLevel, hs.frame, Level.frame, hs.packed]

/-- What a reader of a whole message is told. -/
def Wire.report (sch : Schema) (root : MsgRef) (w : Wire) :
    List (Event Bytes) :=
  .msgStart root false :: w.notifs sch root root ++ [.msgEnd root false]

/-- The decoder accepts a message that leads with its unknown fields and
fits its stack, uses all of it, and reports it. -/
theorem decode_wire (uninit : UInt64) {w : Wire}
    (hwf : w.WellFormed sch typed root)
    (hlead : w.Leading sch false root) (hdepth : w.nesting ≤ maxDepth) :
    ∃ out, Decodes sch root w.bytes uninit out (.ok w.bytes.length) ∧
      Reports w.bytes out (w.report sch root) := by
  obtain ⟨s, henter, hs, hf⟩ := decodeInit_enter sch root w.bytes uninit
  obtain ⟨s', o, hwalk, hs', ho⟩ := Wire.walk hs rfl
    (fun _ => hf) hwf hlead
    (by
      show 0 + w.nesting ≤ maxDepth
      omega) (rootLevel_holds root w.bytes)
  rw [Nat.zero_add] at hs'
  refine ⟨_, (henter.trans hwalk).halts hs'.done, ?_⟩
  have hstart : Reports w.bytes [.msgStart root false]
      [.msgStart root false] := .single rfl trivial
  have hend : Reports w.bytes [.msgEnd root false] [.msgEnd root false] :=
    .single rfl trivial
  exact (hstart.append ho).append hend

/-- The decoder aborts on such a message that does not fit its stack. -/
theorem decode_wire_deep (uninit : UInt64) {w : Wire}
    (hwf : w.WellFormed sch typed root)
    (hlead : w.Leading sch false root) (hdeep : maxDepth < w.nesting) :
    ∃ out, Decodes sch root w.bytes uninit out .abort := by
  obtain ⟨s, henter, hs, hf⟩ := decodeInit_enter sch root w.bytes uninit
  obtain ⟨out, hhalt⟩ := Wire.walk_deep hs rfl (fun _ => hf) hwf
    hlead (by show 0 + 1 ≤ 32; omega)
    (by
      show maxDepth < 0 + w.nesting
      omega) (rootLevel_holds root w.bytes)
  exact ⟨_, henter.halts hhalt⟩

end Lwpb
