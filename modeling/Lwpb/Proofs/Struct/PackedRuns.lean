/-
Packed runs in struct decoding.

The stream decoder reports a packed run with a start and an end call of the
message that it stands in. The struct decoder takes every start call for
the beginning of a submessage in an element of the last field: so a run
needs a last field whose entry leads to a map of the run's own message
(`Wire.RunsBehind`), which is so directly behind a submessage of that type
only, and its values then go into the struct of that field's next element.
Whatever the map and the list, in a message with nothing in front of the
run there is no last field at all (`Unrolled.alone`), and the call does not
return (`packed_runs_differ`).
-/
import Lwpb.Proofs.Decoder.Boundaries
import Lwpb.Proofs.Struct.Partial

namespace Lwpb

open Memory Machine Base128 Slice

-- ============================================================== unrolled runs

/-- The elements of a run as occurrences of their own, each with its key. -/
def Wire.occurrencesOf (f : FieldRef) :
    List (Bytes × Payload) → Wire → Wire
  | [], rest => rest
  | (key, p) :: elems, rest => .scalar f key p (occurrencesOf f elems rest)

/-- Two messages that differ in one place, in the submessage at the end of
`path`: where the first has these elements as a packed run, the second has
them as occurrences of their own. -/
inductive Unrolled (f : FieldRef) (elems : List Payload) :
    List FieldRef → Wire → Wire → Prop where
  | here {key len : Bytes} {keyed : List (Bytes × Payload)} (rest : Wire)
      (same : keyed.map (·.2) = elems) :
      Unrolled f elems [] (.run f key len elems rest)
        (.occurrencesOf f keyed rest)
  | behindUnknown {path : List FieldRef} {rest rest' : Wire} (key : Bytes)
      (p : Payload) (h : Unrolled f elems path rest rest') :
      Unrolled f elems path (.unknown key p rest) (.unknown key p rest')
  | behindScalar {path : List FieldRef} {rest rest' : Wire} (g : FieldRef)
      (key : Bytes) (p : Payload) (h : Unrolled f elems path rest rest') :
      Unrolled f elems path (.scalar g key p rest) (.scalar g key p rest')
  | behindSub {path : List FieldRef} {rest rest' : Wire} (g : FieldRef)
      (key len : Bytes) (body : Wire) (h : Unrolled f elems path rest rest') :
      Unrolled f elems path (.sub g key len body rest)
        (.sub g key len body rest')
  | behindRun {path : List FieldRef} {rest rest' : Wire} (g : FieldRef)
      (key len : Bytes) (others : List Payload)
      (h : Unrolled f elems path rest rest') :
      Unrolled f elems path (.run g key len others rest)
        (.run g key len others rest')
  | inside {path : List FieldRef} {body body' : Wire} {g : FieldRef}
      {key len len' : Bytes} (rest : Wire)
      (h : Unrolled f elems path body body') :
      Unrolled f elems (g :: path) (.sub g key len body rest)
        (.sub g key len' body' rest)

/-- Every packed run stands behind a field whose entry leads to a map of the
message that the run is in. `before` are the fields in front. -/
def Wire.RunsBehind (maps : Maps) (map : StructMap) :
    List FieldRef → Wire → Prop
  | _, .nil => True
  | before, .unknown _ _ rest => RunsBehind maps map before rest
  | before, .scalar f _ _ rest => RunsBehind maps map (f :: before) rest
  | before, .sub f _ _ body rest =>
      (∃ field inner, findMapField map f = some field ∧
        maps field.len = some inner ∧ RunsBehind maps inner [] body) ∧
        RunsBehind maps map (f :: before) rest
  | before, .run _ _ _ _ rest =>
      (∃ g field inner, before.head? = some g ∧
        findMapField map g = some field ∧ maps field.len = some inner ∧
        inner.msgDesc = map.msgDesc) ∧ RunsBehind maps map before rest

section

variable {maps : Maps} {sch : Schema} {data : Bytes}
  {behind : Nat → UInt8} {root m : MsgRef} {frame : StructFrame}
  {below : List StructFrame} {bottom : StructFrame} {s s' : StructDec}
  {f : FieldRef} {before : List FieldRef} {w w' : Wire}
  {elems : List Payload} {path : List FieldRef}

-- ===================================================================== calls

/-- A run that goes through, from its first call on. -/
theorem StructDec.handleAll_ok_cons {e : Event Span}
    {es : List (Event Span)}
    (h : (s.handleAll data behind maps sch (e :: es)).2 = .ok s') :
    ∃ s₁ stores, s.handle data behind maps sch e = .ok (s₁, stores) ∧
      (s₁.handleAll data behind maps sch es).2 = .ok s' := by
  rw [StructDec.handleAll] at h
  cases hcall : s.handle data behind maps sch e with
  | error stop => rw [hcall] at h; cases h
  | ok r =>
      obtain ⟨s₁, stores⟩ := r
      rw [hcall] at h
      exact ⟨s₁, stores, rfl, h⟩

/-- Events that are handled in two parts are handled in both. -/
theorem StructDec.handleAll_ok_append {es es' : List (Event Span)}
    (h : (s.handleAll data behind maps sch (es ++ es')).2 = .ok s') :
    ∃ s₁, (s.handleAll data behind maps sch es).2 = .ok s₁ ∧
      (s₁.handleAll data behind maps sch es').2 = .ok s' := by
  induction es generalizing s with
  | nil => exact ⟨s, rfl, h⟩
  | cons e es ih =>
      obtain ⟨s₁, stores, hcall, hrest⟩ := StructDec.handleAll_ok_cons h
      obtain ⟨s₂, hes, hes'⟩ := ih hrest
      refine ⟨s₂, ?_, hes'⟩
      rw [StructDec.handleAll, hcall]
      exact hes

/-- A call for a field that goes through moves the top frame on to the
field's entry. -/
theorem handle_field_ok {v : Option (Value Span)} {packed : Bool}
    {stores : List Store}
    (h : StructDec.handle data behind maps sch ⟨frame :: below, bottom⟩
      (.field m f v packed) = .ok (s', stores)) :
    ∃ field frame', findMapField frame.map f = some field ∧
      s' = ⟨frame' :: below, bottom⟩ ∧ frame'.map = frame.map ∧
      frame'.lastField = some field := by
  cases hfield : findMapField frame.map f with
  | none =>
      rw [handle_field_unmapped hfield] at h
      cases h
  | some field =>
      unfold StructDec.handle sdecoderFieldHandler at h
      simp only [hfield] at h
      obtain ⟨⟨frame', stores'⟩, hunpack, h⟩ := Sequence.ok_of_bind h
      cases h
      obtain ⟨hmap, -, hlast, -⟩ := unpackField_spec hunpack
      exact ⟨field, frame', rfl, rfl, hmap, hlast⟩

/-- A start call that goes through found a map of its message by the last
field of the top frame. -/
theorem handle_start_ok {packed : Bool} {stores : List Store}
    (h : StructDec.handle data behind maps sch ⟨frame :: below, bottom⟩
      (.msgStart m packed) = .ok (s', stores)) :
    ∃ field inner top frame', frame.lastField = some field ∧
      maps field.len = some inner ∧ inner.msgDesc = m ∧
      s' = ⟨top :: frame' :: below, bottom⟩ ∧ top.map = inner ∧
      top.lastField = none ∧ frame'.map = frame.map ∧
      frame'.lastField = frame.lastField := by
  obtain ⟨hcall, -⟩ := of_noStores h
  obtain ⟨field, inner, hlast, hthere, hm, rfl⟩ := msgStart_ok hcall
  exact ⟨field, inner, _, _, hlast, hthere, hm, rfl, rfl, rfl, rfl, rfl⟩

/-- The calls of a packed run, part by part. -/
theorem Reports.run {out : List (Event Span)} {key len : Bytes}
    {rest : Wire}
    (h : Reports data out
      ((Wire.run f key len elems rest).notifs sch root m)) :
    ∃ oute outr, out = .msgStart m true :: oute ++ .msgEnd m true :: outr ∧
      Reports data oute (elems.map fun e =>
        .field m f (some (e.read (sch.field f).opts.typ)) true) ∧
      Reports data outr (rest.notifs sch root m) := by
  obtain ⟨oute, outr, rfl, hcalls, hcallsr⟩ := h.split
  obtain ⟨o₁, oute₁, rfl, hres₁, -, hcalls₁⟩ := hcalls.cons
  obtain ⟨o₂, outr, rfl, hres₂, -, houtr⟩ := hcallsr.cons
  cases resolve_eq_msgStart hres₁
  cases resolve_eq_msgEnd hres₂
  exact ⟨oute₁, outr, rfl, hcalls₁, houtr⟩

/-- The elements of a run change the top frame only. -/
theorem handleAll_elems {out : List (Event Span)}
    (hout : Reports data out (elems.map fun e =>
      .field m f (some (e.read (sch.field f).opts.typ)) true))
    (hok : (StructDec.handleAll data behind maps sch
      ⟨frame :: below, bottom⟩ out).2 = .ok s') :
    ∃ frame', s' = ⟨frame' :: below, bottom⟩ := by
  induction elems generalizing frame out with
  | nil =>
      cases List.map_eq_nil_iff.mp hout.resolves
      cases hok
      exact ⟨frame, rfl⟩
  | cons e elems ih =>
      obtain ⟨o, out', rfl, hres, -, hout'⟩ := hout.cons
      obtain ⟨v, rfl, -⟩ := resolve_eq_field hres
      obtain ⟨s₁, stores, hcall, hrest⟩ := StructDec.handleAll_ok_cons hok
      obtain ⟨-, frame', -, rfl, -, -⟩ := handle_field_ok hcall
      exact ih hout' hrest

-- ===================================================================== walks

/-- If the calls of a message go through, its runs are behind fields that
lead to maps of their message. -/
theorem Wire.runsBehind_of_ok {out : List (Event Span)}
    (hmap : frame.map.msgDesc = m)
    (hlast : frame.lastField = before.head?.bind (findMapField frame.map))
    (hout : Reports data out (w.notifs sch root m))
    (hok : (StructDec.handleAll data behind maps sch
      ⟨frame :: below, bottom⟩ out).2 = .ok s') :
    w.RunsBehind maps frame.map before ∧
      ∃ frame', s' = ⟨frame' :: below, bottom⟩ := by
  induction w generalizing m frame before below out s' with
  | nil =>
      cases List.map_eq_nil_iff.mp hout.resolves
      cases hok
      exact ⟨trivial, frame, rfl⟩
  | unknown key p rest ih => exact ih hmap hlast hout hok
  | scalar f key p rest ih =>
      obtain ⟨o, out', rfl, hres, -, hout'⟩ := hout.cons
      obtain ⟨v, rfl, -⟩ := resolve_eq_field hres
      obtain ⟨s₁, stores, hcall, hrest⟩ := StructDec.handleAll_ok_cons hok
      obtain ⟨field, frame', hfield, rfl, hmap', hlast'⟩ :=
        handle_field_ok hcall
      rw [RunsBehind, ← hmap']
      rw [← hmap'] at hfield
      exact ih ((congrArg _ hmap').trans hmap) (hlast'.trans hfield.symm)
        hout' hrest
  | sub f key len body rest ihb ihr =>
      obtain ⟨outb, outr, rfl, houtb, houtr⟩ := hout.sub
      rw [List.cons_append, List.cons_append] at hok
      obtain ⟨s₁, stores₁, hcall, hok⟩ := StructDec.handleAll_ok_cons hok
      obtain ⟨field, frame', hfield, rfl, hmap', hlast'⟩ :=
        handle_field_ok hcall
      obtain ⟨s₂, stores₂, hcall, hok⟩ := StructDec.handleAll_ok_cons hok
      obtain ⟨field', inner, top, last, hfield', hthere, hinner, rfl, rfl,
        htop, hmapl, hlastl⟩ := handle_start_ok hcall
      obtain ⟨s₃, hbody, hok⟩ := StructDec.handleAll_ok_append hok
      obtain ⟨hruns, topb, rfl⟩ :=
        @ihb _ _ _ _ [] _ hinner htop houtb hbody
      obtain ⟨s₄, stores₄, hcall, hok⟩ := StructDec.handleAll_ok_cons hok
      cases hcall
      cases hlast'.symm.trans hfield'
      have hmaps : last.map = frame.map := hmapl.trans hmap'
      rw [RunsBehind, ← hmaps]
      rw [← hmaps] at hfield
      obtain ⟨hrest, hstack⟩ := @ihr _ _ _ _ (f :: before) _
        ((congrArg _ hmaps).trans hmap)
        ((hlastl.trans hlast').trans hfield.symm) houtr hok
      exact ⟨⟨⟨field, _, hfield, hthere, hruns⟩, hrest⟩, hstack⟩
  | run f key len elems rest ih =>
      obtain ⟨oute, outr, rfl, houte, houtr⟩ := hout.run
      rw [List.cons_append] at hok
      obtain ⟨s₁, stores₁, hcall, hok⟩ := StructDec.handleAll_ok_cons hok
      obtain ⟨field, inner, top, last, hfield, hthere, hinner, rfl, rfl, -,
        hmapl, hlastl⟩ := handle_start_ok hcall
      obtain ⟨s₂, helems, hok⟩ := StructDec.handleAll_ok_append hok
      obtain ⟨tope, rfl⟩ := handleAll_elems houte helems
      obtain ⟨s₃, stores₃, hcall, hok⟩ := StructDec.handleAll_ok_cons hok
      cases hcall
      rw [hlast] at hfield
      obtain ⟨g, hg, hfield⟩ := Option.bind_eq_some_iff.mp hfield
      rw [RunsBehind]
      rw [← hmapl] at hlast
      obtain ⟨hrest, hstack⟩ := @ih _ _ _ _ before _
        ((congrArg _ hmapl).trans hmap) (hlastl.trans hlast) houtr hok
      rw [hmapl] at hrest
      exact ⟨⟨⟨g, field, _, hg, hfield, hthere, hinner.trans hmap.symm⟩,
        hrest⟩, hstack⟩

/-- A decoder that returns has gone through all calls. -/
theorem structDecoderDecode_ok {map : StructMap} {base : Nat}
    {uninit : UInt64} {used : Nat}
    (hok : (structDecoderDecode data behind maps sch map base uninit).2
      = .ok used) :
    ∃ s', ((structInit map base).handleAll data behind maps sch
      (decode sch map.msgDesc data uninit).1).2 = .ok s' := by
  unfold structDecoderDecode at hok
  simp only at hok
  split at hok
  · next hrun => exact ⟨_, congrArg Prod.snd hrun⟩
  · cases hok
  · cases hok

/-- If the call for a message returns, its runs are behind fields that lead
to maps of their message. -/
theorem Wire.runsBehind_of_decoded {map : StructMap} {base : Nat}
    {uninit : UInt64} {used : Nat}
    (hwf : w.WellFormed sch typed map.msgDesc)
    (hlead : w.Leading sch false map.msgDesc)
    (hok : (structDecoderDecode w.bytes behind maps sch map base uninit).2
      = .ok used) : w.RunsBehind maps map [] := by
  obtain ⟨out, hdec, hrep⟩ := decode_wire uninit hwf hlead
    (nesting_le_of_ok hwf hlead hok)
  obtain ⟨s', hrun⟩ := structDecoderDecode_ok hok
  rw [hdec.decode_eq] at hrun
  obtain ⟨o₁, out₁, rfl, hres₁, -, hcalls⟩ := hrep.cons
  obtain ⟨out, out₂, rfl, hout, -⟩ := hcalls.split
  cases resolve_eq_msgStart hres₁
  obtain ⟨s₁, stores, hcall, hrun⟩ := StructDec.handleAll_ok_cons hrun
  cases hcall.symm.trans (handle_root map base false)
  obtain ⟨s₂, hrun, -⟩ := StructDec.handleAll_ok_append hrun
  exact (@Wire.runsBehind_of_ok maps sch w.bytes behind map.msgDesc
    map.msgDesc ⟨map, base, none, 0⟩ [] ⟨map, base, none, 0⟩ s₂ [] w out rfl
    rfl hout hrun).1

-- ================================================================ run alone

/-- The occurrences alone are well formed. -/
theorem Wire.occurrencesOf_wellFormed {keyed : List (Bytes × Payload)}
    {rest : Wire} (h : (occurrencesOf f keyed rest).WellFormed sch typed m) :
    (occurrencesOf f keyed .nil).WellFormed sch typed m := by
  induction keyed with
  | nil => trivial
  | cons elem keyed ih =>
      obtain ⟨key, p⟩ := elem
      obtain ⟨hkey, hp, hknown, hopens, htyped, hrest⟩ := h
      exact ⟨hkey, hp, hknown, hopens, htyped, ih hrest⟩

/-- They have no unknown fields. -/
theorem Wire.occurrencesOf_leading {keyed : List (Bytes × Payload)}
    {seen : Bool} : (occurrencesOf f keyed .nil).Leading sch seen m := by
  induction keyed generalizing seen with
  | nil => trivial
  | cons elem keyed ih => exact ih

/-- They are not longer than with what follows them. -/
theorem Wire.occurrencesOf_length (keyed : List (Bytes × Payload))
    (rest : Wire) : (occurrencesOf f keyed .nil).bytes.length
      ≤ (occurrencesOf f keyed rest).bytes.length := by
  induction keyed with
  | nil => exact Nat.zero_le _
  | cons elem keyed ih =>
      obtain ⟨key, p⟩ := elem
      simp only [occurrencesOf, bytes, List.length_append]
      omega

/-- A message of its own with nothing but the run, in submessages with
nothing but each other. -/
structure Alone (sch : Schema) (m : MsgRef) (w v : Wire) : Prop where
  wellFormed : v.WellFormed sch typed m
  leading : ∀ seen, v.Leading sch seen m
  length_le : v.bytes.length ≤ w.bytes.length

/-- A part that stands alone does so in a longer message. -/
theorem Alone.mono {v w₁ : Wire} (h : Alone sch m w v)
    (hle : w.bytes.length ≤ w₁.bytes.length) : Alone sch m w₁ v :=
  ⟨h.wellFormed, h.leading, h.length_le.trans hle⟩

/-- Two messages of their own that differ in the run, taken out of two
others: nothing stands in front of the run. -/
structure TakenOut (sch : Schema) (m : MsgRef) (f : FieldRef)
    (elems : List Payload) (path : List FieldRef) (w w' v v' : Wire) :
    Prop where
  unrolled : Unrolled f elems path v v'
  first : Alone sch m w v
  second : Alone sch m w' v'
  runs : ∀ (maps : Maps) (map : StructMap), ¬ v.RunsBehind maps map []

/-- What is in front of the rest does not matter. -/
theorem TakenOut.extend {v v' w₁ w₁' : Wire} {bs bs' : Bytes}
    (h : TakenOut sch m f elems path w w' v v')
    (hw : w₁.bytes = bs ++ w.bytes) (hw' : w₁'.bytes = bs' ++ w'.bytes) :
    TakenOut sch m f elems path w₁ w₁' v v' := by
  have hle : w.bytes.length ≤ w₁.bytes.length := by
    rw [hw]
    exact Wire.left_length_le (Nat.le_refl _)
  have hle' : w'.bytes.length ≤ w₁'.bytes.length := by
    rw [hw']
    exact Wire.left_length_le (Nat.le_refl _)
  exact ⟨h.unrolled, h.first.mono hle, h.second.mono hle', h.runs⟩

/-- The run and its occurrences, taken out of where they stand. -/
theorem TakenOut.here {key len : Bytes} {keyed : List (Bytes × Payload)}
    {rest : Wire} (same : keyed.map (·.2) = elems)
    (hwf : (Wire.run f key len elems rest).WellFormed sch typed m)
    (hwf' : (Wire.occurrencesOf f keyed rest).WellFormed sch typed m) :
    TakenOut sch m f elems [] (.run f key len elems rest)
      (.occurrencesOf f keyed rest) (.run f key len elems .nil)
      (.occurrencesOf f keyed .nil) := by
  obtain ⟨hkey, hlen, hknown, hpacked, helems, -⟩ := hwf
  constructor
  · exact .here .nil same
  · constructor
    · exact ⟨hkey, hlen, hknown, hpacked, helems, trivial⟩
    · exact fun _ => trivial
    · simp only [Wire.bytes, List.length_append, List.length_nil]
      omega
  · exact ⟨Wire.occurrencesOf_wellFormed hwf',
      fun _ => Wire.occurrencesOf_leading, Wire.occurrencesOf_length ..⟩
  · intro maps map hruns
    obtain ⟨⟨g, -, -, hg, -⟩, -⟩ := hruns
    cases hg

/-- A submessage with nothing but a message of its own, its length written
anew. -/
theorem Alone.inside {g : FieldRef} {key len : Bytes} {body rest v : Wire}
    (hwf : (Wire.sub g key len body rest).WellFormed sch typed m)
    (h : Alone sch (sch.subDesc g) body v) :
    Alone sch m (.sub g key len body rest)
      (.sub g key (encode v.bytes.length) v .nil) := by
  obtain ⟨hkey, hlen, hknown, hpacked, hmsg, htyped, hdesc, -, -⟩ := hwf
  obtain ⟨hcomplete, hle⟩ := complete_encode hlen h.length_le
  constructor
  · exact ⟨hkey, hcomplete, hknown, hpacked, hmsg, htyped, hdesc,
      h.wellFormed, trivial⟩
  · exact fun _ => ⟨h.leading true, trivial⟩
  · have := h.length_le
    simp only [Wire.bytes, List.length_append, List.length_nil]
    omega

/-- The same one submessage further out. -/
theorem TakenOut.inside {g : FieldRef} {key len len' : Bytes}
    {body body' rest v v' : Wire}
    (hwf : (Wire.sub g key len body rest).WellFormed sch typed m)
    (hwf' : (Wire.sub g key len' body' rest).WellFormed sch typed m)
    (h : TakenOut sch (sch.subDesc g) f elems path body body' v v') :
    TakenOut sch m f elems (g :: path) (.sub g key len body rest)
      (.sub g key len' body' rest)
      (.sub g key (encode v.bytes.length) v .nil)
      (.sub g key (encode v'.bytes.length) v' .nil) := by
  constructor
  · exact .inside .nil h.unrolled
  · exact h.first.inside hwf
  · exact h.second.inside hwf'
  · intro maps map hsub
    obtain ⟨⟨field, inner, -, -, hinner⟩, -⟩ := hsub
    exact h.runs maps inner hinner

/-- Two such messages can be taken out of any two that differ in a run: the
same list, in the same place. -/
theorem Unrolled.alone (h : Unrolled f elems path w w')
    (hwf : w.WellFormed sch typed m) (hwf' : w'.WellFormed sch typed m) :
    ∃ v v', TakenOut sch m f elems path w w' v v' := by
  induction h generalizing m with
  | here rest same => exact ⟨_, _, .here same hwf hwf'⟩
  | behindUnknown key p _ ih =>
      obtain ⟨-, -, -, hrest⟩ := hwf
      obtain ⟨-, -, -, hrest'⟩ := hwf'
      obtain ⟨v, v', h⟩ := ih hrest hrest'
      exact ⟨v, v', h.extend rfl rfl⟩
  | behindScalar g key p _ ih =>
      obtain ⟨-, -, -, -, -, hrest⟩ := hwf
      obtain ⟨-, -, -, -, -, hrest'⟩ := hwf'
      obtain ⟨v, v', h⟩ := ih hrest hrest'
      exact ⟨v, v', h.extend rfl rfl⟩
  | behindSub g key len body _ ih =>
      obtain ⟨-, -, -, -, -, -, -, -, hrest⟩ := hwf
      obtain ⟨-, -, -, -, -, -, -, -, hrest'⟩ := hwf'
      obtain ⟨v, v', h⟩ := ih hrest hrest'
      exact ⟨v, v', h.extend rfl rfl⟩
  | behindRun g key len others _ ih =>
      obtain ⟨-, -, -, -, -, hrest⟩ := hwf
      obtain ⟨-, -, -, -, -, hrest'⟩ := hwf'
      obtain ⟨v, v', h⟩ := ih hrest hrest'
      exact ⟨v, v', h.extend rfl rfl⟩
  | inside rest _ ih =>
      have hbody := hwf
      have hbody' := hwf'
      obtain ⟨-, -, -, -, -, -, -, hbody, -⟩ := hbody
      obtain ⟨-, -, -, -, -, -, -, hbody', -⟩ := hbody'
      obtain ⟨v, v', h⟩ := ih hbody hbody'
      exact ⟨_, _, h.inside hwf hwf'⟩

end

-- =================================================================== results

section

variable (maps : Maps) (sch : Schema) (behind : Nat → UInt8)
  (map : StructMap) (base : Nat) (uninit : UInt64)

/-- The calls for two messages come to their end, and leave the same in
memory. -/
structure SameStruct (w w' : Wire) : Prop where
  ok : ∃ used, (structDecoderDecode w.bytes behind maps sch map base
    uninit).2 = .ok used
  ok' : ∃ used, (structDecoderDecode w'.bytes behind maps sch map base
    uninit).2 = .ok used
  same : ∀ mem, structDecoded maps sch behind map base uninit w mem
    = structDecoded maps sch behind map base uninit w' mem

variable {sch map}

/-- A list that a message carries as a packed run is not decoded as its
occurrences are, whatever is around it: the call for the message can only
return if each run of it stands behind a field whose entry leads to a map of
the run's message, and there are messages with the list in the same place
where it does not. -/
theorem packed_runs_differ {f : FieldRef} {elems : List Payload}
    {path : List FieldRef} {w w' : Wire}
    (hwf : w.WellFormed sch typed map.msgDesc)
    (hlead : w.Leading sch false map.msgDesc)
    (hwf' : w'.WellFormed sch typed map.msgDesc)
    (h : Unrolled f elems path w w') :
    (SameStruct maps sch behind map base uninit w w' →
      w.RunsBehind maps map []) ∧
    ¬ ∀ v v' : Wire, v.WellFormed sch typed map.msgDesc →
      v.Leading sch false map.msgDesc →
      v'.WellFormed sch typed map.msgDesc →
      v'.Leading sch false map.msgDesc → Unrolled f elems path v v' →
      SameStruct maps sch behind map base uninit v v' := by
  constructor
  · intro hsame
    obtain ⟨used, hok⟩ := hsame.ok
    exact Wire.runsBehind_of_decoded hwf hlead hok
  · intro hall
    obtain ⟨v, v', hun, hv, hv', hruns⟩ := h.alone hwf hwf'
    have hsame := hall v v' hv.wellFormed (hv.leading false) hv'.wellFormed
      (hv'.leading false) hun
    obtain ⟨used, hok⟩ := hsame.ok
    exact hruns maps map
      (Wire.runsBehind_of_decoded hv.wellFormed (hv.leading false) hok)

end

/-- The value of the run, as an occurrence. -/
def oneValue : Wire := .scalar ⟨0, 0⟩ [0x08] (.varint [0x05]) .nil

/-- The value of the example, outside a run. -/
theorem oneValue_wellFormed : oneValue.WellFormed packedInt32 typed 0 := by
  refine ⟨⟨by decide, by decide⟩, by decide, by decide, ?_,
    ⟨rfl, fun hstr => by cases hstr⟩, trivial⟩
  intro h
  obtain ⟨hstr, -⟩ := h
  cases hstr

/-- It is the run of the example, unrolled. -/
theorem oneRun_unrolled :
    Unrolled ⟨0, 0⟩ [.varint [0x05]] [] oneRun oneValue :=
  @Unrolled.here ⟨0, 0⟩ _ [0x0a] [0x01] [([0x08], .varint [0x05])] .nil rfl

/-- Of a run with one element. -/
theorem packed_runs_differ_one :
    (SameStruct (fun _ => none) packedInt32 (fun _ => 0) oneSlot 4096 0
        oneRun oneValue → oneRun.RunsBehind (fun _ => none) oneSlot []) ∧
    ¬ ∀ v v' : Wire, v.WellFormed packedInt32 typed 0 →
      v.Leading packedInt32 false 0 → v'.WellFormed packedInt32 typed 0 →
      v'.Leading packedInt32 false 0 →
      Unrolled ⟨0, 0⟩ [.varint [0x05]] [] v v' →
      SameStruct (fun _ => none) packedInt32 (fun _ => 0) oneSlot 4096 0
        v v' :=
  @packed_runs_differ (fun _ => none) packedInt32 (fun _ => 0) oneSlot 4096 0
    ⟨0, 0⟩ [.varint [0x05]] [] oneRun oneValue oneRun_wellFormed trivial
    oneValue_wellFormed oneRun_unrolled

/-- With the run, the first start call behind that of the message reads a
last field that there is not; with the occurrence the value is stored. -/
theorem packed_run_faults :
    oneRun.WellFormed packedInt32 typed 0 ∧
      oneValue.WellFormed packedInt32 typed 0 ∧
      Unrolled ⟨0, 0⟩ [.varint [0x05]] [] oneRun oneValue ∧
      (structDecoderDecode oneRun.bytes (fun _ => 0) (fun _ => none)
        packedInt32 oneSlot 4096 0).2 = .fault .pointer ∧
      (structDecoderDecode oneValue.bytes (fun _ => 0) (fun _ => none)
        packedInt32 oneSlot 4096 0).2 = .ok 2 ∧
      ¬ SameStruct (fun _ => none) packedInt32 (fun _ => 0) oneSlot 4096 0
        oneRun oneValue := by
  have hrun : Decodes packedInt32 0 oneRun.bytes 0
      [.msgStart 0 false, .msgStart 0 true,
        .field 0 ⟨0, 0⟩ (some (.int32 5)) true, .msgEnd 0 true,
        .msgEnd 0 false] (.ok 3) := halts_of_eval 8 rfl
  have hvalue : Decodes packedInt32 0 oneValue.bytes 0
      [.msgStart 0 false, .field 0 ⟨0, 0⟩ (some (.int32 5)) false,
        .msgEnd 0 false] (.ok 2) := halts_of_eval 8 rfl
  have hfault : (structDecoderDecode oneRun.bytes (fun _ => 0)
      (fun _ => none) packedInt32 oneSlot 4096 0).2 = .fault .pointer := by
    unfold structDecoderDecode
    rw [show oneSlot.msgDesc = 0 from rfl, hrun.decode_eq]
    decide
  refine ⟨oneRun_wellFormed, oneValue_wellFormed, oneRun_unrolled, hfault,
    ?_, ?_⟩
  · unfold structDecoderDecode
    rw [show oneSlot.msgDesc = 0 from rfl, hvalue.decode_eq]
    decide
  · intro h
    obtain ⟨used, hok⟩ := h.ok
    rw [hfault] at hok
    cases hok

end Lwpb
