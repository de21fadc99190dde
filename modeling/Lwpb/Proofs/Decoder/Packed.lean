/-
Packed runs and single elements.

The values of a packed field may be written as runs, as single elements
with a key each, or in any mixture, and between the chunks there may be
any other fields. `Wire.elements` are the values a message gives to a
field, however they are written, and a reader of the field's calls sees
just these (`decode_packed_elements`).

The calls of a message occurrence are those between its start and its
end, without those of its submessages (`own`); the start and end calls of
a run bound nothing.
-/
import Lwpb.Proofs.Decoder.Boundaries

namespace Lwpb

open Machine

variable {sch : Schema} {root : MsgRef} {uninit : UInt64}

-- ================================================================= messages

namespace Wire

/-- The values a message gives to a field, in order. -/
def elements (sch : Schema) (f : FieldRef) : Wire → List (Value Bytes)
  | .nil => []
  | .unknown _ _ rest => elements sch f rest
  | .scalar g _ p rest =>
      (if g = f then [p.read (sch.field f).opts.typ] else [])
        ++ elements sch f rest
  | .sub _ _ _ _ rest => elements sch f rest
  | .run g _ _ elems rest =>
      (if g = f then elems.map (Payload.read (sch.field f).opts.typ) else [])
        ++ elements sch f rest

/-- All fields are known ones. -/
def Known : Wire → Prop
  | .nil => True
  | .unknown _ _ _ => False
  | .scalar _ _ _ rest => Known rest
  | .sub _ _ _ body rest => Known body ∧ Known rest
  | .run _ _ _ _ rest => Known rest

theorem Known.leading {w : Wire} (h : w.Known) :
    ∀ (seen : Bool) (m : MsgRef), w.Leading sch seen m := by
  induction w with
  | nil => intro seen m; trivial
  | unknown key p rest ih => cases h
  | scalar f key p rest ih => intro seen m; exact ih h true m
  | sub f key len body rest ihb ihr =>
      intro seen m
      exact ⟨ihb h.1 true _, ihr h.2 true m⟩
  | run f key len elems rest ih => intro seen m; exact ih h true m

/-- `b` is the contents of a submessage in `w`, at any depth, and `m` its
descriptor. -/
inductive Inner (sch : Schema) (m : MsgRef) (b : Wire) : Wire → Prop where
  | body {f : FieldRef} {key len : Bytes} {rest : Wire}
      (hm : sch.subDesc f = m) : Inner sch m b (.sub f key len b rest)
  | inBody {f : FieldRef} {key len : Bytes} {body rest : Wire} :
      Inner sch m b body → Inner sch m b (.sub f key len body rest)
  | unknown {key : Bytes} {p : Payload} {rest : Wire} :
      Inner sch m b rest → Inner sch m b (.unknown key p rest)
  | scalar {f : FieldRef} {key : Bytes} {p : Payload} {rest : Wire} :
      Inner sch m b rest → Inner sch m b (.scalar f key p rest)
  | sub {f : FieldRef} {key len : Bytes} {body rest : Wire} :
      Inner sch m b rest → Inner sch m b (.sub f key len body rest)
  | run {f : FieldRef} {key len : Bytes} {elems : List Payload}
      {rest : Wire} :
      Inner sch m b rest → Inner sch m b (.run f key len elems rest)

/-- `b` is the contents of a message occurrence in `w`: `w` itself, or a
submessage. -/
def Occurs (sch : Schema) (root m : MsgRef) (b w : Wire) : Prop :=
  (m = root ∧ b = w) ∨ Inner sch m b w

end Wire

-- ==================================================================== calls

section

variable {σ : Type}

/-- The field calls that are not between the start and the end of a
message; `depth` messages are open. -/
def own : (depth : Nat) → List (Event σ) → List (Event σ)
  | _, [] => []
  | depth, .msgStart _ packed :: es =>
      own (if packed then depth else depth + 1) es
  | depth, .msgEnd _ packed :: es =>
      own (if packed then depth else depth - 1) es
  | depth, .field m f v packed :: es =>
      if depth = 0 then .field m f v packed :: own depth es
      else own depth es

/-- The calls for a field: the descriptor and the value it is given. -/
def callsFor (f : FieldRef) (es : List (Event σ)) :
    List (MsgRef × Value σ) :=
  es.filterMap fun
    | .field m g (some v) _ => if g = f then some (m, v) else none
    | _ => none

@[simp] theorem callsFor_append (f : FieldRef) (a b : List (Event σ)) :
    callsFor f (a ++ b) = callsFor f a ++ callsFor f b :=
  List.filterMap_append

end

/-- The elements of a run inside of other messages. -/
theorem own_elems_inner (m : MsgRef) (f : FieldRef) (elems : List Payload)
    (d : Nat) (es : List (Event Bytes)) :
    own (d + 1) (elemNotifs sch m f elems ++ es) = own (d + 1) es := by
  induction elems with
  | nil => rfl
  | cons e elems ih =>
      simp only [elemNotifs, List.map_cons, List.cons_append, own,
        Nat.succ_ne_zero, if_false]
      exact ih

/-- The elements of a run outside of them. -/
theorem own_elems (m : MsgRef) (f : FieldRef) (elems : List Payload)
    (es : List (Event Bytes)) :
    own 0 (elemNotifs sch m f elems ++ es)
      = elemNotifs sch m f elems ++ own 0 es := by
  induction elems with
  | nil => rfl
  | cons e elems ih =>
      simp only [elemNotifs, List.map_cons, List.cons_append, own, if_true]
      exact congrArg (_ :: ·) ih

namespace Wire

/-- What is between the start and the end of a message is its own. -/
theorem own_inner (w : Wire) :
    ∀ (m : MsgRef) (d : Nat) (es : List (Event Bytes)),
      own (d + 1) (w.notifs sch root m ++ es) = own (d + 1) es := by
  induction w with
  | nil => intro m d es; rfl
  | unknown key p rest ih => exact ih
  | scalar f key p rest ih =>
      intro m d es
      simp only [notifs, List.cons_append, own, Nat.succ_ne_zero, if_false,
        ih]
  | sub f key len body rest ihb ihr =>
      intro m d es
      simp only [notifs, List.cons_append, List.append_assoc, own,
        Nat.succ_ne_zero, if_false, Bool.false_eq_true, ihb, ihr,
        Nat.add_sub_cancel]
  | run f key len elems rest ih =>
      intro m d es
      have helems := @own_elems_inner sch m f elems d
      unfold elemNotifs at helems
      simp only [notifs, List.cons_append, List.append_assoc, own, if_true,
        helems, ih]

/-- The calls for a field that a message gets for itself. -/
theorem callsFor_own (f : FieldRef) (w : Wire) :
    ∀ (m : MsgRef) (es : List (Event Bytes)),
      callsFor f (own 0 (w.notifs sch root m ++ es))
        = (w.elements sch f).map (m, ·) ++ callsFor f (own 0 es) := by
  induction w with
  | nil => intro m es; rfl
  | unknown key p rest ih => exact ih
  | scalar g key p rest ih =>
      intro m es
      have hrest := ih m es
      by_cases hg : g = f
      · subst hg
        simp [notifs, own, callsFor, elements] at hrest ⊢
        exact hrest
      · simp [notifs, own, callsFor, elements, hg] at hrest ⊢
        exact hrest
  | sub g key len body rest ihb ihr =>
      intro m es
      have hbody := @own_inner sch root body (sch.subDesc g) 0
      have hrest := ihr m es
      simp [notifs, own, callsFor, elements, hbody] at hrest ⊢
      exact hrest
  | run g key len elems rest ih =>
      intro m es
      have helems := @own_elems sch m g elems
      have hrest := ih m es
      have hcalls : callsFor f (elemNotifs sch m g elems)
          = (if g = f then elems.map (Payload.read (sch.field f).opts.typ)
              else []).map (m, ·) := by
        by_cases hg : g = f
        · subst hg
          simp [callsFor, elemNotifs, List.filterMap_map, Function.comp_def]
        · simp [callsFor, elemNotifs, List.filterMap_map, hg]
      have hsplit : own 0 ((Wire.run g key len elems rest).notifs sch root m
            ++ es)
          = elemNotifs sch m g elems
            ++ own 0 (rest.notifs sch root m ++ es) := by
        have hend := helems (.msgEnd m true :: (rest.notifs sch root m ++ es))
        simp only [elemNotifs] at hend
        simp [notifs, own, elemNotifs, hend]
      rw [hsplit, callsFor_append, hrest, hcalls, elements, List.map_append,
        List.append_assoc]

/-- The calls for a submessage stand together, behind its start. -/
theorem Inner.notifs {m : MsgRef} {b w : Wire} (h : Inner sch m b w) :
    ∀ m₀, ∃ before after, w.notifs sch root m₀
      = before ++ .msgStart m false :: b.notifs sch root m
        ++ .msgEnd m false :: after := by
  induction h with
  | @body f key len rest hm =>
      intro m₀
      refine ⟨[.field root f none false], rest.notifs sch root m₀, ?_⟩
      rw [Wire.notifs, hm]
      simp
  | @inBody f key len body rest _ ih =>
      intro m₀
      obtain ⟨before, after, hsplit⟩ := ih (sch.subDesc f)
      refine ⟨.field root f none false :: .msgStart (sch.subDesc f) false
        :: before, after ++ .msgEnd (sch.subDesc f) false
          :: rest.notifs sch root m₀, ?_⟩
      rw [Wire.notifs, hsplit]
      simp
  | unknown _ ih => exact ih
  | @scalar f key p rest _ ih =>
      intro m₀
      obtain ⟨before, after, hsplit⟩ := ih m₀
      refine ⟨.field m₀ f (some (p.read (sch.field f).opts.typ)) false
        :: before, after, ?_⟩
      rw [Wire.notifs, hsplit]
      simp
  | @sub f key len body rest _ ih =>
      intro m₀
      obtain ⟨before, after, hsplit⟩ := ih m₀
      refine ⟨.field root f none false :: .msgStart (sch.subDesc f) false
        :: body.notifs sch root (sch.subDesc f)
          ++ .msgEnd (sch.subDesc f) false :: before, after, ?_⟩
      rw [Wire.notifs, hsplit]
      simp
  | @run f key len elems rest _ ih =>
      intro m₀
      obtain ⟨before, after, hsplit⟩ := ih m₀
      refine ⟨.msgStart m₀ true :: elemNotifs sch m₀ f elems
        ++ .msgEnd m₀ true :: before, after, ?_⟩
      rw [Wire.notifs, hsplit, elemNotifs]
      simp

theorem Occurs.report {m : MsgRef} {b w : Wire}
    (h : Occurs sch root m b w) :
    ∃ before after, w.report sch root
      = before ++ .msgStart m false :: b.notifs sch root m
        ++ .msgEnd m false :: after := by
  rcases h with ⟨rfl, rfl⟩ | hinner
  · exact ⟨[], [], rfl⟩
  · obtain ⟨before, after, hsplit⟩ := hinner.notifs root
    refine ⟨.msgStart root false :: before,
      after ++ [.msgEnd root false], ?_⟩
    rw [Wire.report, hsplit]
    simp

end Wire

-- ============================================================== the decoder

/-- Packed mode ends with the frame of the run: only a pop makes the stack
shallower, and every pop turns it off. -/
theorem Moves.unpacked {data : Bytes} {s s' : Dec} {out : List (Event Span)}
    (h : Moves sch root data s s' out) (hpop : s'.depth < s.depth) :
    s'.packed = false := by
  cases h with
  | enter hpt => exact absurd hpop (Nat.lt_irrefl _)
  | pop hpt hleft hbelow => rfl
  | skip hpt hleft hreads hf =>
      rw [hreads.depth] at hpop
      exact absurd hpop (Nat.lt_irrefl _)
  | run hpt hleft hreads hf hrun hopens =>
      have hdepth := hreads.depth
      unfold Dec.depth at hpop hdepth
      rw [hopens.below, List.length_cons] at hpop
      omega
  | sub hpt hleft hreads hf hno hmsg hopens =>
      have hdepth := hreads.depth
      unfold Dec.depth at hpop hdepth
      rw [hopens.below, List.length_cons] at hpop
      omega
  | value hpt hleft hreads hf hno hmsg hm =>
      rw [hreads.depth] at hpop
      exact absurd hpop (Nat.lt_irrefl _)

/-- Decoding `w` hands out the values `vs` of a field of the message
occurrence `b`: the call returns OK, and among what is called between the
start and the end of `b`, without the calls of its submessages, there is
one call for each value, in order, with the descriptor `m` of the message.
No frame that is left leaves the decoder in packed mode. -/
def DeliversElements (sch : Schema) (root : MsgRef) (uninit : UInt64)
    (w : Wire) (m : MsgRef) (b : Wire) (f : FieldRef)
    (vs : List (Value Bytes)) : Prop :=
  ∃ out before after,
    Decodes sch root w.bytes uninit out (.ok w.bytes.length) ∧
    resolve w.bytes out = before ++ .msgStart m false
      :: b.notifs sch root m ++ .msgEnd m false :: after ∧
    callsFor f (own 0 (b.notifs sch root m)) = vs.map (m, ·) ∧
    ∀ s s' o, DecReach sch root w.bytes uninit s →
      decodeMove sch root w.bytes s = .next s' o →
      s'.depth < s.depth → s'.packed = false

/-- However the values `vs` of a field are written in an occurrence of its
message, in runs, as single elements, and between whatever other fields:
the calls for the field are one for each value, in order, with the
descriptor of the message. -/
theorem decode_packed_elements {w : Wire}
    (hw : w.WellFormed sch typed root) (hknown : w.Known)
    (hdepth : w.nesting ≤ maxDepth) {m : MsgRef} {b : Wire}
    (hocc : Wire.Occurs sch root m b w) (f : FieldRef)
    (vs : List (Value Bytes)) (hvs : b.elements sch f = vs) :
    DeliversElements sch root uninit w m b f vs := by
  obtain ⟨out, hdec, hout⟩ := decode_wire uninit hw
    (hknown.leading false root) hdepth
  obtain ⟨before, after, hsplit⟩ := hocc.report
  refine ⟨out, before, after, hdec, hout.resolves.trans hsplit, ?_, ?_⟩
  · have hcalls := @Wire.callsFor_own sch root f b m []
    rw [List.append_nil, hvs] at hcalls
    rw [hcalls]
    simp [own, callsFor]
  · intro s s' o _ hmove hpop
    exact (decodeMove_next hmove).unpacked hpop

/-- A submessage of differences, in zig-zag codes, and of times of 64 bits,
both packed. -/
def packedInner : Schema :=
  ⟨[⟨[⟨1, ⟨.optional, .message, 0⟩, some 1, "inner"⟩,
      ⟨2, ⟨.optional, .int32, 0⟩, none, "n"⟩]⟩,
    ⟨[⟨1, ⟨.repeated, .sint32, flagPacked⟩, none, "differences"⟩,
      ⟨2, ⟨.repeated, .fixed64, flagPacked⟩, none, "times"⟩]⟩]⟩

/-- A run of differences, one of times, then one more of each with a key of
its own, and an empty run. -/
def mixedBody : Wire :=
  .run ⟨1, 0⟩ [0x0a] [0x02] [.varint [0x01], .varint [0x04]]
    (.run ⟨1, 1⟩ [0x12] [0x08] [.bit64 [7, 0, 0, 0, 0, 0, 0, 0]]
      (.scalar ⟨1, 0⟩ [0x08] (.varint [0x03])
        (.scalar ⟨1, 1⟩ [0x11] (.bit64 [0, 0, 0, 0, 1, 0, 0, 0])
          (.run ⟨1, 0⟩ [0x0a] [0x00] [] .nil))))

/-- The submessage, in front of another field. -/
def mixed : Wire :=
  .sub ⟨0, 0⟩ [0x0a] [0x1b] mixedBody
    (.scalar ⟨0, 1⟩ [0x10] (.varint [0x05]) .nil)

theorem mixed_wellFormed : mixed.WellFormed packedInner typed 0 := by
  decide

/-- Zig-zag codes and 64-bit values, in runs and one by one. -/
theorem decode_packed_elements_mixed :
    DeliversElements packedInner 0 0 mixed 1 mixedBody ⟨1, 0⟩
        [.int32 (-1), .int32 2, .int32 (-2)] ∧
      DeliversElements packedInner 0 0 mixed 1 mixedBody ⟨1, 1⟩
        [.uint64 7, .uint64 4294967296] := by
  have hocc : Wire.Occurs packedInner 0 1 mixedBody mixed := .inr (.body rfl)
  constructor
  · exact decode_packed_elements mixed_wellFormed ⟨trivial, trivial⟩
      (by decide) hocc ⟨1, 0⟩ _ (by decide)
  · exact decode_packed_elements mixed_wellFormed ⟨trivial, trivial⟩
      (by decide) hocc ⟨1, 1⟩ _ (by decide)

end Lwpb
