/-
Struct maps that leave fields out.

A map need not have an entry for every field of its message. The part of a
message that it maps is what is left without the occurrences that have no
entry (`Wire.mappedPart`): a message of the same type again, of which every
occurrence has one (`Wire.mappedPart_wellFormed`,
`Wire.mappedPart_mappedBy`). The struct decoder should do the same with
both. But `find_map_field` falls off its end without a value if there is no
entry, so it does so exactly if nothing is left out
(`struct_decode_ignores_iff`).
-/
import Lwpb.Proofs.RoundTrip
import Lwpb.Proofs.Struct.Order

namespace Lwpb

open Memory Machine Base128 Slice

-- ============================================================== mapped parts

/-- The message without the occurrences that have no entry, in its mapped
submessages likewise. A submessage that becomes shorter gets its new
length. -/
def Wire.mappedPart (maps : Maps) (map : StructMap) : Wire → Wire
  | .nil => .nil
  | .unknown key p rest => .unknown key p (mappedPart maps map rest)
  | .scalar f key p rest =>
      match findMapField map f with
      | none => mappedPart maps map rest
      | some _ => .scalar f key p (mappedPart maps map rest)
  | .sub f key len body rest =>
      match findMapField map f with
      | none => mappedPart maps map rest
      | some field =>
          match maps field.len with
          | none => .sub f key len body (mappedPart maps map rest)
          | some inner =>
              let part := mappedPart maps inner body
              .sub f key
                (if part = body then len else encode part.bytes.length)
                part (mappedPart maps map rest)
  | .run f key len elems rest =>
      match findMapField map f with
      | none => mappedPart maps map rest
      | some _ => .run f key len elems (mappedPart maps map rest)

section

variable {maps : Maps} {sch : Schema} {map : StructMap} {m : MsgRef}
  {w : Wire}

/-- Every occurrence that is left has an entry. -/
theorem Wire.mappedPart_mappedBy :
    (w.mappedPart maps map).MappedBy maps map := by
  induction w generalizing map with
  | nil => trivial
  | unknown key p rest ih => exact ih
  | scalar f key p rest ih =>
      rw [mappedPart]
      cases hfield : findMapField map f with
      | none => exact ih
      | some field => exact ⟨⟨field, hfield⟩, ih⟩
  | sub f key len body rest ihb ihr =>
      rw [mappedPart]
      cases hfield : findMapField map f with
      | none => exact ihr
      | some field =>
          cases hthere : maps field.len with
          | none =>
              simp only [hthere]
              refine ⟨⟨field, hfield, fun inner hinner => ?_⟩, ihr⟩
              rw [hthere] at hinner
              cases hinner
          | some inner =>
              simp only [hthere]
              refine ⟨⟨field, hfield, fun inner' hinner => ?_⟩, ihr⟩
              rw [hthere] at hinner
              cases hinner
              exact ihb
  | run f key len elems rest ih =>
      rw [mappedPart]
      cases hfield : findMapField map f with
      | none => exact ih
      | some field => exact ⟨⟨field, hfield⟩, ih⟩

/-- If every occurrence has one, nothing is left out. -/
theorem Wire.mappedPart_self (h : w.MappedBy maps map) :
    w.mappedPart maps map = w := by
  induction w generalizing map with
  | nil => rfl
  | unknown key p rest ih =>
      rw [mappedPart, ih h]
  | scalar f key p rest ih =>
      obtain ⟨⟨field, hfield⟩, hrest⟩ := h
      rw [mappedPart, hfield]
      simp only [ih hrest]
  | sub f key len body rest ihb ihr =>
      obtain ⟨⟨field, hfield, hbody⟩, hrest⟩ := h
      rw [mappedPart, hfield]
      cases hthere : maps field.len with
      | none => simp only [hthere, ihr hrest]
      | some inner =>
          simp only [hthere, ihb (hbody inner hthere), ihr hrest, if_true]
  | run f key len elems rest ih =>
      obtain ⟨⟨field, hfield⟩, hrest⟩ := h
      rw [mappedPart, hfield]
      simp only [ih hrest]

/-- A message that is not longer than another one has a length. -/
theorem complete_encode {len content part : Bytes}
    (h : (Payload.string len content).Complete)
    (hle : part.length ≤ content.length) :
    (Payload.string (encode part.length) part).Complete ∧
      (encode part.length).length ≤ len.length := by
  obtain ⟨⟨hterm, -⟩, hlen⟩ := h
  have hlt := (varintWord len).toNat_lt
  have hvalue : (varintWord len).toNat ≤ value len := by
    unfold varintWord
    rw [UInt64.toNat_ofNat']
    exact Nat.mod_le ..
  refine ⟨⟨isVarint_encode (by omega), ?_⟩,
    encode_length_le_of_le hterm (by omega)⟩
  rw [varintWord_encode, UInt64.toNat_ofNat']
  exact Nat.mod_eq_of_lt (by omega)

/-- What stands in front of two messages keeps the shorter one shorter. -/
theorem Wire.front_length_le {front : Bytes} {part : Wire}
    (h : part.bytes.length ≤ w.bytes.length) :
    (front ++ part.bytes).length ≤ (front ++ w.bytes).length := by
  rw [List.length_append, List.length_append]
  exact Nat.add_le_add_left h _

/-- An occurrence that is left out makes the message shorter. -/
theorem Wire.left_length_le {front : Bytes} {part : Wire}
    (h : part.bytes.length ≤ w.bytes.length) :
    part.bytes.length ≤ (front ++ w.bytes).length :=
  h.trans (List.suffix_append front w.bytes).length_le

/-- What is left is a message of the same type, and not longer. -/
theorem Wire.mappedPart_wellFormed (hwf : w.WellFormed sch typed m) :
    (w.mappedPart maps map).WellFormed sch typed m ∧
      (w.mappedPart maps map).bytes.length ≤ w.bytes.length := by
  induction w generalizing m map with
  | nil => exact ⟨trivial, Nat.le_refl _⟩
  | unknown key p rest ih =>
      obtain ⟨hkey, hp, hunknown, hrest⟩ := hwf
      obtain ⟨hwf, hle⟩ := @ih map m hrest
      exact ⟨⟨hkey, hp, hunknown, hwf⟩, front_length_le hle⟩
  | scalar f key p rest ih =>
      obtain ⟨hkey, hp, hknown, hopens, htyped, hrest⟩ := hwf
      obtain ⟨hwf, hle⟩ := @ih map m hrest
      rw [mappedPart]
      cases findMapField map f with
      | none => exact ⟨hwf, left_length_le hle⟩
      | some field =>
          exact ⟨⟨hkey, hp, hknown, hopens, htyped, hwf⟩,
            front_length_le hle⟩
  | sub f key len body rest ihb ihr =>
      obtain ⟨hkey, hp, hknown, hpacked, hmsg, htyped, hdesc, hbody, hrest⟩
        := hwf
      obtain ⟨hwf, hle⟩ := @ihr map m hrest
      rw [mappedPart]
      cases findMapField map f with
      | none => exact ⟨hwf, left_length_le hle⟩
      | some field =>
          cases hthere : maps field.len with
          | none =>
              simp only [hthere]
              exact ⟨⟨hkey, hp, hknown, hpacked, hmsg, htyped, hdesc, hbody,
                hwf⟩, front_length_le hle⟩
          | some inner =>
              obtain ⟨hwfb, hleb⟩ := @ihb inner _ hbody
              obtain ⟨hcomplete, hlen⟩ := complete_encode hp hleb
              simp only [hthere]
              by_cases hsame : mappedPart maps inner body = body
              · rw [if_pos hsame, hsame]
                exact ⟨⟨hkey, hp, hknown, hpacked, hmsg, htyped, hdesc,
                  hbody, hwf⟩, front_length_le hle⟩
              · -- the part has a length of its own
                rw [if_neg hsame]
                refine ⟨⟨hkey, hcomplete, hknown, hpacked, hmsg, htyped,
                  hdesc, hwfb, hwf⟩, ?_⟩
                simp only [bytes, List.length_append]
                omega
  | run f key len elems rest ih =>
      obtain ⟨hkey, hp, hknown, hpacked, helems, hrest⟩ := hwf
      obtain ⟨hwf, hle⟩ := @ih map m hrest
      rw [mappedPart]
      cases findMapField map f with
      | none => exact ⟨hwf, left_length_le hle⟩
      | some field =>
          exact ⟨⟨hkey, hp, hknown, hpacked, helems, hwf⟩,
            front_length_le hle⟩

end

-- =================================================================== results

section

variable (maps : Maps) (sch : Schema) (behind : Nat → UInt8)
  (map : StructMap) (base : Nat) (uninit : UInt64) (w : Wire)

/-- Occurrences without an entry make no difference: the call comes to its
end, as it does for the part of the message that is mapped, and leaves the
same in memory; and nothing is stored in an element without an entry. -/
structure IgnoresUnmapped : Prop where
  ok : ∃ used, (structDecoderDecode w.bytes behind maps sch map base
    uninit).2 = .ok used
  ok_part : ∃ used, (structDecoderDecode (w.mappedPart maps map).bytes behind
    maps sch map base uninit).2 = .ok used
  same : ∀ mem, structDecoded maps sch behind map base uninit w mem
    = structDecoded maps sch behind map base uninit (w.mappedPart maps map)
        mem
  entries : ∀ s ∈ (structDecoderDecode w.bytes behind maps sch map base
    uninit).1, s.OfEntries maps map

variable {maps sch behind map base uninit w}

/-- The struct decoder ignores what a map leaves out exactly if, in the
submessages that it maps too, there is no occurrence without an entry (and
the message fits the stack, no field occurs `2 ^ 31` times in a row, and no
string has `2 ^ 64 - 1` bytes). What it should decode is a message of the
same type, of which every occurrence has an entry. -/
theorem struct_decode_ignores_iff (hfit : AllFitting maps sch map)
    (hwf : w.WellFormed sch typed map.msgDesc) (hfree : w.RunFree)
    (hlead : w.Leading sch false map.msgDesc) :
    (IgnoresUnmapped maps sch behind map base uninit w ↔
        w.nesting ≤ maxDepth ∧ w.Short sch [] ∧ w.MappedBy maps map) ∧
      (w.mappedPart maps map).WellFormed sch typed map.msgDesc ∧
      (w.mappedPart maps map).MappedBy maps map := by
  refine ⟨?_, (Wire.mappedPart_wellFormed hwf).1, Wire.mappedPart_mappedBy⟩
  constructor
  · intro h
    obtain ⟨used, hok⟩ := h.ok
    have hdepth := nesting_le_of_ok hwf hlead hok
    obtain ⟨-, hstop⟩ := @structDecoderDecode_runFree maps sch behind base w
      map uninit hfit hwf hfree hlead hdepth
    by_contra hbad
    rw [hstop fun hin => hbad ⟨hdepth, hin.2, hin.1⟩] at hok
    cases hok
  · intro h
    obtain ⟨hdepth, hshort, hmapped⟩ := h
    obtain ⟨hok, -⟩ := (@structDecoderDecode_runFree maps sch behind base w
      map uninit hfit hwf hfree hlead hdepth).1 hmapped hshort
    have hself := Wire.mappedPart_self hmapped
    refine ⟨⟨_, hok⟩, ⟨w.bytes.length, ?_⟩, fun mem => ?_, ?_⟩
    · rw [hself]
      exact hok
    · rw [hself]
    · rw [structDecoderDecode_stores]
      exact fun s hs => (handleAll_in structInit_stands s hs).1

/-- A struct for the points of a path and its differences; the name is left
out, and so is the end of a point. -/
def pointsMap : StructMap :=
  ⟨0, 48, [⟨⟨0, 0⟩, 0, 1, 2⟩, ⟨⟨0, 2⟩, 24, 8, 3⟩]⟩

def xMap : StructMap := ⟨1, 8, [⟨⟨1, 0⟩, 0, 4, 1⟩]⟩

/-- The maps of both, that of a point at address 1. -/
def pointsMaps : Maps := fun a => if a = 1 then some xMap else none

/-- A path without a name, of points without an end. -/
def openPath : Wire :=
  .unknown [0x20] (.varint [0x07])
    (.sub ⟨0, 0⟩ [0x0a] [0x03]
        (.scalar ⟨1, 0⟩ [0x08] (.varint [0x96, 0x01]) .nil)
      (.sub ⟨0, 0⟩ [0x0a] [0x02]
          (.scalar ⟨1, 0⟩ [0x08] (.varint [0x05]) .nil)
        (.scalar ⟨0, 2⟩ [0x18] (.varint [0x03]) .nil)))

theorem pointsMap_fitting : AllFitting pointsMaps pathSchema pointsMap := by
  have hpoint : ∀ map', LeadsTo pointsMaps pathSchema pointsMap map' →
      map' = pointsMap ∨ map' = xMap := by
    intro map' hleads
    induction hleads with
    | root => exact .inl rfl
    | nested _ _ _ hthere =>
        unfold pointsMaps at hthere
        split at hthere
        · exact .inr (Option.some.inj hthere).symm
        · cases hthere
  intro map' hleads
  rcases hpoint map' hleads with rfl | rfl
  · refine ⟨by decide, by decide, fun field hmem hmsg => ?_⟩
    simp only [pointsMap, List.mem_cons, List.not_mem_nil, or_false] at hmem
    rcases hmem with rfl | rfl
    · exact ⟨xMap, rfl, rfl⟩
    · cases hmsg
  · refine ⟨by decide, by decide, fun field hmem hmsg => ?_⟩
    obtain rfl := List.mem_singleton.mp hmem
    cases hmsg

theorem openPath_mapped : openPath.MappedBy pointsMaps pointsMap := by
  refine ⟨⟨_, rfl, ?_⟩, ⟨_, rfl, ?_⟩, ⟨_, rfl⟩, trivial⟩
  · rintro inner ⟨⟩
    exact ⟨⟨_, rfl⟩, trivial⟩
  · rintro inner ⟨⟩
    exact ⟨⟨_, rfl⟩, trivial⟩

/-- Nothing of it is left out of the map, so that it is decoded. -/
theorem struct_decode_ignores_iff_points :
    IgnoresUnmapped pointsMaps pathSchema (fun _ => 0) pointsMap 4096 0
      openPath := by
  have hfree : openPath.RunFree := ⟨trivial, trivial, trivial⟩
  exact (struct_decode_ignores_iff pointsMap_fitting (by decide) hfree
    (by decide)).1.mpr ⟨by decide, by decide, openPath_mapped⟩

/-- A struct with room for two of `a`; `b` is left out. -/
def manyOnlyMap : StructMap := ⟨0, 8, [⟨⟨0, 0⟩, 0, 4, 2⟩]⟩

theorem manyOnlyMap_fitting :
    AllFitting (fun _ => none) manyAndOne manyOnlyMap := by
  intro map' hleads
  induction hleads with
  | root =>
      refine ⟨by decide, by decide, ?_⟩
      intro field hmem hmsg
      cases List.mem_singleton.mp hmem
      cases hmsg
  | nested _ _ _ hthere => cases hthere

/-- The call for an occurrence of `b` is undefined, though the message
without it is decoded. -/
theorem struct_decode_unmapped_faults :
    AllFitting (fun _ => none) manyAndOne manyOnlyMap ∧
      interleaved.WellFormed manyAndOne typed 0 ∧
      (structDecoderDecode interleaved.bytes (fun _ => 0) (fun _ => none)
        manyAndOne manyOnlyMap 4096 0).2 = .fault .pointer ∧
      (∃ used, (structDecoderDecode
        (interleaved.mappedPart (fun _ => none) manyOnlyMap).bytes
        (fun _ => 0) (fun _ => none) manyAndOne manyOnlyMap 4096 0).2
          = .ok used) ∧
      ¬ IgnoresUnmapped (fun _ => none) manyAndOne (fun _ => 0) manyOnlyMap
        4096 0 interleaved := by
  have hdec : Decodes manyAndOne 0 interleaved.bytes 0
      [.msgStart 0 false, .field 0 ⟨0, 0⟩ (some (.int32 1)) false,
        .field 0 ⟨0, 1⟩ (some (.int32 2)) false,
        .field 0 ⟨0, 0⟩ (some (.int32 3)) false, .msgEnd 0 false]
      (.ok 6) := halts_of_eval 7 rfl
  have hpart : Decodes manyAndOne 0
      (interleaved.mappedPart (fun _ => none) manyOnlyMap).bytes 0
      [.msgStart 0 false, .field 0 ⟨0, 0⟩ (some (.int32 1)) false,
        .field 0 ⟨0, 0⟩ (some (.int32 3)) false, .msgEnd 0 false]
      (.ok 4) := halts_of_eval 7 rfl
  have hfault : (structDecoderDecode interleaved.bytes (fun _ => 0)
      (fun _ => none) manyAndOne manyOnlyMap 4096 0).2 = .fault .pointer := by
    unfold structDecoderDecode
    rw [show manyOnlyMap.msgDesc = 0 from rfl, hdec.decode_eq]
    decide
  refine ⟨manyOnlyMap_fitting, interleaved_wellFormed, hfault, ⟨4, ?_⟩, ?_⟩
  · unfold structDecoderDecode
    rw [show manyOnlyMap.msgDesc = 0 from rfl, hpart.decode_eq]
    decide
  · intro h
    obtain ⟨used, hok⟩ := h.ok
    rw [hfault] at hok
    cases hok

end

end Lwpb
