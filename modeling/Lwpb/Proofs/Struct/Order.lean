/-
Whether the struct decoder keeps the order of a message's fields.

It puts a value in the slot that counts the occurrences of its field in a
row, where the earlier ones should be counted. So a message whose
occurrences follow each other is decoded right (`struct_decode_contiguous`),
and any other exactly if no occurrence that has a byte to store is cut off
from the earlier ones (`struct_decode_ordered`). Two messages that are,
and differ in the order of their fields only, leave the same memory:
their placings are the same, and placings that lie apart can be made in
any order.
-/
import Lwpb.Proofs.Decoder.Unknown
import Lwpb.Proofs.Struct.Walk

namespace Lwpb

open Memory Machine

-- ============================================================== reorderings

namespace Wire

/-- One message behind the other. -/
def append : Wire → Wire → Wire
  | .nil, post => post
  | .unknown key p rest, post => .unknown key p (append rest post)
  | .scalar f key p rest, post => .scalar f key p (append rest post)
  | .sub f key len body rest, post => .sub f key len body (append rest post)
  | .run f key len elems rest, post =>
      .run f key len elems (append rest post)

/-- The same fields in another order, those of submessages too; each
field's occurrences keep theirs. Unknown fields and the spelling of keys
and lengths do not count. -/
inductive Reordered : Wire → Wire → Prop where
  | nil : Reordered .nil .nil
  | unknown {key : Bytes} {p : Payload} {rest w : Wire}
      (h : Reordered rest w) : Reordered (.unknown key p rest) w
  | unknown' {key : Bytes} {p : Payload} {pre post w : Wire}
      (h : Reordered w (pre.append post)) :
      Reordered w (pre.append (.unknown key p post))
  | scalar {f : FieldRef} {key key' : Bytes} {p : Payload}
      {rest pre post : Wire} (first : f ∉ pre.occurrences)
      (h : Reordered rest (pre.append post)) :
      Reordered (.scalar f key p rest) (pre.append (.scalar f key' p post))
  | sub {f : FieldRef} {key key' len len' : Bytes}
      {body body' rest pre post : Wire} (first : f ∉ pre.occurrences)
      (hbody : Reordered body body')
      (h : Reordered rest (pre.append post)) :
      Reordered (.sub f key len body rest)
        (pre.append (.sub f key' len' body' post))

end Wire

section

variable {maps : Maps} {sch : Schema} {map : StructMap} {f : FieldRef}
  {before before' : List FieldRef} {base : Nat} {w w' pre post : Wire}

/-- What belongs where. -/
def wants (ts : List (Placing Place)) : List (Place × Bytes) :=
  ts.map fun t => (t.want, t.bytes)

/-- What placings want, by place and bytes. -/
theorem wanted_eq (ts : List (Placing Place)) :
    ts.map (Placing.wanted (address maps sch base))
      = (wants ts).map fun t => (address maps sch base t.1, t.2) := by
  unfold wants
  rw [List.map_map]
  rfl

/-- Placings want what their parts want. -/
theorem wants_append (ts ts' : List (Placing Place)) :
    wants (ts ++ ts') = wants ts ++ wants ts' :=
  List.map_append

/-- Where the n-th occurrence of a field belongs. -/
def scalarWants (sch : Schema) (map : StructMap) (n : Nat) (f : FieldRef)
    (p : Payload) : List (Place × Bytes) :=
  match findMapField map f with
  | none => []
  | some field =>
      [([(field, n)], placed field (sch.field f).opts.typ
        (p.read (sch.field f).opts.typ))]

/-- Where the values of the n-th occurrence of a submessage belong. -/
def subWants (maps : Maps) (sch : Schema) (map : StructMap) (n : Nat)
    (f : FieldRef) (body : Wire) : List (Place × Bytes) :=
  match findMapField map f with
  | none => []
  | some field =>
      match maps field.len with
      | none => []
      | some inner =>
          (wants (body.placings maps sch inner [])).map
            fun t => ((field, n) :: t.1, t.2)

/-- A scalar wants its own slot, and the rest what it wants behind it. -/
theorem wants_scalar {key : Bytes} {p : Payload} {rest : Wire} :
    wants ((Wire.scalar f key p rest).placings maps sch map before)
      = scalarWants sch map (before.count f) f p
        ++ wants (rest.placings maps sch map (f :: before)) := by
  rw [Wire.placings, wants_append]
  unfold scalarWants
  cases findMapField map f <;> rfl

/-- A submessage wants the slots inside its own. -/
theorem wants_sub {key len : Bytes} {body rest : Wire} :
    wants ((Wire.sub f key len body rest).placings maps sch map before)
      = subWants maps sch map (before.count f) f body
        ++ wants (rest.placings maps sch map (f :: before)) := by
  rw [Wire.placings, wants_append]
  unfold subWants
  cases findMapField map f with
  | none => rfl
  | some field =>
      simp only
      cases maps field.len with
      | none => rfl
      | some inner =>
          unfold wants
          simp only [List.map_map]
          rfl

/-- Only how often the fields to come have occurred counts. -/
theorem Wire.wants_congr
    (h : ∀ g ∈ w.occurrences, before.count g = before'.count g) :
    wants (w.placings maps sch map before)
      = wants (w.placings maps sch map before') := by
  have hnext : ∀ {f : FieldRef} {after : List FieldRef}
      {before before' : List FieldRef},
      (∀ g ∈ f :: after, before.count g = before'.count g) →
      ∀ g ∈ after, (f :: before).count g = (f :: before').count g := by
    intro f after before before' h g hg
    rw [List.count_cons, List.count_cons, h g (List.mem_cons_of_mem _ hg)]
  induction w generalizing before before' with
  | nil => rfl
  | unknown key p rest ih => exact ih h
  | scalar f key p rest ih =>
      rw [wants_scalar, wants_scalar, h f List.mem_cons_self, ih (hnext h)]
  | sub f key len body rest _ ih =>
      rw [wants_sub, wants_sub, h f List.mem_cons_self, ih (hnext h)]
  | run f key len elems rest ih => exact ih (hnext h)

/-- A message in two parts: the second comes behind the fields of the first.
-/
theorem Wire.wants_append_wire :
    wants ((pre.append post).placings maps sch map before)
      = wants (pre.placings maps sch map before)
        ++ wants (post.placings maps sch map
          (pre.occurrences.reverse ++ before)) := by
  have hmore : ∀ (f : FieldRef) (fs before : List FieldRef),
      (f :: fs).reverse ++ before = fs.reverse ++ f :: before := by
    intro f fs before
    rw [List.reverse_cons, List.append_assoc]
    rfl
  induction pre generalizing before with
  | nil => rfl
  | unknown key p rest ih => exact ih
  | scalar f key p rest ih =>
      show wants ((Wire.scalar f key p (rest.append post)).placings maps sch
        map before) = _
      rw [wants_scalar, wants_scalar, ih, List.append_assoc]
      show _ = _ ++ (_ ++ wants (post.placings maps sch map
        ((f :: rest.occurrences).reverse ++ before)))
      rw [hmore]
  | sub f key len body rest _ ih =>
      show wants ((Wire.sub f key len body (rest.append post)).placings maps
        sch map before) = _
      rw [wants_sub, wants_sub, ih, List.append_assoc]
      show _ = _ ++ (_ ++ wants (post.placings maps sch map
        ((f :: rest.occurrences).reverse ++ before)))
      rw [hmore]
  | run f key len elems rest ih =>
      show wants ((rest.append post).placings maps sch map (f :: before)) = _
      rw [ih]
      show _ = wants (rest.placings maps sch map (f :: before))
        ++ wants (post.placings maps sch map
          ((f :: rest.occurrences).reverse ++ before))
      rw [hmore]

/-- An occurrence in front, moved behind others: what belongs where is the
same. -/
theorem wants_moved (first : f ∉ pre.occurrences)
    (hbefore : ∀ g, before.count g = before'.count g)
    {ts : Nat → List (Place × Bytes)} {rest : List (Place × Bytes)}
    (h : rest.Perm (wants ((pre.append post).placings maps sch map
      (f :: before')))) :
    (ts (before.count f) ++ rest).Perm
      (wants (pre.placings maps sch map before')
        ++ (ts ((pre.occurrences.reverse ++ before').count f)
          ++ wants (post.placings maps sch map
            (f :: (pre.occurrences.reverse ++ before'))))) := by
  have hcount : (pre.occurrences.reverse ++ before').count f
      = before.count f := by
    rw [List.count_append, List.count_reverse,
      List.count_eq_zero.mpr first, Nat.zero_add, hbefore]
  have hpre : wants (pre.placings maps sch map (f :: before'))
      = wants (pre.placings maps sch map before') :=
    Wire.wants_congr fun g hg => List.count_cons_of_ne (by
      intro h
      subst h
      exact first hg)
  have hpost : wants (post.placings maps sch map
        (pre.occurrences.reverse ++ f :: before'))
      = wants (post.placings maps sch map
        (f :: (pre.occurrences.reverse ++ before'))) :=
    Wire.wants_congr fun g _ => List.perm_middle.count_eq g
  rw [Wire.wants_append_wire, hpre, hpost] at h
  rw [hcount]
  exact (h.append_left _).trans (List.perm_append_comm_assoc _ _ _)

/-- What belongs where does not depend on the order of the fields. -/
theorem Wire.Reordered.wants_perm (h : w.Reordered w')
    (hbefore : ∀ g, before.count g = before'.count g) :
    (wants (w.placings maps sch map before)).Perm
      (wants (w'.placings maps sch map before')) := by
  induction h generalizing map before before' with
  | nil => exact .nil
  | unknown h ih => exact ih hbefore
  | unknown' h ih =>
      refine (ih hbefore).trans (.of_eq ?_)
      rw [Wire.wants_append_wire, Wire.wants_append_wire]
      rfl
  | @scalar f key key' p rest pre post first h ih =>
      have hrest := @ih map (f :: before) (f :: before') fun g => by
        rw [List.count_cons, List.count_cons, hbefore g]
      rw [wants_scalar, Wire.wants_append_wire, wants_scalar]
      exact @wants_moved maps sch map f before before' pre post first hbefore
        (fun n => scalarWants sch map n f p) _ hrest
  | @sub f key key' len len' body body' rest pre post first hbody h ihb ih =>
      have hrest := @ih map (f :: before) (f :: before') fun g => by
        rw [List.count_cons, List.count_cons, hbefore g]
      have hsame : ∀ n, (subWants maps sch map n f body).Perm
          (subWants maps sch map n f body') := by
        intro n
        unfold subWants
        cases findMapField map f with
        | none => exact .nil
        | some field =>
            simp only
            cases maps field.len with
            | none => exact .nil
            | some inner => exact (ihb fun g => rfl).map _
      rw [wants_sub, Wire.wants_append_wire, wants_sub]
      refine ((hsame _).append_right _).trans ?_
      exact @wants_moved maps sch map f before before' pre post first hbefore
        (fun n => subWants maps sch map n f body') _ hrest

end

-- =================================================================== results

section

variable (maps : Maps) (sch : Schema) (behind : Nat → UInt8)
  (map : StructMap) (base : Nat) (uninit : UInt64) (w : Wire)

/-- What `lwpb_struct_decoder_decode` leaves in memory. -/
def structDecoded (mem : Mem) : Mem :=
  storeAll mem
    (structDecoderDecode w.bytes behind maps sch map base uninit).1

/-- The call is successful and stores each value of the message where it
belongs: the i-th occurrence of a field in slot i of its entry. -/
structure InSlots : Prop where
  ok : ∃ used, (structDecoderDecode w.bytes behind maps sch map base
    uninit).2 = .ok used
  stored : ∀ mem, ∀ t ∈ w.placings maps sch map [],
    Memory.read (structDecoded maps sch behind map base uninit w mem)
      (address maps sch base t.want) t.bytes.length = t.bytes

/-- It stores them there and nothing else. -/
structure InSlotsOnly : Prop extends
    InSlots maps sch behind map base uninit w where
  unchanged : ∀ mem a, (∀ t ∈ w.placings maps sch map [],
      ¬ Covers (t.wanted (address maps sch base)) a) →
    structDecoded maps sch behind map base uninit w mem a = mem a

variable {maps sch behind map base uninit w}

/-- A message with all occurrences in place leaves what belongs in the
slots. -/
theorem structDecoded_right (hlaid : AllLaid maps sch map)
    (hwf : w.WellFormed sch typed map.msgDesc)
    (hlead : w.Leading sch false map.msgDesc)
    (hdepth : w.nesting ≤ maxDepth) (hshort : w.Short sch [])
    (hplace : w.InPlace maps sch map []) (mem : Mem) :
    structDecoded maps sch behind map base uninit w mem
      = writeAll mem ((w.placings maps sch map []).map
        (Placing.wanted (address maps sch base))) := by
  obtain ⟨-, hleaves⟩ := (structDecoderDecode_wire uninit hlaid hwf hlead
    hdepth).1 hshort
  exact (hleaves mem).trans (writeAll_right (Wire.inPlace_iff.mp hplace))

/-- The bytes of every occurrence are in its own slot exactly if the message
nests no deeper than the decoder, no value is too long for its slot and every
field comes in place. The slot that the decoder writes is counted in the row
of an occurrence and its own slot from the start of the message, so the two
are one slot exactly in place. Slots do not overlap, and no occurrence is
written where a later one belongs: one that is written elsewhere leaves its
own slot as it was. -/
theorem inSlots_iff (hlaid : AllLaid maps sch map)
    (hwf : w.WellFormed sch typed map.msgDesc) (hcount : w.Counted maps map)
    (hlead : w.Leading sch false map.msgDesc) :
    InSlots maps sch behind map base uninit w ↔
      w.nesting ≤ maxDepth ∧ w.Short sch [] ∧ w.InPlace maps sch map [] := by
  have hsep := Wire.placings_separate base hlaid hwf hcount
  have hord := @Wire.placings_inOrder maps sch map [] w
  constructor
  · intro h
    obtain ⟨⟨used, hok⟩, hstored⟩ := h
    have hdepth := nesting_le_of_ok hwf hlead hok
    obtain ⟨hshorts, hlongs⟩ := @structDecoderDecode_wire maps sch behind
      base w map uninit hlaid hwf hlead hdepth
    have hshort : w.Short sch [] := by
      by_contra hlong
      rw [hlongs hlong] at hok
      cases hok
    refine ⟨hdepth, hshort, Wire.inPlace_iff.mpr ?_⟩
    refine (placed_iff hsep hord).mp fun mem t ht => ?_
    rw [← (hshorts hshort).2 mem]
    exact hstored mem t ht
  · intro h
    obtain ⟨hdepth, hshort, hplace⟩ := h
    obtain ⟨hok, hleaves⟩ := (@structDecoderDecode_wire maps sch behind base
      w map uninit hlaid hwf hlead hdepth).1 hshort
    refine ⟨⟨_, hok⟩, fun mem t ht => ?_⟩
    unfold structDecoded
    rw [hleaves mem]
    exact (placed_iff hsep hord).mpr (Wire.inPlace_iff.mp hplace) mem t ht

/-- The struct decoder is right on a message whose unknown fields lead and
whose occurrences of each field follow each other, unless one follows
`2 ^ 31 - 1` others. -/
theorem struct_decode_contiguous (hlaid : AllLaid maps sch map)
    (hwf : w.WellFormed sch typed map.msgDesc) (hcount : w.Counted maps map)
    (hcont : w.Contiguous) (hdepth : w.nesting ≤ maxDepth)
    (hlead : w.Leading sch false map.msgDesc) :
    InSlotsOnly maps sch behind map base uninit w ↔ w.Short sch [] := by
  have hplace : w.InPlace maps sch map [] :=
    Wire.contiguous_inPlace hcont fun g _ => .inl rfl
  have hin := @inSlots_iff maps sch behind map base uninit w hlaid hwf hcount
    hlead
  constructor
  · intro h
    exact (hin.mp h.toInSlots).2.1
  · intro hshort
    refine ⟨hin.mpr ⟨hdepth, hshort, hplace⟩, fun mem a ha => ?_⟩
    rw [structDecoded_right hlaid hwf hlead hdepth hshort hplace]
    refine writeAll_other ?_
    rw [List.forall_mem_map]
    exact ha

/-- A map without submessages leads to no other. -/
theorem allLaid_of_none (h : map.Laid (fun _ => none) sch) :
    AllLaid (fun _ => none) sch map :=
  allLaid_of_closed (· = map) rfl (fun _ heq => heq ▸ h)
    fun _ _ _ _ _ _ hthere => by cases hthere

/-- The map with one entry is laid out. -/
theorem oneSlot_laid : AllLaid (fun _ => none) oneInt32 oneSlot := by
  refine allLaid_of_none ⟨by decide, by decide, by decide,
    fun field hmem hmsg => ?_, by decide, by decide,
    StructMap.apart_of_sorted (by decide)⟩
  cases List.mem_singleton.mp hmem
  cases hmsg

/-- A path: its points, its name, and differences in zig-zag codes. -/
def pathSchema : Schema :=
  ⟨[⟨[⟨1, ⟨.repeated, .message, 0⟩, some 1, "points"⟩,
      ⟨2, ⟨.optional, .string, 0⟩, none, "name"⟩,
      ⟨3, ⟨.repeated, .sint64, 0⟩, none, "differences"⟩]⟩,
    ⟨[⟨1, ⟨.optional, .int32, 0⟩, none, "x"⟩,
      ⟨2, ⟨.optional, .bool, 0⟩, none, "end"⟩]⟩]⟩

/-- The struct of a point. -/
def pointMap : StructMap := ⟨1, 8, [⟨⟨1, 0⟩, 0, 4, 1⟩, ⟨⟨1, 1⟩, 4, 4, 1⟩]⟩

/-- The struct of a path: room for two points, a name of seven letters and
three differences. -/
def pathMap : StructMap :=
  ⟨0, 48, [⟨⟨0, 0⟩, 0, 1, 2⟩, ⟨⟨0, 1⟩, 16, 8, 1⟩, ⟨⟨0, 2⟩, 24, 8, 3⟩]⟩

/-- The maps of both, that of a point at address 1. -/
def pathMaps : Maps := fun a => if a = 1 then some pointMap else none

/-- An unknown field, two points, a name that is too long, and two
differences. -/
def samplePath : Wire :=
  .unknown [0x20] (.varint [0x07])
    (.sub ⟨0, 0⟩ [0x0a] [0x05]
        (.scalar ⟨1, 0⟩ [0x08] (.varint [0x96, 0x01])
          (.scalar ⟨1, 1⟩ [0x10] (.varint [0x01]) .nil))
      (.sub ⟨0, 0⟩ [0x0a] [0x02]
          (.scalar ⟨1, 0⟩ [0x08] (.varint [0x05]) .nil)
        (.scalar ⟨0, 1⟩ [0x12]
            (.string [0x09] [110, 111, 114, 116, 104, 119, 101, 115, 116])
          (.scalar ⟨0, 2⟩ [0x18] (.varint [0x03])
            (.scalar ⟨0, 2⟩ [0x18] (.varint [0x04]) .nil)))))

/-- So is the map with nested maps. -/
theorem pathMap_laid : AllLaid pathMaps pathSchema pathMap := by
  refine allLaid_of_closed (fun map => map = pathMap ∨ map = pointMap)
    (.inl rfl) ?_ ?_
  · rintro map (rfl | rfl)
    · refine ⟨by decide, by decide, by decide, fun field hmem hmsg => ?_,
        by decide, by decide, StructMap.apart_of_sorted (by decide)⟩
      simp only [pathMap, List.mem_cons, List.not_mem_nil, or_false] at hmem
      rcases hmem with rfl | rfl | rfl
      · exact ⟨pointMap, rfl, rfl⟩
      · cases hmsg
      · cases hmsg
    · refine ⟨by decide, by decide, by decide, fun field hmem hmsg => ?_,
        by decide, by decide, StructMap.apart_of_sorted (by decide)⟩
      simp only [pointMap, List.mem_cons, List.not_mem_nil, or_false] at hmem
      rcases hmem with rfl | rfl <;> cases hmsg
  · rintro map - field - - sub hthere
    unfold pathMaps at hthere
    split at hthere
    · exact .inr (Option.some.inj hthere).symm
    · cases hthere

/-- The nested message has no more occurrences than the maps have places. -/
theorem samplePath_counted : samplePath.Counted pathMaps pathMap := by
  refine ⟨fun field hfield => ?_, fun field hfield => ?_,
    fun field hfield => ?_, fun field hfield => ?_, fun field hfield => ?_,
    trivial⟩ <;>
  cases hfield
  · refine ⟨by decide, fun inner hinner => ?_⟩
    cases hinner
    refine ⟨fun field hfield => ?_, fun field hfield => ?_, trivial⟩ <;>
    cases hfield <;> decide
  · refine ⟨by decide, fun inner hinner => ?_⟩
    cases hinner
    refine ⟨fun field hfield => ?_, trivial⟩
    cases hfield
    decide
  · decide
  · decide
  · decide

/-- The path is decoded into its slots. -/
theorem struct_decode_contiguous_path :
    InSlotsOnly pathMaps pathSchema (fun _ => 0) pathMap 4096 0 samplePath :=
  (struct_decode_contiguous pathMap_laid (by decide) samplePath_counted
    ⟨by decide, ⟨by decide, by decide, trivial⟩, by decide,
      ⟨by decide, trivial⟩, by decide, by decide, by decide, trivial⟩
    (by decide) (by decide)).mpr (by decide)

/-- A field of an unknown number is stored behind the slot of the known one
in front of it. -/
theorem struct_decode_stores_unknown :
    AllLaid (fun _ => none) oneInt32 oneSlot ∧
      knownThenUnknown.WellFormed oneInt32 typed 0 ∧
      knownThenUnknown.Counted (fun _ => none) oneSlot ∧
      knownThenUnknown.Contiguous ∧
      knownThenUnknown.nesting ≤ maxDepth ∧
      ¬ InSlotsOnly (fun _ => none) oneInt32 (fun _ => 0) oneSlot 4096 0
        knownThenUnknown := by
  refine ⟨oneSlot_laid, by decide, ⟨?_, trivial⟩,
    ⟨fun hf => absurd hf List.not_mem_nil, trivial⟩, by decide, ?_⟩
  · intro field hfield
    cases hfield
    decide
  · intro h
    have hdec : Decodes oneInt32 0 knownThenUnknown.bytes 0
        [.msgStart 0 false, .field 0 ⟨0, 0⟩ (some (.int32 5)) false,
          .field 0 ⟨0, 0⟩ (some (.int32 7)) false, .msgEnd 0 false]
        (.ok 4) := halts_of_eval 5 rfl
    have hbehind := h.unchanged (fun _ => 0) 4100 fun t ht => by
      cases List.mem_singleton.mp ht
      intro hin
      have hend : 4100 < 4096 + 0 + 4 * 0 + 4 := hin.2
      omega
    unfold structDecoded structDecoderDecode at hbehind
    rw [show oneSlot.msgDesc = 0 from rfl, hdec.decode_eq] at hbehind
    exact absurd hbehind (by decide)

/-- The struct decoder keeps the order of the occurrences of each field
exactly if those that have a byte to store are in place. Two messages in
another order of which that is so leave the same memory. -/
theorem struct_decode_ordered (hlaid : AllLaid maps sch map)
    (hwf : w.WellFormed sch typed map.msgDesc) (hcount : w.Counted maps map)
    (hlead : w.Leading sch false map.msgDesc) :
    (InSlots maps sch behind map base uninit w ↔
      w.nesting ≤ maxDepth ∧ w.Short sch [] ∧ w.InPlace maps sch map []) ∧
    ∀ w' : Wire, w'.WellFormed sch typed map.msgDesc →
      w'.Leading sch false map.msgDesc → w.Reordered w' →
      InSlots maps sch behind map base uninit w →
      (w'.nesting ≤ maxDepth ∧ w'.Short sch [] ∧ w'.InPlace maps sch map []) →
      ∀ mem, structDecoded maps sch behind map base uninit w mem
        = structDecoded maps sch behind map base uninit w' mem := by
  refine ⟨inSlots_iff hlaid hwf hcount hlead, ?_⟩
  intro w' hwf' hlead' hreorder hin h mem
  obtain ⟨hdepth', hshort', hplace'⟩ := h
  obtain ⟨hdepth, hshort, hplace⟩ := (inSlots_iff hlaid hwf hcount
    hlead).mp hin
  rw [structDecoded_right hlaid hwf hlead hdepth hshort hplace,
    structDecoded_right hlaid hwf' hlead' hdepth' hshort' hplace']
  have happart := (Wire.placings_separate base hlaid hwf hcount).pairwise
    Wire.placings_inOrder
  refine writeAll_perm happart ?_
  rw [wanted_eq, wanted_eq]
  exact (hreorder.wants_perm fun g => rfl).map _

/-- A repeated field `a` and a field `b`. -/
def manyAndOne : Schema :=
  ⟨[⟨[⟨1, ⟨.repeated, .int32, 0⟩, none, "a"⟩,
    ⟨2, ⟨.optional, .int32, 0⟩, none, "b"⟩]⟩]⟩

/-- A struct with room for two of `a`, and `b` behind them. -/
def manyAndOneMap : StructMap :=
  ⟨0, 12, [⟨⟨0, 0⟩, 0, 4, 2⟩, ⟨⟨0, 1⟩, 8, 4, 1⟩]⟩

/-- `a = 1`, `b = 2` and `a = 3`. -/
def interleaved : Wire :=
  .scalar ⟨0, 0⟩ [0x08] (.varint [0x01])
    (.scalar ⟨0, 1⟩ [0x10] (.varint [0x02])
      (.scalar ⟨0, 0⟩ [0x08] (.varint [0x03]) .nil))

/-- The map of a repeated field beside another is laid out. -/
theorem manyAndOneMap_laid :
    AllLaid (fun _ => none) manyAndOne manyAndOneMap := by
  refine allLaid_of_none ⟨by decide, by decide, by decide,
    fun field hmem hmsg => ?_, by decide, by decide,
    StructMap.apart_of_sorted (by decide)⟩
  rcases List.mem_cons.mp hmem with rfl | hmem
  · cases hmsg
  · cases List.mem_singleton.mp hmem
    cases hmsg

/-- Two occurrences of the repeated field, with the other one between them. -/
theorem interleaved_wellFormed :
    interleaved.WellFormed manyAndOne typed 0 := by
  decide

/-- There are places for all three. -/
theorem interleaved_counted :
    interleaved.Counted (fun _ => none) manyAndOneMap := by
  refine ⟨?_, ?_, ?_, trivial⟩ <;>
  · intro field hfield
    cases hfield
    decide

/-- Of these occurrences, which do not follow each other. -/
theorem struct_decode_ordered_interleaved :
    (InSlots (fun _ => none) manyAndOne (fun _ => 0) manyAndOneMap 4096 0
        interleaved ↔
      interleaved.nesting ≤ maxDepth ∧ interleaved.Short manyAndOne [] ∧
        interleaved.InPlace (fun _ => none) manyAndOne manyAndOneMap []) ∧
    ∀ w' : Wire, w'.WellFormed manyAndOne typed 0 →
      w'.Leading manyAndOne false 0 → interleaved.Reordered w' →
      InSlots (fun _ => none) manyAndOne (fun _ => 0) manyAndOneMap 4096 0
        interleaved →
      (w'.nesting ≤ maxDepth ∧ w'.Short manyAndOne [] ∧
        w'.InPlace (fun _ => none) manyAndOne manyAndOneMap []) →
      ∀ mem, structDecoded (fun _ => none) manyAndOne (fun _ => 0)
          manyAndOneMap 4096 0 interleaved mem
        = structDecoded (fun _ => none) manyAndOne (fun _ => 0)
          manyAndOneMap 4096 0 w' mem :=
  struct_decode_ordered manyAndOneMap_laid interleaved_wellFormed
    interleaved_counted trivial

/-- Behind another field, the second value of a repeated field is stored
over the first. -/
theorem struct_decode_restarts :
    interleaved.WellFormed manyAndOne typed 0 ∧
      interleaved.Counted (fun _ => none) manyAndOneMap ∧
      ¬ InSlots (fun _ => none) manyAndOne (fun _ => 0) manyAndOneMap 4096 0
        interleaved := by
  refine ⟨interleaved_wellFormed, interleaved_counted, fun h => ?_⟩
  have hdec : Decodes manyAndOne 0 interleaved.bytes 0
      [.msgStart 0 false, .field 0 ⟨0, 0⟩ (some (.int32 1)) false,
        .field 0 ⟨0, 1⟩ (some (.int32 2)) false,
        .field 0 ⟨0, 0⟩ (some (.int32 3)) false, .msgEnd 0 false]
      (.ok 6) := halts_of_eval 7 rfl
  have hsecond := h.stored (fun _ => 0)
    ⟨[(⟨⟨0, 0⟩, 0, 4, 2⟩, 1)], [(⟨⟨0, 0⟩, 0, 4, 2⟩, 0)], [3, 0, 0, 0]⟩
    (by decide)
  unfold structDecoded structDecoderDecode at hsecond
  rw [show manyAndOneMap.msgDesc = 0 from rfl, hdec.decode_eq] at hsecond
  exact absurd hsecond (by decide)

end

end Lwpb
