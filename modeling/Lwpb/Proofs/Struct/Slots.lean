/-
The slots of a struct, and when a value is stored in one.

Nothing keeps `unpack_field` from storing more elements than an entry of
the map counts: its guard compares `field->count` with itself. Whether a
call keeps to the mapped slots can be read off the frames before it
(`Fits`): a slot is left for the element and for the submessages around it,
and what the code takes for granted about pointers and counters holds. The
lemmas here say so of one value, type by type (`unpackField_fine`).
-/
import Lwpb.Lib.Sequence
import Lwpb.Proofs.Decoder.Inside
import Lwpb.Utils.StructDecoder

namespace Lwpb

open Memory Machine

-- ==================================================================== slots

section

variable (maps : Maps) (sch : Schema) (data : Bytes)

/-- The entry of a submessage. -/
def MapField.IsMessage (field : MapField) : Prop :=
  (sch.field field.fieldDesc).opts.typ.isMessage = true

instance (field : MapField) : Decidable (field.IsMessage sch) :=
  inferInstanceAs (Decidable (_ = true))

/-- The bytes of a struct that its map, or one of a struct nested in it,
has slots for. -/
inductive Mapped : StructMap → Nat → Nat → Prop where
  | slot {map : StructMap} {base a i : Nat} {field : MapField}
      (mem : field ∈ map.fields) (scalar : ¬ field.IsMessage sch)
      (inside : i < field.count) (lo : fieldBase field base i ≤ a)
      (hi : a < fieldBase field base i + field.len) : Mapped map base a
  | nested {map sub : StructMap} {base a i : Nat} {field : MapField}
      (mem : field ∈ map.fields) (message : field.IsMessage sch)
      (inside : i < field.count) (there : maps field.len = some sub)
      (within : Mapped sub (base + field.ofs + sub.structSize * i) a) :
      Mapped map base a

/-- The bytes are those of a slot, and if they are copied they are bytes of
the input. -/
def Store.Kept (s : Store) : Prop :=
  s.bytes = [] ∨
    s.index < s.field.count ∧
      (∀ elem ∈ s.outer, elem.1.IsMessage sch ∧ elem.2 < elem.1.count) ∧
      s.slot ≤ s.dst ∧ s.dst + s.bytes.length ≤ s.slot + s.field.len ∧
      ∀ q, s.src = some q → q + s.bytes.length ≤ data.length

/-- The struct has been written in its mapped slots only, with nothing that
is undefined. -/
structure Contained (map : StructMap) (base : Nat) (stores : List Store)
    (final : Except Stop StructDec) : Prop where
  defined : final ≠ .error .fault
  kept : ∀ s ∈ stores, s.Kept sch data
  within : ∀ mem a, ¬ Mapped maps sch map base a →
    storeAll mem stores a = mem a

-- =============================================================== conditions

/-- The counter of a frame can count on. -/
def StructFrame.Counts (frame : StructFrame) : Prop :=
  frame.fieldIndex + 1 < 2 ^ 31

/-- There is a slot for the next element of the field, and there was one
for each of the submessages around it. -/
def SlotLeft (below : List StructFrame) (frame : StructFrame)
    (field : MapField) : Prop :=
  frame.fieldIndex < field.count ∧
    ∀ outer ∈ below, ∀ elem, outer.lastField = some elem →
      elem.IsMessage sch ∧ outer.fieldIndex ≤ elem.count

/-- The value can be stored. -/
def ValueFits (below : List StructFrame) (frame : StructFrame)
    (field : MapField) (typ : FieldType) (value : Option (Value Span)) :
    Prop :=
  match typ, value with
  | .message, _ | .group, _ => True
  | .string, some (.string str) =>
      frame.Counts ∧ 0 < stringLen field str ∧
        SlotLeft sch below frame field ∧
        ∃ q, str.data = some q ∧ q + stringLen field str ≤ data.length
  | .bytes, some (.bytes str) =>
      frame.Counts ∧ (min field.len str.len = 0 ∨
        SlotLeft sch below frame field ∧
          ∃ q, str.data = some q ∧ q + min field.len str.len ≤ data.length)
  | .string, _ | .bytes, _ | _, none => False
  | typ, some v =>
      -- another size is an assertion
      field.len = typ.storedSize →
        stored typ v ≠ none ∧ frame.Counts ∧ SlotLeft sch below frame field

/-- The condition on a handler call. -/
def StructDec.Fits (s : StructDec) : Event Span → Prop
  | .msgStart _ _ =>
      match s.stack with
      | [] => True
      | last :: _ =>
          s.stack.length < maxDepth ∧ last.Counts ∧
            ∃ field, last.lastField = some field ∧ maps field.len ≠ none
  | .msgEnd _ _ => s.stack ≠ []
  | .field _ f value _ =>
      match s.stack with
      | [] => False
      | frame :: below =>
          ∃ field, findMapField frame.map f = some field ∧
            ValueFits sch data below (frame.enter field) field
              (sch.field f).opts.typ value

variable (behind : Nat → UInt8)

/-- All calls of a run meet it. -/
def StructDec.AllFit : StructDec → List (Event Span) → Prop
  | _, [] => True
  | s, e :: es =>
      s.Fits maps sch data e ∧
        ∀ s' stores, s.handle data behind maps sch e = .ok (s', stores) →
          AllFit s' es

end

-- =================================================================== frames

section

variable {maps : Maps} {sch : Schema} {data : Bytes}
  {behind : Nat → UInt8} {root : StructMap} {base : Nat}
  {frame last : StructFrame} {below : List StructFrame} {s : StructDec}
  {field : MapField}

/-- The frames from the root up: each is in an element of the one below. -/
inductive Stacked (maps : Maps) (root : StructMap) (base : Nat) :
    List StructFrame → Prop where
  | root {frame : StructFrame} (here : frame.map = root)
      (start : frame.base = base)
      (known : ∀ field, frame.lastField = some field →
        field ∈ frame.map.fields) : Stacked maps root base [frame]
  | nested {frame last : StructFrame} {below : List StructFrame}
      {field : MapField} {i : Nat}
      (around : Stacked maps root base (last :: below))
      (lastField : last.lastField = some field)
      (index : last.fieldIndex = i + 1)
      (here : maps field.len = some frame.map)
      (start : frame.base
        = last.base + field.ofs + frame.map.structSize * i)
      (known : ∀ field, frame.lastField = some field →
        field ∈ frame.map.fields) :
      Stacked maps root base (frame :: last :: below)

/-- The field a frame was entered with is one of its map. -/
theorem Stacked.known (h : Stacked maps root base (frame :: below))
    (hfield : frame.lastField = some field) : field ∈ frame.map.fields := by
  cases h with
  | root _ _ known => exact known field hfield
  | nested _ _ _ _ _ known => exact known field hfield

/-- Another entry and index, in the same struct. -/
theorem Stacked.turn {frame' : StructFrame}
    (h : Stacked maps root base (frame :: below))
    (hmap : frame'.map = frame.map) (hbase : frame'.base = frame.base)
    (hknown : ∀ field, frame'.lastField = some field →
      field ∈ frame.map.fields) :
    Stacked maps root base (frame' :: below) := by
  rw [← hmap] at hknown
  cases h with
  | root here start =>
      exact .root (hmap.trans here) (hbase.trans start) hknown
  | nested around lastField index here start =>
      refine .nested around lastField index (hmap ▸ here) ?_ hknown
      rw [hbase, hmap]
      exact start

/-- The frames below a frame are stacked. -/
theorem Stacked.pop (h : Stacked maps root base (frame :: last :: below)) :
    Stacked maps root base (last :: below) := by
  cases h with
  | nested around => exact around

/-- The maps that the elements around a store lead to, from the root: each
is an element of an entry of the one around it. -/
inductive Through (maps : Maps) (root : StructMap) :
    List (MapField × Nat) → StructMap → Prop where
  | root : Through maps root [] root
  | nested {map sub : StructMap} {field : MapField} {i : Nat}
      {outer : List (MapField × Nat)} (around : Through maps root outer map)
      (mem : field ∈ map.fields) (there : maps field.len = some sub) :
      Through maps root ((field, i) :: outer) sub

/-- The store is for an entry, and in elements of entries. -/
def Store.OfEntries (maps : Maps) (root : StructMap) (s : Store) : Prop :=
  ∃ map, Through maps root s.outer map ∧ s.field ∈ map.fields

/-- The outer places of a frame: that of its own field, and those below. -/
theorem outerOf_cons {last : StructFrame} {field : MapField}
    (h : last.lastField = some field) :
    outerOf (last :: below)
      = (field, last.fieldIndex - 1) :: outerOf below := by
  unfold outerOf
  rw [List.filterMap_cons, h]
  rfl

/-- The frames below lead through the maps to the map of the top one. -/
theorem Stacked.through (h : Stacked maps root base (frame :: below)) :
    Through maps root (outerOf below) frame.map := by
  induction below generalizing frame with
  | nil =>
      cases h with
      | root here start =>
          rw [here]
          exact .root
  | cons last below ih =>
      cases h with
      | @nested _ _ _ field i around lastField index here start =>
          rw [outerOf_cons lastField, index]
          exact .nested (ih around) (around.known lastField) here

/-- What the top frame has slots for the root has. -/
theorem Stacked.mapped (h : Stacked maps root base (frame :: below))
    (hleft : ∀ outer ∈ below, ∀ elem, outer.lastField = some elem →
      elem.IsMessage sch ∧ outer.fieldIndex ≤ elem.count) {a : Nat}
    (ha : Mapped maps sch frame.map frame.base a) :
    Mapped maps sch root base a := by
  induction below generalizing frame with
  | nil =>
      cases h with
      | root here start => rwa [← here, ← start]
  | cons last below ih =>
      cases h with
      | @nested _ _ _ field i around lastField index here start =>
          obtain ⟨hmsg, hle⟩ := hleft last List.mem_cons_self field lastField
          refine ih around (fun outer hmem =>
            hleft outer (List.mem_cons_of_mem _ hmem)) ?_
          refine .nested (around.known lastField) hmsg (i := i) (by omega)
            here ?_
          rwa [← start]

/-- There are slots for the elements that the frames are in if and only if
the counters say so. -/
theorem Stacked.outer_iff (h : Stacked maps root base (frame :: below)) :
    (∀ elem ∈ outerOf below, elem.1.IsMessage sch ∧ elem.2 < elem.1.count) ↔
      ∀ outer ∈ below, ∀ elem, outer.lastField = some elem →
        elem.IsMessage sch ∧ outer.fieldIndex ≤ elem.count := by
  induction below generalizing frame with
  | nil =>
      exact ⟨fun _ _ h => absurd h List.not_mem_nil,
        fun _ _ h => absurd h List.not_mem_nil⟩
  | cons last below ih =>
      cases h with
      | @nested _ _ _ field i around lastField index here start =>
          rw [outerOf_cons lastField, index, List.forall_mem_cons,
            List.forall_mem_cons, ih around]
          refine and_congr_left fun _ => ?_
          constructor
          · intro h elem helem
            obtain ⟨hmsg, hlt⟩ := h
            rw [lastField] at helem
            cases helem
            refine ⟨hmsg, ?_⟩
            rw [index]
            exact hlt
          · intro hall
            obtain ⟨hmsg, hle⟩ := hall field lastField
            exact ⟨hmsg, by
              show i < field.count
              omega⟩

-- =================================================================== values

/-- A store for the next element of a field, inside its slot. -/
theorem Stacked.kept_iff (h : Stacked maps root base (frame :: below))
    {slot dst : Nat} {bytes : Bytes} {src : Option Nat}
    (hbytes : bytes ≠ []) (hlo : slot ≤ dst)
    (hhi : dst + bytes.length ≤ slot + field.len) :
    (Store.mk field frame.fieldIndex (outerOf below) slot dst bytes
        src).Kept sch data ↔
      SlotLeft sch below frame field ∧
        ∀ q, src = some q → q + bytes.length ≤ data.length := by
  have houter := @Stacked.outer_iff maps sch root base frame below h
  constructor
  · rintro (hnil | ⟨hlt, hall, -, -, hsrc⟩)
    · exact absurd hnil hbytes
    · exact ⟨⟨hlt, houter.mp hall⟩, hsrc⟩
  · intro h
    obtain ⟨⟨hlt, hall⟩, hsrc⟩ := h
    exact .inr ⟨hlt, houter.mpr hall, hlo, hhi, hsrc⟩

/-- A copy is as long as was asked for. -/
theorem copied_length (q n : Nat) : (copied data behind q n).length = n := by
  unfold copied
  rw [List.length_map, List.length_range]

/-- Counting an element of a counted frame succeeds. -/
theorem bump_eq (h : frame.Counts) :
    frame.bump = .ok { frame with fieldIndex := frame.fieldIndex + 1 } :=
  if_pos h

/-- Counting in a frame without a place for it is a fault. -/
theorem bump_fault (h : ¬ frame.Counts) : frame.bump = .error .fault :=
  if_neg h

/-- The stores of a call are in order, and nothing is undefined. -/
def Fine (sch : Schema) (data : Bytes)
    (r : Except Stop (StructFrame × List Store)) : Prop :=
  r ≠ .error .fault ∧
    ∀ frame stores, r = .ok (frame, stores) → ∀ s ∈ stores, s.Kept sch data

/-- A result is fine if each of its stores is kept inside its slot. -/
theorem fine_ok {stores : List Store} :
    Fine sch data (.ok (frame, stores)) ↔ ∀ s ∈ stores, s.Kept sch data := by
  constructor
  · exact fun h => h.2 frame stores rfl
  · intro h
    constructor
    · intro heq
      cases heq
    · intro frame stores heq
      cases heq
      exact h

/-- A fault is not. -/
theorem not_fine_fault : ¬ Fine sch data (.error .fault) :=
  fun h => h.1 rfl

/-- An abort is: it writes nothing. -/
theorem fine_abort : Fine sch data (.error .abort) := by
  constructor
  · intro heq
    cases heq
  · intro frame stores heq
    cases heq

/-- A counter that has come to its end is the only thing that goes wrong
behind a store. -/
theorem fine_bump {stores : List Store} :
    Fine sch data (frame.bump.bind fun frame => .ok (frame, stores)) ↔
      frame.Counts ∧ ∀ s ∈ stores, s.Kept sch data := by
  by_cases hcount : frame.Counts
  · rw [bump_eq hcount]
    exact fine_ok.trans (iff_and_self.mpr fun _ => hcount)
  · rw [bump_fault hcount]
    exact iff_of_false not_fine_fault fun h => hcount h.1

/-- A stored value takes the bytes of its type. -/
theorem stored_length {σ : Type} {typ : FieldType} {v : Value σ}
    {bs : Bytes} (h : stored typ v = some bs) :
    bs.length = typ.storedSize := by
  cases typ <;> cases v <;> cases h <;> exact Slice.leBytes_length ..

/-- A string is stored in order if and only if it fits: its NUL has a place
in the slot. -/
theorem string_fine (h : Stacked maps root base (frame :: below))
    (hmem : field ∈ frame.map.fields) (str : Span) :
    ValueFits sch data below (frame.enter field) field .string
        (some (.string str)) ↔
      Fine sch data (unpackField data behind .string below frame field
        (some (.string str))) := by
  have hin : Stacked maps root base (frame.enter field :: below) :=
    h.turn rfl rfl fun _ heq => Option.some.inj heq ▸ hmem
  simp only [unpackField, ValueFits]
  generalize frame.enter field = frame at hin ⊢
  generalize fieldBase field frame.base frame.fieldIndex = slot
  have hle : stringLen field str ≤ field.len := Nat.min_le_left ..
  generalize stringLen field str = n at hle ⊢
  by_cases hlen : n = 0
  · refine iff_of_false (fun hfits => by omega) ?_
    subst hlen
    unfold memcpyFrom
    cases str.data <;> exact not_fine_fault
  · have hpos : 0 < n := Nat.pos_of_ne_zero hlen
    simp only [if_neg hlen]
    unfold memcpyFrom
    cases str.data with
    | none =>
        refine iff_of_false ?_ ?_
        · intro h
          obtain ⟨-, -, -, q, hq, -⟩ := h
          cases hq
        · simp only [if_neg (Nat.ne_of_gt hpos)]
          exact not_fine_fault
    | some q =>
        have hcopied : (copied data behind q n).length = n :=
          copied_length q n
        have hne : copied data behind q n ≠ [] := by
          intro hnil
          rw [hnil, List.length_nil] at hcopied
          omega
        have hcopy : (Store.mk field frame.fieldIndex (outerOf below) slot
            slot (copied data behind q n) (some q)).Kept sch data ↔ _ :=
          hin.kept_iff hne (Nat.le_refl slot) (by omega)
        have hnul : (Store.mk field frame.fieldIndex (outerOf below) slot
            (slot + n - 1) [0] none).Kept sch data ↔ _ :=
          hin.kept_iff (List.cons_ne_nil 0 []) (by omega) (by
            show slot + n - 1 + 1 ≤ slot + field.len
            omega)
        refine Iff.trans ?_ fine_bump.symm
        rw [List.forall_mem_cons, List.forall_mem_singleton, hcopy, hnul,
          hcopied]
        constructor
        · intro h
          obtain ⟨hcount, -, hleft, q', hq', hlen'⟩ := h
          cases hq'
          refine ⟨hcount, ⟨hleft, ?_⟩, hleft, fun _ hq => by cases hq⟩
          intro _ hq
          cases hq
          exact hlen'
        · intro h
          obtain ⟨hcount, ⟨hleft, hsrc⟩, -⟩ := h
          exact ⟨hcount, by omega, hleft, q, rfl, hsrc q rfl⟩

/-- A `bytes` value: what the length check lets through ends inside the slot.
-/
theorem bytes_fine (h : Stacked maps root base (frame :: below))
    (hmem : field ∈ frame.map.fields) (str : Span) :
    ValueFits sch data below (frame.enter field) field .bytes
        (some (.bytes str)) ↔
      Fine sch data (unpackField data behind .bytes below frame field
        (some (.bytes str))) := by
  have hin : Stacked maps root base (frame.enter field :: below) :=
    h.turn rfl rfl fun _ heq => Option.some.inj heq ▸ hmem
  simp only [unpackField, ValueFits]
  generalize frame.enter field = frame at hin ⊢
  generalize fieldBase field frame.base frame.fieldIndex = slot
  have hle : min field.len str.len ≤ field.len := Nat.min_le_left ..
  generalize min field.len str.len = n at hle ⊢
  unfold memcpyFrom
  cases str.data with
  | none =>
      by_cases hn : n = 0
      · simp only [if_pos hn]
        refine Iff.trans ?_ fine_bump.symm
        rw [List.forall_mem_singleton]
        exact and_congr_right fun _ => iff_of_true (.inl hn) (.inl rfl)
      · simp only [if_neg hn]
        refine iff_of_false ?_ not_fine_fault
        rintro ⟨-, hzero | ⟨-, q, hq, -⟩⟩
        · exact hn hzero
        · cases hq
  | some q =>
      have hcopied : (copied data behind q n).length = n := copied_length q n
      refine Iff.trans (and_congr_right fun _ => ?_) fine_bump.symm
      rw [List.forall_mem_singleton]
      by_cases hn : n = 0
      · have hnil : copied data behind q n = [] :=
          List.length_eq_zero_iff.mp (hcopied.trans hn)
        exact iff_of_true (.inl hn) (.inl hnil)
      · have hne : copied data behind q n ≠ [] := by
          intro hnil
          rw [hnil, List.length_nil] at hcopied
          exact hn hcopied.symm
        have hcopy : (Store.mk field frame.fieldIndex (outerOf below) slot
            slot (copied data behind q n) (some q)).Kept sch data ↔ _ :=
          hin.kept_iff hne (Nat.le_refl slot) (by omega)
        rw [hcopy, hcopied]
        constructor
        · rintro (hzero | ⟨hleft, q', hq', hlen⟩)
          · exact absurd hzero hn
          · cases hq'
            refine ⟨hleft, fun _ hq => ?_⟩
            cases hq
            exact hlen
        · intro h
          obtain ⟨hleft, hsrc⟩ := h
          exact .inr ⟨hleft, q, rfl, hsrc q rfl⟩

/-- All other types are stored in the same way. -/
theorem unpackField_stored {typ : FieldType} (htyp : typ.storedSize ≠ 0)
    (v : Value Span) :
    unpackField data behind typ below frame field (some v)
      = if field.len ≠ typ.storedSize then .error .abort
        else
          match stored typ v with
          | none => .error .fault
          | some bytes => (frame.enter field).bump.bind fun frame' =>
              .ok (frame', [⟨field, (frame.enter field).fieldIndex,
                outerOf below,
                fieldBase field frame.base (frame.enter field).fieldIndex,
                fieldBase field frame.base (frame.enter field).fieldIndex,
                bytes, none⟩]) := by
  cases typ <;> first | exact absurd rfl htyp | rfl

/-- A value of fixed size fits when its slot is left and the field is counted.
-/
theorem valueFits_stored {typ : FieldType} (htyp : typ.storedSize ≠ 0)
    (v : Value Span) :
    ValueFits sch data below frame field typ (some v) ↔
      (field.len = typ.storedSize →
        stored typ v ≠ none ∧ frame.Counts ∧
          SlotLeft sch below frame field) := by
  cases typ <;> first | exact absurd rfl htyp | rfl

/-- So its store is kept inside the slot if and only if it fits. -/
theorem stored_fine (h : Stacked maps root base (frame :: below))
    (hmem : field ∈ frame.map.fields) {typ : FieldType}
    (htyp : typ.storedSize ≠ 0) (v : Value Span) :
    ValueFits sch data below (frame.enter field) field typ (some v) ↔
      Fine sch data (unpackField data behind typ below frame field
        (some v)) := by
  have hin : Stacked maps root base (frame.enter field :: below) :=
    h.turn rfl rfl fun _ heq => Option.some.inj heq ▸ hmem
  rw [valueFits_stored htyp, unpackField_stored htyp]
  have hbase : (frame.enter field).base = frame.base := rfl
  rw [← hbase]
  generalize frame.enter field = frame at hin ⊢
  generalize fieldBase field frame.base frame.fieldIndex = slot
  by_cases hlen : field.len = typ.storedSize
  · rw [if_neg (not_not_intro hlen)]
    cases hbytes : stored typ v with
    | none =>
        exact iff_of_false (fun hall => (hall hlen).1 rfl) not_fine_fault
    | some bytes =>
        have hsize := stored_length hbytes
        have hne : bytes ≠ [] := by
          intro hnil
          rw [hnil] at hsize
          exact htyp hsize.symm
        have hput : (Store.mk field frame.fieldIndex (outerOf below) slot
            slot bytes none).Kept sch data ↔ _ :=
          hin.kept_iff hne (Nat.le_refl slot) (by omega)
        refine Iff.trans ?_ fine_bump.symm
        rw [List.forall_mem_singleton, hput]
        constructor
        · intro hall
          obtain ⟨-, hcount, hleft⟩ := hall hlen
          exact ⟨hcount, hleft, fun _ hq => by cases hq⟩
        · intro h _
          obtain ⟨hcount, hleft, -⟩ := h
          exact ⟨Option.some_ne_none bytes, hcount, hleft⟩
  · rw [if_pos hlen]
    exact iff_of_true (fun heq => absurd heq hlen) fine_abort

/-- A value is stored in order if and only if it fits. -/
theorem unpackField_fine (h : Stacked maps root base (frame :: below))
    (hmem : field ∈ frame.map.fields) (typ : FieldType)
    (value : Option (Value Span)) :
    ValueFits sch data below (frame.enter field) field typ value ↔
      Fine sch data (unpackField data behind typ below frame field
        value) := by
  by_cases htyp : typ.storedSize = 0
  · cases typ with
    | message | group =>
        exact iff_of_true (by cases value <;> trivial)
          (fine_ok.mpr fun _ hs => absurd hs List.not_mem_nil)
    | string =>
        cases value with
        | none => exact iff_of_false id not_fine_fault
        | some v =>
            cases v with
            | string str => exact string_fine h hmem str
            | double _ | float _ | int32 _ | int64 _ | uint32 _ | uint64 _
            | bool _ | enum _ | bytes _ =>
                exact iff_of_false id not_fine_fault
    | bytes =>
        cases value with
        | none => exact iff_of_false id not_fine_fault
        | some v =>
            cases v with
            | bytes str => exact bytes_fine h hmem str
            | double _ | float _ | int32 _ | int64 _ | uint32 _ | uint64 _
            | bool _ | enum _ | string _ =>
                exact iff_of_false id not_fine_fault
    | double | float | int32 | int64 | uint32 | uint64 | sint32 | sint64
    | fixed32 | fixed64 | sfixed32 | sfixed64 | bool | enum => cases htyp
  · cases value with
    | some v => exact stored_fine h hmem htyp v
    | none =>
        cases typ <;>
          first
          | exact absurd rfl htyp
          | exact iff_of_false id not_fine_fault

/-- The bytes of the store are mapped. -/
def Store.In (maps : Maps) (sch : Schema) (root : StructMap) (base : Nat)
    (s : Store) : Prop :=
  ∀ a, s.dst ≤ a → a < s.dst + s.bytes.length → Mapped maps sch root base a

/-- What a value is stored for, and what it leaves of the frame. -/
theorem unpackField_spec {typ : FieldType} {value : Option (Value Span)}
    {frame' : StructFrame} {stores : List Store}
    (h : unpackField data behind typ below frame field value
      = .ok (frame', stores)) :
    frame'.map = frame.map ∧ frame'.base = frame.base ∧
      frame'.lastField = some field ∧
      ∀ s ∈ stores, typ.isMessage = false ∧ s.field = field ∧
        s.outer = outerOf below ∧
        s.slot = fieldBase field frame.base s.index := by
  have hbump : ∀ (stores' : List Store),
      ((frame.enter field).bump.bind fun frame => .ok (frame, stores'))
        = .ok (frame', stores) →
      frame'.map = frame.map ∧ frame'.base = frame.base ∧
        frame'.lastField = some field ∧ stores = stores' := by
    intro stores' heq
    by_cases hcount : (frame.enter field).Counts
    · rw [bump_eq hcount] at heq
      cases heq
      exact ⟨rfl, rfl, rfl, rfl⟩
    · rw [bump_fault hcount] at heq
      cases heq
  by_cases htyp : typ.storedSize = 0
  · cases typ with
    | message | group =>
        cases h
        exact ⟨rfl, rfl, rfl, fun _ hs => absurd hs List.not_mem_nil⟩
    | string =>
        cases value with
        | none => cases h
        | some v =>
            cases v with
            | string str =>
                simp only [unpackField] at h
                obtain ⟨⟨bytes, src⟩, -, h⟩ := Sequence.ok_of_bind h
                split at h
                · cases h
                obtain ⟨hmap, hbase, hlast, rfl⟩ := hbump _ h
                refine ⟨hmap, hbase, hlast, ?_⟩
                rw [List.forall_mem_cons, List.forall_mem_singleton]
                exact ⟨⟨rfl, rfl, rfl, rfl⟩, rfl, rfl, rfl, rfl⟩
            | double _ | float _ | int32 _ | int64 _ | uint32 _ | uint64 _
            | bool _ | enum _ | bytes _ => cases h
    | bytes =>
        cases value with
        | none => cases h
        | some v =>
            cases v with
            | bytes str =>
                simp only [unpackField] at h
                obtain ⟨⟨bytes, src⟩, -, h⟩ := Sequence.ok_of_bind h
                obtain ⟨hmap, hbase, hlast, rfl⟩ := hbump _ h
                refine ⟨hmap, hbase, hlast, ?_⟩
                rw [List.forall_mem_singleton]
                exact ⟨rfl, rfl, rfl, rfl⟩
            | double _ | float _ | int32 _ | int64 _ | uint32 _ | uint64 _
            | bool _ | enum _ | string _ => cases h
    | double | float | int32 | int64 | uint32 | uint64 | sint32 | sint64
    | fixed32 | fixed64 | sfixed32 | sfixed64 | bool | enum => cases htyp
  · cases value with
    | none =>
        cases typ <;> first | exact absurd rfl htyp | cases h
    | some v =>
        have hscalar : typ.isMessage = false := by
          cases typ <;> first | exact absurd rfl htyp | rfl
        rw [unpackField_stored htyp] at h
        split at h
        · cases h
        · split at h
          · cases h
          · obtain ⟨hmap, hbase, hlast, rfl⟩ := hbump _ h
            refine ⟨hmap, hbase, hlast, ?_⟩
            rw [List.forall_mem_singleton]
            exact ⟨hscalar, rfl, rfl, rfl⟩

end

end Lwpb
