/-
Where the elements of a message belong in its struct, and where the struct
decoder puts them.

The i-th occurrence of a field in a message belongs in slot i of its entry.
The struct decoder keeps one index for a frame, which starts over whenever
another field comes: it counts the occurrences in a row. A message's
`placings` are its values with both places. They are the same place for a
message that keeps the occurrences of a field together
(`Wire.contiguous_inPlace`); no value is ever put where a later one belongs
(`Wire.placings_inOrder`), which makes the library's `placed_iff` apply.
-/
import Lwpb.Lib.Placement
import Lwpb.Proofs.Decoder.Trees
import Lwpb.Proofs.Struct.Layout

namespace Lwpb

open Memory Slice TwosComplement

-- ============================================================== occurrences

/-- The known fields of a message itself, in order. -/
def Wire.occurrences : Wire → List FieldRef
  | .nil => []
  | .unknown _ _ rest => occurrences rest
  | .scalar f _ _ rest => f :: occurrences rest
  | .sub f _ _ _ rest => f :: occurrences rest
  | .run f _ _ _ rest => f :: occurrences rest

/-- How many occurrences of a field stand directly in front, in one row. -/
def inRow (before : List FieldRef) (f : FieldRef) : Nat :=
  (before.takeWhile (· = f)).length

/-- The occurrences of a field follow each other: if there is a further one
in the message, it is the next. -/
def Wire.Contiguous : Wire → Prop
  | .nil => True
  | .unknown _ _ rest => Contiguous rest
  | .scalar f _ _ rest =>
      (f ∈ rest.occurrences → rest.occurrences.head? = some f) ∧
        Contiguous rest
  | .sub f _ _ body rest =>
      (f ∈ rest.occurrences → rest.occurrences.head? = some f) ∧
        Contiguous body ∧ Contiguous rest
  | .run f _ _ _ rest =>
      (f ∈ rest.occurrences → rest.occurrences.head? = some f) ∧
        Contiguous rest

/-- The bytes of a string. -/
def Payload.content : Payload → Bytes
  | .string _ content => content
  | _ => []

/-- The occurrence is none behind `2 ^ 31 - 1` others in a row, and no string
that a NUL has no `size_t` behind. -/
structure Payload.Short (sch : Schema) (before : List FieldRef) (f : FieldRef)
    (p : Payload) : Prop where
  inRow : inRow before f + 1 < 2 ^ 31
  string : (sch.field f).opts.typ = .string →
    p.content.length + 1 < 2 ^ 64

/-- No field occurs `2 ^ 31` times in a row, and no string has `2 ^ 64 - 1`
bytes; `before` are the fields in front, the last one first. -/
def Wire.Short (sch : Schema) : List FieldRef → Wire → Prop
  | _, .nil => True
  | before, .unknown _ _ rest => Short sch before rest
  | before, .scalar f _ p rest =>
      p.Short sch before f ∧ Short sch (f :: before) rest
  | before, .sub f _ _ body rest =>
      inRow before f + 1 < 2 ^ 31 ∧ Short sch [] body ∧
        Short sch (f :: before) rest
  | before, .run f _ _ _ rest => Short sch (f :: before) rest

instance (sch : Schema) (before : List FieldRef) (f : FieldRef)
    (p : Payload) : Decidable (p.Short sch before f) :=
  decidable_of_iff (inRow before f + 1 < 2 ^ 31 ∧
    ((sch.field f).opts.typ = .string → p.content.length + 1 < 2 ^ 64))
    ⟨fun h => ⟨h.1, h.2⟩, fun h => ⟨h.inRow, h.string⟩⟩

instance Wire.decidableShort (sch : Schema) :
    (before : List FieldRef) → (w : Wire) → Decidable (w.Short sch before)
  | _, .nil => .isTrue trivial
  | before, .unknown _ _ rest => decidableShort sch before rest
  | before, .scalar f _ p rest =>
      have := decidableShort sch (f :: before) rest
      inferInstanceAs (Decidable (p.Short sch before f ∧
        rest.Short sch (f :: before)))
  | before, .sub f _ _ body rest =>
      have := decidableShort sch [] body
      have := decidableShort sch (f :: before) rest
      inferInstanceAs (Decidable (inRow before f + 1 < 2 ^ 31 ∧
        body.Short sch [] ∧ rest.Short sch (f :: before)))
  | before, .run f _ _ _ rest => decidableShort sch (f :: before) rest

/-- No field comes as a packed run. -/
def Wire.RunFree : Wire → Prop
  | .nil => True
  | .unknown _ _ rest => RunFree rest
  | .scalar _ _ _ rest => RunFree rest
  | .sub _ _ _ body rest => RunFree body ∧ RunFree rest
  | .run _ _ _ _ _ => False

-- ================================================================= elements

/-- A value in memory: a number of four or eight bytes, the lowest first, a
signed one as its residue. -/
def Value.image : Value Bytes → Bytes
  | .double b => leBytes 8 b.toNat
  | .float b => leBytes 4 b.toNat
  | .int32 v | .bool v | .enum v => leBytes 4 (residue 32 v.toInt)
  | .int64 v => leBytes 8 (residue 64 v.toInt)
  | .uint32 v => leBytes 4 v.toNat
  | .uint64 v => leBytes 8 v.toNat
  | .string s | .bytes s => s

/-- A value as it belongs in a slot of the entry. -/
def placed (field : MapField) (typ : FieldType) (v : Value Bytes) : Bytes :=
  match typ with
  | .string => v.image.take (field.len - 1) ++ [0]
  | .bytes => v.image.take field.len
  | _ => v.image

/-- A value of a submessage, seen from the struct around it. -/
def under (want got : MapField × Nat) (t : Placing Place) : Placing Place :=
  ⟨want :: t.want, got :: t.got, t.bytes⟩

section

variable (maps : Maps) (sch : Schema)

namespace Wire

/-- The values of a message, in order. Each belongs in the slot that counts
the earlier occurrences of its field, and is put in the one that counts
those in a row. -/
def placings (map : StructMap) (before : List FieldRef) :
    Wire → List (Placing Place)
  | .nil => []
  | .unknown _ _ rest => placings map before rest
  | .scalar f _ p rest =>
      (match findMapField map f with
        | none => []
        | some field =>
            [⟨[(field, before.count f)], [(field, inRow before f)],
              placed field (sch.field f).opts.typ
                (p.read (sch.field f).opts.typ)⟩])
        ++ placings map (f :: before) rest
  | .sub f _ _ body rest =>
      (match findMapField map f with
        | none => []
        | some field =>
            match maps field.len with
            | none => []
            | some inner =>
                (placings inner [] body).map
                  (under (field, before.count f) (field, inRow before f)))
        ++ placings map (f :: before) rest
  | .run f _ _ _ rest => placings map (f :: before) rest

/-- No field occurs more often than its entry counts. -/
def Counted (map : StructMap) : Wire → Prop
  | .nil => True
  | .unknown _ _ rest => Counted map rest
  | .scalar f _ _ rest =>
      (∀ field, findMapField map f = some field →
        (f :: rest.occurrences).count f ≤ field.count) ∧
        Counted map rest
  | .sub f _ _ body rest =>
      (∀ field, findMapField map f = some field →
        (f :: rest.occurrences).count f ≤ field.count ∧
          ∀ inner, maps field.len = some inner → Counted inner body) ∧
        Counted map rest
  | .run f _ _ _ rest =>
      (∀ field, findMapField map f = some field →
        (f :: rest.occurrences).count f ≤ field.count) ∧
        Counted map rest

/-- Every occurrence has an entry. Of a submessage without one the contents
are not looked at. -/
def MappedBy (map : StructMap) : Wire → Prop
  | .nil => True
  | .unknown _ _ rest => MappedBy map rest
  | .scalar f _ _ rest =>
      (∃ field, findMapField map f = some field) ∧ MappedBy map rest
  | .sub f _ _ body rest =>
      (∃ field, findMapField map f = some field ∧
        ∀ inner, maps field.len = some inner → MappedBy inner body) ∧
        MappedBy map rest
  | .run f _ _ _ rest =>
      (∃ field, findMapField map f = some field) ∧ MappedBy map rest

/-- All earlier occurrences of a field stand in a row in front of each one
that has a byte to store. -/
def InPlace (map : StructMap) : List FieldRef → Wire → Prop
  | _, .nil => True
  | before, .unknown _ _ rest => InPlace map before rest
  | before, .scalar f _ p rest =>
      (∀ field, findMapField map f = some field →
        placed field (sch.field f).opts.typ
            (p.read (sch.field f).opts.typ) ≠ [] →
          inRow before f = before.count f) ∧
        InPlace map (f :: before) rest
  | before, .sub f _ _ body rest =>
      (∀ field, findMapField map f = some field →
        ∀ inner, maps field.len = some inner →
          ((∃ t ∈ body.placings maps sch inner [], t.bytes ≠ []) →
            inRow before f = before.count f) ∧
          InPlace inner [] body) ∧
        InPlace map (f :: before) rest
  | before, .run f _ _ _ rest => InPlace map (f :: before) rest

end Wire

end

-- ===================================================================== rows

section

variable {maps : Maps} {sch : Schema} {map sub : StructMap} {m : MsgRef}
  {field : MapField} {f g : FieldRef} {before : List FieldRef} {i : Nat}
  {w : Wire}

/-- A row is part of what came before. -/
theorem inRow_le (before : List FieldRef) (f : FieldRef) :
    inRow before f ≤ before.count f := by
  induction before with
  | nil => exact Nat.le_refl 0
  | cons g before ih =>
      unfold inRow at ih ⊢
      rw [List.takeWhile_cons]
      by_cases hg : g = f
      · rw [if_pos (decide_eq_true hg), List.length_cons, hg,
          List.count_cons_self]
        omega
      · rw [if_neg (by simpa using hg)]
        exact Nat.zero_le _

/-- A further occurrence prolongs the row of its field. -/
theorem inRow_self : inRow (f :: before) f = inRow before f + 1 := by
  unfold inRow
  rw [List.takeWhile_cons, if_pos (decide_eq_true rfl), List.length_cons]

/-- An occurrence of another field ends it. -/
theorem inRow_other (h : g ≠ f) : inRow (g :: before) f = 0 := by
  unfold inRow
  rw [List.takeWhile_cons, if_neg (by simpa using h)]
  rfl

/-- The fields in front are in order for those that come: one that has
occurred before is the next, with all its occurrences in a row. -/
def Continues (before : List FieldRef) (after : List FieldRef) : Prop :=
  ∀ g ∈ after, before.count g = 0 ∨
    inRow before g = before.count g ∧ after.head? = some g

/-- In order, all earlier occurrences of the next field stand in one row. -/
theorem Continues.row {after : List FieldRef}
    (h : Continues before (f :: after)) :
    inRow before f = before.count f := by
  rcases h f List.mem_cons_self with hnone | ⟨hrow, -⟩
  · have hle := inRow_le before f
    omega
  · exact hrow

/-- The order is kept by the next occurrence. -/
theorem Continues.next {after : List FieldRef}
    (h : Continues before (f :: after))
    (hnext : f ∈ after → after.head? = some f) :
    Continues (f :: before) after := by
  intro g hg
  by_cases hgf : g = f
  · subst hgf
    refine .inr ⟨?_, hnext hg⟩
    rw [inRow_self, List.count_cons_self, h.row]
  · rw [List.count_cons_of_ne (Ne.symm hgf)]
    rcases h g (List.mem_cons_of_mem _ hg) with hnone | ⟨-, hhead⟩
    · exact .inl hnone
    · exact absurd (Option.some.inj hhead).symm hgf

/-- Occurrences that follow each other are in place. -/
theorem Wire.contiguous_inPlace (hcont : w.Contiguous)
    (hbefore : Continues before w.occurrences) :
    w.InPlace maps sch map before := by
  induction w generalizing map before with
  | nil => trivial
  | unknown key p rest ih => exact ih hcont hbefore
  | scalar f key p rest ih =>
      obtain ⟨hnext, hrest⟩ := hcont
      exact ⟨fun _ _ _ => hbefore.row, ih hrest (hbefore.next hnext)⟩
  | sub f key len body rest ihb ihr =>
      obtain ⟨hnext, hbody, hrest⟩ := hcont
      refine ⟨fun _ _ _ _ => ⟨fun _ => hbefore.row, ?_⟩,
        ihr hrest (hbefore.next hnext)⟩
      exact ihb hbody fun g _ => .inl rfl
  | run f key len elems rest ih =>
      obtain ⟨hnext, hrest⟩ := hcont
      exact ih hrest (hbefore.next hnext)

-- =================================================================== places

/-- The value of a field's occurrence, with its places. -/
def scalarPlacing (sch : Schema) (before : List FieldRef) (f : FieldRef)
    (p : Payload) (field : MapField) : Placing Place :=
  ⟨[(field, before.count f)], [(field, inRow before f)],
    placed field (sch.field f).opts.typ (p.read (sch.field f).opts.typ)⟩

/-- The placings of a message that starts with a scalar. -/
theorem Wire.mem_placings_scalar {t : Placing Place} {key : Bytes}
    {p : Payload} {rest : Wire} :
    t ∈ (Wire.scalar f key p rest).placings maps sch map before ↔
      (∃ field, findMapField map f = some field ∧
        t = scalarPlacing sch before f p field) ∨
      t ∈ rest.placings maps sch map (f :: before) := by
  rw [Wire.placings, List.mem_append]
  refine or_congr_left ?_
  cases findMapField map f with
  | none => simp
  | some field =>
      rw [List.mem_singleton]
      constructor
      · exact fun ht => ⟨field, rfl, ht⟩
      · intro h
        obtain ⟨_, hfield, ht⟩ := h
        cases hfield
        exact ht

/-- And of one that starts with a submessage. -/
theorem Wire.mem_placings_sub {t : Placing Place} {key len : Bytes}
    {body rest : Wire} :
    t ∈ (Wire.sub f key len body rest).placings maps sch map before ↔
      (∃ field inner s, findMapField map f = some field ∧
        maps field.len = some inner ∧
        s ∈ body.placings maps sch inner [] ∧
        t = under (field, before.count f) (field, inRow before f) s) ∨
      t ∈ rest.placings maps sch map (f :: before) := by
  rw [Wire.placings, List.mem_append]
  refine or_congr_left ?_
  cases findMapField map f with
  | none => simp
  | some field =>
      simp only
      cases hinner : maps field.len with
      | none =>
          refine iff_of_false List.not_mem_nil ?_
          intro h
          obtain ⟨_, inner, s, hfield, hthere, -⟩ := h
          cases hfield
          rw [hinner] at hthere
          cases hthere
      | some inner =>
          rw [List.mem_map]
          constructor
          · intro h
            obtain ⟨s, hs, rfl⟩ := h
            exact ⟨field, inner, s, rfl, hinner, hs, rfl⟩
          · intro h
            obtain ⟨_, _, s, hfield, hthere, hs, rfl⟩ := h
            cases hfield
            rw [hinner] at hthere
            cases hthere
            exact ⟨s, hs, rfl⟩

/-- A message is in place if and only if each of its values is. -/
theorem Wire.inPlace_iff :
    w.InPlace maps sch map before ↔
      ∀ t ∈ w.placings maps sch map before, t.Right := by
  induction w generalizing map before with
  | nil => exact iff_of_true trivial fun _ ht => absurd ht List.not_mem_nil
  | unknown key p rest ih => exact ih
  | scalar f key p rest ih =>
      rw [Wire.InPlace, ih]
      simp only [Wire.mem_placings_scalar]
      constructor
      · rintro ⟨hrow, hrest⟩ t (⟨field, hfield, rfl⟩ | ht)
        · intro hbytes
          unfold scalarPlacing
          rw [hrow field hfield hbytes]
        · exact hrest t ht
      · intro hall
        refine ⟨fun field hfield hbytes => ?_, fun t ht => hall t (.inr ht)⟩
        have hright := hall _ (.inl ⟨field, hfield, rfl⟩) hbytes
        exact (Prod.mk.inj (List.cons.inj hright).1).2
  | sub f key len body rest ihb ihr =>
      rw [Wire.InPlace, ihr]
      simp only [Wire.mem_placings_sub, ihb]
      constructor
      · rintro ⟨hbody, hrest⟩ t (⟨field, inner, s, hfield, hinner, hs, rfl⟩
          | ht)
        · intro hbytes
          obtain ⟨hrow, hright⟩ := hbody field hfield inner hinner
          unfold under
          rw [hright s hs hbytes, hrow ⟨s, hs, hbytes⟩]
        · exact hrest t ht
      · intro hall
        refine ⟨fun field hfield inner hinner => ⟨?_, fun s hs hbytes => ?_⟩,
          fun t ht => hall t (.inr ht)⟩
        · intro h
          obtain ⟨s, hs, hbytes⟩ := h
          have hright := hall _
            (.inl ⟨field, inner, s, hfield, hinner, hs, rfl⟩) hbytes
          exact (Prod.mk.inj (List.cons.inj hright).1).2
        · have hright := hall _
            (.inl ⟨field, inner, s, hfield, hinner, hs, rfl⟩) hbytes
          exact (List.cons.inj hright).2
  | run f key len elems rest ih => exact ih

/-- A value belongs in the entry of a field of the message, behind the
occurrences in front. -/
theorem Wire.placings_want {t : Placing Place}
    (ht : t ∈ w.placings maps sch map before) :
    ∃ g field i place, findMapField map g = some field ∧
      before.count g ≤ i ∧ t.want = (field, i) :: place := by
  -- behind a further occurrence there is one more in front
  have hmore : ∀ {before : List FieldRef} {f : FieldRef},
      (∃ g field i place, findMapField map g = some field ∧
        (f :: before).count g ≤ i ∧ t.want = (field, i) :: place) →
      ∃ g field i place, findMapField map g = some field ∧
        before.count g ≤ i ∧ t.want = (field, i) :: place := by
    intro before f h
    obtain ⟨g, field, i, place, hfield, hle, hwant⟩ := h
    exact ⟨g, field, i, place, hfield,
      List.count_le_count_cons.trans hle, hwant⟩
  induction w generalizing before with
  | nil => exact absurd ht List.not_mem_nil
  | unknown key p rest ih => exact ih ht
  | scalar f key p rest ih =>
      rcases Wire.mem_placings_scalar.mp ht with ⟨field, hfield, rfl⟩ | ht
      · exact ⟨f, field, _, [], hfield, Nat.le_refl _, rfl⟩
      · exact hmore (ih ht)
  | sub f key len body rest _ ih =>
      rcases Wire.mem_placings_sub.mp ht with
        ⟨field, inner, s, hfield, -, -, rfl⟩ | ht
      · exact ⟨f, field, _, s.want, hfield, Nat.le_refl _, rfl⟩
      · exact hmore (ih ht)
  | run f key len elems rest ih => exact hmore (ih ht)

/-- No value behind an occurrence belongs where that, or an earlier one,
does. -/
theorem Wire.later_want {t : Placing Place} {place : Place}
    (ht : t ∈ w.placings maps sch map (f :: before))
    (hfield : findMapField map f = some field) (hi : i ≤ before.count f) :
    (field, i) :: place ≠ t.want := by
  obtain ⟨g, field', j, place', hg, hle, hwant⟩ := Wire.placings_want ht
  intro heq
  rw [hwant] at heq
  cases heq
  obtain ⟨-, rfl⟩ := findMapField_some hfield
  obtain ⟨-, rfl⟩ := findMapField_some hg
  rw [List.count_cons_self] at hle
  omega

/-- No value belongs, and none is put, where a later one belongs. -/
theorem Wire.placings_inOrder :
    InOrder (w.placings maps sch map before) := by
  induction w generalizing map before with
  | nil => exact .nil
  | unknown key p rest ih => exact ih
  | scalar f key p rest ih =>
      rw [Wire.placings]
      refine List.pairwise_append.mpr ⟨?_, ih, ?_⟩
      · cases findMapField map f with
        | none => exact .nil
        | some field => exact List.pairwise_singleton _ _
      · cases hfield : findMapField map f with
        | none => exact fun _ hs => absurd hs List.not_mem_nil
        | some field =>
            intro s hs t ht
            cases List.mem_singleton.mp hs
            exact ⟨Wire.later_want ht hfield (Nat.le_refl _),
              Wire.later_want ht hfield (inRow_le before f)⟩
  | sub f key len body rest ihb ihr =>
      rw [Wire.placings]
      cases hfield : findMapField map f with
      | none => exact ihr
      | some field =>
          cases hsub : maps field.len with
          | none =>
              simp only [hsub]
              exact ihr
          | some sub =>
              simp only [hsub]
              refine List.pairwise_append.mpr ⟨?_, ihr, ?_⟩
              · rw [List.pairwise_map]
                refine (@ihb sub []).imp fun hne => ⟨fun heq => ?_,
                  fun heq => ?_⟩
                · exact hne.1 (List.cons.inj heq).2
                · exact hne.2 (List.cons.inj heq).2
              · intro s hs t ht
                obtain ⟨s, -, rfl⟩ := List.mem_map.mp hs
                exact ⟨Wire.later_want ht hfield (Nat.le_refl _),
                  Wire.later_want ht hfield (inRow_le before f)⟩
  | run f key len elems rest ih => exact ih

-- ==================================================================== slots

/-- The code stores a number as it belongs in memory. -/
theorem stored_ofNumber {typ : FieldType} (hnum : typ.isNumeric = true)
    (n : Nat) :
    stored typ (.ofNumber typ n) = some (Value.ofNumber typ n).image := by
  have hint32 := int32_word (Int32.ofInt n)
  have hint64 := int64_word (Int64.ofInt n)
  have hzig32 := int32_word (Int32.ofInt (unzigzag n))
  have hzig64 := int64_word (Int64.ofInt (unzigzag n))
  cases typ with
  | int32 | sfixed32 | bool | enum =>
      exact congrArg (fun k => some (leBytes 4 k)) hint32
  | int64 | sfixed64 => exact congrArg (fun k => some (leBytes 8 k)) hint64
  | sint32 => exact congrArg (fun k => some (leBytes 4 k)) hzig32
  | sint64 => exact congrArg (fun k => some (leBytes 8 k)) hzig64
  | double | float | uint32 | uint64 | fixed32 | fixed64 => rfl
  | string | bytes | message | group => cases hnum

/-- A payload of a field of numbers is a number. -/
theorem Payload.read_number {typ : FieldType} {p : Payload}
    (hnum : typ.isNumeric = true)
    (hwt : fieldWireType typ = some p.wireType) :
    p.read typ = .ofNumber typ p.word.toNat := by
  cases p with
  | varint v | bit64 b | bit32 b => rfl
  | string len content =>
      cases typ <;> first | cases hnum; done | cases hwt

/-- A number is stored as its image in memory. -/
theorem Payload.stored_read {typ : FieldType} {p : Payload}
    (hnum : typ.isNumeric = true)
    (hwt : fieldWireType typ = some p.wireType) :
    stored typ (p.read typ) = some (p.read typ).image := by
  rw [p.read_number hnum hwt]
  exact stored_ofNumber hnum _

/-- That is what its slot is to hold. -/
theorem placed_number {typ : FieldType} (h : typ.isNumeric = true)
    (v : Value Bytes) : placed field typ v = v.image := by
  cases typ <;> first | rfl | cases h

/-- What belongs in a slot has room in it. -/
theorem placed_length_le {typ : FieldType} {p : Payload}
    (hscalar : typ.isMessage = false)
    (hwt : fieldWireType typ = some p.wireType)
    (hnum : typ.isNumeric = true → field.len = typ.storedSize)
    (hstr : typ = .string → 0 < field.len) :
    (placed field typ (p.read typ)).length ≤ field.len := by
  by_cases htyp : typ.isNumeric = true
  · rw [placed_number htyp, hnum htyp]
    exact Nat.le_of_eq (stored_length (p.stored_read htyp hwt))
  · cases typ with
    | string =>
        have hpos := hstr rfl
        unfold placed
        simp only [List.length_append, List.length_take,
          List.length_singleton]
        omega
    | bytes =>
        unfold placed
        simp only [List.length_take]
        omega
    | message | group => cases hscalar
    | _ => exact absurd rfl htyp

/-- The entries have slots for the fields to come. -/
def HasSlots (map : StructMap) (before after : List FieldRef) : Prop :=
  ∀ f field, findMapField map f = some field → f ∈ after →
    before.count f + after.count f ≤ field.count

/-- There is a slot for the next field. -/
theorem HasSlots.here {after : List FieldRef}
    (h : HasSlots map before (f :: after))
    (hfield : findMapField map f = some field) :
    before.count f < field.count := by
  have hle := h f field hfield List.mem_cons_self
  rw [List.count_cons_self] at hle
  omega

/-- And there are slots for those behind it. -/
theorem HasSlots.next {after : List FieldRef}
    (h : HasSlots map before (f :: after)) :
    HasSlots map (f :: before) after := by
  intro g field hfield hg
  have hle := h g field hfield (List.mem_cons_of_mem _ hg)
  rw [List.count_cons] at hle ⊢
  omega

/-- A counted message has slots for all its fields. -/
theorem Wire.Counted.hasSlots (h : w.Counted maps map) :
    HasSlots map [] w.occurrences := by
  suffices hall : ∀ f field, findMapField map f = some field →
      f ∈ w.occurrences → w.occurrences.count f ≤ field.count by
    intro f field hfield hf
    rw [List.count_nil, Nat.zero_add]
    exact hall f field hfield hf
  intro f field hfield hf
  -- the first occurrence of `f` counts all of them
  have hcons : ∀ {g : FieldRef} {after : List FieldRef},
      (∀ field, findMapField map g = some field →
        (g :: after).count g ≤ field.count) →
      (f ∈ after → after.count f ≤ field.count) →
      f ∈ g :: after → (g :: after).count f ≤ field.count := by
    intro g after hhere hrest hmem
    by_cases hgf : f = g
    · subst hgf
      exact hhere field hfield
    · rw [List.count_cons_of_ne (Ne.symm hgf)]
      exact hrest ((List.mem_cons.mp hmem).resolve_left hgf)
  induction w with
  | nil => exact absurd hf List.not_mem_nil
  | unknown key p rest ih => exact ih h hf
  | scalar g key p rest ih => exact hcons h.1 (ih h.2) hf
  | sub g key len body rest _ ih =>
      exact hcons (fun field hfield => (h.1 field hfield).1) (ih h.2) hf
  | run g key len elems rest ih => exact hcons h.1 (ih h.2) hf

/-- The place of a value and the one it is put in are slots that can hold
it. -/
theorem Wire.placings_slot {t : Placing Place} (hlaid : AllLaid maps sch map)
    (hwf : w.WellFormed sch typed m) (hcount : w.Counted maps map)
    (hslots : HasSlots map before w.occurrences)
    (ht : t ∈ w.placings maps sch map before) :
    ∃ n, IsSlot maps sch map t.want n ∧ IsSlot maps sch map t.got n ∧
      t.bytes.length ≤ n := by
  induction w generalizing map before m t with
  | nil => exact absurd ht List.not_mem_nil
  | unknown key p rest ih =>
      obtain ⟨-, -, -, hrest⟩ := hwf
      exact ih hlaid hrest hcount hslots ht
  | scalar f key p rest ih =>
      obtain ⟨-, -, -, hopens, htyped, hrest⟩ := hwf
      rcases Wire.mem_placings_scalar.mp ht with ⟨field, hfield, rfl⟩ | ht
      · have hlt := hslots.here hfield
        have hrow := inRow_le before f
        obtain ⟨hmem, rfl⟩ := findMapField_some hfield
        have hscalar : ¬ field.IsMessage sch := by
          unfold MapField.IsMessage
          rw [htyped.not_message hopens]
          exact Bool.false_ne_true
        exact ⟨field.len, .scalar hmem hscalar hlt,
          .scalar hmem hscalar (by omega),
          placed_length_le (htyped.not_message hopens) htyped.1
            (hlaid.laid.numeric field hmem) (hlaid.laid.string field hmem)⟩
      · exact ih hlaid hrest hcount.2 hslots.next ht
  | sub f key len body rest ihb ihr =>
      obtain ⟨-, -, -, -, hmsg, -, -, hbody, hrest⟩ := hwf
      rcases Wire.mem_placings_sub.mp ht with
        ⟨field, inner, s, hfield, hthere, hs, rfl⟩ | ht
      · have hlt := hslots.here hfield
        have hrow := inRow_le before f
        have hinner := (hcount.1 field hfield).2 inner hthere
        obtain ⟨hmem, rfl⟩ := findMapField_some hfield
        obtain ⟨n, hwant, hgot, hlen⟩ := ihb
          (hlaid.nested hmem hmsg hthere) hbody hinner hinner.hasSlots hs
        exact ⟨n, .nested hmem hmsg hlt hthere hwant,
          .nested hmem hmsg (by omega) hthere hgot, hlen⟩
      · exact ihr hlaid hrest hcount.2 hslots.next ht
  | run f key len elems rest ih =>
      obtain ⟨-, -, -, -, -, hrest⟩ := hwf
      exact ih hlaid hrest hcount.2 hslots.next ht

/-- The slots of a message's values are apart. -/
theorem Wire.placings_separate (base : Nat) (hlaid : AllLaid maps sch map)
    (hwf : w.WellFormed sch typed m) (hcount : w.Counted maps map) :
    Separate (address maps sch base) (w.placings maps sch map []) := by
  have hslot : ∀ t ∈ w.placings maps sch map [], ∃ n,
      IsSlot maps sch map t.want n ∧ IsSlot maps sch map t.got n ∧
        t.bytes.length ≤ n :=
    fun t ht => Wire.placings_slot hlaid hwf hcount hcount.hasSlots ht
  constructor
  · intro s hs t ht hne a hin hin'
    obtain ⟨n, hwant, -, hlen⟩ := hslot s hs
    obtain ⟨k, hwant', -, hlen'⟩ := hslot t ht
    exact hwant.apart hwant' hlaid hne hin.1
      (Nat.lt_of_lt_of_le hin.2 (Nat.add_le_add_left hlen _))
      ⟨hin'.1, Nat.lt_of_lt_of_le hin'.2 (Nat.add_le_add_left hlen' _)⟩
  · intro s hs t ht hne a hin hin'
    obtain ⟨n, -, hgot, hlen⟩ := hslot s hs
    obtain ⟨k, hwant', -, hlen'⟩ := hslot t ht
    exact hgot.apart hwant' hlaid hne hin.1
      (Nat.lt_of_lt_of_le hin.2 (Nat.add_le_add_left hlen _))
      ⟨hin'.1, Nat.lt_of_lt_of_le hin'.2 (Nat.add_le_add_left hlen' _)⟩

end

end Lwpb
