/-
What a struct map lays out.

A place in a struct is named by the way to it: an entry of the map and an
index, and in an element of a submessage again an entry of its map and an
index (`Place`). The struct decoder computes addresses along such a way.
When every map lays its entries out in arrays that do not overlap
(`Laid`), two ways lead to the same slot or to slots with no byte in
common (`IsSlot.apart`), at any depth; this is the one fact about
addresses that the order of a message's fields rests on.
-/
import Lwpb.Proofs.Struct.Contained
import Lwpb.Wire.Tree

namespace Lwpb

open Memory

-- ==================================================================== places

/-- The way to an element: the entries it is an element of and the index in
each, the outermost first. -/
abbrev Place := List (MapField × Nat)

section

variable (maps : Maps) (sch : Schema)

/-- The size of an element. That of a submessage is the size of its
struct. -/
def MapField.width (field : MapField) : Nat :=
  if field.IsMessage sch then ((maps field.len).map (·.structSize)).getD 0
  else field.len

/-- Where an element lies. -/
def address : Nat → Place → Nat
  | base, [] => base
  | base, (field, i) :: place =>
      address (base + field.ofs + field.width maps sch * i) place

/-- The place is a slot of so many bytes. -/
inductive IsSlot : StructMap → Place → Nat → Prop where
  | scalar {map : StructMap} {field : MapField} {i : Nat}
      (mem : field ∈ map.fields) (scalar : ¬ field.IsMessage sch)
      (inside : i < field.count) : IsSlot map [(field, i)] field.len
  | nested {map sub : StructMap} {field : MapField} {i n : Nat}
      {place : Place} (mem : field ∈ map.fields)
      (message : field.IsMessage sch) (inside : i < field.count)
      (there : maps field.len = some sub) (within : IsSlot sub place n) :
      IsSlot map ((field, i) :: place) n

/-- The byte is one of the entry's array. -/
def MapField.Holds (field : MapField) (a : Nat) : Prop :=
  field.ofs ≤ a ∧ a < field.ofs + field.width maps sch * field.count

/-- The map covers its message and lays the entries out apart. -/
structure StructMap.Laid (map : StructMap) : Prop where
  covers : ∀ i, i < (sch.msg map.msgDesc).fields.length →
    ∃ field, findMapField map ⟨map.msgDesc, i⟩ = some field
  numeric : ∀ field ∈ map.fields,
    (sch.field field.fieldDesc).opts.typ.isNumeric = true →
      field.len = (sch.field field.fieldDesc).opts.typ.storedSize
  string : ∀ field ∈ map.fields,
    (sch.field field.fieldDesc).opts.typ = .string → 0 < field.len
  nested : ∀ field ∈ map.fields, field.IsMessage sch →
    ∃ sub, maps field.len = some sub ∧
      sub.msgDesc = sch.subDesc field.fieldDesc
  unpacked : ∀ field ∈ map.fields,
    (sch.field field.fieldDesc).isPackedRepeated = false
  inside : ∀ field ∈ map.fields,
    field.ofs + field.width maps sch * field.count ≤ map.structSize
  apart : ∀ field ∈ map.fields, ∀ field' ∈ map.fields, field ≠ field' →
    ∀ a, field.Holds maps sch a → ¬ field'.Holds maps sch a

/-- The map's slots fit the values of its fields, which need not be all the
fields of its message. -/
structure StructMap.Fitting (map : StructMap) : Prop where
  numeric : ∀ field ∈ map.fields,
    (sch.field field.fieldDesc).opts.typ.isNumeric = true →
      field.len = (sch.field field.fieldDesc).opts.typ.storedSize
  string : ∀ field ∈ map.fields,
    (sch.field field.fieldDesc).opts.typ = .string → 0 < field.len
  nested : ∀ field ∈ map.fields, field.IsMessage sch →
    ∃ sub, maps field.len = some sub ∧
      sub.msgDesc = sch.subDesc field.fieldDesc

/-- The maps that a map leads to. -/
inductive LeadsTo (root : StructMap) : StructMap → Prop where
  | root : LeadsTo root root
  | nested {map sub : StructMap} {field : MapField}
      (around : LeadsTo root map) (mem : field ∈ map.fields)
      (message : field.IsMessage sch) (there : maps field.len = some sub) :
      LeadsTo root sub

/-- All of them are laid out. -/
def AllLaid (root : StructMap) : Prop :=
  ∀ map, LeadsTo maps sch root map → map.Laid maps sch

/-- All of them fit. -/
def AllFitting (root : StructMap) : Prop :=
  ∀ map, LeadsTo maps sch root map → map.Fitting maps sch

end

-- ================================================================== geometry

section

variable {maps : Maps} {sch : Schema} {map sub : StructMap}
  {field field' : MapField} {base a i j n k : Nat} {place place' : Place}

theorem LeadsTo.around {map' : StructMap} (h : LeadsTo maps sch sub map')
    (hmem : field ∈ map.fields) (hmsg : field.IsMessage sch)
    (hthere : maps field.len = some sub) : LeadsTo maps sch map map' := by
  induction h with
  | root => exact .nested .root hmem hmsg hthere
  | nested _ hmem' hmsg' hthere' ih => exact .nested ih hmem' hmsg' hthere'

theorem AllLaid.laid (h : AllLaid maps sch map) : map.Laid maps sch :=
  h map .root

theorem AllLaid.nested (h : AllLaid maps sch map)
    (hmem : field ∈ map.fields) (hmsg : field.IsMessage sch)
    (hthere : maps field.len = some sub) : AllLaid maps sch sub :=
  fun map' hleads => h map' (hleads.around hmem hmsg hthere)

theorem AllFitting.fitting (h : AllFitting maps sch map) :
    map.Fitting maps sch :=
  h map .root

theorem AllFitting.nested (h : AllFitting maps sch map)
    (hmem : field ∈ map.fields) (hmsg : field.IsMessage sch)
    (hthere : maps field.len = some sub) : AllFitting maps sch sub :=
  fun map' hleads => h map' (hleads.around hmem hmsg hthere)

theorem AllLaid.fitting (h : AllLaid maps sch map) :
    AllFitting maps sch map := by
  intro map' hleads
  have hlaid := h map' hleads
  exact ⟨hlaid.numeric, hlaid.string, hlaid.nested⟩

/-- Maps that lead to none but themselves are laid out if each of them
is. -/
theorem allLaid_of_closed (among : StructMap → Prop) (hroot : among map)
    (hlaid : ∀ map, among map → map.Laid maps sch)
    (hclosed : ∀ map, among map → ∀ field ∈ map.fields,
      field.IsMessage sch → ∀ sub, maps field.len = some sub → among sub) :
    AllLaid maps sch map := by
  intro map' hleads
  refine hlaid map' ?_
  induction hleads with
  | root => exact hroot
  | nested _ hmem hmsg hthere ih => exact hclosed _ ih _ hmem hmsg _ hthere

/-- Entries that follow each other are apart. -/
theorem StructMap.apart_of_sorted
    (h : map.fields.Pairwise fun field field' =>
      field.ofs + field.width maps sch * field.count ≤ field'.ofs) :
    ∀ field ∈ map.fields, ∀ field' ∈ map.fields, field ≠ field' →
      ∀ a, field.Holds maps sch a → ¬ field'.Holds maps sch a := by
  have happart : map.fields.Pairwise fun field field' =>
      ∀ a, field.Holds maps sch a → ¬ field'.Holds maps sch a :=
    h.imp fun hle a hin hin' =>
      absurd (hin'.1.trans_lt hin.2) (Nat.not_lt.mpr hle)
  have : Std.Symm fun field field' : MapField =>
      ∀ a, field.Holds maps sch a → ¬ field'.Holds maps sch a :=
    ⟨fun _ _ hne a hin hin' => hne a hin' hin⟩
  exact fun field hmem field' hmem' hne => happart.forall hmem hmem' hne

theorem MapField.width_scalar (h : ¬ field.IsMessage sch) :
    field.width maps sch = field.len :=
  if_neg h

theorem MapField.width_message (h : field.IsMessage sch)
    (hthere : maps field.len = some sub) :
    field.width maps sch = sub.structSize := by
  unfold MapField.width
  rw [if_pos h, hthere]
  rfl

/-- An element ends before a later one, or the array, does. -/
theorem element_le (w : Nat) (h : i < j) : w * i + w ≤ w * j :=
  Nat.mul_le_mul_left w h

/-- The element of a slot's way, and the slot in it. -/
theorem IsSlot.within (h : IsSlot maps sch map place n)
    (hlaid : AllLaid maps sch map) (base : Nat) :
    base ≤ address maps sch base place ∧
      address maps sch base place + n ≤ base + map.structSize := by
  induction h generalizing base with
  | @scalar map field i mem scalar inside =>
      have hin := hlaid.laid.inside field mem
      have hle := element_le (field.width maps sch) inside
      have hwidth : field.width maps sch = field.len :=
        MapField.width_scalar scalar
      constructor
      · show base ≤ base + field.ofs + field.width maps sch * i
        omega
      · show base + field.ofs + field.width maps sch * i + field.len ≤ _
        omega
  | @nested map sub field i n place mem message inside there _ ih =>
      have hin := hlaid.laid.inside field mem
      have hle := element_le (field.width maps sch) inside
      have hwidth := MapField.width_message message there
      obtain ⟨hlo, hhi⟩ := ih (hlaid.nested mem message there)
        (base + field.ofs + field.width maps sch * i)
      constructor
      · show base ≤ address maps sch
          (base + field.ofs + field.width maps sch * i) place
        omega
      · show address maps sch
          (base + field.ofs + field.width maps sch * i) place + n ≤ _
        omega

/-- A slot lies in the first element on its way. -/
theorem IsSlot.element (h : IsSlot maps sch map ((field, i) :: place) n)
    (hlaid : AllLaid maps sch map) (base : Nat) :
    (field ∈ map.fields ∧ i < field.count) ∧
      base + field.ofs + field.width maps sch * i
        ≤ address maps sch base ((field, i) :: place) ∧
      address maps sch base ((field, i) :: place) + n
        ≤ base + field.ofs + field.width maps sch * i
          + field.width maps sch := by
  cases h with
  | scalar mem scalar inside =>
      have hwidth : field.width maps sch = field.len :=
        MapField.width_scalar scalar
      refine ⟨⟨mem, inside⟩, Nat.le_refl _, ?_⟩
      show base + field.ofs + field.width maps sch * i + field.len ≤ _
      omega
  | nested mem message inside there within =>
      obtain ⟨hlo, hhi⟩ := within.within
        (hlaid.nested mem message there)
        (base + field.ofs + field.width maps sch * i)
      rw [← MapField.width_message message there] at hhi
      exact ⟨⟨mem, inside⟩, hlo, hhi⟩

/-- Two elements of a struct are apart. -/
theorem element_apart (hlaid : map.Laid maps sch) (hmem : field ∈ map.fields)
    (hmem' : field' ∈ map.fields) (hin : i < field.count)
    (hin' : j < field'.count) (hne : (field, i) ≠ (field', j))
    (hlo : base + field.ofs + field.width maps sch * i ≤ a)
    (hhi : a < base + field.ofs + field.width maps sch * i
      + field.width maps sch)
    (hlo' : base + field'.ofs + field'.width maps sch * j ≤ a)
    (hhi' : a < base + field'.ofs + field'.width maps sch * j
      + field'.width maps sch) : False := by
  by_cases hfield : field = field'
  · subst hfield
    rcases Nat.lt_trichotomy i j with hlt | rfl | hgt
    · have hle := element_le (field.width maps sch) hlt
      omega
    · exact hne rfl
    · have hle := element_le (field.width maps sch) hgt
      omega
  · have hle := element_le (field.width maps sch) hin
    have hle' := element_le (field'.width maps sch) hin'
    refine hlaid.apart field hmem field' hmem' hfield (a - base) ?_ ?_
    · constructor <;> omega
    · constructor <;> omega

/-- Different slots have no byte in common. -/
theorem IsSlot.apart (h : IsSlot maps sch map place n)
    (h' : IsSlot maps sch map place' k) (hlaid : AllLaid maps sch map)
    (hne : place ≠ place') (hlo : address maps sch base place ≤ a)
    (hhi : a < address maps sch base place + n) :
    ¬ (address maps sch base place' ≤ a ∧
      a < address maps sch base place' + k) := by
  intro h
  obtain ⟨hlo', hhi'⟩ := h
  induction place generalizing map base place' with
  | nil => cases h
  | cons elem place ih =>
      obtain ⟨field, i⟩ := elem
      cases place' with
      | nil => cases h'
      | cons elem' place' =>
          obtain ⟨field', j⟩ := elem'
          obtain ⟨⟨hmem, hin⟩, hlow, hhigh⟩ := h.element hlaid base
          obtain ⟨⟨hmem', hin'⟩, hlow', hhigh'⟩ := h'.element hlaid base
          by_cases heq : (field, i) = (field', j)
          · cases heq
            cases h with
            | scalar _ scalar =>
                cases h' with
                | scalar => exact hne rfl
                | nested _ message => exact scalar message
            | nested mem message _ there within =>
                cases h' with
                | scalar _ scalar => exact scalar message
                | nested _ _ _ there' within' =>
                    cases there.symm.trans there'
                    exact ih within within' (hlaid.nested mem message there)
                      (fun heq => hne (congrArg _ heq)) hlo hhi hlo' hhi'
          · exact element_apart hlaid.laid hmem hmem' hin hin' heq
              (hlow.trans hlo) (by omega) (hlow'.trans hlo') (by omega)

end

end Lwpb
