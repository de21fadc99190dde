/-
What a decoded dict holds under a name.

`Tree.fill` stores the occurrences of the fields of a message one after the
other. Under the name of one field that comes to: the last value of a field
that holds one (`lookup_single`); the list of what the occurrences of a
repeated message make, each by itself (`lookup_messages`); and, for a
message that is not repeated, what its occurrences make as one
(`lookup_merged`). The occurrences of other fields are no matter.

Each of the three is an induction on the message, with the dict as a
variable: an occurrence of the field does its own work on what is held,
and an occurrence of any other field leaves what is held under the name
(`elems_apart`). For a submessage that is not repeated this uses that
filling in two contents one after the other is filling in both joined, so
that the occurrences can be collected first (`Tree.joined`).
-/
import Lwpb.Proofs.Python.Canonical

namespace Lwpb

-- ============================================================= occurrences

variable (sch : Schema) (name : String)

/-- The last value of the field of this name. -/
def Tree.lastNamed : Tree → Option (Value Bytes)
  | .nil => none
  | .scalar f v rest =>
      rest.lastNamed.or (if (sch.field f).name = name then some v else none)
  | .message _ _ rest => rest.lastNamed
  | .packed _ _ rest => rest.lastNamed

/-- The submessages of the field of this name, in their order. -/
def Tree.bodiesNamed : Tree → List Tree
  | .nil => []
  | .scalar _ _ rest => rest.bodiesNamed
  | .message f body rest =>
      if (sch.field f).name = name then body :: rest.bodiesNamed
      else rest.bodiesNamed
  | .packed _ _ rest => rest.bodiesNamed

/-- Messages as one: the fields of the first, then those of the next. -/
def Tree.joined (bodies : List Tree) : Tree := bodies.foldr Tree.append .nil

/-- A packed field is repeated. -/
theorem FieldDesc.repeated_of_packed {desc : FieldDesc}
    (h : desc.isPackedRepeated = true) : desc.opts.label = .repeated :=
  eq_of_beq (Bool.and_eq_true_iff.mp h).1

/-- A submessage is a message of the field's descriptor. -/
theorem Tree.Typed.body {kind : Value Bytes → FieldType → Prop} {m : MsgRef}
    {t : Tree} (ht : t.Typed kind sch m) :
    ∀ body ∈ t.bodiesNamed sch name, ∃ f : FieldRef, sch.Numbered m f ∧
      (sch.field f).name = name ∧ body.Typed kind sch (sch.subDesc f) := by
  induction t with
  | nil => nofun
  | scalar f v rest ih => exact ih ht.2.2.2
  | packed f elems rest ih => exact ih ht.2.2.2
  | message f b rest ihb ihr =>
      obtain ⟨hf, -, -, hbody, hrest⟩ := ht
      intro body hmem
      rw [bodiesNamed] at hmem
      by_cases hname : (sch.field f).name = name
      · rw [if_pos hname] at hmem
        rcases List.mem_cons.mp hmem with rfl | hmem
        · exact ⟨f, hf, hname, hbody⟩
        · exact ihr hrest body hmem
      · rw [if_neg hname] at hmem
        exact ihr hrest body hmem

theorem Tree.Typed.joined {kind : Value Bytes → FieldType → Prop}
    {m : MsgRef} {bodies : List Tree}
    (h : ∀ body ∈ bodies, body.Typed kind sch m) :
    (Tree.joined bodies).Typed kind sch m := by
  induction bodies with
  | nil => trivial
  | cons body bodies ih =>
      obtain ⟨hbody, hbodies⟩ := List.forall_mem_cons.mp h
      exact hbody.append (ih hbodies)

end Lwpb

namespace Lwpb.Python

variable {new : PythonNew} {sch : Schema} {m : MsgRef} {desc : FieldDesc}
  {t : Tree} {top : Items}

-- ==================================================================== names

/-- What packed values are stored for is no matter to other fields. -/
theorem elems_apart {elems : List (Value Bytes)} :
    Apart desc top (elems.foldl (fun top v =>
      store desc (toPy new v desc.opts.typ) top) top) := by
  induction elems generalizing top with
  | nil => exact fun _ _ => rfl
  | cons v elems ih => exact store_apart.trans ih

/-- What a submessage is filled into is what is held under its name. -/
theorem childOf_congr {top' : Items}
    (h : top'.lookup desc.name = top.lookup desc.name) :
    childOf desc top' = childOf desc top := by
  unfold childOf
  rw [h]

section

variable (hnames : sch.DistinctNames) (hdesc : desc ∈ (sch.msg m).fields)
include hnames hdesc

/-- The field of the name is the field. -/
theorem field_of_name {f : FieldRef} (hf : sch.Numbered m f)
    (hname : (sch.field f).name = desc.name) : sch.field f = desc :=
  hnames.eq hf.mem hdesc hname

/-- A last value is one of the field's type. -/
theorem ofType_lastNamed (ht : t.Typed Value.OfType sch m) {v : Value Bytes}
    (h : t.lastNamed sch desc.name = some v) : v.OfType desc.opts.typ := by
  induction t with
  | nil => cases h
  | message f body rest ihb ihr => exact ihr ht.2.2.2.2 h
  | packed f elems rest ih => exact ih ht.2.2.2 h
  | scalar f v' rest ih =>
      obtain ⟨hf, -, hv, hrest⟩ := ht
      rw [Tree.lastNamed] at h
      rcases Option.or_eq_some_iff.mp h with hlater | ⟨-, hhere⟩
      · exact ih hrest hlater
      · by_cases hname : (sch.field f).name = desc.name
        · rw [if_pos hname] at hhere
          rw [← Option.some.inj hhere,
            ← field_of_name hnames hdesc hf hname]
          exact hv
        · rw [if_neg hname] at hhere
          cases hhere

-- =================================================================== lookups

/-- A field that holds one value holds the last one. -/
theorem lookup_single (hrep : desc.opts.label ≠ .repeated)
    (htyp : desc.opts.typ ≠ .message) (ht : t.Typed Value.OfType sch m) :
    (t.fill new sch top).lookup desc.name
      = ((t.lastNamed sch desc.name).map (toPy new · desc.opts.typ)).or
        (top.lookup desc.name) := by
  induction t generalizing top with
  | nil => rfl
  | scalar f v rest ih =>
      obtain ⟨hf, -, -, hrest⟩ := ht
      rw [Tree.fill, ih hrest, Tree.lastNamed]
      by_cases hname : (sch.field f).name = desc.name
      · rw [if_pos hname, field_of_name hnames hdesc hf hname,
          store_single hrep, Assoc.lookup_set_self]
        cases rest.lastNamed sch desc.name <;> rfl
      · rw [if_neg hname, store_apart _ (Ne.symm hname), Option.or_none]
  | message f body rest ihb ihr =>
      obtain ⟨hf, hmsg, -, -, hrest⟩ := ht
      have hname : (sch.field f).name ≠ desc.name := fun hname =>
        htyp (field_of_name hnames hdesc hf hname ▸ hmsg)
      rw [Tree.fill, ihr hrest, store_apart _ (Ne.symm hname)]
      rfl
  | packed f elems rest ih =>
      obtain ⟨hf, hrun, -, hrest⟩ := ht
      have hname : (sch.field f).name ≠ desc.name := fun hname => by
        rw [field_of_name hnames hdesc hf hname] at hrun
        exact hrep (FieldDesc.repeated_of_packed hrun)
      rw [Tree.fill, ih hrest, elems_apart _ (Ne.symm hname)]
      rfl

/-- A packed run is none of messages. -/
theorem elems_of_message (htyp : desc.opts.typ = .message) {f : FieldRef}
    {elems : List (Value Bytes)} (hf : sch.Numbered m f)
    (hv : ∀ v ∈ elems, v.OfType (sch.field f).opts.typ) :
    (elems.foldl (fun top v => store (sch.field f)
        (toPy new v (sch.field f).opts.typ) top) top).lookup desc.name
      = top.lookup desc.name := by
  by_cases hname : (sch.field f).name = desc.name
  · cases elems with
    | nil => rfl
    | cons v elems =>
        refine absurd ?_ (ofType_ne_message (hv v List.mem_cons_self))
        rw [field_of_name hnames hdesc hf hname, htyp]
  · exact elems_apart _ (Ne.symm hname)

/-- A repeated message holds a list of what the occurrences make. -/
theorem lookup_messages (hrep : desc.opts.label = .repeated)
    (htyp : desc.opts.typ = .message) (ht : t.Typed Value.OfType sch m)
    {acc : List PyObject} (htop : Listed desc acc top) :
    Listed desc (acc ++ (t.bodiesNamed sch desc.name).map fun body =>
      .dict (body.fill new sch [])) (t.fill new sch top) := by
  induction t generalizing top acc with
  | nil =>
      rw [Tree.bodiesNamed, List.map_nil, List.append_nil]
      exact htop
  | scalar f v rest ih =>
      obtain ⟨hf, -, hv, hrest⟩ := ht
      have hname : (sch.field f).name ≠ desc.name := fun hname =>
        ofType_ne_message hv (field_of_name hnames hdesc hf hname ▸ htyp)
      exact ih hrest ((store_apart _ (Ne.symm hname)).trans htop)
  | packed f elems rest ih =>
      obtain ⟨hf, -, hv, hrest⟩ := ht
      exact ih hrest ((elems_of_message hnames hdesc htyp hf hv).trans htop)
  | message f body rest ihb ihr =>
      obtain ⟨hf, -, -, -, hrest⟩ := ht
      rw [Tree.bodiesNamed, Tree.fill]
      by_cases hname : (sch.field f).name = desc.name
      · rw [if_pos hname, List.map_cons, List.append_cons,
          field_of_name hnames hdesc hf hname, childOf_repeated hrep]
        exact ihr hrest (store_listed hrep htop)
      · rw [if_neg hname]
        exact ihr hrest ((store_apart _ (Ne.symm hname)).trans htop)

/-- A message that is not repeated holds what its occurrences make as
one. -/
theorem lookup_merged (hrep : desc.opts.label ≠ .repeated)
    (htyp : desc.opts.typ = .message) (ht : t.Typed Value.OfType sch m) :
    (t.fill new sch top).lookup desc.name
      = if t.bodiesNamed sch desc.name = [] then top.lookup desc.name
        else some (.dict ((Tree.joined (t.bodiesNamed sch desc.name)).fill new
          sch (childOf desc top))) := by
  induction t generalizing top with
  | nil => rfl
  | scalar f v rest ih =>
      obtain ⟨hf, -, hv, hrest⟩ := ht
      have hname : (sch.field f).name ≠ desc.name := fun hname =>
        ofType_ne_message hv (field_of_name hnames hdesc hf hname ▸ htyp)
      have hsame : (store (sch.field f) (toPy new v (sch.field f).opts.typ)
          top).lookup desc.name = top.lookup desc.name :=
        store_apart _ (Ne.symm hname)
      rw [Tree.fill, ih hrest, hsame, childOf_congr hsame]
      rfl
  | packed f elems rest ih =>
      obtain ⟨hf, -, hv, hrest⟩ := ht
      rw [Tree.fill, ih hrest,
        childOf_congr (elems_of_message hnames hdesc htyp hf hv),
        elems_of_message hnames hdesc htyp hf hv]
      rfl
  | message f body rest ihb ihr =>
      obtain ⟨hf, -, -, -, hrest⟩ := ht
      rw [Tree.bodiesNamed, Tree.fill]
      by_cases hname : (sch.field f).name = desc.name
      · rw [if_pos hname, if_neg (List.cons_ne_nil _ _),
          field_of_name hnames hdesc hf hname, store_single hrep, ihr hrest,
          Assoc.lookup_set_self]
        by_cases hlast : rest.bodiesNamed sch desc.name = []
        · rw [if_pos hlast, hlast]
          simp only [Tree.joined, List.foldr_cons, List.foldr_nil,
            Tree.append_nil]
        · have hchild : childOf desc (Assoc.set desc.name
              (.dict (body.fill new sch (childOf desc top))) top)
                = body.fill new sch (childOf desc top) := by
            rw [childOf, if_neg hrep, Assoc.lookup_set_self]
          rw [if_neg hlast, hchild, ← fill_append]
          rfl
      · have hsame : (store (sch.field f) (.dict (body.fill new sch
            (childOf (sch.field f) top))) top).lookup desc.name
              = top.lookup desc.name :=
          store_apart _ (Ne.symm hname)
        rw [if_neg hname, ihr hrest, hsame, childOf_congr hsame]

end

end Lwpb.Python
