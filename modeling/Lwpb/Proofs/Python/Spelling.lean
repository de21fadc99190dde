/-
What a dict spells.

The values of a field spell their trees one after the other, and what a
part of them spells can be taken out of what all of them do. Without fields
of 64 signed bits an object spells one message (`spellsObject_unique`).

Both are inductions on the list of values, and then on the fields of the
descriptor from a field on: `fields_induct` is this second induction,
packaged with the index that the field has in its message, and is the rule
by which other modules go through a dict too. What a message inside spells
is a parameter (`spelled`) throughout, so that the statements hold at
every depth at once and the recursion over nested dicts is made only in
the last theorem.
-/
import Lwpb.Proofs.Python.Values
import Lwpb.Proofs.RoundTrip

namespace Lwpb.Python

-- ================================================================== values

section

variable {py : PythonApi} {sch : Schema} {f : FieldRef} {desc : FieldDesc}
  {spelled : PyObject → MsgRef → Tree → Prop}

/-- Two lists of values are spelled by two trees, one behind the other. -/
theorem spellsValues_append {vs ws : List PyObject} {t : Tree} :
    SpellsValues py spelled f desc (vs ++ ws) t ↔
      ∃ u, SpellsValues py spelled f desc vs u ∧
        ∃ u', SpellsValues py spelled f desc ws u' ∧ t = u.append u' := by
  induction vs generalizing t with
  | nil =>
      constructor
      · exact fun h => ⟨.nil, rfl, t, h, rfl⟩
      · intro h
        obtain ⟨u, rfl, u', h, rfl⟩ := h
        exact h
  | cons v vs ih =>
      constructor
      · intro h
        obtain ⟨rest, hrest, hone⟩ := h
        obtain ⟨u, hu, u', hu', rfl⟩ := ih.mp hrest
        split at hone
        · obtain ⟨m, body, hm, hbody, rfl⟩ := hone
          refine ⟨.message f body u, ⟨u, hu, ?_⟩, u', hu', rfl⟩
          rw [if_pos ‹_›]
          exact ⟨m, body, hm, hbody, rfl⟩
        · obtain ⟨x, hx, rfl⟩ := hone
          refine ⟨.scalar f x u, ⟨u, hu, ?_⟩, u', hu', rfl⟩
          rw [if_neg ‹_›]
          exact ⟨x, hx, rfl⟩
      · intro h
        obtain ⟨_, ⟨u, hu, hone⟩, u', hu', rfl⟩ := h
        refine ⟨u.append u', ih.mpr ⟨u, hu, u', hu', rfl⟩, ?_⟩
        split at hone
        · obtain ⟨m, body, hm, hbody, rfl⟩ := hone
          rw [if_pos ‹_›]
          exact ⟨m, body, hm, hbody, rfl⟩
        · obtain ⟨x, hx, rfl⟩ := hone
          rw [if_neg ‹_›]
          exact ⟨x, hx, rfl⟩

/-- There is one spelling, if there is one of each message inside. -/
theorem spellsValues_unique {vs : List PyObject} {t t' : Tree}
    (hlong : desc.opts.typ.isLong = false)
    (hunique : ∀ obj m t t', spelled obj m t → spelled obj m t' → t = t')
    (h : SpellsValues py spelled f desc vs t)
    (h' : SpellsValues py spelled f desc vs t') : t = t' := by
  induction vs generalizing t t' with
  | nil => exact h.trans (Eq.symm h')
  | cons v vs ih =>
      obtain ⟨rest, hrest, hone⟩ := h
      obtain ⟨rest', hrest', hone'⟩ := h'
      obtain rfl := ih hrest hrest'
      by_cases htyp : desc.opts.typ = .message
      · rw [if_pos htyp] at hone hone'
        obtain ⟨m, body, hm, hbody, rfl⟩ := hone
        obtain ⟨m', body', hm', hbody', rfl⟩ := hone'
        obtain rfl := Option.some.inj (hm.symm.trans hm')
        rw [hunique v m body body' hbody hbody']
      · rw [if_neg htyp] at hone hone'
        obtain ⟨x, hx, rfl⟩ := hone
        obtain ⟨x', hx', rfl⟩ := hone'
        rw [Converts.unique hlong hx hx']

/-- Two lists are converted one after the other. -/
theorem convert_append {typ : FieldType} {vs ws : List PyObject}
    {xs : List (Value Bytes)} :
    List.Forall₂ (Converts py typ) (vs ++ ws) xs ↔
      ∃ u, List.Forall₂ (Converts py typ) vs u ∧
        ∃ u', List.Forall₂ (Converts py typ) ws u' ∧ xs = u ++ u' := by
  induction vs generalizing xs with
  | nil =>
      constructor
      · exact fun h => ⟨[], .nil, xs, h, rfl⟩
      · intro h
        obtain ⟨u, hu, u', h, rfl⟩ := h
        cases hu
        exact h
  | cons v vs ih =>
      constructor
      · intro h
        cases h with
        | cons hx hrest =>
            obtain ⟨u, hu, u', hu', rfl⟩ := ih.mp hrest
            exact ⟨_ :: u, .cons hx hu, u', hu', rfl⟩
      · intro h
        obtain ⟨_, hu, u', hu', rfl⟩ := h
        cases hu with
        | cons hx hrest =>
            exact .cons hx (ih.mpr ⟨_, hrest, u', hu', rfl⟩)

/-- The conversion of a type other than the long ones is a function. -/
theorem convert_unique {typ : FieldType} {vs : List PyObject}
    {xs ys : List (Value Bytes)} (hlong : typ.isLong = false)
    (h : List.Forall₂ (Converts py typ) vs xs)
    (h' : List.Forall₂ (Converts py typ) vs ys) : xs = ys := by
  induction h generalizing ys with
  | nil =>
      cases h'
      rfl
  | cons hx _ ih =>
      cases h' with
      | cons hy hrest => rw [Converts.unique hlong hx hy, ih hrest]

/-- A value of a list that is spelled has a spelling of its own. -/
theorem spellsValues_mem {vs : List PyObject} {t : Tree} {v : PyObject}
    (h : SpellsValues py spelled f desc vs t) (hv : v ∈ vs) :
    ∃ u, SpellsValues py spelled f desc [v] u := by
  obtain ⟨before, after, rfl⟩ := List.append_of_mem hv
  obtain ⟨-, -, u, hu, -⟩ := spellsValues_append.mp h
  have hone : SpellsValues py spelled f desc ([v] ++ after) u := hu
  obtain ⟨u', hu', -⟩ := spellsValues_append.mp hone
  exact ⟨u', hu'⟩

/-- A message alone is spelled by a submessage. -/
theorem spellsValues_message {m : MsgRef} {v : PyObject} {t : Tree}
    (htyp : desc.opts.typ = .message) (hm : desc.msgDesc = some m) :
    SpellsValues py spelled f desc [v] t ↔
      ∃ body, spelled v m body ∧ t = .message f body .nil := by
  constructor
  · intro h
    obtain ⟨rest, rfl, hone⟩ := h
    rw [if_pos htyp] at hone
    obtain ⟨m', body, hm', hbody, rfl⟩ := hone
    obtain rfl := Option.some.inj (hm.symm.trans hm')
    exact ⟨body, hbody, rfl⟩
  · intro h
    obtain ⟨body, hbody, rfl⟩ := h
    refine ⟨.nil, rfl, ?_⟩
    rw [if_pos htyp]
    exact ⟨m, body, hm, hbody, rfl⟩

/-- A scalar alone is spelled by its conversion. -/
theorem spellsValues_scalar {v : PyObject} {t : Tree}
    (htyp : desc.opts.typ ≠ .message) :
    SpellsValues py spelled f desc [v] t ↔
      ∃ x, Converts py desc.opts.typ v x ∧ t = .scalar f x .nil := by
  constructor
  · intro h
    obtain ⟨rest, rfl, hone⟩ := h
    rw [if_neg htyp] at hone
    exact hone
  · intro h
    obtain ⟨x, hx, rfl⟩ := h
    refine ⟨.nil, rfl, ?_⟩
    rw [if_neg htyp]
    exact ⟨x, hx, rfl⟩

/-- One value is converted to one. -/
theorem convert_one {typ : FieldType} {v : PyObject}
    {xs : List (Value Bytes)} :
    List.Forall₂ (Converts py typ) [v] xs ↔
      ∃ x, Converts py typ v x ∧ xs = [x] := by
  constructor
  · intro h
    cases h with
    | cons hx hrest =>
        cases hrest
        exact ⟨_, hx, rfl⟩
  · intro h
    obtain ⟨x, hx, rfl⟩ := h
    exact .cons hx .nil

/-- A value of a list that is converted has a conversion. -/
theorem convert_mem {typ : FieldType} {vs : List PyObject} {v : PyObject}
    {xs : List (Value Bytes)} (h : List.Forall₂ (Converts py typ) vs xs)
    (hv : v ∈ vs) : ∃ x, Converts py typ v x := by
  induction h with
  | nil => exact absurd hv List.not_mem_nil
  | cons hx _ ih =>
      rcases List.mem_cons.mp hv with rfl | hv
      · exact ⟨_, hx⟩
      · exact ih hv

end

-- ================================================================= objects

/-- Field number `i` of a message, with the fields behind it. -/
structure FieldAt (sch : Schema) (m : MsgRef) (i : Nat) (desc : FieldDesc)
    (fields : List FieldDesc) : Prop where
  field : sch.field ⟨m, i⟩ = desc
  owned : sch.owns m ⟨m, i⟩ = true
  mem : desc ∈ (sch.msg m).fields
  message : sch.msg m ∈ sch.msgs
  rest : (sch.msg m).fields.drop (i + 1) = fields

/-- The head of what is left of a descriptor is the field at that index. -/
theorem at_of_drop (h : (sch.msg m).fields.drop i = desc :: fields) :
    FieldAt sch m i desc fields := by
  have hlt : i < (sch.msg m).fields.length := by
    by_contra hge
    rw [List.drop_eq_nil_of_le (Nat.not_lt.mp hge)] at h
    cases h
  rw [List.drop_eq_getElem_cons hlt] at h
  obtain ⟨hdesc, hrest⟩ := List.cons.inj h
  refine ⟨?_, ?_, ?_, sch.msg_mem hlt, hrest⟩
  · rw [sch.field_eq (f := ⟨m, i⟩) hlt, ← hdesc]
  · simp [Schema.owns, hlt]
  · rw [← hdesc]
    exact List.getElem_mem hlt

/-- Field by field, from the last one. -/
theorem fields_induct {sch : Schema} {m : MsgRef}
    {P : Nat → List FieldDesc → Prop} (hnil : ∀ i, P i [])
    (hcons : ∀ i desc fields, FieldAt sch m i desc fields → P (i + 1) fields →
      P i (desc :: fields)) : P 0 (sch.msg m).fields := by
  have hbehind : ∀ i fields, (sch.msg m).fields.drop i = fields →
      P i fields := by
    intro i fields
    induction fields generalizing i with
    | nil => exact fun _ => hnil i
    | cons desc fields ih =>
        intro hdrop
        have hat := at_of_drop hdrop
        exact hcons i desc fields hat (ih (i + 1) hat.rest)
  exact hbehind 0 _ List.drop_zero

section

variable {py : PythonApi} {sch : Schema} {m : MsgRef} {i : Nat}
  {desc : FieldDesc} {fields : List FieldDesc}
  {items : List (String × PyObject)} {held : PyObject}
  {spelled : PyObject → MsgRef → Tree → Prop}

/-- There is one spelling of a field. -/
theorem spellsField_unique {f : FieldRef} {t t' : Tree}
    (hlong : desc.opts.typ.isLong = false)
    (hunique : ∀ obj m t t', spelled obj m t → spelled obj m t' → t = t')
    (h : SpellsField py spelled f desc held t)
    (h' : SpellsField py spelled f desc held t') : t = t' := by
  unfold SpellsField at h h'
  cases hrun : desc.isPackedRepeated with
  | true =>
      rw [hrun, if_pos rfl] at h h'
      obtain ⟨xs, hxs, rfl⟩ := h
      obtain ⟨ys, hys, rfl⟩ := h'
      rw [convert_unique hlong hxs hys]
  | false =>
      rw [hrun, if_neg Bool.false_ne_true] at h h'
      exact spellsValues_unique hlong hunique h h'

/-- And one of a dict. -/
theorem spellsFields_unique {t t' : Tree} (hno : sch.NoLong)
    (hunique : ∀ obj m t t', spelled obj m t → spelled obj m t' → t = t')
    (hfields : (sch.msg m).fields.drop i = fields)
    (h : SpellsFields py spelled m items i fields t)
    (h' : SpellsFields py spelled m items i fields t') : t = t' := by
  induction fields generalizing i t t' with
  | nil => exact h.trans (Eq.symm h')
  | cons desc fields ih =>
      have hat := at_of_drop hfields
      unfold SpellsFields at h h'
      cases hheld : items.lookup desc.name with
      | none =>
          rw [hheld] at h h'
          exact ih hat.rest h h'
      | some held =>
          rw [hheld] at h h'
          obtain ⟨t₁, t₂, h₁, h₂, rfl⟩ := h
          obtain ⟨u₁, u₂, h₁', h₂', rfl⟩ := h'
          rw [spellsField_unique (hno _ hat.message desc hat.mem) hunique h₁
            h₁', ih hat.rest h₂ h₂']

/-- Without fields of 64 signed bits an object has one meaning. -/
theorem spellsObject_unique (hno : sch.NoLong) (depth : Nat) (obj : PyObject)
    (m : MsgRef) (t t' : Tree) (h : SpellsObject py sch depth obj m t)
    (h' : SpellsObject py sch depth obj m t') : t = t' := by
  induction depth generalizing obj m t t' with
  | zero => exact h.elim
  | succ depth ih =>
      cases obj with
      | dict items => exact spellsFields_unique hno ih rfl h h'
      | list elems | bool b | other id => exact h.elim

end

end Lwpb.Python
