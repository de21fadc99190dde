/-
The normal form of a message.

A message that is decoded to a dict and encoded again has its fields in the
order of the descriptor, each with what was left in the dict: the last
value, all values of a repeated field, and the occurrences of a submessage
as one unless it is repeated. `Tree.normal` says this without a dict.

A normal form is its own (`normal_normal`), and it is no longer and no
deeper than the message (`size_normal`, `nesting_normal`): occurrences
that are put together have one key and one length.
-/
import Lwpb.Proofs.Python.Floats
import Lwpb.Proofs.Python.Occurrences

namespace Lwpb

open Base128 Python

-- ============================================================== definitions

/-- A value as it is encoded again: a bool is 0 or 1, and a NaN is quiet. -/
def Value.settled : Value Bytes → Value Bytes
  | .float b => .float (doubleToFloat (floatToDouble b))
  | .bool v => .bool (if v = 0 then 0 else 1)
  | v => v

/-- A field with these values, one by one. -/
def Tree.scalars (f : FieldRef) (vs : List (Value Bytes)) : Tree :=
  vs.foldr (.scalar f) .nil

/-- A field with these submessages. -/
def Tree.messages (f : FieldRef) (bodies : List Tree) : Tree :=
  bodies.foldr (.message f) .nil

section

variable (sch : Schema)

/-- All values of the field of this name, those of packed runs among
them. -/
def Tree.valuesNamed (name : String) : Tree → List (Value Bytes)
  | .nil => []
  | .scalar f v rest =>
      if (sch.field f).name = name then v :: rest.valuesNamed name
      else rest.valuesNamed name
  | .message _ _ rest => rest.valuesNamed name
  | .packed f elems rest =>
      if (sch.field f).name = name then elems ++ rest.valuesNamed name
      else rest.valuesNamed name

/-- The values that are left of a field. -/
def Tree.keptValues (desc : FieldDesc) (t : Tree) : List (Value Bytes) :=
  if desc.opts.label = .repeated then t.valuesNamed sch desc.name
  else (t.lastNamed sch desc.name).toList

/-- The submessages that are left of a field. -/
def Tree.keptBodies (desc : FieldDesc) (t : Tree) : List Tree :=
  let bodies := t.bodiesNamed sch desc.name
  if desc.opts.label = .repeated ∨ bodies = [] then bodies
  else [.joined bodies]

variable (nested : MsgRef → Tree → Tree)

/-- What is left of a field. -/
def Tree.normalField (f : FieldRef) (desc : FieldDesc) (t : Tree) : Tree :=
  if desc.opts.typ = .message then
    .messages f ((t.keptBodies sch desc).map (nested (desc.msgDesc.getD 0)))
  else
    let vs := (t.keptValues sch desc).map Value.settled
    if desc.isPackedRepeated = true ∧ vs ≠ [] then .packed f vs .nil
    else .scalars f vs

/-- What is left of the fields of message `m` from number `i` on. -/
def Tree.normalFields (m : MsgRef) (t : Tree) :
    Nat → List FieldDesc → Tree
  | _, [] => .nil
  | i, desc :: fields =>
      (t.normalField sch nested ⟨m, i⟩ desc).append
        (normalFields m t (i + 1) fields)

/-- The normal form of a message of descriptor `m`, nested no deeper than
this. -/
def Tree.normal : Nat → MsgRef → Tree → Tree
  | 0, _, _ => .nil
  | depth + 1, m, t =>
      t.normalFields sch (normal depth) m 0 (sch.msg m).fields

end

variable {sch : Schema} {m : MsgRef} {f : FieldRef} {desc : FieldDesc}
  {name : String} {fields : List FieldDesc} {i : Nat} {t u : Tree}
  {vs : List (Value Bytes)} {bodies : List Tree}
  {nested : MsgRef → Tree → Tree}

-- ============================================================== occurrences

/-- The values under a name, of two contents joined: those of the first, then
those of the second. -/
theorem Tree.valuesNamed_append (t u : Tree) :
    (t.append u).valuesNamed sch name
      = t.valuesNamed sch name ++ u.valuesNamed sch name := by
  induction t with
  | nil => rfl
  | scalar f v rest ih =>
      rw [append, valuesNamed, valuesNamed, ih]
      split <;> rfl
  | message f body rest ihb ihr => exact ihr
  | packed f elems rest ih =>
      rw [append, valuesNamed, valuesNamed, ih]
      split
      · rw [List.append_assoc]
      · rfl

/-- The last value under a name is that of the second contents, if there is
one there. -/
theorem Tree.lastNamed_append (t u : Tree) :
    (t.append u).lastNamed sch name
      = (u.lastNamed sch name).or (t.lastNamed sch name) := by
  induction t with
  | nil => exact (Option.or_none).symm
  | scalar f v rest ih =>
      rw [append, lastNamed, lastNamed, ih, Option.or_assoc]
  | message f body rest ihb ihr => exact ihr
  | packed f elems rest ih => exact ih

/-- The submessages under a name, of two contents joined. -/
theorem Tree.bodiesNamed_append (t u : Tree) :
    (t.append u).bodiesNamed sch name
      = t.bodiesNamed sch name ++ u.bodiesNamed sch name := by
  induction t with
  | nil => rfl
  | scalar f v rest ih => exact ih
  | message f body rest ihb ihr =>
      rw [append, bodiesNamed, bodiesNamed, ihr]
      split <;> rfl
  | packed f elems rest ih => exact ih

/-- The occurrences of a name in one message are those in the other. -/
structure Tree.Alike (sch : Schema) (name : String) (t u : Tree) : Prop where
  values : t.valuesNamed sch name = u.valuesNamed sch name
  last : t.lastNamed sch name = u.lastNamed sch name
  bodies : t.bodiesNamed sch name = u.bodiesNamed sch name

/-- Contents that are alike under a name stay so when they are joined. -/
theorem Tree.Alike.append {t' u' : Tree} (h : t.Alike sch name u)
    (h' : t'.Alike sch name u') :
    (t.append t').Alike sch name (u.append u') where
  values := by rw [valuesNamed_append, valuesNamed_append, h.values, h'.values]
  last := by rw [lastNamed_append, lastNamed_append, h.last, h'.last]
  bodies := by rw [bodiesNamed_append, bodiesNamed_append, h.bodies, h'.bodies]

/-- Of a row of one field, all values stand under its name and none under
another. -/
theorem Tree.scalars_values :
    (Tree.scalars f vs).valuesNamed sch name
      = if (sch.field f).name = name then vs else [] := by
  induction vs with
  | nil => exact (ite_self _).symm
  | cons v vs ih =>
      rw [scalars, List.foldr_cons, valuesNamed]
      unfold scalars at ih
      rw [ih]
      split <;> rfl

/-- The last value of a row of one field is the last of the row. -/
theorem Tree.scalars_last :
    (Tree.scalars f vs).lastNamed sch name
      = if (sch.field f).name = name then vs.getLast? else none := by
  induction vs with
  | nil => exact (ite_self _).symm
  | cons v vs ih =>
      rw [scalars, List.foldr_cons, lastNamed]
      unfold scalars at ih
      rw [ih, List.getLast?_cons]
      split
      · cases vs.getLast? <;> rfl
      · rfl

/-- A row of values has no submessages. -/
theorem Tree.scalars_bodies :
    (Tree.scalars f vs).bodiesNamed sch name = [] := by
  induction vs with
  | nil => rfl
  | cons v vs ih => exact ih

/-- A row of submessages has no values of its own, only what is inside. -/
theorem Tree.messages_values :
    (Tree.messages f bodies).valuesNamed sch name = [] := by
  induction bodies with
  | nil => rfl
  | cons body bodies ih => exact ih

/-- A row of submessages has no last value. -/
theorem Tree.messages_last :
    (Tree.messages f bodies).lastNamed sch name = none := by
  induction bodies with
  | nil => rfl
  | cons body bodies ih => exact ih

/-- Of a row of submessages, all stand under the name of their field. -/
theorem Tree.messages_bodies :
    (Tree.messages f bodies).bodiesNamed sch name
      = if (sch.field f).name = name then bodies else [] := by
  induction bodies with
  | nil => exact (ite_self _).symm
  | cons body bodies ih =>
      rw [messages, List.foldr_cons, bodiesNamed]
      unfold messages at ih
      rw [ih]
      split <;> rfl

-- ============================================================ normal fields

/-- What is left of a field is no occurrence of another. -/
theorem Tree.normalField_apart (hfield : sch.field f = desc)
    (hname : desc.name ≠ name) :
    (t.normalField sch nested f desc).Alike sch name .nil := by
  subst hfield
  unfold normalField
  split
  · exact ⟨messages_values, messages_last, messages_bodies.trans
      (if_neg hname)⟩
  · simp only
    split
    · exact ⟨if_neg hname, rfl, rfl⟩
    · exact ⟨scalars_values.trans (if_neg hname),
        scalars_last.trans (if_neg hname), scalars_bodies⟩

/-- Nor are those of the fields behind. -/
theorem Tree.normalFields_apart
    (hfields : (sch.msg m).fields.drop i = fields)
    (hname : ∀ desc ∈ fields, desc.name ≠ name) :
    (t.normalFields sch nested m i fields).Alike sch name .nil := by
  induction fields generalizing i with
  | nil => exact ⟨rfl, rfl, rfl⟩
  | cons desc fields ih =>
      have hat := at_of_drop hfields
      obtain ⟨hhead, htail⟩ := List.forall_mem_cons.mp hname
      exact (normalField_apart hat.field hhead).append (ih hat.rest htail)

/-- The occurrences of a field are those that are left of it. -/
theorem Tree.normalFields_alike (hnames : sch.DistinctNames)
    (hfields : (sch.msg m).fields.drop i = fields) (hdesc : desc ∈ fields) :
    ∃ j, (sch.field ⟨m, j⟩) = desc ∧
      (t.normalFields sch nested m i fields).Alike sch desc.name
        (t.normalField sch nested ⟨m, j⟩ desc) := by
  induction fields generalizing i with
  | nil => exact absurd hdesc List.not_mem_nil
  | cons first fields ih =>
      have hat := at_of_drop hfields
      have hdiff := names_behind hnames hfields
      rcases List.mem_cons.mp hdesc with rfl | hdesc
      · refine ⟨i, hat.field, ?_⟩
        have htail : (t.normalFields sch nested m (i + 1) fields).Alike sch
            desc.name .nil := normalFields_apart hat.rest hdiff
        have hboth := (Alike.mk rfl rfl rfl : (t.normalField sch nested
          ⟨m, i⟩ desc).Alike sch desc.name _).append htail
        rwa [append_nil] at hboth
      · obtain ⟨j, hj, halike⟩ := ih hat.rest hdesc
        exact ⟨j, hj, (normalField_apart hat.field
          (hdiff desc hdesc).symm).append halike⟩

/-- The normal form of a field depends only on what stands under its name. -/
theorem Tree.normalField_congr (h : t.Alike sch desc.name u) :
    t.normalField sch nested f desc = u.normalField sch nested f desc := by
  unfold normalField keptBodies keptValues
  rw [h.values, h.last, h.bodies]

/-- What a normal form keeps of the values it keeps again, settled: a second
normal form changes nothing but the settling, which is idempotent. -/
theorem Tree.keptValues_normal (hfield : sch.field f = desc)
    (hmsg : desc.opts.typ ≠ .message) :
    (t.normalField sch nested f desc).keptValues sch desc
      = (t.keptValues sch desc).map Value.settled := by
  subst hfield
  unfold normalField
  rw [if_neg hmsg]
  simp only
  split
  · rename_i hrun
    have hrep := FieldDesc.repeated_of_packed hrun.1
    rw [keptValues, if_pos hrep, valuesNamed, if_pos rfl, valuesNamed,
      List.append_nil]
  · by_cases hrep : (sch.field f).opts.label = .repeated
    · rw [keptValues, if_pos hrep, scalars_values, if_pos rfl]
    · rw [keptValues, if_neg hrep, scalars_last, if_pos rfl, keptValues,
        if_neg hrep]
      cases t.lastNamed sch (sch.field f).name <;> rfl

/-- The submessages that a normal form keeps are the normal forms of those
that were kept before. -/
theorem Tree.keptBodies_normal (hfield : sch.field f = desc)
    (hmsg : desc.opts.typ = .message) :
    (t.normalField sch nested f desc).keptBodies sch desc
      = (t.keptBodies sch desc).map (nested (desc.msgDesc.getD 0)) := by
  subst hfield
  rw [normalField, if_pos hmsg]
  by_cases hrep : (sch.field f).opts.label = .repeated
  · simp only [keptBodies, messages_bodies, hrep, true_or, if_true]
  · cases hbodies : t.bodiesNamed sch (sch.field f).name with
    | nil =>
        simp only [keptBodies, messages_bodies, hbodies, or_true, if_true,
          List.map_nil]
    | cons body bodies =>
        simp only [keptBodies, messages_bodies, hbodies, hrep, false_or,
          if_true, if_false, List.cons_ne_nil, List.map_cons, List.map_nil]
        exact congrArg (fun body => [body]) (append_nil _)

-- ================================================================ its own

/-- A value that came back comes back the same. -/
theorem Value.settled_settled (v : Value Bytes) :
    v.settled.settled = v.settled := by
  cases v with
  | float b =>
      show Value.float _ = Value.float _
      rw [widened_back]
  | bool v =>
      show Value.bool _ = Value.bool _
      by_cases h : v = 0
      · rw [if_pos h, if_pos rfl]
      · rw [if_neg h, if_neg (by decide)]
  | double b | int32 v | int64 v | uint32 v | uint64 v | enum v | string s
  | bytes s => rfl

/-- A field of a normal form is its own, if its submessages are. -/
theorem Tree.normalField_again {f' : FieldRef} (hfield : sch.field f' = desc)
    (hnested : ∀ m t, nested m (nested m t) = nested m t) :
    (t.normalField sch nested f' desc).normalField sch nested f desc
      = t.normalField sch nested f desc := by
  by_cases hmsg : desc.opts.typ = .message
  · have hagain : nested (desc.msgDesc.getD 0) ∘ nested (desc.msgDesc.getD 0)
        = nested (desc.msgDesc.getD 0) := funext (hnested _)
    rw [normalField, if_pos hmsg, keptBodies_normal hfield hmsg,
      List.map_map, hagain, normalField, if_pos hmsg]
  · have hagain : Value.settled ∘ Value.settled = Value.settled :=
      funext Value.settled_settled
    rw [normalField, if_neg hmsg, keptValues_normal hfield hmsg,
      List.map_map, hagain, normalField, if_neg hmsg]

/-- A normal form is its own. -/
theorem Tree.normal_normal (hnames : sch.DistinctNames) (depth : Nat)
    (m : MsgRef) (t : Tree) :
    (t.normal sch depth m).normal sch depth m = t.normal sch depth m := by
  induction depth generalizing m t with
  | zero => rfl
  | succ depth ih =>
      -- field by field; the occurrences are those of the whole form
      refine fields_induct (P := fun i fields =>
        (t.normal sch (depth + 1) m).normalFields sch (normal sch depth) m
            i fields
          = t.normalFields sch (normal sch depth) m i fields)
        (fun _ => rfl) fun i desc fields hat hrest => ?_
      obtain ⟨j, hj, hwhole⟩ : ∃ j, sch.field ⟨m, j⟩ = desc ∧
          (t.normal sch (depth + 1) m).Alike sch desc.name
            (t.normalField sch (normal sch depth) ⟨m, j⟩ desc) :=
        normalFields_alike hnames List.drop_zero hat.mem
      rw [normalFields, normalField_congr hwhole, normalField_again hj ih,
        hrest, normalFields]

-- ==================================================================== sizes

/-- The bytes of a message. -/
def Tree.size (sch : Schema) (t : Tree) : Nat := (t.wire sch).bytes.length

/-- The bytes of `n` bytes behind a key and a length. -/
def FieldDesc.frame (desc : FieldDesc) (n : Nat) : Nat :=
  (desc.key .string).length + (encode n).length + n

/-- The bytes of a value behind its key. -/
def FieldDesc.item (desc : FieldDesc) (v : Value Bytes) : Nat :=
  (desc.key (v.payload desc.opts.typ).wireType).length
    + (v.payload desc.opts.typ).bytes.length

/-- The bytes of the elements of a packed run. -/
def FieldDesc.run (desc : FieldDesc) (vs : List (Value Bytes)) : Nat :=
  (elemBytes (vs.map (Value.payload desc.opts.typ))).length

/-- The size counts a value with its key. -/
theorem Tree.size_scalar {v : Value Bytes} {rest : Tree} :
    (Tree.scalar f v rest).size sch
      = (sch.field f).item v + rest.size sch := by
  simp only [size, wire, Wire.bytes, FieldDesc.item, List.length_append]

/-- It counts a submessage with its frame: key, length and contents. -/
theorem Tree.size_message {body rest : Tree} :
    (Tree.message f body rest).size sch
      = (sch.field f).frame (body.size sch) + rest.size sch := by
  simp only [size, wire, Wire.bytes, FieldDesc.frame, List.length_append]
  omega

/-- It counts a run with its frame. -/
theorem Tree.size_packed {rest : Tree} :
    (Tree.packed f vs rest).size sch
      = (sch.field f).frame ((sch.field f).run vs) + rest.size sch := by
  simp only [size, wire, Wire.bytes, FieldDesc.frame, FieldDesc.run,
    List.length_append]
  omega

/-- The size of two contents joined is the sum. -/
theorem Tree.size_append (t u : Tree) :
    (t.append u).size sch = t.size sch + u.size sch := by
  unfold size
  rw [bytes_append, List.length_append]

/-- A longer payload makes a longer frame: the length word does not shrink. -/
theorem FieldDesc.frame_mono {n k : Nat} (h : n ≤ k) :
    desc.frame n ≤ desc.frame k := by
  have hlen := encode_length_mono h
  unfold frame
  omega

/-- What is put together has one key and one length. -/
theorem FieldDesc.frame_add (n k : Nat) :
    desc.frame (n + k) ≤ desc.frame n + desc.frame k := by
  have hlen := encode_length_add_le n k
  unfold frame
  omega

/-- A run of two lists takes what both of them take. -/
theorem FieldDesc.run_append (vs vs' : List (Value Bytes)) :
    desc.run (vs ++ vs') = desc.run vs + desc.run vs' := by
  unfold run elemBytes
  rw [List.map_append, List.flatMap_append, List.length_append]

/-- An element is a part of its run. -/
theorem FieldDesc.elem_le_run {v : Value Bytes} (h : v ∈ vs) :
    (v.payload desc.opts.typ).bytes.length ≤ desc.run vs := by
  unfold run elemBytes
  induction vs with
  | nil => exact absurd h List.not_mem_nil
  | cons v' vs ih =>
      rw [List.map_cons, List.flatMap_cons, List.length_append]
      rcases List.mem_cons.mp h with rfl | h
      · exact Nat.le_add_right _ _
      · exact (ih h).trans (Nat.le_add_left _ _)

/-- A value that is encoded again takes no more. -/
theorem Value.payload_settled (v : Value Bytes) (typ : FieldType) :
    (v.settled.payload typ).wireType = (v.payload typ).wireType ∧
      (v.settled.payload typ).bytes.length
        ≤ (v.payload typ).bytes.length := by
  cases v with
  | bool v =>
      have hzero : (encode (TwosComplement.residue 64
          (0 : Int32).toInt)).length = 1 := by decide
      have hone : (encode (TwosComplement.residue 64
          (1 : Int32).toInt)).length = 1 := by decide
      have hbit : (encode (TwosComplement.residue 64
          (if v = 0 then (0 : Int32) else 1).toInt)).length = 1 := by
        by_cases h : v = 0
        · rw [if_pos h, hzero]
        · rw [if_neg h, hone]
      simp only [settled, payload, Payload.wireType, Payload.bytes, true_and]
      rw [hbit]
      exact encode_length_pos _
  | float b =>
      simp only [settled, payload, Payload.wireType, Payload.bytes,
        Slice.leBytes_length, le_refl, and_self]
  | double b | int32 v | int64 v | uint32 v | uint64 v | enum v | string s
  | bytes s => simp only [settled, le_refl, and_self]

/-- Settling a value does not make it longer: a bool gets one byte, and a
float keeps its four. -/
theorem FieldDesc.item_settled (v : Value Bytes) :
    desc.item v.settled ≤ desc.item v := by
  obtain ⟨hwt, hlen⟩ := v.payload_settled desc.opts.typ
  unfold item
  rw [hwt]
  omega

/-- Nor does it make a run longer. -/
theorem FieldDesc.run_settled (vs : List (Value Bytes)) :
    desc.run (vs.map Value.settled) ≤ desc.run vs := by
  induction vs with
  | nil => exact Nat.le_refl 0
  | cons v vs ih =>
      have hv := (v.payload_settled desc.opts.typ).2
      simp only [run, elemBytes, List.map_cons, List.flatMap_cons,
        List.length_append] at ih ⊢
      omega

-- =================================================================== shares

/-- The bytes of the occurrences of a name. -/
def Tree.share (sch : Schema) (name : String) : Tree → Nat
  | .nil => 0
  | .scalar f v rest =>
      (if (sch.field f).name = name then (sch.field f).item v else 0)
        + share sch name rest
  | .message f body rest =>
      (if (sch.field f).name = name
        then (sch.field f).frame (body.size sch) else 0)
        + share sch name rest
  | .packed f elems rest =>
      (if (sch.field f).name = name
        then (sch.field f).frame ((sch.field f).run elems) else 0)
        + share sch name rest

/-- A summand for one name adds nothing to the sum over fields of other names.
-/
theorem sum_apart {g : FieldDesc → Nat} {n : Nat}
    (h : ∀ d ∈ fields, name ≠ d.name) :
    (fields.map fun d => (if name = d.name then n else 0) + g d).sum
      = (fields.map g).sum := by
  refine congrArg List.sum (List.map_congr_left fun d hd => ?_)
  rw [if_neg (h d hd), Nat.zero_add]

/-- An occurrence counts for one field at most. -/
theorem sum_once {g : FieldDesc → Nat} {n : Nat}
    (hnodup : (fields.map FieldDesc.name).Nodup) :
    (fields.map fun d => (if name = d.name then n else 0) + g d).sum
      ≤ n + (fields.map g).sum := by
  induction fields with
  | nil => exact Nat.zero_le _
  | cons first fields ih =>
      rw [List.map_cons, List.nodup_cons] at hnodup
      obtain ⟨hfirst, hrest⟩ := hnodup
      rw [List.map_cons, List.sum_cons, List.map_cons, List.sum_cons]
      by_cases hname : name = first.name
      · have hdiff : ∀ d ∈ fields, name ≠ d.name := by
          rintro d hd rfl
          exact hfirst (hname ▸ List.mem_map_of_mem hd)
        rw [if_pos hname, sum_apart hdiff]
        omega
      · rw [if_neg hname]
        have hle := ih hrest
        omega

/-- The occurrences of different names are different parts. -/
theorem Tree.shares_le (hnodup : (fields.map FieldDesc.name).Nodup)
    (t : Tree) :
    (fields.map fun d => t.share sch d.name).sum ≤ t.size sch := by
  induction t with
  | nil =>
      refine Nat.le_of_eq (List.sum_eq_zero fun n hn => ?_)
      obtain ⟨d, -, rfl⟩ := List.mem_map.mp hn
      rfl
  | scalar f v rest ih =>
      rw [size_scalar]
      exact (sum_once hnodup).trans (Nat.add_le_add_left ih _)
  | message f body rest ihb ihr =>
      rw [size_message]
      exact (sum_once hnodup).trans (Nat.add_le_add_left ihr _)
  | packed f elems rest ih =>
      rw [size_packed]
      exact (sum_once hnodup).trans (Nat.add_le_add_left ih _)

-- ===================================================================== kept

/-- The last value is one of them. -/
theorem Tree.mem_values_of_last {v : Value Bytes}
    (h : t.lastNamed sch name = some v) : v ∈ t.valuesNamed sch name := by
  induction t with
  | nil => cases h
  | scalar f v' rest ih =>
      rw [lastNamed] at h
      rw [valuesNamed]
      rcases Option.or_eq_some_iff.mp h with hlater | ⟨-, hhere⟩
      · have hmem := ih hlater
        split
        · exact List.mem_cons_of_mem _ hmem
        · exact hmem
      · split at hhere
        · rw [if_pos ‹_›, Option.some.inj hhere]
          exact List.mem_cons_self
        · cases hhere
  | message f body rest ihb ihr => exact ihr h
  | packed f elems rest ih =>
      rw [valuesNamed]
      split
      · exact List.mem_append_right _ (ih h)
      · exact ih h

section

variable {kind : Value Bytes → FieldType → Prop}
  (hnames : sch.DistinctNames) (hdesc : desc ∈ (sch.msg m).fields)
include hnames hdesc

/-- What is left of a field are values of its type. -/
theorem Tree.Typed.keptValues (ht : t.Typed kind sch m) :
    ∀ v ∈ t.keptValues sch desc, kind v desc.opts.typ := by
  have hall : ∀ v ∈ t.valuesNamed sch desc.name, kind v desc.opts.typ := by
    induction t with
    | nil => exact fun _ h => absurd h List.not_mem_nil
    | scalar f v rest ih =>
        obtain ⟨hf, -, hv, hrest⟩ := ht
        rw [valuesNamed]
        split
        · rename_i hname
          rw [field_of_name hnames hdesc hf hname] at hv
          exact List.forall_mem_cons.mpr ⟨hv, ih hrest⟩
        · exact ih hrest
    | message f body rest ihb ihr => exact ihr ht.2.2.2.2
    | packed f elems rest ih =>
        obtain ⟨hf, -, hv, hrest⟩ := ht
        rw [valuesNamed]
        split
        · rename_i hname
          rw [field_of_name hnames hdesc hf hname] at hv
          exact List.forall_mem_append.mpr ⟨hv, ih hrest⟩
        · exact ih hrest
  intro v hv
  unfold Tree.keptValues at hv
  split at hv
  · exact hall v hv
  · exact hall v (mem_values_of_last (Option.mem_toList.mp hv))

/-- What is left of a field are messages of its descriptor. -/
theorem Tree.Typed.keptBodies (ht : t.Typed kind sch m) :
    ∀ body ∈ t.keptBodies sch desc,
      body.Typed kind sch (desc.msgDesc.getD 0) := by
  have hall : ∀ body ∈ t.bodiesNamed sch desc.name,
      body.Typed kind sch (desc.msgDesc.getD 0) := by
    intro body hbody
    obtain ⟨f, hf, hname, htyped⟩ := ht.body sch desc.name body hbody
    rw [← field_of_name hnames hdesc hf hname]
    exact htyped
  intro body hbody
  unfold Tree.keptBodies at hbody
  simp only at hbody
  split at hbody
  · exact hall body hbody
  · rw [List.mem_singleton.mp hbody]
    exact Typed.joined sch hall

end

/-- Joining submessages nests no deeper than they do. -/
theorem Tree.nesting_joined {n : Nat} (hn : 1 ≤ n)
    (h : ∀ body ∈ bodies, body.nesting ≤ n) :
    (joined bodies).nesting ≤ n := by
  induction bodies with
  | nil => exact hn
  | cons body bodies ih =>
      obtain ⟨hbody, hbodies⟩ := List.forall_mem_cons.mp h
      rw [joined, List.foldr_cons, nesting_append]
      exact Nat.max_le.mpr ⟨hbody, ih hbodies⟩

/-- A submessage that is left is less deep. -/
theorem Tree.nesting_kept :
    ∀ body ∈ t.keptBodies sch desc, body.nesting + 1 ≤ t.nesting := by
  have hall : ∀ body ∈ t.bodiesNamed sch desc.name,
      body.nesting + 1 ≤ t.nesting := by
    induction t with
    | nil => exact fun _ h => absurd h List.not_mem_nil
    | scalar f v rest ih => exact ih
    | message f b rest ihb ihr =>
        rw [bodiesNamed, nesting]
        have hrest : ∀ body ∈ rest.bodiesNamed sch desc.name,
            body.nesting + 1 ≤ max (b.nesting + 1) rest.nesting :=
          fun body hbody => (ihr body hbody).trans (Nat.le_max_right _ _)
        split
        · exact List.forall_mem_cons.mpr ⟨Nat.le_max_left _ _, hrest⟩
        · exact hrest
    | packed f elems rest ih =>
        intro body hbody
        exact (ih body hbody).trans (Nat.le_max_right _ _)
  intro body hbody
  unfold keptBodies at hbody
  simp only at hbody
  split at hbody
  · exact hall body hbody
  · rename_i hone
    obtain ⟨first, bodies, hsome⟩ :=
      List.exists_cons_of_ne_nil (not_or.mp hone).2
    have hpos := first.nesting_pos
    have hfirst := hall first (hsome ▸ List.mem_cons_self)
    rw [List.mem_singleton.mp hbody]
    have hle : (joined (t.bodiesNamed sch desc.name)).nesting
        ≤ t.nesting - 1 :=
      nesting_joined (by omega) fun body hbody => by
        have := hall body hbody
        omega
    omega

-- ============================================================ field by field

/-- A row of settled values is not longer than the row. -/
theorem Tree.size_scalars_settled :
    (Tree.scalars f (vs.map Value.settled)).size sch
      ≤ (Tree.scalars f vs).size sch := by
  induction vs with
  | nil => exact Nat.le_refl _
  | cons v vs ih =>
      have hv := @FieldDesc.item_settled (sch.field f) v
      simp only [scalars, List.map_cons, List.foldr_cons, size_scalar] at ih ⊢
      omega

/-- One value of a row is not longer than the row: what a field that is not
repeated keeps. -/
theorem Tree.size_scalars_one {v : Value Bytes} (h : v ∈ vs) :
    (Tree.scalars f [v]).size sch ≤ (Tree.scalars f vs).size sch := by
  induction vs with
  | nil => exact absurd h List.not_mem_nil
  | cons v' vs ih =>
      simp only [scalars, List.foldr_cons, List.foldr_nil, size_scalar] at ih ⊢
      rcases List.mem_cons.mp h with rfl | h
      · have hzero : (Tree.nil).size sch = 0 := rfl
        omega
      · have hle := ih h
        omega

/-- A row of submessages does not get longer if none of them does. -/
theorem Tree.size_messages_map {g : Tree → Tree}
    (h : ∀ body ∈ bodies, (g body).size sch ≤ body.size sch) :
    (Tree.messages f (bodies.map g)).size sch
      ≤ (Tree.messages f bodies).size sch := by
  induction bodies with
  | nil => exact Nat.le_refl _
  | cons body bodies ih =>
      obtain ⟨hbody, hbodies⟩ := List.forall_mem_cons.mp h
      have hle := ih hbodies
      have hframe := @FieldDesc.frame_mono (sch.field f) _ _ hbody
      simp only [messages, List.map_cons, List.foldr_cons, size_message]
        at hle ⊢
      omega

/-- Submessages joined to one are not longer than they are apart, since there
is one frame instead of several. -/
theorem Tree.size_messages_joined (hsome : bodies ≠ []) :
    (Tree.messages f [joined bodies]).size sch
      ≤ (Tree.messages f bodies).size sch := by
  induction bodies with
  | nil => exact absurd rfl hsome
  | cons body bodies ih =>
      by_cases hlast : bodies = []
      · subst hlast
        rw [joined, List.foldr_cons, List.foldr_nil, append_nil]
      · have hle := ih hlast
        have hframe := (sch.field f).frame_add (body.size sch)
          ((joined bodies).size sch)
        have hjoined : (joined (body :: bodies)).size sch
            = body.size sch + (joined bodies).size sch :=
          size_append body (joined bodies)
        simp only [messages, List.foldr_cons, List.foldr_nil, size_message]
          at hle ⊢
        rw [hjoined]
        omega

/-- A field that is packed is not one that is none. -/
theorem name_ne_of_packed (hnames : sch.DistinctNames)
    (hdesc : desc ∈ (sch.msg m).fields) {g : FieldRef}
    (hg : sch.Numbered m g)
    (h : (sch.field g).isPackedRepeated ≠ desc.isPackedRepeated) :
    (sch.field g).name ≠ desc.name := by
  intro hname
  rw [field_of_name hnames hdesc hg hname] at h
  exact h rfl

section

variable {kind : Value Bytes → FieldType → Prop}
  (hnames : sch.DistinctNames) (hdesc : desc ∈ (sch.msg m).fields)
  (hfield : sch.field f = desc) (ht : t.Typed kind sch m)
include hnames hdesc hfield ht

/-- The submessages of a field take at most its share of the size. -/
theorem Tree.size_bodies_share :
    (Tree.messages f (t.bodiesNamed sch desc.name)).size sch
      ≤ t.share sch desc.name := by
  induction t with
  | nil => exact Nat.le_refl 0
  | scalar g v rest ih => exact (ih ht.2.2.2).trans (Nat.le_add_left _ _)
  | packed g elems rest ih => exact (ih ht.2.2.2).trans (Nat.le_add_left _ _)
  | message g body rest ihb ihr =>
      obtain ⟨hg, -, -, -, hrest⟩ := ht
      have hle := ihr hrest
      rw [bodiesNamed, share]
      split
      · rename_i hname
        rw [field_of_name hnames hdesc hg hname]
        simp only [messages, List.foldr_cons, size_message] at hle ⊢
        rw [hfield]
        omega
      · omega

/-- The values of a field that is not packed take at most its share. -/
theorem Tree.size_values_share (hrun : desc.isPackedRepeated = false) :
    (Tree.scalars f (t.valuesNamed sch desc.name)).size sch
      ≤ t.share sch desc.name := by
  induction t with
  | nil => exact Nat.le_refl 0
  | message g body rest ihb ihr =>
      exact (ihr ht.2.2.2.2).trans (Nat.le_add_left _ _)
  | scalar g v rest ih =>
      obtain ⟨hg, -, -, hrest⟩ := ht
      have hle := ih hrest
      rw [valuesNamed, share]
      split
      · rename_i hname
        rw [field_of_name hnames hdesc hg hname]
        simp only [scalars, List.foldr_cons, size_scalar] at hle ⊢
        rw [hfield]
        omega
      · omega
  | packed g elems rest ih =>
      obtain ⟨hg, hrun', -, hrest⟩ := ht
      have hname := name_ne_of_packed hnames hdesc hg
        (by rw [hrun', hrun]; decide)
      rw [valuesNamed, if_neg hname]
      exact (ih hrest).trans (Nat.le_add_left _ _)

omit hfield in
/-- The values of a packed field, in one run, take at most its share, however
they were spelled. -/
theorem Tree.run_share (hrun : desc.isPackedRepeated = true)
    (hsome : t.valuesNamed sch desc.name ≠ []) :
    desc.frame (desc.run (t.valuesNamed sch desc.name))
      ≤ t.share sch desc.name := by
  induction t with
  | nil => exact absurd rfl hsome
  | message g body rest ihb ihr =>
      exact (ihr ht.2.2.2.2 hsome).trans (Nat.le_add_left _ _)
  | scalar g v rest ih =>
      obtain ⟨hg, hrun', -, hrest⟩ := ht
      have hname := name_ne_of_packed hnames hdesc hg
        (by rw [hrun', hrun]; decide)
      rw [valuesNamed, if_neg hname] at hsome ⊢
      exact (ih hrest hsome).trans (Nat.le_add_left _ _)
  | packed g elems rest ih =>
      obtain ⟨hg, -, -, hrest⟩ := ht
      rw [valuesNamed] at hsome ⊢
      rw [share]
      by_cases hname : (sch.field g).name = desc.name
      · rw [if_pos hname] at hsome ⊢
        rw [if_pos hname, field_of_name hnames hdesc hg hname]
        by_cases hlast : rest.valuesNamed sch desc.name = []
        · rw [hlast, List.append_nil]
          exact Nat.le_add_right _ _
        · have hle := ih hrest hlast
          have hframe := desc.frame_add (desc.run elems)
            (desc.run (rest.valuesNamed sch desc.name))
          rw [FieldDesc.run_append]
          omega
      · rw [if_neg hname] at hsome ⊢
        exact (ih hrest hsome).trans (Nat.le_add_left _ _)

/-- What is left of a field is no longer than its occurrences. -/
theorem Tree.size_normalField
    (hnested : ∀ body ∈ t.keptBodies sch desc,
      (nested (desc.msgDesc.getD 0) body).size sch ≤ body.size sch) :
    (t.normalField sch nested f desc).size sch ≤ t.share sch desc.name := by
  unfold normalField
  split
  · refine (size_messages_map hnested).trans ?_
    have hall := size_bodies_share hnames hdesc hfield ht
    unfold keptBodies
    simp only
    split
    · exact hall
    · rename_i hone
      exact (size_messages_joined (not_or.mp hone).2).trans hall
  · simp only
    split
    · rename_i hrun
      obtain ⟨hrun, hsome⟩ := hrun
      have hrep := FieldDesc.repeated_of_packed hrun
      rw [keptValues, if_pos hrep] at hsome ⊢
      rw [size_packed, hfield]
      refine (Nat.le_of_eq (Nat.add_zero _)).trans ?_
      refine (FieldDesc.frame_mono (FieldDesc.run_settled _)).trans ?_
      exact run_share hnames hdesc ht hrun fun hnone =>
        hsome (by rw [hnone]; rfl)
    · rename_i hrun
      refine size_scalars_settled.trans ?_
      cases hpacked : desc.isPackedRepeated with
      | true =>
          have hnone := not_and_not_right.mp hrun hpacked
          rw [List.map_eq_nil_iff] at hnone
          rw [hnone]
          exact Nat.zero_le _
      | false =>
          have hall := size_values_share hnames hdesc hfield ht hpacked
          unfold keptValues
          split
          · exact hall
          · cases hlast : t.lastNamed sch desc.name with
            | none => exact Nat.zero_le _
            | some v =>
                exact (size_scalars_one (mem_values_of_last hlast)).trans hall

omit hfield in
/-- A run of values takes a frame. -/
theorem Tree.nesting_run (hrun : desc.isPackedRepeated = true)
    (hsome : t.valuesNamed sch desc.name ≠ []) : 2 ≤ t.nesting := by
  induction t with
  | nil => exact absurd rfl hsome
  | message g body rest ihb ihr =>
      exact (ihr ht.2.2.2.2 hsome).trans (Nat.le_max_right _ _)
  | packed g elems rest ih => exact Nat.le_max_left _ _
  | scalar g v rest ih =>
      obtain ⟨hg, hrun', -, hrest⟩ := ht
      have hname := name_ne_of_packed hnames hdesc hg
        (by rw [hrun', hrun]; decide)
      rw [valuesNamed, if_neg hname] at hsome
      exact ih hrest hsome

omit hfield in
/-- What is left of a field is no deeper than the message. -/
theorem Tree.nesting_normalField
    (hnested : ∀ body ∈ t.keptBodies sch desc,
      (nested (desc.msgDesc.getD 0) body).nesting ≤ body.nesting) :
    (t.normalField sch nested f desc).nesting ≤ t.nesting := by
  have hscalars : ∀ vs, (Tree.scalars f vs).nesting = 1 := by
    intro vs
    induction vs with
    | nil => rfl
    | cons v vs ih => exact ih
  have hmessages : ∀ bodies : List Tree,
      (∀ body ∈ bodies, body.nesting + 1 ≤ t.nesting) →
      (Tree.messages f bodies).nesting ≤ t.nesting := by
    intro bodies h
    induction bodies with
    | nil => exact t.nesting_pos
    | cons body bodies ih =>
        obtain ⟨hbody, hbodies⟩ := List.forall_mem_cons.mp h
        exact Nat.max_le.mpr ⟨hbody, ih hbodies⟩
  unfold normalField
  split
  · refine hmessages _ fun body hbody => ?_
    obtain ⟨kept, hkept, rfl⟩ := List.mem_map.mp hbody
    have hless := nesting_kept kept hkept
    have hle := hnested kept hkept
    omega
  · simp only
    split
    · rename_i hrun
      obtain ⟨hrun, hsome⟩ := hrun
      have hrep := FieldDesc.repeated_of_packed hrun
      rw [keptValues, if_pos hrep] at hsome
      exact Nat.max_le.mpr ⟨nesting_run hnames hdesc ht hrun fun hnone =>
        hsome (by rw [hnone]; rfl), t.nesting_pos⟩
    · rw [hscalars]
      exact t.nesting_pos

end

/-- A normal form is no longer and no deeper than the message. -/
theorem Tree.normal_le {kind : Value Bytes → FieldType → Prop}
    (hnames : sch.DistinctNames) (depth : Nat) (ht : t.Typed kind sch m) :
    (t.normal sch depth m).size sch ≤ t.size sch ∧
      (t.normal sch depth m).nesting ≤ t.nesting := by
  induction depth generalizing m t with
  | zero => exact ⟨Nat.zero_le _, t.nesting_pos⟩
  | succ depth ih =>
      have hfields : (t.normalFields sch (normal sch depth) m 0
            (sch.msg m).fields).size sch
              ≤ ((sch.msg m).fields.map fun d => t.share sch d.name).sum ∧
          (t.normalFields sch (normal sch depth) m 0
            (sch.msg m).fields).nesting ≤ t.nesting := by
        refine fields_induct (P := fun i fields =>
          (t.normalFields sch (normal sch depth) m i fields).size sch
              ≤ (fields.map fun d => t.share sch d.name).sum ∧
            (t.normalFields sch (normal sch depth) m i fields).nesting
              ≤ t.nesting)
          (fun _ => ⟨Nat.le_refl 0, t.nesting_pos⟩)
          fun i desc fields hat hrest => ?_
        obtain ⟨hsize, hnest⟩ := hrest
        have hbody : ∀ body ∈ t.keptBodies sch desc, _ :=
          fun body hbody => ih (ht.keptBodies hnames hat.mem body hbody)
        have hfield : (t.normalField sch (normal sch depth) ⟨m, i⟩
            desc).size sch ≤ t.share sch desc.name :=
          size_normalField hnames hat.mem hat.field ht
            fun body h => (hbody body h).1
        have hdeep : (t.normalField sch (normal sch depth) ⟨m, i⟩
            desc).nesting ≤ t.nesting :=
          nesting_normalField hnames hat.mem ht
            fun body h => (hbody body h).2
        rw [normalFields, size_append, nesting_append, List.map_cons,
          List.sum_cons]
        exact ⟨Nat.add_le_add hfield hsize, Nat.max_le.mpr ⟨hdeep, hnest⟩⟩
      obtain ⟨hsize, hnest⟩ := hfields
      have hnodup : ((sch.msg m).fields.map FieldDesc.name).Nodup := by
        cases hall : (sch.msg m).fields with
        | nil => exact List.nodup_nil
        | cons desc fields =>
            rw [← hall]
            exact hnames _ (at_of_drop (i := 0) hall).message
      exact ⟨hsize.trans (shares_le hnodup t), hnest⟩

end Lwpb
