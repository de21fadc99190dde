/-
Messages through the codec, and again.

`Decoder_decode` makes a canonical dict of a protocol buffer
(`fill_canonical`), and `Encoder_encode` the normal form of its message of
the dict (`fill_spelled`), whatever spelling, order and unknown fields the
protocol buffer had. The normal form is its own, so that one trip is
enough: what comes out is what comes out again (`transcoding_settles`).

# The proof

The dict says under every name which objects a message left there
(`fill_left`), whatever came between them. Going through the descriptor
field by field (`fields_induct`), these objects spell the part of the
normal form that the field has (`spells_normalField`): the values as they
settle, a bool of any number as 1 and a NaN as a quiet one, and the bodies
of submessages by the induction on their depth. That the second trip
changes nothing is then the idempotence of the normal form, and that it
can be made at all is the bound on its size and its depth.
-/
import Lwpb.Proofs.Python.Contents
import Lwpb.Proofs.Python.DictRoundTrip
import Lwpb.Proofs.Python.Normal

namespace Lwpb

-- ==================================================================== lengths

/-- A value of the type whose length is an `int`. -/
def Value.InInt (v : Value Bytes) (typ : FieldType) : Prop :=
  v.OfType typ ∧ ∀ s, v = .string s ∨ v = .bytes s → s.length < 2 ^ 31

variable {sch : Schema} {m : MsgRef} {desc : FieldDesc} {t : Tree}

/-- A string of a message shorter than `2 ^ 31` bytes is short enough for an
`int`. -/
theorem Value.inInt_of_payload {v : Value Bytes} {typ : FieldType}
    (hv : v.OfType typ) (hlen : (v.payload typ).bytes.length < 2 ^ 31) :
    v.InInt typ := by
  refine ⟨hv, fun s hs => ?_⟩
  rcases hs with rfl | rfl
  all_goals
    simp only [payload, Payload.bytes, List.length_append] at hlen
    omega

/-- A message that is short enough has short values. -/
theorem Tree.Typed.inInt (ht : t.Typed Value.OfType sch m)
    (hsize : t.size sch < 2 ^ 31) : t.Typed Value.InInt sch m := by
  induction t generalizing m with
  | nil => trivial
  | scalar f v rest ih =>
      obtain ⟨hf, hrun, hv, hrest⟩ := ht
      rw [size_scalar, FieldDesc.item] at hsize
      exact ⟨hf, hrun, Value.inInt_of_payload hv (by omega),
        ih hrest (by omega)⟩
  | message f body rest ihb ihr =>
      obtain ⟨hf, hmsg, hdesc, hbody, hrest⟩ := ht
      rw [size_message, FieldDesc.frame] at hsize
      exact ⟨hf, hmsg, hdesc, ihb hbody (by omega), ihr hrest (by omega)⟩
  | packed f elems rest ih =>
      obtain ⟨hf, hrun, hv, hrest⟩ := ht
      rw [size_packed, FieldDesc.frame] at hsize
      refine ⟨hf, hrun, fun v hmem => ?_, ih hrest (by omega)⟩
      have hle := @FieldDesc.elem_le_run (sch.field f) _ _ hmem
      exact Value.inInt_of_payload (hv v hmem) (by omega)

/-- Submessages that are left are of a descriptor. -/
theorem Tree.Typed.described {kind : Value Bytes → FieldType → Prop}
    (hnames : sch.DistinctNames) (hdesc : desc ∈ (sch.msg m).fields)
    (ht : t.Typed kind sch m) (hsome : t.keptBodies sch desc ≠ []) :
    ∃ m', desc.msgDesc = some m' := by
  have hbodies : t.bodiesNamed sch desc.name ≠ [] := by
    intro hnone
    apply hsome
    rw [Tree.keptBodies, hnone, if_pos (.inr rfl)]
  clear hsome
  induction t with
  | nil => exact absurd rfl hbodies
  | scalar f v rest ih => exact ih ht.2.2.2 hbodies
  | packed f elems rest ih => exact ih ht.2.2.2 hbodies
  | message f body rest ihb ihr =>
      obtain ⟨hf, -, hsub, -, hrest⟩ := ht
      by_cases hname : (sch.field f).name = desc.name
      · rwa [Python.field_of_name hnames hdesc hf hname] at hsub
      · rw [bodiesNamed, if_neg hname] at hbodies
        exact ihr hrest hbodies

end Lwpb

namespace Lwpb.Python

-- ===================================================================== values

section

variable {py : PythonApi} {new : PythonNew} {value : Nat → Scalar}
  {typ : FieldType} {v : Value Bytes}

/-- A number of 32 bits comes back by way of a `long`. -/
theorem Lawful.setInt32 (hlaw : Lawful py new value) (v : Int32)
    (p : RawValue) : ∃ w : UInt32, w.toInt32 = v ∧
      Python.setLong py p (.other (new.intFromLong v.toInt64)) (-0x80000000)
        0x7fffffff = .ok (p.set32 w, none) := by
  have hid := hlaw.intFromLong v.toInt64
  rw [Int32.toInt_toInt64] at hid
  obtain ⟨long, hint, hset⟩ := hlaw.setLong (p := p) hid
    (show (-0x80000000 : Int64).toInt ≤ v.toInt from v.le_toInt)
    (show v.toInt ≤ (0x7fffffff : Int64).toInt from
      Int.le_of_lt_add_one v.toInt_lt)
  refine ⟨_, ?_, hset⟩
  apply Int32.toInt_inj.mp
  rw [low_toInt (hint ▸ v.le_toInt) (hint ▸ v.toInt_lt), hint]

/-- A value that was converted to Python converts back, as it settles. -/
theorem toPy_settled (hlaw : Lawful py new value)
    (hlong : typ.isLong = false) (hv : v.InInt typ) (p : RawValue) :
    ∃ q, pyToLwpb py p (toPy new v typ) typ = .ok (q, none) ∧
      member typ q = v.settled := by
  obtain ⟨hv, hlen⟩ := hv
  cases v with
  | double b =>
      cases hv
      exact ⟨_, hlaw.setFloating (hlaw.floatFromDouble b) _ _, rfl⟩
  | float b =>
      cases hv
      refine ⟨_, hlaw.setFloating (hlaw.floatFromDouble _) _
        fun bits => p.set32 (doubleToFloat bits), ?_⟩
      unfold member
      rw [low32]
      rfl
  | int32 v =>
      obtain ⟨w, hw, hset⟩ := hlaw.setInt32 v p
      rcases hv with rfl | rfl | rfl
      all_goals
        refine ⟨_, hset, ?_⟩
        unfold member
        rw [low32, hw]
        rfl
  | enum v =>
      cases hv
      obtain ⟨w, hw, hset⟩ := hlaw.setInt32 v p
      refine ⟨_, hset, ?_⟩
      unfold member
      rw [low32, hw]
      rfl
  | int64 v => rcases hv with rfl | rfl | rfl <;> cases hlong
  | uint32 v =>
      have hid : ∃ id, toPy new (.uint32 v) typ = .other id ∧
          value id = .int v.toNat := by
        rcases hv with rfl | rfl
        · refine ⟨_, rfl, ?_⟩
          rw [hlaw.longFromUnsignedLong, UInt32.toNat_toUInt64]
        · refine ⟨_, rfl, ?_⟩
          rw [hlaw.longFromLong, widened_toInt]
      obtain ⟨id, hpy, hid⟩ := hid
      have hlt := v.toNat_lt
      have hhi : (v.toNat : Int) < 2 ^ 32 := by omega
      obtain ⟨long, hint, hset⟩ := hlaw.setLong (p := p) hid
        (show (0 : Int64).toInt ≤ (v.toNat : Int) from Int.natCast_nonneg _)
        (show (v.toNat : Int) ≤ (0xffffffff : Int64).toInt from
          Int.le_of_lt_add_one hhi)
      have hlow : long.toUInt64.toUInt32 = v := by
        apply UInt32.toNat_inj.mp
        have hnat := @low_toNat long (by omega) (by omega)
        omega
      rw [hpy]
      rcases hv with rfl | rfl
      all_goals
        refine ⟨_, hset, ?_⟩
        unfold member
        rw [low32, hlow]
        rfl
  | uint64 v =>
      have hid : ∃ id, toPy new (.uint64 v) typ = .other id ∧
          value id = .int v.toNat := by
        rcases hv with rfl | rfl
        all_goals exact ⟨_, rfl, hlaw.longFromUnsignedLongLong v⟩
      obtain ⟨id, hpy, hid⟩ := hid
      have hlt := v.toNat_lt
      obtain ⟨o, ho, hread⟩ := hlaw.unsignedLongLong id _ hid
        (Int.natCast_nonneg _) (by omega)
      rw [Int.toNat_natCast, UInt64.ofNat_toNat] at hread
      rw [hpy]
      rcases hv with rfl | rfl
      all_goals
        refine ⟨p.set64 v, ?_, rfl⟩
        unfold pyToLwpb
        simp only [ho, hread]
  | bool v =>
      cases hv
      refine ⟨_, rfl, ?_⟩
      unfold member
      rw [low32]
      by_cases h : v = 0
      · subst h
        rfl
      · simp [Value.settled, h]
  | string s =>
      obtain ⟨rfl, -⟩ := hv
      obtain ⟨addr, haddr⟩ := hlaw.string _ _
        (hlaw.stringFromStringAndSize s)
      refine ⟨setPyString p addr s, ?_, ?_⟩
      · unfold pyToLwpb toPy lwpbToPy
        simp only [haddr]
      · exact congrArg Value.string
          (stringOf_setPyString (hlen s (.inl rfl)))
  | bytes s =>
      obtain ⟨rfl, -⟩ := hv
      obtain ⟨addr, haddr⟩ := hlaw.string _ _
        (hlaw.stringFromStringAndSize s)
      refine ⟨setPyString p addr s, ?_, ?_⟩
      · unfold pyToLwpb toPy lwpbToPy
        simp only [haddr]
      · exact congrArg Value.bytes
          (stringOf_setPyString (hlen s (.inr rfl)))

/-- The object of a value converts back to it, settled. -/
theorem toPy_converts (hlaw : Lawful py new value)
    (hlong : typ.isLong = false) (hv : v.InInt typ) :
    Converts py typ (toPy new v typ) v.settled := by
  obtain ⟨q, hq, hmember⟩ := toPy_settled hlaw hlong hv
    ⟨0, .ext fun _ => 0, 0⟩
  exact ⟨_, q, none, hq, hmember⟩

/-- It is a value of its type. -/
theorem toPy_isValue (hlaw : Lawful py new value) (hv : v.InInt typ) :
    IsValue value typ (toPy new v typ) := by
  obtain ⟨hv, hlen⟩ := hv
  cases v with
  | double b =>
      cases hv
      show InRange .double (value _)
      rw [hlaw.floatFromDouble]
      trivial
  | float b =>
      cases hv
      show InRange .float (value _)
      rw [hlaw.floatFromDouble]
      exact widened_back b
  | int32 v =>
      rcases hv with rfl | rfl | rfl
      all_goals
        show InRange _ (value (new.intFromLong v.toInt64))
        rw [hlaw.intFromLong, Int32.toInt_toInt64]
        exact ⟨v.le_toInt, v.toInt_lt⟩
  | enum v =>
      cases hv
      show InRange _ (value (new.intFromLong v.toInt64))
      rw [hlaw.intFromLong, Int32.toInt_toInt64]
      exact ⟨v.le_toInt, v.toInt_lt⟩
  | int64 v =>
      rcases hv with rfl | rfl | rfl
      all_goals
        show InRange _ (value (new.longFromLongLong v))
        rw [hlaw.longFromLongLong]
        exact ⟨v.le_toInt, v.toInt_lt⟩
  | uint32 v =>
      have hlt := v.toNat_lt
      rcases hv with rfl | rfl
      · show InRange _ (value (new.longFromUnsignedLong v.toUInt64))
        rw [hlaw.longFromUnsignedLong, UInt32.toNat_toUInt64]
        exact ⟨Int.natCast_nonneg _, by omega⟩
      · show InRange _ (value (new.longFromLong v.toUInt64.toInt64))
        rw [hlaw.longFromLong, widened_toInt]
        exact ⟨Int.natCast_nonneg _, by omega⟩
  | uint64 v =>
      have hlt := v.toNat_lt
      rcases hv with rfl | rfl
      all_goals
        show InRange _ (value (new.longFromUnsignedLongLong v))
        rw [hlaw.longFromUnsignedLongLong]
        exact ⟨Int.natCast_nonneg _, by omega⟩
  | bool v =>
      cases hv
      rfl
  | string s =>
      obtain ⟨rfl, -⟩ := hv
      show InRange _ (value (new.stringFromStringAndSize s))
      rw [hlaw.stringFromStringAndSize]
      exact hlen s (.inl rfl)
  | bytes s =>
      obtain ⟨rfl, -⟩ := hv
      show InRange _ (value (new.stringFromStringAndSize s))
      rw [hlaw.stringFromStringAndSize]
      exact hlen s (.inr rfl)

end

-- ==================================================================== objects

/-- The objects that a message leaves under a field. -/
def objects (new : PythonNew) (sch : Schema) (desc : FieldDesc) (t : Tree) :
    List PyObject :=
  if desc.opts.typ = .message then
    (t.keptBodies sch desc).map fun body => .dict (body.fill new sch [])
  else (t.keptValues sch desc).map (toPy new · desc.opts.typ)

/-- What is held under a field that has these objects. -/
def heldOf (desc : FieldDesc) (objs : List PyObject) : Option PyObject :=
  if desc.opts.label = .repeated then
    if objs = [] then none else some (.list objs)
  else objs.head?

section

variable {new : PythonNew} {sch : Schema} {m : MsgRef} {desc : FieldDesc}
  {t : Tree} {top : Items} {acc : List PyObject} {name : String}

/-- Elements stored one after another stand in the list in that order. -/
theorem elems_listed {elems : List (Value Bytes)}
    (hrep : desc.opts.label = .repeated) (h : Listed desc acc top) :
    Listed desc (acc ++ elems.map (toPy new · desc.opts.typ))
      (elems.foldl (fun top v => store desc (toPy new v desc.opts.typ) top)
        top) := by
  induction elems generalizing acc top with
  | nil =>
      rw [List.map_nil, List.append_nil]
      exact h
  | cons v elems ih =>
      rw [List.map_cons, List.append_cons]
      exact ih (store_listed hrep h)

/-- Names of no field are not stored. -/
theorem fill_others (ht : t.Typed Value.OfType sch m)
    (hname : ∀ desc ∈ (sch.msg m).fields, name ≠ desc.name) :
    (t.fill new sch top).lookup name = top.lookup name := by
  induction t generalizing top with
  | nil => rfl
  | scalar f v rest ih =>
      rw [Tree.fill, ih ht.2.2.2, store_apart _ (hname _ ht.1.mem)]
  | message f body rest ihb ihr =>
      rw [Tree.fill, ihr ht.2.2.2.2, store_apart _ (hname _ ht.1.mem)]
  | packed f elems rest ih =>
      rw [Tree.fill, ih ht.2.2.2, elems_apart _ (hname _ ht.1.mem)]

variable (hnames : sch.DistinctNames) (hdesc : desc ∈ (sch.msg m).fields)
include hnames hdesc

/-- A repeated field that is no message holds all its values. -/
theorem lookup_values (hrep : desc.opts.label = .repeated)
    (htyp : desc.opts.typ ≠ .message) (ht : t.Typed Value.OfType sch m)
    (htop : Listed desc acc top) :
    Listed desc (acc ++ (t.valuesNamed sch desc.name).map
      (toPy new · desc.opts.typ)) (t.fill new sch top) := by
  induction t generalizing top acc with
  | nil =>
      rw [Tree.valuesNamed, List.map_nil, List.append_nil]
      exact htop
  | scalar f v rest ih =>
      obtain ⟨hf, -, -, hrest⟩ := ht
      rw [Tree.valuesNamed, Tree.fill]
      by_cases hname : (sch.field f).name = desc.name
      · rw [if_pos hname, List.map_cons, List.append_cons,
          field_of_name hnames hdesc hf hname]
        exact ih hrest (store_listed hrep htop)
      · rw [if_neg hname]
        exact ih hrest ((store_apart _ (Ne.symm hname)).trans htop)
  | message f body rest ihb ihr =>
      obtain ⟨hf, hmsg, -, -, hrest⟩ := ht
      have hname : (sch.field f).name ≠ desc.name := fun hname =>
        htyp (field_of_name hnames hdesc hf hname ▸ hmsg)
      exact ihr hrest ((store_apart _ (Ne.symm hname)).trans htop)
  | packed f elems rest ih =>
      obtain ⟨hf, -, -, hrest⟩ := ht
      rw [Tree.valuesNamed, Tree.fill]
      by_cases hname : (sch.field f).name = desc.name
      · rw [if_pos hname, List.map_append, ← List.append_assoc,
          field_of_name hnames hdesc hf hname]
        exact ih hrest (elems_listed hrep htop)
      · rw [if_neg hname]
        exact ih hrest ((elems_apart _ (Ne.symm hname)).trans htop)

/-- What a message leaves under a field. -/
theorem lookup_fill (ht : t.Typed Value.OfType sch m) :
    (t.fill new sch []).lookup desc.name
      = heldOf desc (objects new sch desc t) := by
  have hempty : Listed desc [] [] := rfl
  unfold heldOf objects
  by_cases hmsg : desc.opts.typ = .message
  · rw [if_pos hmsg]
    by_cases hrep : desc.opts.label = .repeated
    · have hall : t.keptBodies sch desc = t.bodiesNamed sch desc.name := by
        rw [Tree.keptBodies, if_pos (.inl hrep)]
      rw [if_pos hrep, hall]
      exact lookup_messages hnames hdesc hrep hmsg ht hempty
    · rw [if_neg hrep, lookup_merged hnames hdesc hrep hmsg ht,
        Tree.keptBodies]
      by_cases hnone : t.bodiesNamed sch desc.name = []
      · rw [if_pos hnone, if_pos (.inr hnone), hnone]
        rfl
      · have hchild : childOf desc [] = [] := by
          rw [childOf, if_neg hrep]
          rfl
        rw [if_neg hnone, if_neg (not_or.mpr ⟨hrep, hnone⟩), hchild]
        rfl
  · rw [if_neg hmsg]
    by_cases hrep : desc.opts.label = .repeated
    · have hall : t.keptValues sch desc = t.valuesNamed sch desc.name := by
        rw [Tree.keptValues, if_pos hrep]
      rw [if_pos hrep, hall]
      exact lookup_values hnames hdesc hrep hmsg ht hempty
    · rw [if_neg hrep, lookup_single hnames hdesc hrep hmsg ht,
        Tree.keptValues, if_neg hrep]
      cases t.lastNamed sch desc.name <;> rfl

omit hnames hdesc in
/-- No object that is left is a list. -/
theorem objects_not_list (hv : ∀ v ∈ t.keptValues sch desc,
      v.OfType desc.opts.typ) :
    ∀ obj ∈ objects new sch desc t, ∀ elems, obj ≠ .list elems := by
  intro obj hobj elems heq
  unfold objects at hobj
  split at hobj
  · obtain ⟨body, -, rfl⟩ := List.mem_map.mp hobj
    cases heq
  · obtain ⟨v, hmem, rfl⟩ := List.mem_map.mp hobj
    have hscalar := (lwpbToPy_ofType new (hv v hmem)).2
    rw [heq] at hscalar
    cases hscalar

omit hnames hdesc in
/-- There is one at most unless the field is repeated. -/
theorem objects_single (hrep : desc.opts.label ≠ .repeated) :
    (objects new sch desc t).length ≤ 1 := by
  unfold objects
  split
  · rw [List.length_map, Tree.keptBodies]
    split
    · rename_i h
      rw [h.resolve_left hrep]
      exact Nat.zero_le 1
    · exact Nat.le_refl 1
  · rw [List.length_map, Tree.keptValues, if_neg hrep]
    cases t.lastNamed sch desc.name with
    | none => exact Nat.zero_le 1
    | some v => exact Nat.le_refl 1

/-- What is held under a field, and its objects. -/
structure Left (desc : FieldDesc) (objs : List PyObject) (held : PyObject) :
    Prop where
  values : held.values = objs
  list : desc.opts.label = .repeated →
    ∃ elems, held = .list elems ∧ elems ≠ []
  single : desc.opts.label ≠ .repeated → ∀ elems, held ≠ .list elems

/-- What decoding leaves under a name are the objects of the field. -/
theorem fill_left (ht : t.Typed Value.OfType sch m) {held : PyObject}
    (h : (t.fill new sch []).lookup desc.name = some held) :
    Left desc (objects new sch desc t) held := by
  rw [lookup_fill hnames hdesc ht, heldOf] at h
  by_cases hrep : desc.opts.label = .repeated
  · rw [if_pos hrep] at h
    split at h
    · cases h
    · cases h
      exact ⟨rfl, fun _ => ⟨_, rfl, ‹_›⟩, fun hno => absurd hrep hno⟩
  · rw [if_neg hrep] at h
    have hone := @objects_single new sch desc t hrep
    have hlists := @objects_not_list new sch desc t
      (ht.keptValues hnames hdesc)
    obtain ⟨rest, hobjs⟩ := List.head?_eq_some_iff.mp h
    rw [hobjs, List.length_cons] at hone
    have hrest : rest = [] := List.eq_nil_of_length_eq_zero (by omega)
    subst hrest
    have hnot := hlists held (hobjs ▸ List.mem_cons_self)
    refine ⟨?_, fun hyes => absurd hyes hrep, fun _ => hnot⟩
    rw [hobjs]
    cases held with
    | list elems => exact absurd rfl (hnot elems)
    | dict items | bool b | other id => rfl

/-- If it leaves nothing there, the field has no objects. -/
theorem fill_left_none (ht : t.Typed Value.OfType sch m)
    (h : (t.fill new sch []).lookup desc.name = none) :
    objects new sch desc t = [] := by
  rw [lookup_fill hnames hdesc ht, heldOf] at h
  split at h
  · split at h
    · assumption
    · cases h
  · exact List.head?_eq_none_iff.mp h

end

-- ================================================================== canonical

section

variable {py : PythonApi} {new : PythonNew} {value : Nat → Scalar}
  {sch : Schema} {m : MsgRef} {desc : FieldDesc} {t : Tree}
  {spelled spelled' : PyObject → MsgRef → Tree → Prop}

/-- A decoded dict is canonical. -/
theorem fill_canonical (hlaw : Lawful py new value)
    (hnames : sch.DistinctNames) {depth : Nat} (hdepth : t.nesting ≤ depth)
    (ht : t.Typed Value.InInt sch m) :
    Canonical value sch m (.dict (t.fill new sch [])) := by
  induction depth generalizing m t with
  | zero => exact absurd (t.nesting_pos.trans hdepth) (by omega)
  | succ depth ih =>
      have hof : t.Typed Value.OfType sch m := ht.mono fun _ _ => And.left
      have hvalues : ∀ desc ∈ (sch.msg m).fields, ∀ held,
          (t.fill new sch []).lookup desc.name = some held →
          held.values = objects new sch desc t :=
        fun desc hdesc held hheld => (fill_left hnames hdesc hof hheld).values
      refine .dict ?_ ?_ ?_ ?_ ?_ ?_
      · intro name hname
        by_contra hnone
        refine hname (fill_others hof fun desc hdesc heq => ?_)
        exact hnone ⟨desc, hdesc, heq.symm⟩
      · exact fun desc hdesc hrep held hheld =>
          (fill_left hnames hdesc hof hheld).list hrep
      · exact fun desc hdesc hrep held hheld =>
          (fill_left hnames hdesc hof hheld).single hrep
      · intro desc hdesc hmsg held hheld pyval hpyval
        rw [hvalues desc hdesc held hheld, objects, if_neg hmsg] at hpyval
        obtain ⟨v, hv, rfl⟩ := List.mem_map.mp hpyval
        exact toPy_isValue hlaw (ht.keptValues hnames hdesc v hv)
      · intro desc hdesc hmsg hsome
        rw [lookup_fill hnames hdesc hof] at hsome
        have hbodies : t.keptBodies sch desc ≠ [] := by
          intro hnone
          apply hsome
          rw [objects, if_pos hmsg, hnone, heldOf]
          split <;> rfl
        obtain ⟨m', hm'⟩ := ht.described hnames hdesc hbodies
        rw [hm']
        exact Option.some_ne_none m'
      · intro desc hdesc hmsg held hheld pyval hpyval m' hm'
        rw [hvalues desc hdesc held hheld, objects, if_pos hmsg] at hpyval
        obtain ⟨body, hbody, rfl⟩ := List.mem_map.mp hpyval
        have htyped := ht.keptBodies hnames hdesc body hbody
        rw [hm'] at htyped
        have hless := Tree.nesting_kept body hbody
        exact ih (by omega) htyped

-- =================================================================== spelling

/-- The objects of plain values spell them, settled. -/
theorem spells_scalars {f : FieldRef} {vs : List (Value Bytes)}
    (hmsg : desc.opts.typ ≠ .message)
    (h : ∀ v ∈ vs, Converts py desc.opts.typ (toPy new v desc.opts.typ)
      v.settled) :
    SpellsValues py spelled f desc (vs.map (toPy new · desc.opts.typ))
      (.scalars f (vs.map Value.settled)) := by
  induction vs with
  | nil => rfl
  | cons v vs ih =>
      obtain ⟨hv, hvs⟩ := List.forall_mem_cons.mp h
      refine ⟨_, ih hvs, ?_⟩
      rw [if_neg hmsg]
      exact ⟨_, hv, rfl⟩

/-- So do the objects of a run. -/
theorem spells_run {vs : List (Value Bytes)}
    (h : ∀ v ∈ vs, Converts py desc.opts.typ (toPy new v desc.opts.typ)
      v.settled) :
    List.Forall₂ (Converts py desc.opts.typ)
      (vs.map (toPy new · desc.opts.typ)) (vs.map Value.settled) := by
  induction vs with
  | nil => exact .nil
  | cons v vs ih =>
      obtain ⟨hv, hvs⟩ := List.forall_mem_cons.mp h
      exact .cons hv (ih hvs)

/-- And those of submessages, if the contents do. -/
theorem spells_messages {f : FieldRef} {m' : MsgRef} {bodies : List Tree}
    {g : Tree → Tree} (hmsg : desc.opts.typ = .message)
    (hm' : desc.msgDesc = some m')
    (h : ∀ body ∈ bodies,
      spelled (.dict (body.fill new sch [])) m' (g body)) :
    SpellsValues py spelled f desc
      (bodies.map fun body => .dict (body.fill new sch []))
      (.messages f (bodies.map g)) := by
  induction bodies with
  | nil => rfl
  | cons body bodies ih =>
      obtain ⟨hbody, hbodies⟩ := List.forall_mem_cons.mp h
      refine ⟨_, ih hbodies, ?_⟩
      rw [if_pos hmsg]
      exact ⟨m', _, hm', hbody, rfl⟩

/-- What is held under a field is what is left of it. -/
theorem spells_normalField (hlaw : Lawful py new value)
    (hnames : sch.DistinctNames) (hno : sch.NoLong)
    (hpacked : sch.PackedNumeric) (hdesc : desc ∈ (sch.msg m).fields)
    (ht : t.Typed Value.InInt sch m) {nested : MsgRef → Tree → Tree}
    (hnested : ∀ m', desc.msgDesc = some m' → ∀ body ∈ t.keptBodies sch desc,
      spelled (.dict (body.fill new sch [])) m' (nested m' body))
    {held : PyObject} (hvalues : held.values = objects new sch desc t)
    (hsome : objects new sch desc t ≠ []) (f : FieldRef) :
    SpellsField py spelled f desc held (t.normalField sch nested f desc) := by
  unfold SpellsField Tree.normalField
  rw [hvalues]
  unfold objects at hsome ⊢
  by_cases hmsg : desc.opts.typ = .message
  · have hrun : ¬ desc.isPackedRepeated = true := by
      intro hrun
      have hnum := isNumeric_of_mem hpacked hdesc hrun
      rw [hmsg] at hnum
      cases hnum
    rw [if_pos hmsg] at hsome ⊢
    obtain ⟨m', hm'⟩ := ht.described hnames hdesc
      fun hnone => hsome (by rw [hnone]; rfl)
    rw [if_neg hrun, if_pos hmsg, hm']
    exact spells_messages hmsg hm' (hnested m' hm')
  · have hconv : ∀ v ∈ t.keptValues sch desc, Converts py desc.opts.typ
        (toPy new v desc.opts.typ) v.settled := fun v hv =>
      toPy_converts hlaw (isLong_of_mem hno hdesc)
        (ht.keptValues hnames hdesc v hv)
    rw [if_neg hmsg] at hsome ⊢
    rw [if_neg hmsg]
    have hvs : (t.keptValues sch desc).map Value.settled ≠ [] := by
      intro hnone
      rw [List.map_eq_nil_iff] at hnone
      exact hsome (by rw [hnone]; rfl)
    by_cases hrun : desc.isPackedRepeated = true
    · simp only
      rw [if_pos hrun, if_pos ⟨hrun, hvs⟩]
      exact ⟨_, spells_run hconv, rfl⟩
    · simp only
      rw [if_neg hrun, if_neg fun h => hrun h.1]
      exact spells_scalars hmsg hconv

/-- Nothing is left of a field that holds nothing. -/
theorem normalField_none {nested : MsgRef → Tree → Tree} {f : FieldRef}
    (hnone : objects new sch desc t = []) :
    t.normalField sch nested f desc = .nil := by
  unfold objects at hnone
  unfold Tree.normalField
  split
  · rw [if_pos ‹_›, List.map_eq_nil_iff] at hnone
    rw [hnone]
    rfl
  · rw [if_neg ‹_›, List.map_eq_nil_iff] at hnone
    rw [hnone]
    exact if_neg fun h => h.2 rfl

/-- The dict of a message spells its normal form. -/
theorem fill_spells (hlaw : Lawful py new value)
    (hnames : sch.DistinctNames) (hno : sch.NoLong)
    (hpacked : sch.PackedNumeric) {depth : Nat} (hdepth : t.nesting ≤ depth)
    (ht : t.Typed Value.InInt sch m) :
    SpellsObject py sch depth (.dict (t.fill new sch [])) m
      (t.normal sch depth m) := by
  induction depth generalizing m t with
  | zero => exact absurd (t.nesting_pos.trans hdepth) (by omega)
  | succ depth ih =>
      have hof : t.Typed Value.OfType sch m := ht.mono fun _ _ => And.left
      refine fields_induct (P := fun i fields =>
        SpellsFields py (SpellsObject py sch depth) m (t.fill new sch [])
          i fields (t.normalFields sch (Tree.normal sch depth) m i fields))
        (fun _ => rfl) fun i desc fields hat hrest => ?_
      unfold SpellsFields
      cases hheld : (t.fill new sch []).lookup desc.name with
      | none =>
          have hnone := fill_left_none hnames hat.mem hof hheld
          rw [Tree.normalFields, normalField_none hnone]
          exact hrest
      | some held =>
          have hleft := fill_left hnames hat.mem hof hheld
          refine ⟨_, _, spells_normalField hlaw hnames hno hpacked
            hat.mem ht (fun m' hm' body hbody => ?_) hleft.values ?_ _,
            hrest, rfl⟩
          · have htyped := ht.keptBodies hnames hat.mem body hbody
            rw [hm'] at htyped
            have hless := Tree.nesting_kept body hbody
            exact ih (by omega) htyped
          · intro hnone
            rw [lookup_fill hnames hat.mem hof, hnone, heldOf] at hheld
            split at hheld <;> cases hheld

/-- Spelling does not lose by more spellings of the messages inside. -/
theorem SpellsValues.mono {f : FieldRef} {values : List PyObject}
    (hspelled : ∀ obj m t, spelled obj m t → spelled' obj m t)
    (h : SpellsValues py spelled f desc values t) :
    SpellsValues py spelled' f desc values t := by
  induction values generalizing t with
  | nil => exact h
  | cons pyval values ih =>
      obtain ⟨rest, hrest, hone⟩ := h
      refine ⟨rest, ih hrest, ?_⟩
      split at hone
      · obtain ⟨m', body, hm', hbody, rfl⟩ := hone
        rw [if_pos ‹_›]
        exact ⟨m', body, hm', hspelled _ _ _ hbody, rfl⟩
      · rw [if_neg ‹_›]
        exact hone

/-- The same for the fields of a dict. -/
theorem SpellsFields.mono {items : Items} {fields : List FieldDesc}
    {i : Nat} (hspelled : ∀ obj m t, spelled obj m t → spelled' obj m t)
    (h : SpellsFields py spelled m items i fields t) :
    SpellsFields py spelled' m items i fields t := by
  induction fields generalizing i t with
  | nil => exact h
  | cons desc fields ih =>
      unfold SpellsFields at h ⊢
      cases hheld : items.lookup desc.name with
      | none =>
          rw [hheld] at h
          exact ih h
      | some held =>
          rw [hheld] at h
          obtain ⟨first, rest, hfirst, hrest, heq⟩ := h
          refine ⟨first, rest, ?_, ih hrest, heq⟩
          unfold SpellsField at hfirst ⊢
          split at hfirst
          · rw [if_pos ‹_›]
            exact hfirst
          · rw [if_neg ‹_›]
            exact hfirst.mono hspelled

/-- More room for nesting makes no difference. -/
theorem spellsObject_mono {obj : PyObject} {depth depth' : Nat}
    (hle : depth ≤ depth') (h : SpellsObject py sch depth obj m t) :
    SpellsObject py sch depth' obj m t := by
  induction depth generalizing depth' obj m t with
  | zero => exact h.elim
  | succ depth ih =>
      obtain ⟨depth', rfl⟩ := Nat.exists_eq_add_of_le hle
      cases obj with
      | dict items =>
          rw [Nat.add_right_comm]
          exact SpellsFields.mono (fun _ _ _ => ih (Nat.le_add_right _ _)) h
      | list elems | bool b | other id => exact h.elim

/-- The dict of a message is its normal form. -/
theorem fill_spelled (hlaw : Lawful py new value)
    (hnames : sch.DistinctNames) (hno : sch.NoLong)
    (hpacked : sch.PackedNumeric) {depth : Nat} (hdepth : t.nesting ≤ depth)
    (ht : t.Typed Value.InInt sch m) :
    Spells py sch (.dict (t.fill new sch [])) m (t.normal sch depth m) := by
  obtain ⟨t', ht'⟩ := canonical_spells hlaw hno hpacked
    (fill_canonical hlaw hnames hdepth ht) (Nat.le_refl _)
  have hspells := fill_spells hlaw hnames hno hpacked hdepth ht
  have heq := spellsObject_unique hno _ _ _ _ _
    (spellsObject_mono (Nat.le_max_left _ _) ht')
    (spellsObject_mono (Nat.le_max_right _ _) hspells)
  exact heq ▸ ht'

/-- The dict of a message is encoded as its normal form. -/
theorem encode_fill {garbage : Nat → Scratch} {calloc : UInt64 → Option Nat}
    {msgnum : UInt32} (hlaw : Lawful py new value)
    (hm : msgnum.toNat < sch.msgs.length) (hnames : sch.DistinctNames)
    (hnum : sch.SmallNumbers) (hpacked : sch.PackedNumeric)
    (hno : sch.NoLong) {depth : Nat} (hdepth : t.nesting ≤ depth)
    (ht : t.Typed Value.OfType sch msgnum.toNat)
    (hsize : t.size sch < 2 ^ 31) (hcalloc : ∀ n, calloc n ≠ none) :
    encoderEncode py sch garbage calloc (t.fill new sch []) msgnum
      = .string ((t.normal sch depth msgnum.toNat).wire sch).bytes none := by
  have hint := ht.inInt hsize
  have hspells := @fill_spelled py new value sch msgnum.toNat t hlaw hnames
    hno hpacked depth hdepth hint
  have hle := (Tree.normal_le hnames depth ht).1
  unfold Tree.size at hle hsize
  have hbrief : Brief
      ((t.normal sch depth msgnum.toNat).wire sch).bytes := by
    unfold Brief
    omega
  rcases @encoderEncode_spells py sch _ _ garbage calloc msgnum hm hnum
    hpacked hno hspells hbrief hcalloc with
    ⟨-, pending, hstring⟩ | ⟨hlong, -⟩
  · rw [hstring, encoderEncode_calm hlaw hno
      (fill_canonical hlaw hnames hdepth hint) hstring]
  · exact absurd (spells_short hpacked hspells (by omega)) hlong

end

-- ================================================================ two trips

/-- The protocol buffer that a protocol buffer of descriptor `m` comes out
as. -/
def settledBytes (sch : Schema) (m : MsgRef) (w : Wire) : Bytes :=
  (((w.contents sch).normal sch (w.contents sch).nesting m).wire sch).bytes

/-- A protocol buffer is decoded, and comes out as the normal form of what
it says; this is decoded to an equal dict, and comes out as it is. -/
theorem transcoding_settles (py : PythonApi) (new : PythonNew)
    (value : Nat → Scalar) (sch : Schema) (msgnum : UInt32)
    (garbage : Nat → Scratch) (calloc : UInt64 → Option Nat) (w : Wire)
    (hlaw : Lawful py new value) (hm : msgnum.toNat < sch.msgs.length)
    (hnames : sch.DistinctNames) (hdistinct : sch.Distinct)
    (hnum : sch.SmallNumbers) (hpacked : sch.PackedNumeric)
    (hno : sch.NoLong) (hw : w.WellFormed sch typed msgnum.toNat)
    (hlead : w.Leading sch false msgnum.toNat)
    (hlen : w.bytes.length < 2 ^ 31)
    (hdepth : (w.contents sch).nesting ≤ maxDepth)
    (hsize : (w.contents sch).size sch < 2 ^ 31)
    (hcalloc : ∀ n, calloc n ≠ none) :
    ∃ items items',
      (∀ uninit, decoderDecode new sch uninit w.bytes msgnum
        = .dict items none) ∧
      encoderEncode py sch garbage calloc items msgnum
        = .string (settledBytes sch msgnum.toNat w) none ∧
      (settledBytes sch msgnum.toNat w).length ≤ (w.contents sch).size sch ∧
      (∀ uninit, decoderDecode new sch uninit
        (settledBytes sch msgnum.toNat w) msgnum = .dict items' none) ∧
      Same value (.dict items) (.dict items') ∧
      encoderEncode py sch garbage calloc items' msgnum
        = .string (settledBytes sch msgnum.toNat w) none := by
  have ht := Wire.contents_typed hnum hw
  have hfirst := fun uninit => @decoderDecode_wire new sch w msgnum uninit hm
    hnames hnum hw hlead ((w.nesting_contents sch).trans hdepth) hlen
  unfold settledBytes
  generalize w.contents sch = t at *
  obtain ⟨hle, hdeep⟩ := Tree.normal_le hnames t.nesting ht
  have hspells := @fill_spelled py new value sch msgnum.toNat t hlaw hnames
    hno hpacked t.nesting (Nat.le_refl _) (ht.inInt hsize)
  have htyped := spellsObject_typed hnum hspells
  refine ⟨t.fill new sch [],
    (t.normal sch t.nesting msgnum.toNat).fill new sch [],
    hfirst, ?_, hle, fun uninit => ?_, ?_, ?_⟩
  · exact encode_fill hlaw hm hnames hnum hpacked hno (Nat.le_refl _) ht
      hsize hcalloc
  · exact decoderDecode_tree uninit hm hnames hdistinct hpacked htyped
      (hdeep.trans hdepth) (Nat.lt_of_le_of_lt hle hsize)
  · exact fill_same hlaw hnames hno hspells
      (fill_canonical hlaw hnames (Nat.le_refl _) (ht.inInt hsize))
  · have hagain := @encode_fill py new value sch _ garbage calloc msgnum
      hlaw hm hnames hnum hpacked hno _ hdeep htyped
      (Nat.lt_of_le_of_lt hle hsize) hcalloc
    rwa [Tree.normal_normal hnames] at hagain

/-- A number in a longer way, between two values of a packed field that come
by themselves, and an unknown field in front. -/
def spelledAnew : Wire :=
  .unknown [0x48] (.varint [0x01])
    (.scalar ⟨0, 2⟩ [0x18] (.varint [0xac, 0x02])
      (.scalar ⟨0, 0⟩ [0x08] (.varint [0x89, 0x00])
        (.scalar ⟨0, 2⟩ [0x98, 0x00] (.varint [0x01]) .nil)))

example : settledBytes sampleSchema 0 spelledAnew
    = [0x08, 0x09, 0x1a, 0x03, 0xac, 0x02, 0x01] := by
  decide +kernel

/-- The example is well formed: the elements of a packed field may come by
themselves, and a varint may be longer than it need be. -/
theorem spelledAnew_wellFormed :
    spelledAnew.WellFormed sampleSchema typed 0 := by
  refine ⟨⟨by decide, by decide⟩, by decide, by decide,
    ⟨by decide, by decide⟩, by decide, by decide, ?_,
    ⟨rfl, fun hstr => by cases hstr⟩,
    ⟨by decide, by decide⟩, by decide, by decide, ?_,
    ⟨rfl, fun hstr => by cases hstr⟩,
    ⟨by decide, by decide⟩, by decide, by decide, ?_,
    ⟨rfl, fun hstr => by cases hstr⟩, trivial⟩ <;>
  · intro h
    obtain ⟨hstr, -⟩ := h
    cases hstr

/-- Its normal form, and that it is reached after one trip. -/
theorem transcoding_settles_sample :
    ∃ items items',
      (∀ uninit, decoderDecode plainNew sampleSchema uninit spelledAnew.bytes 0
        = .dict items none) ∧
      encoderEncode plainPython sampleSchema noScratch (fun _ => some 4096)
        items 0
          = .string (settledBytes sampleSchema (0 : UInt32).toNat spelledAnew)
            none ∧
      (settledBytes sampleSchema (0 : UInt32).toNat spelledAnew).length
        ≤ (spelledAnew.contents sampleSchema).size sampleSchema ∧
      (∀ uninit, decoderDecode plainNew sampleSchema uninit
        (settledBytes sampleSchema (0 : UInt32).toNat spelledAnew) 0
          = .dict items' none) ∧
      Same plainValue (.dict items) (.dict items') ∧
      encoderEncode plainPython sampleSchema noScratch (fun _ => some 4096)
        items' 0
          = .string (settledBytes sampleSchema (0 : UInt32).toNat spelledAnew)
            none :=
  transcoding_settles plainPython plainNew plainValue sampleSchema 0 noScratch
    _ spelledAnew plain_lawful (by decide) (by decide) (by decide) (by decide)
    (by decide) (by decide) spelledAnew_wellFormed
    ⟨rfl, by decide, trivial⟩ (by decide) (by decide) (by decide +kernel)
    fun _ => Option.some_ne_none _

end Lwpb.Python
