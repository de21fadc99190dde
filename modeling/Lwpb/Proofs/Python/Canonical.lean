/-
Canonical dicts are messages, and come back.

In a lawful runtime a value in the range of its type converts to C with no
exception pending, and what is made of the result is the same scalar again
(`reads_back`). So a canonical dict spells a message (`canonical_spells`),
and the message fills an empty dict to an equal one (`fill_same`): the
fields of a descriptor have different names, so each fills its own.

For scalars there is one lemma a group of types (`reads_back_bool`,
`reads_back_float`, `reads_back_str`, `reads_back_int`), each following a
value through the union. For dicts there are two inductions over the
fields of the descriptor. Forwards, what is held under each field spells
its part of the message. Backwards, filling in that part changes nothing
under another name (`store_apart`) and leaves an equal value under its own
(`fill_field`), so that the dict grows field by field to an equal one
(`fill_fields`).
-/
import Lwpb.Proofs.Python.Dicts
import Lwpb.Proofs.Python.TwoPasses
import Lwpb.Python.Runtime

namespace Lwpb.Python

-- ================================================================= integers

/-- A signed number is the balanced residue of its word. -/
theorem toInt_bmod (x : Int64) :
    x.toInt = Int.bmod x.toUInt64.toNat (2 ^ 64) :=
  BitVec.toInt_eq_toNat_bmod x.toBitVec

/-- The lower half of a `long` is all of a small one. -/
theorem low_toInt {long : Int64} (hlo : -2 ^ 31 ≤ long.toInt)
    (hhi : long.toInt < 2 ^ 31) :
    long.toUInt64.toUInt32.toInt32.toInt = long.toInt := by
  have hlong := toInt_bmod long
  have hlow : long.toUInt64.toUInt32.toInt32.toInt
      = Int.bmod long.toUInt64.toUInt32.toNat (2 ^ 32) :=
    BitVec.toInt_eq_toNat_bmod long.toUInt64.toUInt32.toBitVec
  rw [UInt64.toNat_toUInt32] at hlow
  generalize long.toUInt64.toUInt32.toInt32.toInt = low at *
  generalize long.toInt = n at *
  generalize long.toUInt64.toNat = k at *
  norm_num [Int.bmod] at *
  omega

/-- The low half of a number of 32 bits is the number. -/
theorem low_toNat {long : Int64} (hlo : 0 ≤ long.toInt)
    (hhi : long.toInt < 2 ^ 32) :
    (long.toUInt64.toUInt32.toNat : Int) = long.toInt := by
  have hlong := toInt_bmod long
  have hlt := long.toUInt64.toNat_lt
  rw [UInt64.toNat_toUInt32]
  generalize long.toInt = n at *
  generalize long.toUInt64.toNat = k at *
  norm_num [Int.bmod] at *
  omega

/-- A word of 32 bits is widened to its number. -/
theorem widened_toInt (w : UInt32) : w.toUInt64.toInt64.toInt = w.toNat := by
  have h := toInt_bmod w.toUInt64.toInt64
  have hlt := w.toNat_lt
  rw [UInt64.toUInt64_toInt64, UInt32.toNat_toUInt64] at h
  rw [h]
  exact Int.bmod_eq_of_le (by omega) (by omega)

-- ================================================================== scalars

section

variable {py : PythonApi} {new : PythonNew} {value : Nat → Scalar}
  {typ : FieldType} {pyval : PyObject} {id : Nat} {p : RawValue}

/-- An integer in the range is put into the low half of the union. -/
theorem Lawful.setLong (hlaw : Lawful py new value) {n : Int}
    (hid : value id = .int n) {lo hi : Int64} (hlo : lo.toInt ≤ n)
    (hhi : n ≤ hi.toInt) :
    ∃ long : Int64, long.toInt = n ∧ Python.setLong py p (.other id) lo hi
      = .ok (p.set32 long.toUInt64.toUInt32, none) := by
  have hmin := lo.le_toInt
  have hmax := hi.toInt_lt
  obtain ⟨o, ho, hlong⟩ := hlaw.long id n hid (by omega) (by omega)
  refine ⟨py.intAsLong o, hlong, ?_⟩
  have hin : ¬ (py.intAsLong o > hi ∨ py.intAsLong o < lo) := by
    rw [gt_iff_lt, Int64.lt_iff_toInt_lt, Int64.lt_iff_toInt_lt, hlong]
    omega
  unfold Python.setLong convertToLong
  simp only [ho, if_neg hin]

/-- A float is put into the union by its bits. -/
theorem Lawful.setFloating (hlaw : Lawful py new value) {bits : UInt64}
    (hid : value id = .float bits) (message : String)
    (set : UInt64 → RawValue) :
    Python.setFloating py (.other id) message set = .ok (set bits, none) := by
  obtain ⟨o, ho, hbits⟩ := hlaw.double id bits hid
  unfold Python.setFloating
  simp only [ho, hbits]

/-- The bytes of a string are all in the union. -/
theorem stringOf_setPyString {addr : UInt64} {bytes : Bytes}
    (h : bytes.length < 2 ^ 31) :
    stringOf (setPyString p addr bytes) = bytes := by
  have hlen : (UInt64.ofNat bytes.length).toNat = bytes.length :=
    UInt64.toNat_ofNat_of_lt' (by
      show _ < 2 ^ 64
      omega)
  show (List.range (UInt64.ofNat bytes.length).toNat).map
    (fun i => bytes.getD i 0) = bytes
  rw [hlen]
  refine List.ext_getElem ?_ fun i hi hi' => ?_
  · rw [List.length_map, List.length_range]
  · rw [List.getElem_map, List.getElem_range,
      List.getD_eq_getElem?_getD, List.getElem?_eq_getElem hi']
    rfl

/-- The conversion of the object comes back, nothing is pending, and what is
made of the member is the same scalar. -/
def ConvertsBack (py : PythonApi) (new : PythonNew) (value : Nat → Scalar)
    (typ : FieldType) (pyval : PyObject) (p : RawValue) : Prop :=
  ∃ q, pyToLwpb py p pyval typ = .ok (q, none) ∧
    Same value pyval (toPy new (member typ q) typ)

/-- A bool is converted and read back: it is stored as one or zero. -/
theorem reads_back_bool (b : Bool) (p : RawValue) :
    ConvertsBack py new value .bool (.bool b) p := by
  refine ⟨_, rfl, ?_⟩
  have hmember : member .bool (p.set32 (if b then 1 else 0))
      = .bool (if b then 1 else 0) := by
    unfold member
    rw [low32]
    cases b <;> rfl
  rw [hmember]
  cases b with
  | true => exact .bool true
  | false => exact .bool false

/-- So is a float in the range of its type. For a float of 32 bits that is one
that is not rounded. -/
theorem reads_back_float (hlaw : Lawful py new value) {bits : UInt64}
    (hid : value id = .float bits) (hin : InRange typ (.float bits))
    (p : RawValue) : ConvertsBack py new value typ (.other id) p := by
  cases typ with
  | double =>
      refine ⟨_, hlaw.setFloating hid _ _, .scalar ?_⟩
      rw [hid]
      exact (hlaw.floatFromDouble bits).symm
  | float =>
      refine ⟨p.set32 (doubleToFloat bits),
        hlaw.setFloating hid _ fun b => p.set32 (doubleToFloat b),
        .scalar ?_⟩
      rw [low32, hid, hlaw.floatFromDouble]
      exact congrArg Scalar.float (Eq.symm hin)
  | int32 | int64 | uint32 | uint64 | sint32 | sint64 | fixed32 | fixed64
  | sfixed32 | sfixed64 | bool | enum | string | bytes | message | group =>
      exact hin.elim

/-- So is a byte string that a length word can hold. -/
theorem reads_back_str (hlaw : Lawful py new value) {bytes : Bytes}
    (hid : value id = .str bytes) (hin : InRange typ (.str bytes))
    (p : RawValue) : ConvertsBack py new value typ (.other id) p := by
  obtain ⟨addr, haddr⟩ := hlaw.string id bytes hid
  cases typ with
  | string | bytes =>
      refine ⟨setPyString p addr bytes, ?_, ?_⟩
      · unfold pyToLwpb
        simp only [haddr]
      · have hstr := @stringOf_setPyString p addr bytes hin
        apply Same.scalar
        rw [hstr, hid, hlaw.stringFromStringAndSize]
  | double | float | int32 | int64 | uint32 | uint64 | sint32 | sint64
  | fixed32 | fixed64 | sfixed32 | sfixed64 | bool | enum | message
  | group => exact hin.elim

/-- An integer. It goes through a C `long`, whose bounds the call names. -/
theorem reads_back_int (hlaw : Lawful py new value) {n : Int}
    (hlong : typ.isLong = false) (hid : value id = .int n)
    (hin : InRange typ (.int n)) (p : RawValue) :
    ConvertsBack py new value typ (.other id) p := by
  cases typ with
  | int32 | sint32 | sfixed32 | enum =>
      obtain ⟨hlo, hhi⟩ := hin
      obtain ⟨long, rfl, hset⟩ := hlaw.setLong (p := p) hid
        (show (-0x80000000 : Int64).toInt ≤ n from hlo)
        (show n ≤ (0x7fffffff : Int64).toInt from Int.le_of_lt_add_one hhi)
      refine ⟨_, hset, .scalar ?_⟩
      rw [low32, hid, hlaw.intFromLong, Int32.toInt_toInt64,
        low_toInt hlo hhi]
  | uint32 =>
      obtain ⟨hlo, hhi⟩ := hin
      obtain ⟨long, rfl, hset⟩ := hlaw.setLong (p := p) hid
        (show (0 : Int64).toInt ≤ n from hlo)
        (show n ≤ (0xffffffff : Int64).toInt from Int.le_of_lt_add_one hhi)
      refine ⟨_, hset, .scalar ?_⟩
      rw [low32, hid, hlaw.longFromUnsignedLong, UInt32.toNat_toUInt64,
        low_toNat hlo hhi]
  | fixed32 =>
      obtain ⟨hlo, hhi⟩ := hin
      obtain ⟨long, rfl, hset⟩ := hlaw.setLong (p := p) hid
        (show (0 : Int64).toInt ≤ n from hlo)
        (show n ≤ (0xffffffff : Int64).toInt from Int.le_of_lt_add_one hhi)
      refine ⟨_, hset, .scalar ?_⟩
      rw [low32, hid, hlaw.longFromLong, widened_toInt, low_toNat hlo hhi]
  | uint64 | fixed64 =>
      obtain ⟨hlo, hhi⟩ := hin
      obtain ⟨o, ho, hread⟩ := hlaw.unsignedLongLong id n hid hlo hhi
      refine ⟨p.set64 (UInt64.ofNat n.toNat), ?_, .scalar ?_⟩
      · unfold pyToLwpb
        simp only [ho, hread]
      · rw [hid, hlaw.longFromUnsignedLongLong]
        show _ = Scalar.int (UInt64.ofNat n.toNat).toNat
        rw [UInt64.toNat_ofNat_of_lt' (by
          show n.toNat < 2 ^ 64
          omega), Int.toNat_of_nonneg hlo]
  | int64 | sint64 | sfixed64 => cases hlong
  | double | float | bool | string | bytes | message | group =>
      exact hin.elim

/-- A value converts, nothing is pending, and the object that is made of
the result is the same scalar. -/
theorem reads_back (hlaw : Lawful py new value)
    (hlong : typ.isLong = false) (h : IsValue value typ pyval)
    (p : RawValue) : ConvertsBack py new value typ pyval p := by
  cases pyval with
  | dict items | list elems => exact h.elim
  | bool b =>
      have htyp : typ = .bool := h
      subst htyp
      exact reads_back_bool b p
  | other id =>
      have hin : InRange typ (value id) := h
      cases hid : value id with
      | float bits =>
          rw [hid] at hin
          exact reads_back_float hlaw hid hin p
      | str bytes =>
          rw [hid] at hin
          exact reads_back_str hlaw hid hin p
      | int n =>
          rw [hid] at hin
          exact reads_back_int hlaw hlong hid hin p

end

-- ================================================================= spelling

section

variable {py : PythonApi} {new : PythonNew} {value : Nat → Scalar}
  {sch : Schema} {f : FieldRef} {desc : FieldDesc} {m : MsgRef}
  {spelled : PyObject → MsgRef → Tree → Prop} {values : List PyObject}
  {items : Items} {fields : List FieldDesc} {i : Nat} {obj held : PyObject}
  {t : Tree}

/-- The values under a field are no deeper than what holds them. -/
theorem depth_values {pyval : PyObject} (h : pyval ∈ held.values) :
    pyval.depth ≤ held.depth := by
  cases held with
  | list elems =>
      show pyval.depth ≤ PyObject.depthElems elems
      induction elems with
      | nil => exact absurd h List.not_mem_nil
      | cons elem elems ih =>
          unfold PyObject.depthElems
          rcases List.mem_cons.mp h with rfl | h
          · exact Nat.le_max_left _ _
          · exact (ih h).trans (Nat.le_max_right _ _)
  | dict items | bool b | other id =>
      rw [List.mem_singleton.mp h]

/-- What is held in a dict is no deeper than its items. -/
theorem depth_lookup {name : String} (h : items.lookup name = some held) :
    held.depth ≤ PyObject.depthItems items := by
  induction items with
  | nil => cases h
  | cons item items ih =>
      obtain ⟨key, pyval⟩ := item
      unfold PyObject.depthItems
      rw [List.lookup_cons] at h
      split at h
      · cases h
        exact Nat.le_max_left _ _
      · exact (ih h).trans (Nat.le_max_right _ _)

/-- The object stands for something under a field. -/
def Meant (py : PythonApi) (spelled : PyObject → MsgRef → Tree → Prop)
    (desc : FieldDesc) (pyval : PyObject) : Prop :=
  if desc.opts.typ = .message then
    ∃ m body, desc.msgDesc = some m ∧ spelled pyval m body
  else ∃ v, Converts py desc.opts.typ pyval v

/-- Values that all mean something spell the row of it. -/
theorem spellsValues_exists
    (h : ∀ pyval ∈ values, Meant py spelled desc pyval) :
    ∃ t, SpellsValues py spelled f desc values t := by
  induction values with
  | nil => exact ⟨.nil, rfl⟩
  | cons pyval values ih =>
      obtain ⟨rest, hrest⟩ := ih fun v hv => h v (List.mem_cons_of_mem _ hv)
      have hone := h pyval List.mem_cons_self
      unfold Meant at hone
      by_cases hmsg : desc.opts.typ = .message
      · rw [if_pos hmsg] at hone
        obtain ⟨m, body, hm, hbody⟩ := hone
        refine ⟨.message f body rest, rest, hrest, ?_⟩
        rw [if_pos hmsg]
        exact ⟨m, body, hm, hbody, rfl⟩
      · rw [if_neg hmsg] at hone
        obtain ⟨v, hv⟩ := hone
        refine ⟨.scalar f v rest, rest, hrest, ?_⟩
        rw [if_neg hmsg]
        exact ⟨v, hv, rfl⟩

/-- Values that all convert have a list of conversions. -/
theorem converts_exists {typ : FieldType}
    (h : ∀ pyval ∈ values, ∃ v, Converts py typ pyval v) :
    ∃ vs, List.Forall₂ (Converts py typ) values vs := by
  induction values with
  | nil => exact ⟨[], .nil⟩
  | cons pyval values ih =>
      obtain ⟨vs, hvs⟩ := ih fun v hv => h v (List.mem_cons_of_mem _ hv)
      obtain ⟨v, hv⟩ := h pyval List.mem_cons_self
      exact ⟨v :: vs, .cons hv hvs⟩

/-- What is held under a field spells its occurrences, in a run if it is
packed. -/
theorem spellsField_exists
    (hpacked : desc.isPackedRepeated = true → desc.opts.typ ≠ .message)
    (h : ∀ pyval ∈ held.values, Meant py spelled desc pyval) :
    ∃ t, SpellsField py spelled f desc held t := by
  by_cases hrun : desc.isPackedRepeated = true
  · have hall : ∀ pyval ∈ held.values,
        ∃ v, Converts py desc.opts.typ pyval v := by
      intro pyval hpyval
      have hone := h pyval hpyval
      unfold Meant at hone
      rwa [if_neg (hpacked hrun)] at hone
    obtain ⟨vs, hvs⟩ := converts_exists hall
    refine ⟨.packed f vs .nil, ?_⟩
    unfold SpellsField
    rw [if_pos hrun]
    exact ⟨vs, hvs, rfl⟩
  · obtain ⟨t, ht⟩ := spellsValues_exists (f := f) h
    refine ⟨t, ?_⟩
    unfold SpellsField
    rw [if_neg hrun]
    exact ht

/-- A dict spells a message if what it holds under each field spells that
field. -/
theorem spellsFields_exists
    (h : ∀ desc ∈ fields, ∀ held, items.lookup desc.name = some held →
      ∀ f, ∃ t, SpellsField py spelled f desc held t) :
    ∃ t, SpellsFields py spelled m items i fields t := by
  induction fields generalizing i with
  | nil => exact ⟨.nil, rfl⟩
  | cons desc fields ih =>
      obtain ⟨rest, hrest⟩ := ih (i := i + 1)
        fun d hd => h d (List.mem_cons_of_mem _ hd)
      unfold SpellsFields
      cases hheld : items.lookup desc.name with
      | none => exact ⟨rest, hrest⟩
      | some held =>
          obtain ⟨first, hfirst⟩ := h desc List.mem_cons_self held hheld ⟨m, i⟩
          exact ⟨_, first, rest, hfirst, hrest, rfl⟩

/-- No field of such a schema has a signed 64-bit type. -/
theorem isLong_of_mem (hno : sch.NoLong)
    (hdesc : desc ∈ (sch.msg m).fields) : desc.opts.typ.isLong = false := by
  obtain ⟨i, hi, -⟩ := List.getElem_of_mem hdesc
  exact hno _ (sch.msg_mem hi) desc hdesc

/-- A packed field is numeric. -/
theorem isNumeric_of_mem (hpacked : sch.PackedNumeric)
    (hdesc : desc ∈ (sch.msg m).fields)
    (hrun : desc.isPackedRepeated = true) :
    desc.opts.typ.isNumeric = true := by
  obtain ⟨i, hi, -⟩ := List.getElem_of_mem hdesc
  exact hpacked _ (sch.msg_mem hi) desc hdesc hrun

/-- A canonical dict is a message. -/
theorem canonical_spells (hlaw : Lawful py new value) (hno : sch.NoLong)
    (hpacked : sch.PackedNumeric) (h : Canonical value sch m obj)
    {depth : Nat} (hdepth : obj.depth ≤ depth) :
    ∃ t, SpellsObject py sch depth obj m t := by
  induction h generalizing depth with
  | @dict m items known lists singles scalars described messages ih =>
      cases depth with
      | zero => exact absurd hdepth (Nat.not_succ_le_zero _)
      | succ depth =>
          refine spellsFields_exists fun desc hdesc held hheld f =>
            spellsField_exists (fun hrun hmsg => ?_) fun pyval hpyval => ?_
          · have hnum := isNumeric_of_mem hpacked hdesc hrun
            rw [hmsg] at hnum
            cases hnum
          · unfold Meant
            by_cases hmsg : desc.opts.typ = .message
            · rw [if_pos hmsg]
              obtain ⟨m', hm'⟩ := Option.ne_none_iff_exists'.mp
                (described desc hdesc hmsg (by
                  rw [hheld]
                  exact Option.some_ne_none held))
              have hle : pyval.depth ≤ depth :=
                (depth_values hpyval).trans ((depth_lookup hheld).trans
                  (Nat.le_of_succ_le_succ hdepth))
              obtain ⟨body, hbody⟩ :=
                ih desc hdesc hmsg held hheld pyval hpyval m' hm' hle
              exact ⟨m', body, hm', hbody⟩
            · rw [if_neg hmsg]
              obtain ⟨q, hq, -⟩ := reads_back hlaw
                (isLong_of_mem hno hdesc)
                (scalars desc hdesc hmsg held hheld pyval hpyval)
                ⟨0, .ext fun _ => 0, 0⟩
              exact ⟨_, _, q, none, hq, rfl⟩

end

-- ================================================================== filling

section

variable {py : PythonApi} {new : PythonNew} {value : Nat → Scalar}
  {sch : Schema} {f : FieldRef} {desc : FieldDesc} {m : MsgRef}
  {spelled : PyObject → MsgRef → Tree → Prop} {values acc : List PyObject}
  {items top : Items} {fields : List FieldDesc} {i : Nat}
  {obj held x : PyObject} {t : Tree}

/-- What a value stands for, and what it is filled in as. -/
structure ComesBack (py : PythonApi) (new : PythonNew)
    (value : Nat → Scalar) (sch : Schema)
    (spelled : PyObject → MsgRef → Tree → Prop) (desc : FieldDesc)
    (pyval : PyObject) : Prop where
  scalar : ∀ v, Converts py desc.opts.typ pyval v →
    Same value pyval (toPy new v desc.opts.typ)
  message : desc.opts.typ = .message → ∀ m body, desc.msgDesc = some m →
    spelled pyval m body → Same value pyval (.dict (body.fill new sch []))

/-- The elements are all that is held under the field. -/
def Listed (desc : FieldDesc) (acc : List PyObject) (top : Items) : Prop :=
  top.lookup desc.name = if acc = [] then none else some (.list acc)

/-- Other fields hold what they held. -/
def Apart (desc : FieldDesc) (top top' : Items) : Prop :=
  ∀ name, name ≠ desc.name → top'.lookup name = top.lookup name

/-- Changes under one name only, one after the other. -/
theorem Apart.trans {top' top'' : Items} (h : Apart desc top top')
    (h' : Apart desc top' top'') : Apart desc top top'' :=
  fun name hname => (h' name hname).trans (h name hname)

/-- A store changes what is held under the name of its field only. -/
theorem store_apart : Apart desc top (store desc x top) := by
  intro name hname
  unfold store
  split
  · split
    · exact Assoc.lookup_set_ne (Ne.symm hname)
    · rfl
    · exact Assoc.lookup_set_ne (Ne.symm hname)
  · exact Assoc.lookup_set_ne (Ne.symm hname)

/-- A value of a repeated field is stored behind those that are there. -/
theorem store_listed (hrep : desc.opts.label = .repeated)
    (h : Listed desc acc top) :
    Listed desc (acc ++ [x]) (store desc x top) := by
  unfold Listed at h ⊢
  rw [if_neg (List.append_ne_nil_of_right_ne_nil _ (List.cons_ne_nil _ _))]
  unfold store
  rw [if_pos hrep]
  cases acc with
  | nil =>
      rw [h]
      exact Assoc.lookup_set_self
  | cons a acc =>
      rw [h, if_neg (List.cons_ne_nil _ _)]
      exact Assoc.lookup_set_self

/-- A submessage of a repeated field starts with an empty dict. -/
theorem childOf_repeated (hrep : desc.opts.label = .repeated) :
    childOf desc top = [] :=
  if_pos hrep

/-- The values of a repeated field come back at the end of its list. -/
theorem fill_values (hfield : sch.field f = desc)
    (hrep : desc.opts.label = .repeated)
    (h : SpellsValues py spelled f desc values t)
    (hback : ∀ pyval ∈ values,
      ComesBack py new value sch spelled desc pyval)
    (hlisted : Listed desc acc top) :
    ∃ elems, List.Forall₂ (Same value) values elems ∧
      Listed desc (acc ++ elems) (t.fill new sch top) ∧
      Apart desc top (t.fill new sch top) := by
  subst hfield
  induction values generalizing t acc top with
  | nil =>
      cases h
      refine ⟨[], .nil, ?_, fun _ _ => rfl⟩
      rw [List.append_nil]
      exact hlisted
  | cons pyval values ih =>
      obtain ⟨rest, hrest, hone⟩ := h
      have hfirst := hback pyval List.mem_cons_self
      have hothers : ∀ pyval ∈ values, ComesBack py new value sch spelled
          (sch.field f) pyval :=
        fun pyval hmem => hback pyval (List.mem_cons_of_mem _ hmem)
      -- the object that this round stores
      have hround : ∃ x, Same value pyval x ∧ t.fill new sch top
          = rest.fill new sch (store (sch.field f) x top) := by
        by_cases hmsg : (sch.field f).opts.typ = .message
        · rw [if_pos hmsg] at hone
          obtain ⟨m', body, hm', hbody, rfl⟩ := hone
          refine ⟨_, hfirst.message hmsg m' body hm' hbody, ?_⟩
          rw [Tree.fill, childOf_repeated hrep]
        · rw [if_neg hmsg] at hone
          obtain ⟨v, hv, rfl⟩ := hone
          exact ⟨_, hfirst.scalar v hv, rfl⟩
      obtain ⟨x, hsame, hfill⟩ := hround
      obtain ⟨elems, helems, hlist, hapart⟩ :=
        ih hrest hothers (store_listed (x := x) hrep hlisted)
      rw [hfill]
      refine ⟨x :: elems, .cons hsame helems, ?_, store_apart.trans hapart⟩
      rwa [List.append_assoc] at hlist

/-- So do those of a packed run. -/
theorem fill_run {vs : List (Value Bytes)}
    (hrep : desc.opts.label = .repeated)
    (h : List.Forall₂ (Converts py desc.opts.typ) values vs)
    (hback : ∀ pyval ∈ values,
      ComesBack py new value sch spelled desc pyval)
    (hlisted : Listed desc acc top) :
    ∃ elems, List.Forall₂ (Same value) values elems ∧
      Listed desc (acc ++ elems) (vs.foldl (fun top v =>
        store desc (toPy new v desc.opts.typ) top) top) ∧
      Apart desc top (vs.foldl (fun top v =>
        store desc (toPy new v desc.opts.typ) top) top) := by
  induction h generalizing acc top with
  | nil =>
      refine ⟨[], .nil, ?_, fun _ _ => rfl⟩
      rw [List.append_nil]
      exact hlisted
  | @cons pyval v values vs hone _ ih =>
      obtain ⟨elems, helems, hlist, hapart⟩ :=
        ih (fun pyval hmem => hback pyval (List.mem_cons_of_mem _ hmem))
          (store_listed (x := toPy new v desc.opts.typ) hrep hlisted)
      refine ⟨toPy new v desc.opts.typ :: elems,
        .cons ((hback pyval List.mem_cons_self).scalar v hone) helems, ?_,
        store_apart.trans hapart⟩
      rwa [List.append_assoc] at hlist

/-- What a field holds comes back under it. -/
theorem fill_field (new : PythonNew) (hfield : sch.field f = desc)
    (h : SpellsField py spelled f desc held t)
    (hlist : desc.opts.label = .repeated →
      ∃ elems, held = .list elems ∧ elems ≠ [])
    (hsingle : desc.opts.label ≠ .repeated → ∀ elems, held ≠ .list elems)
    (hback : ∀ pyval ∈ held.values,
      ComesBack py new value sch spelled desc pyval)
    (hnone : top.lookup desc.name = none) :
    (∃ x, (t.fill new sch top).lookup desc.name = some x ∧
        Same value held x) ∧
      Apart desc top (t.fill new sch top) := by
  by_cases hrep : desc.opts.label = .repeated
  · obtain ⟨held', rfl, hne⟩ := hlist hrep
    have hempty : Listed desc [] top := hnone
    have hend : ∃ elems, List.Forall₂ (Same value) held' elems ∧
        Listed desc elems (t.fill new sch top) ∧
        Apart desc top (t.fill new sch top) := by
      unfold SpellsField at h
      by_cases hrun : desc.isPackedRepeated = true
      · rw [if_pos hrun] at h
        obtain ⟨vs, hvs, rfl⟩ := h
        subst hfield
        exact fill_run hrep hvs hback hempty
      · rw [if_neg hrun] at h
        exact fill_values hfield hrep h hback hempty
    obtain ⟨elems, hsame, hlisted, hapart⟩ := hend
    refine ⟨⟨.list elems, ?_, .list hsame⟩, hapart⟩
    rw [hlisted, if_neg]
    intro h
    subst h
    cases hsame
    exact hne rfl
  · have hvalues : held.values = [held] := by
      cases held with
      | list elems => exact absurd rfl (hsingle hrep elems)
      | dict items | bool b | other id => rfl
    have hrun : ¬ desc.isPackedRepeated = true := by
      intro hrun
      rw [FieldDesc.isPackedRepeated, Bool.and_eq_true, beq_iff_eq] at hrun
      exact hrep hrun.1
    unfold SpellsField at h
    rw [if_neg hrun, hvalues] at h
    rw [hvalues] at hback
    obtain ⟨rest, rfl, hone⟩ := h
    have hfirst := hback held (List.mem_singleton_self held)
    subst hfield
    have hround : ∃ x, Same value held x ∧ t.fill new sch top
        = store (sch.field f) x top := by
      by_cases hmsg : (sch.field f).opts.typ = .message
      · rw [if_pos hmsg] at hone
        obtain ⟨m', body, hm', hbody, rfl⟩ := hone
        refine ⟨_, hfirst.message hmsg m' body hm' hbody, ?_⟩
        have hchild : childOf (sch.field f) top = [] := by
          unfold childOf
          rw [if_neg hrep, hnone]
        rw [Tree.fill, hchild]
        rfl
      · rw [if_neg hmsg] at hone
        obtain ⟨v, hv, rfl⟩ := hone
        exact ⟨_, hfirst.scalar v hv, rfl⟩
    obtain ⟨x, hsame, hfill⟩ := hround
    rw [hfill]
    refine ⟨⟨x, ?_, hsame⟩, store_apart⟩
    rw [store_single hrep]
    exact Assoc.lookup_set_self

/-- No field behind another has its name. -/
theorem names_behind (hnames : sch.DistinctNames)
    (hfields : (sch.msg m).fields.drop i = desc :: fields) :
    ∀ d ∈ fields, d.name ≠ desc.name := by
  have hnodup : ((desc :: fields).map FieldDesc.name).Nodup := by
    rw [← hfields, List.map_drop]
    exact (List.drop_sublist _ _).nodup (hnames _ (at_of_drop hfields).message)
  rw [List.map_cons, List.nodup_cons] at hnodup
  exact fun d hd hname => hnodup.1 (hname ▸ List.mem_map_of_mem hd)

/-- The fields have filled in what they hold, and nothing else. -/
structure FilledIn (value : Nat → Scalar) (items : Items)
    (fields : List FieldDesc) (top top' : Items) : Prop where
  under : ∀ desc ∈ fields, Option.Rel (Same value)
    (items.lookup desc.name) (top'.lookup desc.name)
  others : ∀ name, (∀ desc ∈ fields, name ≠ desc.name) →
    top'.lookup name = top.lookup name

/-- Filling a dict with the contents that another one spells, field by field:
under each name stands an equal value, and nothing else is touched. By
induction on the fields that are left; the names of the later ones are still
free. -/
theorem fill_fields (new : PythonNew) (hnames : sch.DistinctNames)
    (hfields : (sch.msg m).fields.drop i = fields)
    (h : SpellsFields py spelled m items i fields t)
    (hlist : ∀ desc ∈ fields, desc.opts.label = .repeated → ∀ held,
      items.lookup desc.name = some held →
      ∃ elems, held = .list elems ∧ elems ≠ [])
    (hsingle : ∀ desc ∈ fields, desc.opts.label ≠ .repeated → ∀ held,
      items.lookup desc.name = some held → ∀ elems, held ≠ .list elems)
    (hback : ∀ desc ∈ fields, ∀ held, items.lookup desc.name = some held →
      ∀ pyval ∈ held.values, ComesBack py new value sch spelled desc pyval)
    (hnone : ∀ desc ∈ fields, top.lookup desc.name = none) :
    FilledIn value items fields top (t.fill new sch top) := by
  induction fields generalizing i t top with
  | nil =>
      cases h
      exact ⟨fun desc hdesc => absurd hdesc List.not_mem_nil,
        fun _ _ => rfl⟩
  | cons desc fields ih =>
      have hat := at_of_drop hfields
      have hhead : desc ∈ desc :: fields := List.mem_cons_self
      have htail : ∀ d ∈ fields, d ∈ desc :: fields :=
        fun _ => List.mem_cons_of_mem _
      have hdiff : ∀ d ∈ fields, desc.name ≠ d.name :=
        fun d hd => (names_behind hnames hfields d hd).symm
      have hbehind : ∀ (rest : Tree) (top' : Items),
          SpellsFields py spelled m items (i + 1) fields rest →
          (∀ d ∈ fields, top'.lookup d.name = none) →
          FilledIn value items fields top' (rest.fill new sch top') :=
        fun rest top' hrest htop' => ih hat.rest hrest
          (fun d hd => hlist d (htail d hd))
          (fun d hd => hsingle d (htail d hd))
          (fun d hd => hback d (htail d hd)) htop'
      unfold SpellsFields at h
      cases hheld : items.lookup desc.name with
      | none =>
          rw [hheld] at h
          obtain ⟨hin, hout⟩ := hbehind t top h
            fun d hd => hnone d (htail d hd)
          refine ⟨List.forall_mem_cons.mpr ⟨?_, hin⟩, fun name hname =>
            hout name fun d hd => hname d (htail d hd)⟩
          rw [hheld, hout desc.name hdiff, hnone desc hhead]
          exact .none
      | some held =>
          rw [hheld] at h
          obtain ⟨first, rest, hfirst, hrest, rfl⟩ := h
          obtain ⟨⟨x, hx, hsame⟩, hapart⟩ := fill_field new hat.field
            hfirst (fun hrep => hlist desc hhead hrep held hheld)
            (fun hrep => hsingle desc hhead hrep held hheld)
            (hback desc hhead held hheld) (hnone desc hhead)
          obtain ⟨hin, hout⟩ := hbehind rest (first.fill new sch top) hrest
            fun d hd => (hapart d.name (hdiff d hd).symm).trans
              (hnone d (htail d hd))
          rw [fill_append]
          refine ⟨List.forall_mem_cons.mpr ⟨?_, hin⟩, fun name hname => ?_⟩
          · rw [hheld, hout desc.name hdiff, hx]
            exact .some hsame
          · rw [hout name fun d hd => hname d (htail d hd)]
            exact hapart name (hname desc hhead)

/-- A canonical dict is equal to what its message fills in. -/
theorem fill_same (hlaw : Lawful py new value) (hnames : sch.DistinctNames)
    (hno : sch.NoLong) {depth : Nat}
    (hspells : SpellsObject py sch depth obj m t)
    (h : Canonical value sch m obj) :
    Same value obj (.dict (t.fill new sch [])) := by
  induction depth generalizing obj m t with
  | zero => exact hspells.elim
  | succ depth ih =>
      cases h with
      | @dict _ items known lists singles scalars _ messages =>
          have hback : ∀ desc ∈ (sch.msg m).fields, ∀ held,
              items.lookup desc.name = some held → ∀ pyval ∈ held.values,
              ComesBack py new value sch (SpellsObject py sch depth) desc
                pyval := by
            intro desc hdesc held hheld pyval hpyval
            constructor
            · intro v hv
              have hlong := isLong_of_mem hno hdesc
              obtain ⟨q, hq, hsame⟩ := reads_back hlaw hlong
                (scalars desc hdesc (ofType_ne_message hv.ofType) held hheld
                  pyval hpyval) ⟨0, .ext fun _ => 0, 0⟩
              rwa [hv.unique hlong ⟨_, q, none, hq, rfl⟩]
            · intro hmsg m' body hm' hbody
              exact ih hbody
                (messages desc hdesc hmsg held hheld pyval hpyval m' hm')
          have hnone : ∀ desc ∈ (sch.msg m).fields,
              ([] : Items).lookup desc.name = none := fun _ _ => rfl
          obtain ⟨hin, hout⟩ := fill_fields new hnames List.drop_zero hspells
            lists singles hback hnone
          refine .dict fun name => ?_
          by_cases hname : ∃ desc ∈ (sch.msg m).fields, desc.name = name
          · obtain ⟨desc, hdesc, rfl⟩ := hname
            exact hin desc hdesc
          · have hlookup : items.lookup name = none := by
              by_contra hne
              exact hname (known name hne)
            rw [hlookup, hout name fun desc hdesc heq =>
              hname ⟨desc, hdesc, heq.symm⟩]
            exact .none

end

end Lwpb.Python
