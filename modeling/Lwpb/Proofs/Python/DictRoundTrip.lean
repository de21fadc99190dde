/-
Dicts through the codec and back.

`Encoder_encode` of a canonical dict leaves no exception pending
(`encodeObject_calm`), and its lists are short enough for the counters: a
value takes a byte at least (`spells_short`). So it is the protocol buffer
of the message that the dict spells, and `Decoder_decode` makes an equal
dict of it (`dict_round_trip`).

Most of the module is about what does not happen. `Calm` says of a part of
the pass that it returns with the exception in flight that it was called
with, and has a rule for each way parts are put together; every loop of
the encoder is then calm if its rounds are. The counters are the other way
to fail: the loop over a list counts in 32 bits, and the bytes of a
message shorter than `2 ^ 31` bound the length of every list in it.
-/
import Lwpb.Proofs.Python.Canonical

namespace Lwpb.Python

-- ==================================================================== quiet

/-- What is pending when a call returns. -/
def Calm {α : Type} (e : Option PyErr) : Ret α → Prop
  | .ret _ s => s.error = e
  | _ => True

section

variable {α β : Type} {e : Option PyErr}

/-- The error in flight is kept by a sequence whose parts keep it. -/
theorem Calm.bind {r : Ret α} {next : α → State → Ret β} (h : Calm e r)
    (hnext : ∀ a s, s.error = e → Calm e (next a s)) :
    Calm e (r.bind next) := by
  cases r with
  | ret a s => exact hnext a s h
  | abort | fault | runaway => exact trivial

/-- The same for a sequence that stops at the first `None`. -/
theorem Calm.andThen {r : Ret (Option α)}
    {next : α → State → Ret (Option β)} (h : Calm e r)
    (hnext : ∀ a s, s.error = e → Calm e (next a s)) :
    Calm e (r.andThen next) := by
  refine Calm.bind h fun a s hs => ?_
  cases a with
  | none => exact hs
  | some a => exact hnext a s hs

variable {py : PythonApi} {sch : Schema} {uninit : UInt64}
  {desc : FieldDesc} {values : List PyObject} {items : Items}
  {fields : List FieldDesc} {held pyval : PyObject} {s : State}
  {nested : PyObject → Option MsgRef → Option Nat → State → Ret UInt64}

/-- Adding a field does not touch the error. -/
theorem addField_calm {val : RawValue} {buf : Option Nat}
    (hs : s.error = e) : Calm e (addField uninit desc val buf s) := by
  rcases addField_cases uninit desc val buf s with
    ⟨hfault, -⟩ | ⟨n, heap, -, hret⟩
  · rw [hfault]
    exact trivial
  · rw [hret]
    exact hs

/-- A value that is converted, or encoded, with nothing to report. -/
structure Quiet (py : PythonApi) (e : Option PyErr)
    (nested : PyObject → Option MsgRef → Option Nat → State → Ret UInt64)
    (desc : FieldDesc) (pyval : PyObject) : Prop where
  scalar : desc.opts.typ ≠ .message →
    ∀ p, ∃ q, pyToLwpb py p pyval desc.opts.typ = .ok (q, none)
  message : desc.opts.typ = .message →
    ∀ buf s, s.error = e → Calm e (nested pyval desc.msgDesc buf s)

/-- One value keeps the error, if its conversion and the message inside do. -/
theorem encodeValue_calm {l : ValueLocals}
    (h : Quiet py e nested desc pyval) (hs : s.error = e) :
    Calm e (encodeValue py uninit nested desc pyval l s) := by
  have hadd : ∀ (l : ValueLocals) (s : State), s.error = e →
      Calm e ((addValue uninit desc l s).bind fun l s =>
        .ret (some l) s) := by
    intro l s hs
    unfold addValue
    refine Calm.bind (Calm.bind (addField_calm hs) fun _ _ hs' => ?_)
      fun _ _ hs' => ?_
    · exact hs'
    · exact hs'
  unfold encodeValue
  by_cases hmsg : desc.opts.typ = .message
  · rw [if_pos hmsg]
    refine (h.message hmsg _ s hs).bind fun len s' hs' => ?_
    rw [if_neg UInt64.not_lt_zero]
    exact hadd _ s' hs'
  · rw [if_neg hmsg]
    obtain ⟨q, hq⟩ := h.scalar hmsg l.val
    simp only [hq]
    exact hadd _ _ hs

/-- So do all values of a field. -/
theorem encodeValues_calm {l : ValueLocals}
    (h : ∀ pyval ∈ values, Quiet py e nested desc pyval)
    (hs : s.error = e) :
    Calm e (encodeValues py uninit nested desc values l s) := by
  induction values generalizing l s with
  | nil => exact hs
  | cons pyval values ih =>
      exact (encodeValue_calm (h pyval List.mem_cons_self) hs).andThen
        fun l s' hs' => ih (fun v hv => h v (List.mem_cons_of_mem _ hv)) hs'

/-- So does the list that carries them. -/
theorem encodeList_calm {l : ValueLocals}
    (h : ∀ pyval ∈ values, Quiet py e nested desc pyval)
    (hs : s.error = e) :
    Calm e (encodeList py uninit nested desc values l s) := by
  unfold encodeList
  split
  · exact encodeValues_calm h hs
  · exact (encodeValues_calm (fun v hv => h v (List.mem_of_mem_take hv))
      hs).andThen fun _ _ _ => trivial

/-- So does a field with all it holds. -/
theorem encodeField_calm {l : FieldLocals}
    (h : ∀ held, items.lookup desc.name = some held →
      ∀ pyval ∈ held.values, Quiet py e nested desc pyval)
    (hs : s.error = e) :
    Calm e (encodeField py uninit nested items desc l s) := by
  unfold encodeField
  cases hheld : items.lookup desc.name with
  | none => exact hs
  | some held =>
      have hquiet := h held hheld
      show Calm e (if desc.isPackedRepeated then _ else _)
      split
      · unfold encodePacked
        split
        · exact trivial
        · refine Calm.andThen (encodeList_calm hquiet ?_) fun v s' hs' => ?_
          · exact hs
          · split
            · exact trivial
            · refine Calm.bind (addField_calm ?_) fun _ _ hs'' => ?_
              · exact hs'
              · exact hs''
      · refine Calm.andThen (encodeList_calm hquiet hs) fun _ _ hs' => ?_
        exact hs'

/-- So do the fields of a message, one after the other. -/
theorem encodeFields_calm {l : FieldLocals}
    (h : ∀ desc ∈ fields, ∀ held, items.lookup desc.name = some held →
      ∀ pyval ∈ held.values, Quiet py e nested desc pyval)
    (hs : s.error = e) :
    Calm e (encodeFields py uninit nested items fields l s) := by
  induction fields generalizing l s with
  | nil => exact hs
  | cons desc fields ih =>
      exact (encodeField_calm (h desc List.mem_cons_self) hs).andThen
        fun l s' hs' => ih (fun d hd => h d (List.mem_cons_of_mem _ hd)) hs'

/-- A pass over a canonical dict leaves what is pending as it was. -/
theorem encodeObject_calm {new : PythonNew} {value : Nat → Scalar}
    {m : MsgRef} {obj : PyObject} (buf : Option Nat)
    (garbage : Nat → Scratch) (hlaw : Lawful py new value)
    (hno : sch.NoLong) (stack : Nat) (h : Canonical value sch m obj)
    (hs : s.error = e) :
    Calm e (encodeObject py sch garbage stack obj (some m) buf s) := by
  induction stack generalizing m obj buf s with
  | zero => exact trivial
  | succ stack ih =>
      cases h with
      | @dict _ items known lists singles scalars described messages =>
          have hquiet : ∀ desc ∈ (sch.msg m).fields, ∀ held,
              items.lookup desc.name = some held → ∀ pyval ∈ held.values,
              Quiet py e (encodeObject py sch garbage stack) desc
                pyval := by
            intro desc hdesc held hheld pyval hpyval
            constructor
            · intro hmsg p
              obtain ⟨q, hq, -⟩ := reads_back hlaw (isLong_of_mem hno hdesc)
                (scalars desc hdesc hmsg held hheld pyval hpyval) p
              exact ⟨q, hq⟩
            · intro hmsg buf s hs
              obtain ⟨m', hm'⟩ := Option.ne_none_iff_exists'.mp
                (described desc hdesc hmsg (by
                  rw [hheld]
                  exact Option.some_ne_none held))
              rw [hm']
              exact ih buf
                (messages desc hdesc hmsg held hheld pyval hpyval m' hm') hs
          refine (encodeFields_calm hquiet (l := ⟨0, 0, _, buf⟩)
            (s := { s with calls := s.calls + 1 }) hs).bind
            fun l s' hs' => ?_
          cases l with
          | none => exact hs'
          | some l => exact hs'

/-- A string of a canonical dict comes with nothing pending. -/
theorem encoderEncode_calm {new : PythonNew} {value : Nat → Scalar}
    {garbage : Nat → Scratch} {calloc : UInt64 → Option Nat}
    {msgnum : UInt32} {bytes : Bytes} {pending : Option PyErr}
    (hlaw : Lawful py new value) (hno : sch.NoLong)
    (h : Canonical value sch msgnum.toNat (.dict items))
    (hret : encoderEncode py sch garbage calloc items msgnum
      = .string bytes pending) : pending = none := by
  obtain ⟨-, size, s, buf, len, s', hfirst, -, hsecond, -, rfl⟩ :=
    encoderEncode_string hret
  have hsizing := @encodeObject_calm none py sch
    ⟨Encoder2.start, ⟨fun _ => 0, 0, 0⟩, none, 0⟩ new value msgnum.toNat
    (.dict items) none garbage hlaw hno (PyObject.dict items).depth h rfl
  unfold sizingPass pyobjectEncode at hfirst
  rw [hfirst] at hsizing
  have hwriting := @encodeObject_calm none py sch
    ⟨Encoder2.start, ⟨fun _ => 0, buf, size.toNat⟩, s.error, s.calls⟩ new
    value msgnum.toNat (.dict items) (some buf) garbage hlaw hno
    (PyObject.dict items).depth h hsizing
  unfold pyobjectEncode at hsecond
  rw [hsecond] at hwriting
  exact hwriting

end

-- ==================================================================== short

section

variable {py : PythonApi} {sch : Schema} {f : FieldRef} {desc : FieldDesc}
  {spelled : PyObject → MsgRef → Tree → Prop} {m : MsgRef} {t : Tree}
  {values : List PyObject} {items : Items} {fields : List FieldDesc}
  {i : Nat} {obj held : PyObject}

/-- A value takes a byte at least. -/
theorem spellsValues_length (sch : Schema)
    (h : SpellsValues py spelled f desc values t) :
    values.length ≤ (t.wire sch).bytes.length := by
  induction values generalizing t with
  | nil => exact Nat.zero_le _
  | cons pyval values ih =>
      obtain ⟨rest, hrest, hone⟩ := h
      have hlen := ih hrest
      split at hone
      · obtain ⟨m', body, -, -, rfl⟩ := hone
        have hkey := key_length_pos (sch.field f) .string
        simp only [Tree.wire, Wire.bytes, List.length_append,
          List.length_cons] at hlen ⊢
        omega
      · obtain ⟨v, -, rfl⟩ := hone
        have hkey := key_length_pos (sch.field f)
          (v.payload (sch.field f).opts.typ).wireType
        simp only [Tree.wire, Wire.bytes, List.length_append,
          List.length_cons] at hlen ⊢
        omega

/-- A nested message is not longer than the one around it. -/
theorem spellsValues_body (sch : Schema) (hmsg : desc.opts.typ = .message)
    (h : SpellsValues py spelled f desc values t) {pyval : PyObject}
    (hmem : pyval ∈ values) :
    ∃ m body, desc.msgDesc = some m ∧ spelled pyval m body ∧
      (body.wire sch).bytes.length ≤ (t.wire sch).bytes.length := by
  induction values generalizing t with
  | nil => exact absurd hmem List.not_mem_nil
  | cons first values ih =>
      obtain ⟨rest, hrest, hone⟩ := h
      rw [if_pos hmsg] at hone
      obtain ⟨m', body, hm', hbody, rfl⟩ := hone
      rcases List.mem_cons.mp hmem with rfl | hmem
      · refine ⟨m', body, hm', hbody, ?_⟩
        simp only [Tree.wire, Wire.bytes, List.length_append]
        omega
      · obtain ⟨m₁, body₁, hm₁, hbody₁, hlen⟩ := ih hrest hmem
        refine ⟨m₁, body₁, hm₁, hbody₁, hlen.trans ?_⟩
        simp only [Tree.wire, Wire.bytes, List.length_append]
        omega

/-- Every element takes at least one byte, so a run is no longer in elements
than in bytes. -/
theorem run_length {typ : FieldType} {vs : List (Value Bytes)}
    (h : List.Forall₂ (Converts py typ) values vs) :
    values.length ≤ (elemBytes (vs.map (Value.payload typ))).length := by
  induction h with
  | nil => exact Nat.zero_le _
  | cons hone _ ih =>
      have hpos := (Value.payload_complete hone.ofType).length_pos
      rw [List.map_cons, elemBytes, List.flatMap_cons, List.length_append,
        List.length_cons]
      unfold elemBytes at ih
      omega

/-- A field whose bytes fit 32 bits has a list that does: this is where the
round trip meets the bound of the loop counter. -/
theorem spellsField_short (hfield : sch.field f = desc)
    (hpacked : desc.isPackedRepeated = true → desc.opts.typ ≠ .message)
    (h : SpellsField py spelled f desc held t)
    (hlen : (t.wire sch).bytes.length < 2 ^ 32)
    (hnested : ∀ pyval m body, spelled pyval m body →
      (body.wire sch).bytes.length < 2 ^ 32 → Short sch (some m) pyval) :
    ShortList sch desc held.values := by
  unfold SpellsField at h
  split at h
  · obtain ⟨vs, hvs, rfl⟩ := h
    have hrun := run_length hvs
    subst hfield
    simp only [Tree.wire, Wire.bytes, List.length_append] at hlen
    exact ⟨by omega, fun hmsg => absurd hmsg (hpacked ‹_›)⟩
  · refine ⟨(spellsValues_length sch h).trans_lt hlen, ?_⟩
    intro hmsg pyval hpyval
    obtain ⟨m', body, hm', hbody, hle⟩ :=
      spellsValues_body sch hmsg h hpyval
    rw [hm']
    exact hnested pyval m' body hbody (hle.trans_lt hlen)

/-- And so has every field of a message, at every depth. -/
theorem spellsFields_short (hpacked : sch.PackedNumeric)
    (hfields : (sch.msg m).fields.drop i = fields)
    (h : SpellsFields py spelled m items i fields t)
    (hlen : (t.wire sch).bytes.length < 2 ^ 32)
    (hnested : ∀ pyval m body, spelled pyval m body →
      (body.wire sch).bytes.length < 2 ^ 32 → Short sch (some m) pyval) :
    ∀ desc ∈ fields, ∀ held, items.lookup desc.name = some held →
      ShortList sch desc held.values := by
  induction fields generalizing i t with
  | nil => exact fun desc hdesc => absurd hdesc List.not_mem_nil
  | cons desc fields ih =>
      have hat := at_of_drop hfields
      unfold SpellsFields at h
      cases hheld : items.lookup desc.name with
      | none =>
          rw [hheld] at h
          refine List.forall_mem_cons.mpr
            ⟨fun held hsome => ?_, ih hat.rest h hlen⟩
          rw [hheld] at hsome
          cases hsome
      | some held =>
          rw [hheld] at h
          obtain ⟨first, rest, hfirst, hrest, rfl⟩ := h
          rw [Tree.bytes_append, List.length_append] at hlen
          refine List.forall_mem_cons.mpr
            ⟨fun held' hsome => ?_, ih hat.rest hrest (by omega)⟩
          rw [hheld] at hsome
          cases hsome
          refine spellsField_short hat.field (fun hrun hmsg => ?_) hfirst
            (by omega) hnested
          have hnum := isNumeric_of_mem hpacked hat.mem hrun
          rw [hmsg] at hnum
          cases hnum

/-- A message that is short enough has no list that is too long. -/
theorem spells_short (hpacked : sch.PackedNumeric) {depth : Nat}
    (h : SpellsObject py sch depth obj m t)
    (hlen : (t.wire sch).bytes.length < 2 ^ 32) :
    Short sch (some m) obj := by
  induction depth generalizing obj m t with
  | zero => exact h.elim
  | succ depth ih =>
      cases obj with
      | dict items =>
          exact short_dict.mpr (spellsFields_short hpacked List.drop_zero h
            hlen fun _ _ _ => ih)
      | list elems | bool b | other id => exact h.elim

end

-- =============================================================== round trip

/-- A canonical dict is encoded as the protocol buffer of the message that
it spells, and the decoder makes an equal dict of that. -/
theorem spelled_round_trips {py : PythonApi} {new : PythonNew}
    {value : Nat → Scalar} {sch : Schema} {msgnum : UInt32} {items : Items}
    {garbage : Nat → Scratch} {calloc : UInt64 → Option Nat} {t : Tree}
    (hlaw : Lawful py new value) (hm : msgnum.toNat < sch.msgs.length)
    (hnames : sch.DistinctNames) (hdistinct : sch.Distinct)
    (hnum : sch.SmallNumbers) (hpacked : sch.PackedNumeric)
    (hno : sch.NoLong)
    (hcanon : Canonical value sch msgnum.toNat (.dict items))
    (ht : Spells py sch (.dict items) msgnum.toNat t)
    (hdepth : t.nesting ≤ maxDepth)
    (hlen : (t.wire sch).bytes.length < 2 ^ 31)
    (hcalloc : ∀ n, calloc n ≠ none) :
    encoderEncode py sch garbage calloc items msgnum
        = .string (t.wire sch).bytes none ∧
      (∀ uninit, decoderDecode new sch uninit (t.wire sch).bytes msgnum
        = .dict (t.fill new sch []) none) ∧
      Same value (.dict items) (.dict (t.fill new sch [])) := by
  refine ⟨?_, fun uninit => ?_, ?_⟩
  · have hbrief : Brief (t.wire sch).bytes := by
      unfold Brief
      omega
    rcases @encoderEncode_spells py sch t items garbage calloc msgnum hm hnum
      hpacked hno ht hbrief hcalloc with
      ⟨-, pending, hstring⟩ | ⟨hlong, -⟩
    · rw [hstring, encoderEncode_calm hlaw hno hcanon hstring]
    · exact absurd (spells_short hpacked ht (by omega)) hlong
  · exact decoderDecode_tree uninit hm hnames hdistinct hpacked
      (spellsObject_typed hnum ht) hdepth hlen
  · exact fill_same hlaw hnames hno ht hcanon

/-- A canonical dict is encoded, and decoded to an equal one. -/
theorem dict_round_trip (py : PythonApi) (new : PythonNew)
    (value : Nat → Scalar) (sch : Schema) (msgnum : UInt32) (items : Items)
    (garbage : Nat → Scratch) (calloc : UInt64 → Option Nat)
    (hlaw : Lawful py new value) (hm : msgnum.toNat < sch.msgs.length)
    (hnames : sch.DistinctNames) (hdistinct : sch.Distinct)
    (hnum : sch.SmallNumbers) (hpacked : sch.PackedNumeric)
    (hno : sch.NoLong)
    (hcanon : Canonical value sch msgnum.toNat (.dict items))
    (hsize : ∀ t, Spells py sch (.dict items) msgnum.toNat t →
      t.nesting ≤ maxDepth ∧ (t.wire sch).bytes.length < 2 ^ 31)
    (hcalloc : ∀ n, calloc n ≠ none) :
    ∃ bytes items',
      encoderEncode py sch garbage calloc items msgnum
        = .string bytes none ∧
      (∀ uninit, decoderDecode new sch uninit bytes msgnum
        = .dict items' none) ∧
      Same value (.dict items) (.dict items') := by
  -- the message that the dict spells
  obtain ⟨t, ht⟩ := canonical_spells hlaw hno hpacked hcanon
    (Nat.le_refl _)
  obtain ⟨hdepth, hlen⟩ := hsize t ht
  exact ⟨(t.wire sch).bytes, t.fill new sch [], spelled_round_trips hlaw hm
    hnames hdistinct hnum hpacked hno hcanon ht hdepth hlen hcalloc⟩

-- ============================================================ item by item

section

variable {value : Nat → Scalar} {sch : Schema} {m : MsgRef} {items : Items}

/-- What may be held under a field in a canonical dict. -/
structure Holds (value : Nat → Scalar) (sch : Schema) (desc : FieldDesc)
    (held : PyObject) : Prop where
  list : desc.opts.label = .repeated → ∃ elems, held = .list elems ∧ elems ≠ []
  single : desc.opts.label ≠ .repeated → ∀ elems, held ≠ .list elems
  scalars : desc.opts.typ ≠ .message →
    ∀ pyval ∈ held.values, IsValue value desc.opts.typ pyval
  messages : desc.opts.typ = .message → ∃ m', desc.msgDesc = some m' ∧
    ∀ pyval ∈ held.values, Canonical value sch m' pyval

/-- A dict is canonical if every item is the one of a field. -/
theorem canonical_of_items (hnames : sch.DistinctNames)
    (h : ∀ item ∈ items, ∃ desc ∈ (sch.msg m).fields, desc.name = item.1 ∧
      Holds value sch desc item.2) :
    Canonical value sch m (.dict items) := by
  have hitem : ∀ name held, items.lookup name = some held →
      (name, held) ∈ items := by
    intro name held hheld
    obtain ⟨before, behind, rfl, -⟩ := List.lookup_eq_some_iff.mp hheld
    exact List.mem_append_right _ List.mem_cons_self
  have hholds : ∀ desc ∈ (sch.msg m).fields, ∀ held,
      items.lookup desc.name = some held → Holds value sch desc held := by
    intro desc hdesc held hheld
    obtain ⟨desc', hdesc', hname, hholds⟩ := h _ (hitem _ held hheld)
    rwa [hnames.eq hdesc hdesc' hname.symm]
  refine .dict ?_ ?_ ?_ ?_ ?_ ?_
  · intro name hname
    obtain ⟨held, hheld⟩ := Option.ne_none_iff_exists'.mp hname
    obtain ⟨desc, hdesc, hdname, -⟩ := h _ (hitem name held hheld)
    exact ⟨desc, hdesc, hdname⟩
  · exact fun desc hdesc hrep held hheld =>
      (hholds desc hdesc held hheld).list hrep
  · exact fun desc hdesc hrep held hheld =>
      (hholds desc hdesc held hheld).single hrep
  · exact fun desc hdesc hmsg held hheld =>
      (hholds desc hdesc held hheld).scalars hmsg
  · intro desc hdesc hmsg hsome hnone
    obtain ⟨held, hheld⟩ := Option.ne_none_iff_exists'.mp hsome
    obtain ⟨m', hm', -⟩ := (hholds desc hdesc held hheld).messages hmsg
    rw [hnone] at hm'
    cases hm'
  · intro desc hdesc hmsg held hheld pyval hpyval m' hm'
    obtain ⟨m₁, hm₁, hall⟩ := (hholds desc hdesc held hheld).messages hmsg
    rw [hm'] at hm₁
    cases hm₁
    exact hall pyval hpyval

end

-- ================================================================= a sample

/-- A number, and a submessage with a packed run. -/
def plainDict : Items :=
  [("n", .other (plainId (.int (-5)))),
    ("inner", .dict [("run", .list [.other (plainId (.int 300))])])]

def plainSpelled : Tree :=
  .scalar ⟨0, 0⟩ (.int32 (-5))
    (.message ⟨0, 1⟩ (.packed ⟨0, 2⟩ [.uint64 300] .nil) .nil)

/-- It is spelled by a tree with submessages and a run. -/
theorem plainDict_spells :
    Spells plainPython sampleSchema (.dict plainDict) 0 plainSpelled :=
  spell_spells (by decide +kernel)

/-- A value in range, under its identity, is an object of its type. -/
theorem isValue_plain {typ : FieldType} {v : Scalar} (h : InRange typ v) :
    IsValue plainValue typ (.other (plainId v)) := by
  show InRange typ (plainValue (plainId v))
  rwa [plainValue_plainId]

/-- The dict with a value of every sort is canonical. -/
theorem plainDict_canonical :
    Canonical plainValue sampleSchema 0 (.dict plainDict) := by
  have hrun : IsValue plainValue .uint64 (.other (plainId (.int 300))) :=
    isValue_plain ⟨by decide, by decide⟩
  have hnumber : IsValue plainValue .sint32 (.other (plainId (.int (-5)))) :=
    isValue_plain ⟨by decide, by decide⟩
  have hinner : Canonical plainValue sampleSchema 0
      (.dict [("run", .list [.other (plainId (.int 300))])]) := by
    refine canonical_of_items (by decide) (List.forall_mem_singleton.mpr
      ⟨sampleSchema.field ⟨0, 2⟩, by decide, rfl, ?_⟩)
    exact {
      list := fun _ => ⟨_, rfl, List.cons_ne_nil _ _⟩
      single := fun hrep => absurd rfl hrep
      scalars := fun _ => List.forall_mem_singleton.mpr hrun
      messages := fun hmsg => absurd hmsg (by decide) }
  refine canonical_of_items (by decide) (List.forall_mem_cons.mpr
    ⟨⟨sampleSchema.field ⟨0, 0⟩, by decide, rfl, ?_⟩,
      List.forall_mem_singleton.mpr
        ⟨sampleSchema.field ⟨0, 1⟩, by decide, rfl, ?_⟩⟩)
  · exact {
      list := fun hrep => absurd hrep (by decide)
      single := fun _ _ h => PyObject.noConfusion h
      scalars := fun _ => List.forall_mem_singleton.mpr hnumber
      messages := fun hmsg => absurd hmsg (by decide) }
  · exact {
      list := fun hrep => absurd hrep (by decide)
      single := fun _ _ h => PyObject.noConfusion h
      scalars := fun hmsg => absurd rfl hmsg
      messages := fun _ => ⟨0, rfl, List.forall_mem_singleton.mpr hinner⟩ }

/-- Of a dict with nested messages, strings and a packed field. -/
theorem dict_round_trip_sample :
    ∃ bytes items',
      encoderEncode plainPython sampleSchema noScratch (fun _ => some 4096)
        plainDict 0 = .string bytes none ∧
      (∀ uninit, decoderDecode plainNew sampleSchema uninit bytes 0
        = .dict items' none) ∧
      Same plainValue (.dict plainDict) (.dict items') :=
  dict_round_trip plainPython plainNew plainValue sampleSchema 0 plainDict
    noScratch _ plain_lawful (by decide) (by decide) (by decide) (by decide)
    (by decide) (by decide) plainDict_canonical
    (fun t ht => by
      rw [spellsObject_unique (by decide) _ _ _ _ _ ht plainDict_spells]
      decide)
    fun _ => Option.some_ne_none _

end Lwpb.Python
