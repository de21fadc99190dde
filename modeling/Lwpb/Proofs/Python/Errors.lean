/-
Errors of the dict encoder.

A failed `pyobject_encode` returns -1, and neither of its callers
notices: `len < 0` is never true of a `size_t`. `Walk` is what is left of
a pass when lengths and bytes are forgotten: which values are visited,
the packed flag, and how it ends. Both passes make the walk
(`encodeObject_follows`); the writing pass moreover comes through only if
all it has met could be encoded, since a nested failure makes it move
`2 ^ 64 - 1` bytes.

So an error is reported if the walk ends with it, at a scalar of the
outermost dict, because no memory of `2 ^ 64 - 1` bytes is to be had
(`errors_reported`). The other errors get through.
-/
import Lwpb.Python.Encoder
import Lwpb.Proofs.Encoder2

namespace Lwpb.Python

variable (py : PythonApi) (sch : Schema)

-- ============================================================= what encodes

/-- The fields of a descriptor, if there is one. -/
def fieldsOf (md : Option MsgRef) : List FieldDesc :=
  (md.map fun m => (sch.msg m).fields).getD []

/-- Every value held under a field, at any depth, can be encoded. -/
inductive Encodable : Option MsgRef → PyObject → Prop where
  | dict {md : Option MsgRef} {items : List (String × PyObject)}
      (scalars : ∀ desc ∈ fieldsOf sch md, desc.opts.typ ≠ .message →
        ∀ held, items.lookup desc.name = some held →
        ∀ pyval ∈ held.values, rejects py pyval desc.opts.typ = false)
      (messages : ∀ desc ∈ fieldsOf sch md, desc.opts.typ = .message →
        ∀ held, items.lookup desc.name = some held →
        ∀ pyval ∈ held.values, Encodable desc.msgDesc pyval) :
      Encodable md (.dict items)

/-- One value under a field can be encoded. -/
def EncodableValue (desc : FieldDesc) (pyval : PyObject) : Prop :=
  if desc.opts.typ = .message then Encodable py sch desc.msgDesc pyval
  else rejects py pyval desc.opts.typ = false

/-- A dict is encodable if all values of the fields it holds are. -/
theorem encodable_dict {md : Option MsgRef}
    {items : List (String × PyObject)}
    (h : ∀ desc ∈ fieldsOf sch md, ∀ held,
      items.lookup desc.name = some held →
      ∀ pyval ∈ held.values, EncodableValue py sch desc pyval) :
    Encodable py sch md (.dict items) := by
  refine .dict ?_ ?_
  · intro desc hdesc htyp held hheld pyval hval
    have hvalue := h desc hdesc held hheld pyval hval
    rw [EncodableValue, if_neg htyp] at hvalue
    exact hvalue
  · intro desc hdesc htyp held hheld pyval hval
    have hvalue := h desc hdesc held hheld pyval hval
    rw [EncodableValue, if_pos htyp] at hvalue
    exact hvalue

-- ================================================================= the walk

/-- How a pass ends: with the packed flag it leaves, at a value that is
rejected, or with no return at all. -/
inductive Walk where
  | done (packed : Bool)
  | rejected (packed : Bool)
  | stuck
  deriving Repr, DecidableEq

/-- Go on with the packed flag. -/
def Walk.andThen : Walk → (Bool → Walk) → Walk
  | .done packed, next => next packed
  | .rejected packed, _ => .rejected packed
  | .stuck, _ => .stuck

/-- What a nested walk is to the walk around it: an error is no error. -/
def Walk.swallow : Walk → Walk
  | .rejected packed => .done packed
  | w => w

section

variable (nested : PyObject → Option MsgRef → Bool → Walk)

def walkValue (desc : FieldDesc) (pyval : PyObject) (packed : Bool) : Walk :=
  if desc.opts.typ = .message then (nested pyval desc.msgDesc packed).swallow
  else if rejects py pyval desc.opts.typ then .rejected packed
  else .done packed

def walkValues (desc : FieldDesc) : List PyObject → Bool → Walk
  | [], packed => .done packed
  | pyval :: values, packed =>
      (walkValue py nested desc pyval packed).andThen
        (walkValues desc values)

def walkList (desc : FieldDesc) (values : List PyObject) (packed : Bool) :
    Walk :=
  if values.length < 2 ^ 32 then walkValues py nested desc values packed
  else (walkValues py nested desc (values.take (2 ^ 32)) packed).andThen
    fun _ => .stuck

def walkField (items : List (String × PyObject)) (desc : FieldDesc)
    (packed : Bool) : Walk :=
  match items.lookup desc.name with
  | none => .done packed
  | some pyval =>
      if desc.isPackedRepeated then
        if packed then .stuck
        else (walkList py nested desc pyval.values true).andThen
          fun packed => if packed then .done false else .stuck
      else walkList py nested desc pyval.values packed

def walkFields (items : List (String × PyObject)) :
    List FieldDesc → Bool → Walk
  | [], packed => .done packed
  | desc :: fields, packed =>
      (walkField py nested items desc packed).andThen
        (walkFields items fields)

end

/-- The walk of a pass over an object. -/
def walkObject : (stack : Nat) → PyObject → Option MsgRef → Bool → Walk
  | 0, _, _, _ => .stuck
  | stack + 1, obj, md, packed =>
      match obj with
      | .dict items =>
          match md with
          | none => .stuck
          | some m => walkFields py (walkObject stack) items (sch.msg m).fields
              packed
      | _ => .rejected packed

-- ================================================================== results

variable {py sch}

/-- A loop has made this walk in a block of `size` bytes. Where it is
`free` to write it may fault as well. -/
def Follows {α : Type} (free : Bool) (size : Nat) (r : Ret (Option α))
    (w : Walk) (good : α → Prop) : Prop :=
  match r with
  | .ret (some a) s => w = .done s.packed ∧ s.heap.size = size ∧ good a
  | .ret none s =>
      w = .rejected s.packed ∧ s.heap.size = size ∧ s.error.isSome
  | .abort | .fault | .runaway => free = true ∨ w = .stuck

/-- The same for a call, whose failure is a length. -/
def Answers (free : Bool) (size : Nat) (r : Ret UInt64) (w : Walk)
    (good : Prop) : Prop :=
  match r with
  | .ret len s => s.heap.size = size ∧
      (w = .done s.packed ∧ good ∨
        w = .rejected s.packed ∧ len = -1 ∧ s.error.isSome)
  | .abort | .fault | .runaway => free = true ∨ w = .stuck

section

variable {α β : Type} {free : Bool} {size : Nat} {w : Walk}
  {good : α → Prop} {good' : β → Prop}

/-- Where writing is free, a fault is allowed. -/
theorem Follows.fault (h : free = true) :
    Follows free size .fault w good := .inl h

/-- A walk of two parts, the second of which starts where the first is done.
-/
theorem Follows.andThen {r : Ret (Option α)}
    {next : α → State → Ret (Option β)} {wnext : Bool → Walk}
    (h : Follows free size r w good)
    (hnext : ∀ a s, s.heap.size = size → good a →
      Follows free size (next a s) (wnext s.packed) good') :
    Follows free size (r.andThen next) (w.andThen wnext) good' := by
  cases r with
  | ret a s =>
      cases a with
      | none =>
          obtain ⟨rfl, hsize, herr⟩ := h
          exact ⟨rfl, hsize, herr⟩
      | some a =>
          obtain ⟨rfl, hsize, hgood⟩ := h
          exact hnext a s hsize hgood
  | abort | fault | runaway =>
      rcases h with hfree | rfl
      · exact .inl hfree
      · exact .inr rfl

/-- What is known of the end can be weakened. -/
theorem Follows.mono {r : Ret (Option α)} {good' : α → Prop}
    (h : Follows free size r w good) (hgood : ∀ a, good a → good' a) :
    Follows free size r w good' := by
  cases r with
  | ret a s =>
      cases a with
      | none => exact h
      | some a => exact ⟨h.1, h.2.1, hgood a h.2.2⟩
  | abort | fault | runaway => exact h

end

-- =================================================================== values

section

variable {free : Bool} {size : Nat} {uninit : UInt64} {desc : FieldDesc}
  {nested : PyObject → Option MsgRef → Option Nat → State → Ret UInt64}
  {wnested : PyObject → Option MsgRef → Bool → Walk}

/-- Adding a field leaves the packed flag alone, and only faults where
there is a buffer. -/
theorem addField_cases (uninit : UInt64) (desc : FieldDesc) (val : RawValue)
    (buf : Option Nat) (s : State) :
    addField uninit desc val buf s = .fault ∧ buf.isSome ∨
      ∃ n heap, s.heap.SameBlock heap ∧
        addField uninit desc val buf s = .ret n { s with heap := heap } := by
  unfold addField
  cases hadd : Encoder2.addField s.packed uninit s.heap desc val buf with
  | none =>
      cases buf with
      | none =>
          obtain ⟨n, hsome⟩ := Encoder2.addField_none s.packed uninit s.heap
            desc val
          rw [hsome] at hadd
          cases hadd
      | some a => exact .inl ⟨rfl, rfl⟩
  | some r =>
      obtain ⟨heap, n⟩ := r
      exact .inr ⟨n, heap, Encoder2.addField_sameBlock hadd, rfl⟩

/-- Reserving room keeps a null pointer null. -/
theorem reserve_isSome (p : Option Nat) :
    (reserve p).isSome = p.isSome :=
  Option.isSome_map

/-- Adding a value is always done, or writes outside the block. -/
theorem addValue_follows {l : ValueLocals} {s : State}
    (hbuf : l.valuebuf.isSome = free) (hs : s.heap.size = size) :
    Follows free size
      ((addValue uninit desc l s).bind fun l s => .ret (some l) s)
      (.done s.packed) fun l' => l'.valuebuf.isSome = free := by
  unfold addValue
  rcases addField_cases uninit desc l.val l.valuebuf s with
    ⟨hfault, hsome⟩ | ⟨n, heap, hsame, hret⟩
  · rw [hfault]
    exact .inl (hbuf.symm.trans hsome)
  · rw [hret]
    refine ⟨rfl, hsame.2.trans hs, ?_⟩
    show (l.valuebuf.map _).isSome = free
    rw [Option.isSome_map, hbuf]

/-- The copy that a nested failure asks for. -/
theorem addValue_failed {l : ValueLocals} {s : State}
    (htyp : desc.opts.typ = .message) (hbuf : l.valuebuf.isSome = true)
    (hlen : l.val.len = -1) (hsize : s.heap.size < 2 ^ 64) :
    addValue uninit desc l s = .fault := by
  obtain ⟨a, ha⟩ := Option.isSome_iff_exists.mp hbuf
  rw [addValue, addField, ha, Encoder2.addField_failed hsize htyp hlen]
  rfl

/-- What a nested call has to be: it makes its walk, and if it writes and
comes through, then what it was given can be encoded. -/
def Nested (py : PythonApi) (sch : Schema) (free : Bool) (size : Nat)
    (nested : PyObject → Option MsgRef → Option Nat → State → Ret UInt64)
    (wnested : PyObject → Option MsgRef → Bool → Walk) : Prop :=
  ∀ obj md buf s, buf.isSome = free → s.heap.size = size →
    Answers free size (nested obj md buf s) (wnested obj md s.packed)
      (free = true → Encodable py sch md obj)

/-- One value: it is rejected if its conversion is, or the message inside. -/
theorem encodeValue_follows (hsize : size < 2 ^ 64)
    (hnested : Nested py sch free size nested wnested) {pyval : PyObject}
    {l : ValueLocals} {s : State} (hbuf : l.valuebuf.isSome = free)
    (hs : s.heap.size = size) :
    Follows free size (encodeValue py uninit nested desc pyval l s)
      (walkValue py wnested desc pyval s.packed) fun l' =>
        l'.valuebuf.isSome = free ∧
          (free = true → EncodableValue py sch desc pyval) := by
  unfold encodeValue walkValue EncodableValue
  by_cases htyp : desc.opts.typ = .message
  · simp only [if_pos htyp]
    have hcall := hnested pyval desc.msgDesc (reserve l.valuebuf) s
      ((reserve_isSome _).trans hbuf) hs
    cases hr : nested pyval desc.msgDesc (reserve l.valuebuf) s with
    | ret len t =>
        rw [hr] at hcall
        obtain ⟨ht, hwalk⟩ := hcall
        have hdone : (wnested pyval desc.msgDesc s.packed).swallow
            = .done t.packed := by
          rcases hwalk with ⟨hw, -⟩ | ⟨hw, -, -⟩
          · rw [hw]
            rfl
          · rw [hw]
            rfl
        rw [hdone, Ret.ret_bind, if_neg UInt64.not_lt_zero]
        by_cases hlen : free = true ∧ len = -1
        · obtain ⟨hfree, rfl⟩ := hlen
          rw [addValue_failed htyp ?_ rfl (ht ▸ hsize), Ret.fault_bind]
          · exact .fault hfree
          · exact hbuf.trans hfree
        · refine (addValue_follows ?_ ht).mono fun l' hl' => ⟨hl', ?_⟩
          · exact hbuf
          · intro hfree
            rcases hwalk with ⟨-, hgood⟩ | ⟨-, hneg, -⟩
            · exact hgood hfree
            · exact absurd ⟨hfree, hneg⟩ hlen
    | abort | fault | runaway =>
        rw [hr] at hcall
        rcases hcall with hfree | hw
        · exact .inl hfree
        · rw [hw]
          exact .inr rfl
  · simp only [if_neg htyp]
    cases hpy : pyToLwpb py l.val pyval desc.opts.typ with
    | error e =>
        rw [pyToLwpb_rejects hpy, if_pos rfl]
        exact ⟨rfl, hs, rfl⟩
    | ok r =>
        have hacc := pyToLwpb_accepts hpy
        rw [hacc, if_neg Bool.false_ne_true]
        refine (addValue_follows ?_ ?_).mono fun l' hl' =>
          ⟨hl', fun _ => rfl⟩
        · exact hbuf
        · exact hs

/-- The loop over the values: by induction on the list, it is rejected at the
first value that is. -/
theorem encodeValues_follows (hsize : size < 2 ^ 64)
    (hnested : Nested py sch free size nested wnested)
    {values : List PyObject} {l : ValueLocals} {s : State}
    (hbuf : l.valuebuf.isSome = free) (hs : s.heap.size = size) :
    Follows free size (encodeValues py uninit nested desc values l s)
      (walkValues py wnested desc values s.packed) fun l' =>
        l'.valuebuf.isSome = free ∧ (free = true →
          ∀ pyval ∈ values, EncodableValue py sch desc pyval) := by
  induction values generalizing l s with
  | nil => exact ⟨rfl, hs, hbuf, fun _ _ h => absurd h List.not_mem_nil⟩
  | cons pyval values ih =>
      refine (encodeValue_follows hsize hnested hbuf hs).andThen ?_
      intro l' t ht hgood
      refine (ih hgood.1 ht).mono fun l'' hl'' => ⟨hl''.1, ?_⟩
      intro hfree
      exact List.forall_mem_cons.mpr ⟨hgood.2 hfree, hl''.2 hfree⟩

/-- The same with the loop counter. -/
theorem encodeList_follows (hsize : size < 2 ^ 64)
    (hnested : Nested py sch free size nested wnested)
    {values : List PyObject} {l : ValueLocals} {s : State}
    (hbuf : l.valuebuf.isSome = free) (hs : s.heap.size = size) :
    Follows free size (encodeList py uninit nested desc values l s)
      (walkList py wnested desc values s.packed) fun l' =>
        l'.valuebuf.isSome = free ∧ (free = true →
          ∀ pyval ∈ values, EncodableValue py sch desc pyval) := by
  unfold encodeList walkList
  by_cases hlen : values.length < 2 ^ 32
  · rw [if_pos hlen, if_pos hlen]
    exact encodeValues_follows hsize hnested hbuf hs
  · rw [if_neg hlen, if_neg hlen]
    exact (encodeValues_follows hsize hnested hbuf hs).andThen
      fun _ _ _ _ => .inr rfl

-- =================================================================== fields

/-- What is held under a field can be encoded. -/
def EncodableField (py : PythonApi) (sch : Schema)
    (items : List (String × PyObject)) (desc : FieldDesc) : Prop :=
  ∀ held, items.lookup desc.name = some held →
    ∀ pyval ∈ held.values, EncodableValue py sch desc pyval

/-- A run is opened and closed around its values, and a second one inside it
stops the encoder. -/
theorem encodePacked_follows (hsize : size < 2 ^ 64)
    (hnested : Nested py sch free size nested wnested)
    {values : List PyObject} {l : FieldLocals} {s : State}
    (hrun : desc.isPackedRepeated = true) (hbuf : l.buf.isSome = free)
    (hs : s.heap.size = size) :
    Follows free size (encodePacked py uninit nested desc values l s)
      (if s.packed then .stuck
        else (walkList py wnested desc values true).andThen
          fun packed => if packed then .done false else .stuck) fun l' =>
        l'.buf.isSome = free ∧ (free = true →
          ∀ pyval ∈ values, EncodableValue py sch desc pyval) := by
  unfold encodePacked Encoder2.packedRepeatedStart
  rw [hrun, Bool.not_true, if_neg Bool.false_ne_true]
  cases hpacked : s.packed with
  | true => exact .inr rfl
  | false =>
      simp only [Bool.false_eq_true, if_false]
      refine (encodeList_follows hsize hnested ?_ ?_).andThen ?_
      · exact (reserve_isSome _).trans hbuf
      · exact hs
      intro v t ht hgood
      unfold Encoder2.packedRepeatedEnd
      cases t.packed with
      | false => exact .inr rfl
      | true =>
          simp only [Bool.not_true, Bool.false_eq_true, if_false, if_true]
          rcases addField_cases uninit desc
            (setMessage v.val (reserve l.buf) v.fieldlen) l.buf
            { t with packed := false } with
            ⟨hfault, hsome⟩ | ⟨n, heap, hsame, hret⟩
          · rw [hfault]
            exact .inl (hbuf.symm.trans hsome)
          · rw [hret]
            refine ⟨rfl, hsame.2.trans ht, ?_, hgood.2⟩
            show (l.buf.map _).isSome = free
            rw [Option.isSome_map, hbuf]

/-- A field that the dict does not hold is passed over. -/
theorem encodeField_follows (hsize : size < 2 ^ 64)
    (hnested : Nested py sch free size nested wnested)
    {items : List (String × PyObject)} {l : FieldLocals} {s : State}
    (hbuf : l.buf.isSome = free) (hs : s.heap.size = size) :
    Follows free size (encodeField py uninit nested items desc l s)
      (walkField py wnested items desc s.packed) fun l' =>
        l'.buf.isSome = free ∧
          (free = true → EncodableField py sch items desc) := by
  unfold encodeField walkField EncodableField
  cases items.lookup desc.name with
  | none => exact ⟨rfl, hs, hbuf, fun _ held h =>
      absurd h.symm (Option.some_ne_none held)⟩
  | some pyval =>
      have hheld : ∀ (P : PyObject → Prop),
          (∀ v ∈ pyval.values, P v) →
            ∀ held, some pyval = some held → ∀ v ∈ held.values, P v := by
        intro P hP held heq
        cases heq
        exact hP
      cases hrun : desc.isPackedRepeated with
      | true =>
          refine (encodePacked_follows hsize hnested hrun hbuf hs).mono ?_
          exact fun l' hl' => ⟨hl'.1, fun hfree => hheld _ (hl'.2 hfree)⟩
      | false =>
          simp only [Bool.false_eq_true, if_false]
          have hlist := @encodeList_follows py sch free size uninit desc
            nested wnested hsize hnested pyval.values
            ⟨l.extralen, l.val, l.buf, 0⟩ s hbuf hs
          unfold encodePlain
          generalize walkList py wnested desc pyval.values s.packed = w
            at hlist ⊢
          cases hr : encodeList py uninit nested desc pyval.values
              ⟨l.extralen, l.val, l.buf, 0⟩ s with
          | ret v t =>
              rw [hr] at hlist
              cases v with
              | none => exact hlist
              | some v =>
                  refine ⟨hlist.1, hlist.2.1, ?_, fun hfree =>
                    hheld _ (hlist.2.2.2 hfree)⟩
                  show (l.buf.map _).isSome = free
                  rw [Option.isSome_map, hbuf]
          | abort | fault | runaway =>
              rw [hr] at hlist
              exact hlist

/-- The loop over the fields of the descriptor. -/
theorem encodeFields_follows (hsize : size < 2 ^ 64)
    (hnested : Nested py sch free size nested wnested)
    {items : List (String × PyObject)} {fields : List FieldDesc}
    {l : FieldLocals} {s : State} (hbuf : l.buf.isSome = free)
    (hs : s.heap.size = size) :
    Follows free size (encodeFields py uninit nested items fields l s)
      (walkFields py wnested items fields s.packed) fun l' =>
        l'.buf.isSome = free ∧ (free = true →
          ∀ desc ∈ fields, EncodableField py sch items desc) := by
  induction fields generalizing l s with
  | nil => exact ⟨rfl, hs, hbuf, fun _ _ h => absurd h List.not_mem_nil⟩
  | cons desc fields ih =>
      refine (encodeField_follows hsize hnested hbuf hs).andThen ?_
      intro l' t ht hgood
      refine (ih hgood.1 ht).mono fun l'' hl'' => ⟨hl''.1, ?_⟩
      intro hfree
      exact List.forall_mem_cons.mpr ⟨hgood.2 hfree, hl''.2 hfree⟩

/-- Every call makes its walk. -/
theorem encodeObject_follows (py : PythonApi) (sch : Schema)
    (garbage : Nat → Scratch) (free : Bool) (hsize : size < 2 ^ 64)
    (stack : Nat) :
    Nested py sch free size (encodeObject py sch garbage stack)
      (walkObject py sch stack) := by
  induction stack with
  | zero => exact fun obj md buf s _ _ => .inr rfl
  | succ stack ih =>
      intro obj md buf s hbuf hs
      cases obj with
      | list elems | bool b | other id =>
          exact ⟨hs, .inr ⟨rfl, rfl, rfl⟩⟩
      | dict items =>
          cases md with
          | none => exact .inr rfl
          | some m =>
              have hfields := @encodeFields_follows py sch free size
                (garbage s.calls).wireValue _ _ hsize ih items
                (sch.msg m).fields ⟨0, 0, (garbage s.calls).value, buf⟩
                { s with calls := s.calls + 1 } hbuf hs
              simp only [encodeObject, walkObject]
              revert hfields
              generalize encodeFields py _ _ items _ _ _ = r
              intro hfields
              cases r with
              | ret l t =>
                  cases l with
                  | none =>
                      exact ⟨hfields.2.1, .inr ⟨hfields.1, rfl, hfields.2.2⟩⟩
                  | some l =>
                      refine ⟨hfields.2.1, .inl ⟨hfields.1, fun hfree => ?_⟩⟩
                      exact encodable_dict py sch (hfields.2.2.2 hfree)
              | abort | fault | runaway => exact hfields

end

-- ================================================================== reports

/-- The sizing pass of an `Encoder_encode`. -/
def sizingPass (py : PythonApi) (sch : Schema) (garbage : Nat → Scratch)
    (items : List (String × PyObject)) (m : MsgRef) : Ret UInt64 :=
  pyobjectEncode py sch garbage (.dict items) (some m) none
    ⟨Encoder2.start, ⟨fun _ => 0, 0, 0⟩, none, 0⟩

/-- Errors are reported: NULL and an exception for a dict that cannot be
encoded, and a string only for one that can. And no failed call gets as far
as a block: the sizing pass, which has none, is the last, so that nothing
is written or copied by a length that is none. -/
structure Reports (py : PythonApi) (sch : Schema)
    (garbage : Nat → Scratch) (calloc : UInt64 → Option Nat)
    (items : List (String × PyObject)) (msgnum : UInt32) : Prop where
  error : ¬ Encodable py sch (some msgnum.toNat) (.dict items) →
    ∃ e, encoderEncode py sch garbage calloc items msgnum = .null (some e)
  string : ∀ bytes pending,
    encoderEncode py sch garbage calloc items msgnum = .string bytes pending →
    Encodable py sch (some msgnum.toNat) (.dict items)
  unwritten : ¬ Encodable py sch (some msgnum.toNat) (.dict items) →
    ∀ len s, sizingPass py sch garbage items msgnum.toNat = .ret len s →
      s.heap.size = 0 ∧ calloc len = none

/-- The walk over a dict ends at a scalar of the dict itself that is
rejected: nothing before it fails an assertion, follows a NULL descriptor
or goes on for ever. -/
def RejectedOutermost (py : PythonApi) (sch : Schema)
    (items : List (String × PyObject)) (m : MsgRef) : Prop :=
  ∃ packed, walkObject py sch (PyObject.dict items).depth (.dict items)
    (some m) Encoder2.start = .rejected packed

variable {items : List (String × PyObject)} {m : MsgRef}

/-- A dict that is encodable has nothing to report. -/
theorem Reports.of_encodable {garbage : Nat → Scratch}
    {calloc : UInt64 → Option Nat} {msgnum : UInt32}
    (h : Encodable py sch (some msgnum.toNat) (.dict items)) :
    Reports py sch garbage calloc items msgnum where
  error hnot := absurd h hnot
  string _ _ _ := h
  unwritten hnot := absurd h hnot

/-- There are no fields behind the last message. -/
theorem encodable_of_le (h : sch.msgs.length ≤ m) :
    Encodable py sch (some m) (.dict items) := by
  have hfields : fieldsOf sch (some m) = [] := by
    show (sch.msgs.getD m ⟨[]⟩).fields = []
    rw [List.getD_eq_getElem?_getD, List.getElem?_eq_none h]
    rfl
  refine encodable_dict py sch fun desc hdesc => ?_
  rw [hfields] at hdesc
  exact absurd hdesc List.not_mem_nil

/-- A pass over the dict of an `Encoder_encode`. -/
theorem pass_answers (py : PythonApi) (sch : Schema)
    (garbage : Nat → Scratch) {buf : Option Nat} {s : State}
    (hsize : s.heap.size < 2 ^ 64) :
    Answers buf.isSome s.heap.size
      (pyobjectEncode py sch garbage (.dict items) (some m) buf
        { s with packed := Encoder2.start })
      (walkObject py sch (PyObject.dict items).depth (.dict items) (some m)
        Encoder2.start)
      (buf.isSome = true → Encodable py sch (some m) (.dict items)) :=
  encodeObject_follows py sch garbage buf.isSome hsize _ _ _ _ _ rfl rfl

/-- What follows the sizing pass. -/
theorem encoderEncode_second {garbage : Nat → Scratch}
    {calloc : UInt64 → Option Nat} {msgnum : UInt32} {len : UInt64}
    {s : State} (hm : ¬ sch.msgs.length ≤ msgnum.toNat)
    (hpass : sizingPass py sch garbage items msgnum.toNat = .ret len s) :
    encoderEncode py sch garbage calloc items msgnum
      = match calloc len with
        | none => .null (some ⟨.memoryError, "unable to allocate string"⟩)
        | some buf =>
            encodePass py sch garbage items msgnum (some buf)
                { s with heap := ⟨fun _ => 0, buf, len.toNat⟩ } fun len s =>
              stringFromBlock s.heap len s.error := by
  unfold sizingPass at hpass
  rw [encoderEncode, if_neg hm, encodePass, hpass]
  exact if_neg UInt64.not_lt_zero

/-- A string behind a pass: the pass returned. -/
theorem encodePass_string {garbage : Nat → Scratch} {msgnum : UInt32}
    {buf : Option Nat} {s : State} {done : UInt64 → State → Encoded}
    {bytes : Bytes} {pending : Option PyErr}
    (h : encodePass py sch garbage items msgnum buf s done
      = .string bytes pending) :
    ∃ len s', pyobjectEncode py sch garbage (.dict items)
        (some msgnum.toNat) buf { s with packed := Encoder2.start }
        = .ret len s' ∧ done len s' = .string bytes pending := by
  unfold encodePass at h
  split at h
  · cases h
  · cases h
  · cases h
  · next len s' hret =>
      rw [if_neg UInt64.not_lt_zero] at h
      exact ⟨len, s', hret, h⟩

/-- A string comes from two passes that return, with a block between
them. -/
theorem encoderEncode_string {garbage : Nat → Scratch}
    {calloc : UInt64 → Option Nat} {msgnum : UInt32} {bytes : Bytes}
    {pending : Option PyErr}
    (h : encoderEncode py sch garbage calloc items msgnum
      = .string bytes pending) :
    msgnum.toNat < sch.msgs.length ∧ ∃ size s buf len s',
      sizingPass py sch garbage items msgnum.toNat = .ret size s ∧
      calloc size = some buf ∧
      pyobjectEncode py sch garbage (.dict items) (some msgnum.toNat)
        (some buf) ⟨Encoder2.start, ⟨fun _ => 0, buf, size.toNat⟩, s.error,
          s.calls⟩ = .ret len s' ∧
      bytes = Memory.read s'.heap.mem s'.heap.base len.toNat ∧
      pending = s'.error := by
  unfold encoderEncode at h
  split at h
  · cases h
  · next hm =>
      refine ⟨Nat.not_le.mp hm, ?_⟩
      obtain ⟨size, s, hfirst, h⟩ := encodePass_string h
      split at h
      · cases h
      · next buf hbuf =>
          obtain ⟨len, s', hsecond, h⟩ := encodePass_string h
          unfold stringFromBlock at h
          split at h
          · cases h
          · split at h
            · cases h
            · cases h
              exact ⟨size, s, buf, len, s', hfirst, hbuf, hsecond, rfl, rfl⟩

/-- Errors are reported if the failure that counts is a scalar of the
outermost dict. Otherwise a dict that cannot be encoded is not reported,
unless memory happens to run out. -/
theorem errors_reported (py : PythonApi) (sch : Schema)
    (items : List (String × PyObject)) (msgnum : UInt32) :
    (Encodable py sch (some msgnum.toNat) (.dict items) ∨
        RejectedOutermost py sch items msgnum.toNat →
      ∀ garbage calloc, calloc (-1) = none →
        Reports py sch garbage calloc items msgnum) ∧
    (¬ (Encodable py sch (some msgnum.toNat) (.dict items) ∨
        RejectedOutermost py sch items msgnum.toNat) →
      ∀ garbage calloc,
        (∀ len s, sizingPass py sch garbage items msgnum.toNat = .ret len s →
          calloc len ≠ none) →
        ¬ Reports py sch garbage calloc items msgnum) := by
  constructor
  · intro hcond garbage calloc hcalloc
    by_cases hm : sch.msgs.length ≤ msgnum.toNat
    · exact .of_encodable (encodable_of_le hm)
    rcases hcond with henc | ⟨packed, hwalk⟩
    · exact .of_encodable henc
    have hfirst := @pass_answers items msgnum.toNat py sch garbage none
      ⟨Encoder2.start, ⟨fun _ => 0, 0, 0⟩, none, 0⟩ (by decide)
    rw [hwalk] at hfirst
    change Answers _ _ (sizingPass py sch garbage items msgnum.toNat) _ _
      at hfirst
    cases hr : sizingPass py sch garbage items msgnum.toNat with
    | ret len s =>
        rw [hr] at hfirst
        rcases hfirst.2 with ⟨hdone, -⟩ | ⟨-, rfl, -⟩
        · cases hdone
        · have hnull : encoderEncode py sch garbage calloc items msgnum
              = .null (some ⟨.memoryError, "unable to allocate string"⟩) := by
            rw [encoderEncode_second hm hr, hcalloc]
          refine ⟨fun _ => ⟨_, hnull⟩, fun bytes pending hstring => ?_,
            fun _ len t ht => ?_⟩
          · rw [hnull] at hstring
            cases hstring
          · rw [hr] at ht
            cases ht
            exact ⟨hfirst.1, hcalloc⟩
    | abort | fault | runaway =>
        rw [hr] at hfirst
        rcases hfirst with hfree | hstuck
        · cases hfree
        · cases hstuck
  · intro hcond garbage calloc hcalloc hrep
    have henc := fun h => hcond (.inl h)
    have hrej := fun p h => hcond (.inr ⟨p, h⟩)
    have hm : ¬ sch.msgs.length ≤ msgnum.toNat :=
      fun hle => henc (encodable_of_le hle)
    obtain ⟨e, hnull⟩ := hrep.error henc
    cases hr : sizingPass py sch garbage items msgnum.toNat with
    | ret len s =>
        obtain ⟨buf, hbuf⟩ := Option.ne_none_iff_exists'.mp
          (hcalloc len s hr)
        have hsecond := @pass_answers items msgnum.toNat py sch garbage
          (some buf) { s with heap := ⟨fun _ => 0, buf, len.toNat⟩ }
          len.toNat_lt
        rw [encoderEncode_second hm hr, hbuf] at hnull
        simp only [encodePass] at hnull
        cases hr' : pyobjectEncode py sch garbage (.dict items)
            (some msgnum.toNat) (some buf)
            ⟨Encoder2.start, ⟨fun _ => 0, buf, len.toNat⟩, s.error,
              s.calls⟩ with
        | ret len' t =>
            rw [hr'] at hsecond
            rcases hsecond.2 with ⟨-, hgood⟩ | ⟨hwalk, -, -⟩
            · exact henc (hgood rfl)
            · exact hrej _ hwalk
        | abort | fault | runaway =>
            rw [hr'] at hnull
            cases hnull
    | abort | fault | runaway =>
        unfold sizingPass at hr
        rw [encoderEncode, if_neg hm, encodePass, hr] at hnull
        cases hnull

/-- A message with a message in it. -/
def linkSchema : Schema :=
  ⟨[⟨[⟨1, ⟨.optional, .message, 0⟩, some 0, "m"⟩]⟩]⟩

/-- NULL was returned. -/
def Encoded.isNull : Encoded → Bool
  | .null _ => true
  | _ => false

/-- A number where a message is expected: the sizing pass counts 20 bytes,
and the writing pass moves `2 ^ 64 - 1`. -/
theorem errors_unreported :
    ¬ Reports samplePython linkSchema
      (fun _ => ⟨⟨0, .ext fun _ => 0, 0⟩, 0⟩)
      (fun n => if n = -1 then none else some 4096)
      [("m", .other 15)] 0 := by
  intro hrep
  have hnot : ¬ Encodable samplePython linkSchema (some 0)
      (.dict [("m", .other 15)]) := by
    intro h
    obtain ⟨-, hmessages⟩ := h
    have hm := hmessages ⟨1, ⟨.optional, .message, 0⟩, some 0, "m"⟩
      (by decide) rfl (.other 15) rfl (.other 15)
      (List.mem_singleton_self _)
    cases hm
  obtain ⟨e, hnull⟩ := hrep.error hnot
  have hfault : (encoderEncode samplePython linkSchema
      (fun _ => ⟨⟨0, .ext fun _ => 0, 0⟩, 0⟩)
      (fun n => if n = -1 then none else some 4096)
      [("m", .other 15)] 0).isNull = false := by
    decide +kernel
  rw [hnull] at hfault
  cases hfault

end Lwpb.Python
