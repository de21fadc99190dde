/-
Two passes, two encoders.

The sizing pass returns the estimate, and the writing pass stays inside of
a block of that size (`writing_within`). So `Encoder_encode` comes to the
bytes of the message that the dict is, and they are those that the calls
of `lwpb_encoder` leave for the same message (`encoders_agree`). The one
dict for which it does not is one with a list of `2 ^ 32` values or more:
then the first pass already never ends.

What has to be put together is that the passes mean the same. Both are
stated for the tree that the dict spells: the first returns
`Tree.estimate` of it, the second writes its bytes if there is room for
all that is moved on the way, and the estimate covers that room
(`room_of_estimate`). The comparison with `lwpb_encoder` goes through the
same tree, as `encoder_serialises` has it; the two encoders are never
compared call by call, which would not work, as they move different bytes
at different times.
-/
import Lwpb.Proofs.Python.Sizing

namespace Lwpb.Python

open Memory Base128

-- ============================================================ typed messages

section

variable {py : PythonApi} {sch : Schema} {f : FieldRef} {desc : FieldDesc}
  {spelled : PyObject → MsgRef → Tree → Prop} {m : MsgRef} {t : Tree}
  {values : List PyObject} {items : List (String × PyObject)}
  {fields : List FieldDesc} {i : Nat} {obj : PyObject} {held : PyObject}

/-- The tree of the values of a plain field is of the type of the field. -/
theorem spellsValues_typed (hfield : sch.field f = desc)
    (hf : sch.Numbered m f) (hrun : desc.isPackedRepeated = false)
    (hnested : ∀ obj m t, spelled obj m t → t.Typed Value.OfType sch m)
    (h : SpellsValues py spelled f desc values t) :
    t.Typed Value.OfType sch m := by
  subst hfield
  induction values generalizing t with
  | nil =>
      cases h
      trivial
  | cons v values ih =>
      obtain ⟨rest, hrest, hone⟩ := h
      by_cases htyp : (sch.field f).opts.typ = .message
      · rw [if_pos htyp] at hone
        obtain ⟨m', body, hm', hbody, rfl⟩ := hone
        have hsub : sch.subDesc f = m' := by
          rw [Schema.subDesc, hm']
          rfl
        refine ⟨hf, htyp, ⟨m', hm'⟩, ?_, ih hrest⟩
        rw [hsub]
        exact hnested v m' body hbody
      · rw [if_neg htyp] at hone
        obtain ⟨x, hx, rfl⟩ := hone
        exact ⟨hf, hrun, hx.ofType, ih hrest⟩

/-- What an object converts to is of the type. -/
theorem converts_ofType {typ : FieldType} {xs : List (Value Bytes)}
    (h : List.Forall₂ (Converts py typ) values xs) :
    ∀ x ∈ xs, x.OfType typ := by
  induction h with
  | nil => exact fun x hx => absurd hx List.not_mem_nil
  | cons hone _ ih => exact List.forall_mem_cons.mpr ⟨hone.ofType, ih⟩

/-- The tree of a field is typed, in a run or not. -/
theorem spellsField_typed (hfield : sch.field f = desc)
    (hf : sch.Numbered m f)
    (hnested : ∀ obj m t, spelled obj m t → t.Typed Value.OfType sch m)
    (h : SpellsField py spelled f desc held t) :
    t.Typed Value.OfType sch m := by
  unfold SpellsField at h
  cases hrun : desc.isPackedRepeated with
  | true =>
      rw [hrun, if_pos rfl] at h
      obtain ⟨xs, hxs, rfl⟩ := h
      subst hfield
      exact ⟨hf, hrun, converts_ofType hxs, trivial⟩
  | false =>
      rw [hrun, if_neg Bool.false_ne_true] at h
      exact spellsValues_typed hfield hf hrun hnested h

/-- The tree of a dict is typed, field by field. -/
theorem spellsFields_typed (hnum : sch.SmallNumbers)
    (hnested : ∀ obj m t, spelled obj m t → t.Typed Value.OfType sch m)
    (hfields : (sch.msg m).fields.drop i = fields)
    (h : SpellsFields py spelled m items i fields t) :
    t.Typed Value.OfType sch m := by
  induction fields generalizing i t with
  | nil =>
      cases h
      trivial
  | cons desc fields ih =>
      have hat := at_of_drop hfields
      unfold SpellsFields at h
      cases hheld : items.lookup desc.name with
      | none =>
          rw [hheld] at h
          exact ih hat.rest h
      | some held =>
          rw [hheld] at h
          obtain ⟨first, rest, hfirst, hrest, rfl⟩ := h
          refine .append (spellsField_typed hat.field ⟨hat.owned, ?_⟩ hnested
            hfirst) (ih hat.rest hrest)
          rw [hat.field]
          exact hnum _ hat.message desc hat.mem

/-- What an object spells is a message of its descriptor. -/
theorem spellsObject_typed (hnum : sch.SmallNumbers) {depth : Nat}
    (h : SpellsObject py sch depth obj m t) :
    t.Typed Value.OfType sch m := by
  induction depth generalizing obj m t with
  | zero => exact h.elim
  | succ depth ih =>
      cases obj with
      | dict items => exact spellsFields_typed hnum (fun _ _ _ => ih) rfl h
      | list elems | bool b | other id => exact h.elim

end

-- ================================================================= a sample

/-- A number, a submessage with a packed run, and a string, as a dict. -/
def sampleDict : List (String × PyObject) :=
  [("str", .other (3 * strCode [104, 105] + 2)), ("n", .other 15),
    ("inner", .dict [("run", .list [.other 3, .other 900])])]

def sampleSpelled : Tree :=
  .scalar ⟨0, 0⟩ (.int32 5)
    (.message ⟨0, 1⟩ (.packed ⟨0, 2⟩ [.uint64 1, .uint64 300] .nil)
      (.scalar ⟨0, 3⟩ (.string [104, 105]) .nil))

/-- The tree that the dict of the example stands for. -/
theorem sampleDict_spells :
    Spells samplePython sampleSchema (.dict sampleDict) 0 sampleSpelled :=
  spell_spells (by decide +kernel)

def noScratch : Nat → Scratch := fun _ => ⟨⟨0, .ext fun _ => 0, 0⟩, 0⟩

/-- What was returned. -/
def Ret.value {α : Type} : Ret α → Option α
  | .ret a _ => some a
  | _ => none

/-- A value comes from a pass that returned. -/
theorem Ret.value_eq {α : Type} {r : Ret α} {a : α}
    (h : r.value = some a) : ∃ s, r = .ret a s := by
  cases r with
  | ret b s =>
      cases h
      exact ⟨s, rfl⟩
  | abort | fault | runaway => exact absurd h.symm (Option.some_ne_none a)

/-- Its estimate is 33 bytes. -/
theorem sampleDict_sizing :
    ∃ s, sizingPass samplePython sampleSchema noScratch sampleDict 0
      = .ret 33 s :=
  Ret.value_eq (by decide +kernel)

-- ================================================================ two passes

section

variable {py : PythonApi} {sch : Schema} {obj : PyObject} {m : MsgRef}
  {t : Tree} {items : List (String × PyObject)}

/-- The first pass returns the estimate of the tree, whatever the scratch
memory holds. -/
theorem sizing_returns (garbage : Nat → Scratch) (hnum : sch.SmallNumbers)
    (hpacked : sch.PackedNumeric) (hno : sch.NoLong)
    (hspells : Spells py sch obj m t) (hbrief : Brief (t.wire sch).bytes)
    {s : State} (hs : s.packed = false) :
    Sizes (Short sch (some m) obj) false
      (pyobjectEncode py sch garbage obj (some m) none s)
      (· = UInt64.ofNat (t.estimate sch)) :=
  encodeObject_sizes garbage hnum hpacked hno _ _ _ _ _ hspells hbrief hs

/-- With room for the estimate the writing pass writes the message. -/
theorem writing_returns (garbage : Nat → Scratch) (hnum : sch.SmallNumbers)
    (hpacked : sch.PackedNumeric) (hno : sch.NoLong)
    (hspells : Spells py sch obj m t) (hbrief : Brief (t.wire sch).bytes)
    (hshort : Short sch (some m) obj) {s : State} (hs : s.packed = false)
    (hsize : s.heap.size = t.estimate sch) :
    ∃ s', pyobjectEncode py sch garbage obj (some m) (some s.heap.base) s
        = .ret (UInt64.ofNat (t.wire sch).bytes.length) s' ∧
      s.heap.SameBlock s'.heap ∧
      Wrote (s.heap.base + s.heap.size) s.heap.mem s'.heap.mem s.heap.base
        (t.wire sch).bytes := by
  have hlt := estimate_lt sch t hbrief
  have hroom : Room sch s.heap.base (s.heap.base + s.heap.size) s.heap.base
      t := room_of_estimate sch t (Nat.le_refl _) (by rw [hsize])
  have hpass := encodeObject_writes garbage
    (show s.heap.base + s.heap.size < s.heap.base + 2 ^ 64 by omega) hnum
    hpacked obj.depth obj m s.heap.base s ⟨t, hspells⟩ ⟨rfl, rfl⟩ hs
  unfold pyobjectEncode
  revert hpass
  generalize encodeObject py sch garbage obj.depth obj (some m)
    (some s.heap.base) s = r
  intro hpass
  cases r with
  | ret len s' =>
      obtain ⟨-, u, hu, -, rfl, -, ⟨hbase, hend⟩, hwrote⟩ := hpass
      obtain rfl := spellsObject_unique hno _ obj m u t hu hspells
      refine ⟨s', rfl, ⟨hbase, by omega⟩, hwrote hbrief⟩
  | abort => exact hpass.elim
  | fault => exact absurd hroom (hpass hno t hspells)
  | runaway => exact absurd hshort hpass

/-- What the sizing pass returns is enough: the writing pass stays inside
of a block of that size, and so does what it returns. -/
theorem writing_within (py : PythonApi) (sch : Schema)
    (garbage garbage' : Nat → Scratch) (obj : PyObject) (m : MsgRef)
    (t : Tree) (s s₁ s₂ : State) (len : UInt64) (hnum : sch.SmallNumbers)
    (hpacked : sch.PackedNumeric) (hno : sch.NoLong)
    (hspells : Spells py sch obj m t) (hbrief : Brief (t.wire sch).bytes)
    (hs : s.packed = Encoder2.start)
    (hsizing : pyobjectEncode py sch garbage obj (some m) none s
      = .ret len s₁)
    (hs₂ : s₂.packed = Encoder2.start) (hsize : s₂.heap.size = len.toNat) :
    ∃ len' s', pyobjectEncode py sch garbage' obj (some m)
        (some s₂.heap.base) s₂ = .ret len' s' ∧ len' ≤ len ∧
      Within s₂.heap.mem s'.heap.mem s₂.heap.base
        (s₂.heap.base + len.toNat) := by
  have hfirst := sizing_returns garbage hnum hpacked hno hspells hbrief hs
  rw [hsizing] at hfirst
  obtain ⟨hshort, -, rfl⟩ := hfirst
  have hest : (UInt64.ofNat (t.estimate sch)).toNat = t.estimate sch :=
    UInt64.toNat_ofNat_of_lt' (estimate_lt sch t hbrief)
  rw [hest] at hsize ⊢
  obtain ⟨s', hret, -, hwrote⟩ := writing_returns garbage' hnum hpacked hno
    hspells hbrief hshort hs₂ hsize
  refine ⟨_, s', hret, ?_, hsize ▸ hwrote.within⟩
  have hle := length_le_estimate sch t
  have hlt := estimate_lt sch t hbrief
  rw [UInt64.le_iff_toNat_le, hest, UInt64.toNat_ofNat_of_lt' (by
    show _ < 2 ^ 64
    omega)]
  exact hle

/-- Of a dict with a submessage, a run and a string. -/
theorem writing_within_sample :
    ∃ s₁, sizingPass samplePython sampleSchema noScratch sampleDict 0
        = .ret 33 s₁ ∧
      ∃ len' s', pyobjectEncode samplePython sampleSchema noScratch
          (.dict sampleDict) (some 0) (some 4096)
          ⟨Encoder2.start, ⟨fun _ => 0, 4096, 33⟩, none, 0⟩
        = .ret len' s' ∧ len' ≤ 33 ∧
        Within (fun _ => 0) s'.heap.mem 4096 (4096 + 33) := by
  obtain ⟨s₁, hs₁⟩ := sampleDict_sizing
  exact ⟨s₁, hs₁, writing_within samplePython sampleSchema noScratch
    noScratch (.dict sampleDict) 0 sampleSpelled _ s₁
    ⟨Encoder2.start, ⟨fun _ => 0, 4096, 33⟩, none, 0⟩ 33 (by decide)
    (by decide) (by decide) sampleDict_spells (by decide +kernel) rfl hs₁ rfl
    rfl⟩

/-- `Encoder_encode` of a dict that spells a message, with memory to be
had: its protocol buffer, or no end at all. -/
theorem encoderEncode_spells {garbage : Nat → Scratch}
    {calloc : UInt64 → Option Nat} {msgnum : UInt32}
    (hm : msgnum.toNat < sch.msgs.length) (hnum : sch.SmallNumbers)
    (hpacked : sch.PackedNumeric) (hno : sch.NoLong)
    (hspells : Spells py sch (.dict items) msgnum.toNat t)
    (hbrief : Brief (t.wire sch).bytes) (hcalloc : ∀ n, calloc n ≠ none) :
    (Short sch (some msgnum.toNat) (.dict items) ∧ ∃ pending,
        encoderEncode py sch garbage calloc items msgnum
          = .string (t.wire sch).bytes pending) ∨
      (¬ Short sch (some msgnum.toNat) (.dict items) ∧
        encoderEncode py sch garbage calloc items msgnum = .runaway) := by
  have hm' : ¬ sch.msgs.length ≤ msgnum.toNat := Nat.not_le.mpr hm
  have hfirst := @sizing_returns py sch (.dict items) msgnum.toNat t garbage
    hnum hpacked hno hspells hbrief
    ⟨Encoder2.start, ⟨fun _ => 0, 0, 0⟩, none, 0⟩ rfl
  change Sizes _ _ (sizingPass py sch garbage items msgnum.toNat) _ at hfirst
  cases hr : sizingPass py sch garbage items msgnum.toNat with
  | ret len s =>
      rw [hr] at hfirst
      obtain ⟨hshort, -, rfl⟩ := hfirst
      obtain ⟨buf, hbuf⟩ := Option.ne_none_iff_exists'.mp (hcalloc _)
      have hlt := estimate_lt sch t hbrief
      have hle := length_le_estimate sch t
      have hest : (UInt64.ofNat (t.estimate sch)).toNat = t.estimate sch :=
        UInt64.toNat_ofNat_of_lt' hlt
      have hlen : (UInt64.ofNat (t.wire sch).bytes.length).toNat
          = (t.wire sch).bytes.length :=
        UInt64.toNat_ofNat_of_lt' (by
          show _ < 2 ^ 64
          omega)
      obtain ⟨s', hret, ⟨hbase, hsize⟩, hwrote⟩ := @writing_returns py sch
        (.dict items) msgnum.toNat t garbage hnum hpacked hno hspells hbrief
        hshort ⟨Encoder2.start, ⟨fun _ => 0, buf,
          (UInt64.ofNat (t.estimate sch)).toNat⟩, s.error, s.calls⟩ rfl hest
      refine .inl ⟨hshort, s'.error, ?_⟩
      rw [encoderEncode_second hm' hr, hbuf]
      simp only [encodePass, hret]
      rw [if_neg UInt64.not_lt_zero, stringFromBlock, if_neg ?_, if_neg ?_,
        hlen, hbase]
      · exact congrArg (Encoded.string · s'.error) hwrote.read
      · rw [hlen, hsize]
        show ¬ (UInt64.ofNat (t.estimate sch)).toNat < _
        rw [hest]
        omega
      · unfold Brief at hbrief
        have hint : (UInt64.ofNat (t.wire sch).bytes.length).toInt64
            = Int64.ofNat (t.wire sch).bytes.length := rfl
        rw [hint, Int64.lt_iff_toInt_lt, Int64.toInt_ofNat_of_lt (by omega)]
        exact Int.not_lt.mpr (Int.natCast_nonneg _)
  | abort =>
      rw [hr] at hfirst
      exact hfirst.elim
  | fault =>
      rw [hr] at hfirst
      exact hfirst.elim
  | runaway =>
      rw [hr] at hfirst
      refine .inr ⟨hfirst, ?_⟩
      unfold sizingPass at hr
      rw [encoderEncode, if_neg hm', encodePass, hr]

/-- A string that `Encoder_encode` returns for a dict that spells a
message is the protocol buffer of such a message. -/
theorem encoderEncode_output {garbage : Nat → Scratch}
    {calloc : UInt64 → Option Nat} {msgnum : UInt32} {bytes : Bytes}
    {pending : Option PyErr} (hnum : sch.SmallNumbers)
    (hpacked : sch.PackedNumeric)
    (hspells : ∃ t, Spells py sch (.dict items) msgnum.toNat t)
    (hbrief : Brief bytes)
    (h : encoderEncode py sch garbage calloc items msgnum
      = .string bytes pending) :
    msgnum.toNat < sch.msgs.length ∧
      ∃ t, Spells py sch (.dict items) msgnum.toNat t ∧
        bytes = (t.wire sch).bytes := by
  obtain ⟨hm, size, s, buf, len, s', -, -, hsecond, rfl, -⟩ :=
    encoderEncode_string h
  refine ⟨hm, ?_⟩
  have hlt := size.toNat_lt
  have hpass := @encodeObject_writes buf (buf + size.toNat) py sch garbage
    (by omega) hnum hpacked (PyObject.dict items).depth (.dict items)
    msgnum.toNat buf
    ⟨Encoder2.start, ⟨fun _ => 0, buf, size.toNat⟩, s.error, s.calls⟩
    hspells ⟨rfl, rfl⟩ rfl
  unfold pyobjectEncode at hsecond
  rw [hsecond] at hpass
  obtain ⟨-, t, ht, hroom, rfl, -, ⟨hbase, -⟩, hwrote⟩ := hpass
  have hfit : Fit buf (buf + size.toNat) buf (t.wire sch).bytes.length :=
    room_bytes hroom
  have hlen : (UInt64.ofNat (t.wire sch).bytes.length).toNat
      = (t.wire sch).bytes.length :=
    UInt64.toNat_ofNat_of_lt' (by
      show _ < 2 ^ 64
      unfold Fit at hfit
      omega)
  rw [hlen, hbase] at hbrief ⊢
  unfold Brief at hbrief hwrote
  rw [read_length] at hbrief
  exact ⟨t, ht, (hwrote hbrief).read⟩

/-- The two encoders come to the same bytes, whatever room `lwpb_encoder`
has and as long as its calls succeed, if and only if no list is too long
for the counter of `pyobject_encode`. -/
theorem encoders_agree (py : PythonApi) (sch : Schema)
    (items : List (String × PyObject)) (msgnum : UInt32) (t : Tree)
    (s : Enc) (data len : Nat) (session : List (Scratch × Act))
    (hm : msgnum.toNat < sch.msgs.length) (hnum : sch.SmallNumbers)
    (hpacked : sch.PackedNumeric) (hno : sch.NoLong)
    (hspells : Spells py sch (.dict items) msgnum.toNat t)
    (hbrief : Brief (t.wire sch).bytes) (hdepth : t.nesting ≤ maxDepth)
    (hlen : len < 2 ^ 35) (hcalls : session.map (·.2) = t.calls)
    (hok : ∀ x ∈ (runSteps (fun u s a => a.feed sch u s)
      (encoderStart s msgnum.toNat data len) session).1, x.err = .ok) :
    (∀ garbage calloc, (∀ n, calloc n ≠ none) → ∃ s' pending,
        (runSteps (fun u s a => a.feed sch u s)
          (encoderStart s msgnum.toNat data len) session).2 = some s' ∧
        encoderEncode py sch garbage calloc items msgnum
          = .string (read s'.mem data (encoderFinish s')) pending) ↔
      Short sch (some msgnum.toNat) (.dict items) := by
  obtain ⟨made, s', hrun, -, -, -, hread⟩ := session_runs (drives_feed sch)
    hlen (spellsObject_typed hnum hspells) hdepth hcalls
    (.inl fun x hx _ => hok x hx)
  rw [hrun]
  constructor
  · intro h
    obtain ⟨_, pending, -, hstring⟩ := h noScratch
      (fun _ => some 0) (fun _ => Option.some_ne_none 0)
    rcases @encoderEncode_spells py sch t items _ (fun _ => some 0) msgnum hm
      hnum hpacked hno hspells hbrief (fun _ => Option.some_ne_none 0) with
      ⟨hshort, -⟩ | ⟨-, hrunaway⟩
    · exact hshort
    · rw [hrunaway] at hstring
      cases hstring
  · intro hshort garbage calloc hcalloc
    rcases @encoderEncode_spells py sch t items garbage calloc msgnum hm hnum
      hpacked hno hspells hbrief hcalloc with
      ⟨-, pending, hstring⟩ | ⟨hnot, -⟩
    · exact ⟨s', pending, rfl, hread.symm ▸ hstring⟩
    · exact absurd hshort hnot

/-- Of the same dict, against the calls of its tree. -/
theorem encoders_agree_sample :
    (∀ garbage calloc, (∀ n, calloc n ≠ none) → ∃ s' pending,
        (runSteps (fun u s a => a.feed sampleSchema u s)
          (encoderStart freshEncoder 0 1000 64)
          (sampleSpelled.calls.map (noScratch 0, ·))).2 = some s' ∧
        encoderEncode samplePython sampleSchema garbage calloc sampleDict 0
          = .string (read s'.mem 1000 (encoderFinish s')) pending) ↔
      Short sampleSchema (some 0) (.dict sampleDict) :=
  encoders_agree samplePython sampleSchema sampleDict 0 sampleSpelled
    freshEncoder 1000 64 _ (by decide) (by decide) (by decide) (by decide)
    sampleDict_spells (by decide +kernel) (by decide) (by decide) rfl
    (by decide +kernel)

end

-- ================================================================ long lists

/-- A message with one packed run. -/
def runSchema : Schema :=
  ⟨[⟨[⟨1, ⟨.repeated, .bool, flagPacked⟩, none, "run"⟩]⟩]⟩

/-- So many times True. -/
def runItems (n : Nat) : List (String × PyObject) :=
  [("run", .list (List.replicate n (.bool true)))]

def runTree (n : Nat) : Tree :=
  .packed ⟨0, 0⟩ (List.replicate n (.bool 1)) .nil

/-- The dict with `n` elements in its packed field stands for a run. -/
theorem run_spells (n : Nat) :
    Spells samplePython runSchema (.dict (runItems n)) 0 (runTree n) := by
  have hone : Converts samplePython .bool (.bool true) (.bool 1) :=
    ⟨⟨0, .ext fun _ => 0, 0⟩, _, none, rfl, rfl⟩
  have hall : List.Forall₂ (Converts samplePython .bool)
      (List.replicate n (.bool true)) (List.replicate n (.bool 1)) := by
    induction n with
    | zero => exact .nil
    | succ n ih =>
        rw [List.replicate_succ, List.replicate_succ]
        exact .cons hone ih
  exact ⟨runTree n, .nil, ⟨_, hall, rfl⟩, rfl, rfl⟩

/-- Every value of the run is one byte. -/
theorem run_bytes (n : Nat) :
    (elemBytes ((List.replicate n (Value.bool 1)).map
      (Value.payload .bool))).length = n := by
  induction n with
  | zero => rfl
  | succ n ih =>
      rw [List.replicate_succ, List.map_cons, elemBytes, List.flatMap_cons,
        List.length_append]
      refine (congrArg (1 + ·) ih).trans ?_
      exact Nat.add_comm 1 n

/-- How long that run is, and what the first pass estimates. -/
theorem run_framed (n : Nat) :
    ((runTree n).wire runSchema).bytes.length = 1 + (encode n).length + n ∧
      (runTree n).estimate runSchema = 11 + (encode n).length + n := by
  have hkey : ((runSchema.field ⟨0, 0⟩).key .string).length = 1 := by
    decide
  have hlen : (elemBytes ((List.replicate n (Value.bool 1)).map
      (Value.payload (runSchema.field ⟨0, 0⟩).opts.typ))).length = n :=
    run_bytes n
  simp only [runTree, Tree.wire, Wire.bytes, Tree.estimate, Tree.sized,
    Tree.frames, FieldDesc.framed, List.length_append, hkey, hlen,
    List.length_nil]
  omega

/-- The C encoder takes the run, also with `2 ^ 32` elements and more. -/
theorem run_accepted {n : Nat} (hn : n + 21 ≤ 2 ^ 33) :
    ∃ session made s', session.map Prod.snd = (runTree n).calls ∧
      runSteps (fun u s a => a.feed runSchema u s)
          (encoderStart freshEncoder 0 0 (2 ^ 33)) session
        = (made, some s') ∧ (∀ x ∈ made, x.err = .ok) ∧
      read s'.mem 0 (encoderFinish s')
        = ((runTree n).wire runSchema).bytes := by
  obtain ⟨-, hest⟩ := run_framed n
  have hten : (encode n).length ≤ 10 :=
    encode_length_le_of_lt (k := 9) (by omega)
  have hcalls : ((runTree n).calls.map (noScratch 0, ·)).map Prod.snd
      = (runTree n).calls := by
    rw [List.map_map]
    exact List.map_id _
  obtain ⟨made, s', hrun, hclean, -, -, hread⟩ := @session_runs runSchema
    Value.OfType _ freshEncoder 0 0 (2 ^ 33) (runTree n) _
    (drives_feed runSchema) (by omega)
    (spellsObject_typed (by decide) (run_spells n)) (by
      show max 2 1 ≤ maxDepth
      decide) hcalls
    (.inr (by
      show 0 + (runTree n).estimate runSchema ≤ 0 + 2 ^ 33
      omega))
  exact ⟨_, made, s', hcalls, hrun, fun x hx => (hclean x hx).1, hread⟩

/-- The Python encoder does not return from there on. -/
theorem run_runaway {n : Nat} (hlong : 2 ^ 32 ≤ n) (hn : n + 21 ≤ 2 ^ 33)
    (garbage : Nat → Scratch) (calloc : UInt64 → Option Nat)
    (hcalloc : ∀ len, calloc len ≠ none) :
    encoderEncode samplePython runSchema garbage calloc (runItems n) 0
      = .runaway := by
  obtain ⟨hbytes, -⟩ := run_framed n
  have hten : (encode n).length ≤ 10 :=
    encode_length_le_of_lt (k := 9) (by omega)
  have hbrief : Brief ((runTree n).wire runSchema).bytes := by
    rw [Brief, hbytes]
    omega
  rcases @encoderEncode_spells samplePython runSchema (runTree n)
    (runItems n) garbage calloc 0 (by decide) (by decide) (by decide)
    (by decide) (run_spells n) hbrief hcalloc with ⟨hshort, -⟩ | ⟨-, hrunaway⟩
  · obtain ⟨hlists, -⟩ := hshort
    have hlt := hlists ⟨1, ⟨.repeated, .bool, flagPacked⟩, none, "run"⟩
      (List.mem_singleton_self _) (.list (List.replicate n (.bool true))) rfl
    rw [PyObject.values, List.length_replicate] at hlt
    omega
  · exact hrunaway

/-- As many values as the counter of a list can count, and one more. -/
@[irreducible] def tooMany : Nat := 2 ^ 32

/-- A run of `2 ^ 32` booleans, four gigabytes of them: `lwpb_encoder` has
it in a buffer of eight, and `Encoder_encode` never ends. -/
theorem encoders_disagree :
    Spells samplePython runSchema (.dict (runItems tooMany)) 0
        (runTree tooMany) ∧
      (∃ session made s', session.map Prod.snd = (runTree tooMany).calls ∧
        runSteps (fun u s a => a.feed runSchema u s)
            (encoderStart freshEncoder 0 0 (2 ^ 33)) session
          = (made, some s') ∧ (∀ x ∈ made, x.err = .ok) ∧
        read s'.mem 0 (encoderFinish s')
          = ((runTree tooMany).wire runSchema).bytes) ∧
      ∀ garbage calloc, (∀ len, calloc len ≠ none) →
        encoderEncode samplePython runSchema garbage calloc
          (runItems tooMany) 0 = .runaway := by
  have hlong : 2 ^ 32 ≤ tooMany := by
    unfold tooMany
    exact Nat.le_refl _
  have hroom : tooMany + 21 ≤ 2 ^ 33 := by
    unfold tooMany
    norm_num
  exact ⟨run_spells tooMany, run_accepted hroom, run_runaway hlong hroom⟩

end Lwpb.Python
