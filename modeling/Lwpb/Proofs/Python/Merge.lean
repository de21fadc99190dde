/-
Concatenation is merge.

The bytes of two messages, one behind the other, are those of one message
(`Tree.append`), and its dict is the first one's filled by the second
(`decoderDecode_tree`). Filling a dict is merging the message's own dict
into it (`fill_merge`): what a field does to a merge it does to the dict
that is merged in.

That last step is where one looks at the handlers: storing into a merged
dict is merging the dict that was stored into (`merge_store`), by the
label of the field, a list that grows at its end or a value that is
replaced; and the dict that a submessage is read into is the merge of the
two that it would be read into (`childOf_merge`). The dicts have the shape
of their message (`Shaped`), so that no list is ever merged with a number.
-/
import Lwpb.Proofs.Python.DictRoundTrip

namespace Lwpb.Python

-- =================================================================== merge

mutual

/-- An object, merged into the one that is held already: lists are
concatenated, dicts merged, and otherwise the new one wins. -/
def PyObject.onto (held : Option PyObject) : PyObject → PyObject
  | .dict items =>
      match held with
      | some (.dict under) => .dict (mergeItems under items)
      | _ => .dict items
  | .list elems =>
      match held with
      | some (.list under) => .list (under ++ elems)
      | _ => .list elems
  | .bool b => .bool b
  | .other id => .other id

/-- The items of a dict, merged into those of another. -/
def mergeItems (under : Items) : List (String × PyObject) → Items
  | [] => under
  | (name, pyval) :: items =>
      mergeItems
        (Assoc.set name (PyObject.onto (under.lookup name) pyval) under) items

end

/-- Merging dicts is merging association lists, with the merge of two values.
-/
theorem mergeItems_eq (under items : Items) :
    mergeItems under items = Assoc.merge PyObject.onto under items := by
  induction items generalizing under with
  | nil => rfl
  | cons item items ih =>
      obtain ⟨name, pyval⟩ := item
      rw [mergeItems, Assoc.merge, ih]

section

variable {new : PythonNew} {sch : Schema} {m : MsgRef} {desc : FieldDesc}
  {top under : Items} {pyval held : PyObject} {t : Tree} {name : String}

/-- Setting an item commutes with merging below. -/
theorem merge_set (h : Shaped sch m top) :
    mergeItems under (Assoc.set name held top)
      = Assoc.set name (PyObject.onto (under.lookup name) held)
        (mergeItems under top) := by
  obtain ⟨nodup, -, -, -⟩ := h
  rw [mergeItems_eq, mergeItems_eq, Assoc.merge_set nodup]

/-- An item of a merged dict: of the upper one on the lower one, or of the
lower one. -/
theorem lookup_merge (h : Shaped sch m top) :
    (mergeItems under top).lookup name
      = ((top.lookup name).map (PyObject.onto (under.lookup name))).or
        (under.lookup name) := by
  obtain ⟨nodup, -, -, -⟩ := h
  rw [mergeItems_eq, Assoc.lookup_merge nodup]

/-- Two dicts of a shape merge into one. -/
theorem Shaped.merge (hunder : Shaped sch m under) (htop : Shaped sch m top) :
    Shaped sch m (mergeItems under top) := by
  induction htop generalizing under with
  | @intro m top nodup lists dicts within ih =>
      have htop : Shaped sch m top := .intro nodup lists dicts within
      obtain ⟨nodup', lists', dicts', within'⟩ := hunder
      refine .intro ?_ ?_ ?_ ?_
      · rw [mergeItems_eq]
        exact Assoc.nodup_merge nodup'
      · intro desc hdesc hrep held hheld
        rw [lookup_merge htop] at hheld
        cases ht : top.lookup desc.name with
        | none =>
            rw [ht] at hheld
            exact lists' desc hdesc hrep held hheld
        | some later =>
            obtain ⟨elems, rfl⟩ := lists desc hdesc hrep later ht
            rw [ht] at hheld
            obtain rfl := Option.some.inj hheld
            unfold PyObject.onto
            split
            · exact ⟨_, rfl⟩
            · exact ⟨_, rfl⟩
      · intro desc hdesc hrep htyp held hheld
        rw [lookup_merge htop] at hheld
        cases ht : top.lookup desc.name with
        | none =>
            rw [ht] at hheld
            exact dicts' desc hdesc hrep htyp held hheld
        | some later =>
            obtain ⟨inner, rfl⟩ := dicts desc hdesc hrep htyp later ht
            rw [ht] at hheld
            obtain rfl := Option.some.inj hheld
            unfold PyObject.onto
            split
            · exact ⟨_, rfl⟩
            · exact ⟨_, rfl⟩
      · intro desc hdesc hrep htyp inner hinner
        rw [lookup_merge htop] at hinner
        cases ht : top.lookup desc.name with
        | none =>
            rw [ht] at hinner
            exact within' desc hdesc hrep htyp inner hinner
        | some later =>
            obtain ⟨inner', rfl⟩ := dicts desc hdesc hrep htyp later ht
            rw [ht, Option.map_some, Option.some_or] at hinner
            have honto := Option.some.inj hinner
            unfold PyObject.onto at honto
            split at honto
            · cases honto
              exact ih desc hdesc hrep htyp _ ht
                (within' desc hdesc hrep htyp _ ‹_›)
            · cases honto
              exact within desc hdesc hrep htyp _ ht

/-- A store, before the merge and after it. -/
theorem merge_store (hunder : Shaped sch m under) (htop : Shaped sch m top)
    (hdesc : desc ∈ (sch.msg m).fields) {pyval' : PyObject}
    (hlist : desc.opts.label = .repeated → pyval' = pyval)
    (hsingle : desc.opts.label ≠ .repeated →
      PyObject.onto (under.lookup desc.name) pyval = pyval') :
    mergeItems under (store desc pyval top)
      = store desc pyval' (mergeItems under top) := by
  by_cases hrep : desc.opts.label = .repeated
  · rw [store_repeated hdesc htop hrep,
      store_repeated hdesc (hunder.merge htop) hrep, merge_set htop,
      hlist hrep]
    congr 1
    unfold elemsOf
    rw [lookup_merge htop]
    obtain ⟨-, lists, -, -⟩ := hunder
    obtain ⟨-, lists', -, -⟩ := htop
    cases hu : under.lookup desc.name with
    | none =>
        cases ht : top.lookup desc.name with
        | none => rfl
        | some held' =>
            obtain ⟨elems', rfl⟩ := lists' desc hdesc hrep held' ht
            rfl
    | some held =>
        obtain ⟨elems, rfl⟩ := lists desc hdesc hrep held hu
        cases ht : top.lookup desc.name with
        | none => rfl
        | some held' =>
            obtain ⟨elems', rfl⟩ := lists' desc hdesc hrep held' ht
            show PyObject.list (elems ++ (elems' ++ [pyval]))
              = .list (elems ++ elems' ++ [pyval])
            rw [List.append_assoc]
  · rw [store_single hrep, store_single hrep, merge_set htop, hsingle hrep]

/-- Merged on nothing, a dict is what it was. -/
theorem merge_empty (h : Shaped sch m top) : mergeItems [] top = top := by
  obtain ⟨nodup, -, -, -⟩ := h
  rw [mergeItems_eq, Assoc.merge_disjoint _
    (fun _ _ h => absurd h List.not_mem_nil) nodup, List.nil_append]
  intro pyval
  cases pyval with
  | dict _ | list _ | bool _ | other _ => rfl

/-- A dict, merged into what is held under its field. -/
theorem onto_child {inner : Items} {m' : MsgRef}
    (hdesc : desc ∈ (sch.msg m).fields) (hrep : desc.opts.label ≠ .repeated)
    (htyp : desc.opts.typ = .message) (hunder : Shaped sch m under)
    (hinner : Shaped sch m' inner) :
    PyObject.onto (under.lookup desc.name) (.dict inner)
      = .dict (mergeItems (childOf desc under) inner) := by
  obtain ⟨-, -, dicts, -⟩ := hunder
  unfold childOf
  rw [if_neg hrep]
  cases hheld : under.lookup desc.name with
  | none =>
      rw [merge_empty hinner]
      rfl
  | some held =>
      obtain ⟨inner', rfl⟩ := dicts desc hdesc hrep htyp held hheld
      rfl

/-- The dict inside a merged one is the merge of those inside. -/
theorem childOf_merge (hdesc : desc ∈ (sch.msg m).fields)
    (hrep : desc.opts.label ≠ .repeated) (htyp : desc.opts.typ = .message)
    (hunder : Shaped sch m under) (htop : Shaped sch m top) :
    childOf desc (mergeItems under top)
      = mergeItems (childOf desc under) (childOf desc top) := by
  have hchild := childOf_shaped hdesc htyp htop
  obtain ⟨-, -, dicts, -⟩ := id htop
  cases hheld : top.lookup desc.name with
  | none =>
      unfold childOf
      rw [if_neg hrep, if_neg hrep, if_neg hrep, lookup_merge htop, hheld]
      rfl
  | some held =>
      obtain ⟨inner, rfl⟩ := dicts desc hdesc hrep htyp held hheld
      have hinner : childOf desc top = inner := by
        unfold childOf
        rw [if_neg hrep, hheld]
      rw [hinner] at hchild ⊢
      have honto := onto_child hdesc hrep htyp hunder hchild
      rw [childOf, if_neg hrep, lookup_merge htop, hheld, Option.map_some,
        Option.some_or, honto]

/-- Storing a value commutes with merging below. -/
theorem merge_store_value (hunder : Shaped sch m under)
    (htop : Shaped sch m top) (hdesc : desc ∈ (sch.msg m).fields)
    {v : Value Bytes} (hv : v.OfType desc.opts.typ) :
    mergeItems under (store desc (toPy new v desc.opts.typ) top)
      = store desc (toPy new v desc.opts.typ) (mergeItems under top) := by
  refine merge_store hunder htop hdesc (fun _ => rfl) fun _ => ?_
  have hscalar := (lwpbToPy_ofType new hv).2
  cases hpy : toPy new v desc.opts.typ with
  | bool b => rfl
  | other id => rfl
  | dict inner =>
      rw [hpy] at hscalar
      cases hscalar
  | list elems =>
      rw [hpy] at hscalar
      cases hscalar

/-- Filling is merging. -/
theorem fill_merge (hnames : sch.DistinctNames)
    (ht : t.Typed Value.OfType sch m) (hunder : Shaped sch m under)
    (htop : Shaped sch m top) :
    t.fill new sch (mergeItems under top)
      = mergeItems under (t.fill new sch top) := by
  induction t generalizing m under top with
  | nil => rfl
  | scalar f v rest ih =>
      obtain ⟨hf, -, hv, hrest⟩ := ht
      rw [Tree.fill, Tree.fill, ← merge_store_value hunder htop hf.mem hv]
      exact ih hrest hunder (htop.store_value hnames hf.mem hv)
  | message f body rest ihb ihr =>
      obtain ⟨hf, hmsg, -, hbody, hrest⟩ := ht
      have hchild := childOf_shaped hf.mem hmsg htop
      have hfilled : Shaped sch (sch.subDesc f)
          (body.fill new sch (childOf (sch.field f) top)) :=
        hchild.fill hnames hbody
      rw [Tree.fill, Tree.fill, ← ihr hrest hunder
        (htop.store hnames hf.mem fun _ _ => ⟨_, rfl, hfilled⟩)]
      congr 1
      refine (merge_store hunder htop hf.mem (fun hrep => ?_)
        fun hrep => ?_).symm
      · rw [childOf, if_pos hrep, childOf, if_pos hrep]
      · rw [onto_child hf.mem hrep hmsg hunder hfilled,
          childOf_merge hf.mem hrep hmsg hunder htop]
        congr 1
        exact (ihb hbody (childOf_shaped hf.mem hmsg hunder) hchild).symm
  | packed f elems rest ih =>
      obtain ⟨hf, -, hv, hrest⟩ := ht
      rw [Tree.fill, Tree.fill]
      have helems : ∀ top, Shaped sch m top →
          Shaped sch m (elems.foldl (fun top v => store (sch.field f)
            (toPy new v (sch.field f).opts.typ) top) top) ∧
          mergeItems under (elems.foldl (fun top v => store (sch.field f)
              (toPy new v (sch.field f).opts.typ) top) top)
            = elems.foldl (fun top v => store (sch.field f)
              (toPy new v (sch.field f).opts.typ) top)
              (mergeItems under top) := by
        clear ih
        induction elems with
        | nil => exact fun top htop => ⟨htop, rfl⟩
        | cons v elems ih =>
            intro top htop
            have hv' := hv v List.mem_cons_self
            rw [List.foldl_cons, List.foldl_cons,
              ← merge_store_value hunder htop hf.mem hv']
            exact ih (fun v' hmem => hv v' (List.mem_cons_of_mem v hmem)) _
              (htop.store_value hnames hf.mem hv')
      obtain ⟨hshaped, heq⟩ := helems top htop
      rw [← heq]
      exact ih hrest hunder hshaped

/-- Two messages make the merge of their dicts. -/
theorem fill_concatenated {u : Tree} (hnames : sch.DistinctNames)
    (ht : t.Typed Value.OfType sch m) (hu : u.Typed Value.OfType sch m) :
    (t.append u).fill new sch []
      = mergeItems (t.fill new sch []) (u.fill new sch []) := by
  rw [fill_append]
  exact fill_merge hnames hu ((Shaped.empty sch m).fill hnames ht)
    (.empty sch m)

end

-- =========================================================== concatenation

/-- Two strings of `Encoder_encode`, one behind the other, are decoded to
the merge of their dicts: two that are short enough together. -/
theorem concatenation_merges (py : PythonApi) (new : PythonNew)
    (sch : Schema) (msgnum : UInt32) (items items' : Items) (a b : Bytes)
    (pending pending' : Option PyErr) (garbage garbage' : Nat → Scratch)
    (calloc calloc' : UInt64 → Option Nat) (hnames : sch.DistinctNames)
    (hdistinct : sch.Distinct) (hpacked : sch.PackedNumeric)
    (hnum : sch.SmallNumbers)
    (hspells : ∃ t, Spells py sch (.dict items) msgnum.toNat t)
    (hspells' : ∃ t, Spells py sch (.dict items') msgnum.toNat t)
    (hdepth : ∀ t, Spells py sch (.dict items) msgnum.toNat t →
      t.nesting ≤ maxDepth)
    (hdepth' : ∀ t, Spells py sch (.dict items') msgnum.toNat t →
      t.nesting ≤ maxDepth)
    (ha : encoderEncode py sch garbage calloc items msgnum
      = .string a pending)
    (hb : encoderEncode py sch garbage' calloc' items' msgnum
      = .string b pending')
    (hlen : a.length + b.length < 2 ^ 31) :
    ∃ da db,
      (∀ uninit, decoderDecode new sch uninit a msgnum = .dict da none) ∧
      (∀ uninit, decoderDecode new sch uninit b msgnum = .dict db none) ∧
      ∀ uninit, decoderDecode new sch uninit (a ++ b) msgnum
        = .dict (mergeItems da db) none := by
  have hbrief : Brief a := by
    unfold Brief
    omega
  have hbrief' : Brief b := by
    unfold Brief
    omega
  obtain ⟨hm, t, ht, rfl⟩ :=
    encoderEncode_output hnum hpacked hspells hbrief ha
  obtain ⟨-, u, hu, rfl⟩ :=
    encoderEncode_output hnum hpacked hspells' hbrief' hb
  have htyped := spellsObject_typed hnum ht
  have hutyped := spellsObject_typed hnum hu
  refine ⟨t.fill new sch [], u.fill new sch [], fun uninit => ?_,
    fun uninit => ?_, fun uninit => ?_⟩
  · exact decoderDecode_tree uninit hm hnames hdistinct hpacked htyped
      (hdepth t ht) (by omega)
  · exact decoderDecode_tree uninit hm hnames hdistinct hpacked hutyped
      (hdepth' u hu) (by omega)
  · rw [← Tree.bytes_append, ← fill_concatenated hnames htyped hutyped]
    refine decoderDecode_tree uninit hm hnames hdistinct hpacked
      (htyped.append hutyped) ?_ ?_
    · rw [Tree.nesting_append]
      exact Nat.max_le.mpr ⟨hdepth t ht, hdepth' u hu⟩
    · rw [Tree.bytes_append, List.length_append]
      exact hlen

/-- What was returned as a string. -/
def Encoded.bytes : Encoded → Option Bytes
  | .string bytes _ => some bytes
  | _ => none

/-- Bytes come from a call that returned a string. -/
theorem Encoded.bytes_eq {r : Encoded} {bs : Bytes}
    (h : r.bytes = some bs) : ∃ pending, r = .string bs pending := by
  cases r with
  | string bs' pending =>
      cases h
      exact ⟨pending, rfl⟩
  | null e | abort | fault | runaway =>
      exact absurd h.symm (Option.some_ne_none bs)

/-- Another number, and more of the submessage. -/
def laterDict : Items :=
  [("inner", .dict [("run", .list [.other (plainId (.int 1))]),
      ("n", .other (plainId (.int 2)))]),
    ("n", .other (plainId (.int 6)))]

def laterSpelled : Tree :=
  .scalar ⟨0, 0⟩ (.int32 6)
    (.message ⟨0, 1⟩ (.scalar ⟨0, 0⟩ (.int32 2)
      (.packed ⟨0, 2⟩ [.uint64 1] .nil)) .nil)

/-- The second dict of the example and its tree. -/
theorem laterDict_spells :
    Spells plainPython sampleSchema (.dict laterDict) 0 laterSpelled :=
  spell_spells (by decide +kernel)

/-- Of two messages with a submessage each. -/
theorem concatenation_merges_sample :
    ∃ da db,
      (∀ uninit, decoderDecode plainNew sampleSchema uninit
        [8, 9, 18, 4, 26, 2, 172, 2] 0 = .dict da none) ∧
      (∀ uninit, decoderDecode plainNew sampleSchema uninit
        [8, 12, 18, 5, 8, 4, 26, 1, 1] 0 = .dict db none) ∧
      ∀ uninit, decoderDecode plainNew sampleSchema uninit
        ([8, 9, 18, 4, 26, 2, 172, 2] ++ [8, 12, 18, 5, 8, 4, 26, 1, 1]) 0
          = .dict (mergeItems da db) none := by
  obtain ⟨pending, hfirst⟩ := Encoded.bytes_eq (show (encoderEncode
    plainPython sampleSchema noScratch (fun _ => some 4096) plainDict
      0).bytes = some [8, 9, 18, 4, 26, 2, 172, 2] by decide +kernel)
  obtain ⟨pending', hsecond⟩ := Encoded.bytes_eq (show (encoderEncode
    plainPython sampleSchema noScratch (fun _ => some 4096) laterDict
      0).bytes = some [8, 12, 18, 5, 8, 4, 26, 1, 1] by decide +kernel)
  refine concatenation_merges plainPython plainNew sampleSchema 0 plainDict
    laterDict _ _ pending pending' noScratch noScratch _ _ (by decide)
    (by decide) (by decide) (by decide) ⟨_, plainDict_spells⟩
    ⟨_, laterDict_spells⟩ (fun t ht => ?_) (fun t ht => ?_) hfirst hsecond
    (by decide)
  · rw [spellsObject_unique (by decide) _ _ _ _ _ ht plainDict_spells]
    decide
  · rw [spellsObject_unique (by decide) _ _ _ _ _ ht laterDict_spells]
    decide

-- ======================================================= strings too long

/-- A message with one byte string. -/
def dataSchema : Schema :=
  ⟨[⟨[⟨1, ⟨.optional, .bytes, 0⟩, none, "data"⟩]⟩]⟩

def dataItems (bs : Bytes) : Items :=
  [("data", .other (plainId (.str bs)))]

def dataTree (bs : Bytes) : Tree := .scalar ⟨0, 0⟩ (.bytes bs) .nil

/-- A dict with one byte string. -/
theorem data_spells {bs : Bytes} (h : bs.length < 2 ^ 31) :
    Spells plainPython dataSchema (.dict (dataItems bs)) 0 (dataTree bs) := by
  obtain ⟨addr, haddr⟩ := plain_lawful.string (plainId (.str bs)) bs
    (plainValue_plainId _)
  have hconv : Converts plainPython .bytes (.other (plainId (.str bs)))
      (.bytes bs) := by
    refine ⟨⟨0, .ext fun _ => 0, 0⟩,
      setPyString ⟨0, .ext fun _ => 0, 0⟩ addr bs, none, ?_, ?_⟩
    · unfold pyToLwpb
      simp only [haddr]
    · exact congrArg Value.bytes (stringOf_setPyString h)
  exact ⟨dataTree bs, .nil, ⟨.nil, rfl, _, hconv, rfl⟩, rfl, rfl⟩

/-- Its message has the bytes, behind a key and a length. -/
theorem data_length (bs : Bytes) :
    ((dataTree bs).wire dataSchema).bytes.length
      = 1 + (Base128.encode bs.length).length + bs.length := by
  have hkey : ((dataSchema.field ⟨0, 0⟩).key .string).length = 1 := by
    decide
  show ((dataSchema.field ⟨0, 0⟩).key .string
    ++ (Base128.encode bs.length ++ bs) ++ []).length = _
  simp only [List.length_append, hkey, List.length_nil]
  omega

/-- A gigabyte of zeros. -/
@[irreducible] def zeros : Bytes := List.replicate (2 ^ 30) 0

/-- The byte string of the counterexample has `2 ^ 30` bytes. -/
theorem zeros_length : zeros.length = 2 ^ 30 := by
  unfold zeros
  exact List.length_replicate

/-- A message of a gigabyte, twice: its string is decoded, and the two of
them together are refused. -/
theorem concatenation_refused :
    ∃ a pending da, encoderEncode plainPython dataSchema noScratch
        (fun _ => some 4096) (dataItems zeros) 0 = .string a pending ∧
      (∃ t, Spells plainPython dataSchema (.dict (dataItems zeros)) 0 t) ∧
      (∀ t, Spells plainPython dataSchema (.dict (dataItems zeros)) 0 t →
        t.nesting ≤ maxDepth) ∧
      decoderDecode plainNew dataSchema 0 a 0 = .dict da none ∧
      decoderDecode plainNew dataSchema 0 (a ++ a) 0
        ≠ .dict (mergeItems da da) none := by
  have hzeros := zeros_length
  have hspells : Spells plainPython dataSchema (.dict (dataItems zeros)) 0
      (dataTree zeros) := data_spells (by omega)
  have hlen := data_length zeros
  have hprefix : (Base128.encode zeros.length).length ≤ 10 :=
    Base128.encode_length_le_of_lt (k := 9) (by omega)
  have hbrief : Brief ((dataTree zeros).wire dataSchema).bytes := by
    rw [Brief, hlen]
    omega
  have hshort : Short dataSchema (some 0) (.dict (dataItems zeros)) := by
    refine short_dict.mpr (List.forall_mem_singleton.mpr fun held hheld => ?_)
    cases hheld
    exact ⟨(by decide : 1 < 2 ^ 32), fun hmsg => absurd hmsg (by decide)⟩
  rcases @encoderEncode_spells plainPython dataSchema (dataTree zeros)
    (dataItems zeros) noScratch (fun _ => some 4096) 0 (by decide)
    (by decide) (by decide) (by decide) hspells hbrief
    (fun _ => Option.some_ne_none _) with
    ⟨-, pending, hstring⟩ | ⟨hlong, -⟩
  · refine ⟨_, pending, _, hstring, ⟨_, hspells⟩, fun t ht => ?_,
      decoderDecode_tree 0 (by decide) (by decide) (by decide) (by decide)
        (spellsObject_typed (by decide) hspells) (by decide) (by omega), ?_⟩
    · rw [spellsObject_unique (by decide) _ _ _ _ _ ht hspells]
      decide
    · unfold decoderDecode
      rw [if_pos (by
        rw [List.length_append, hlen]
        omega)]
      exact Decoded.noConfusion
  · exact absurd hshort hlong

end Lwpb.Python
