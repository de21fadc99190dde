/-
The writing pass.

A dict that spells a message is written as the message's protocol buffer,
if the block has room for all that is written on the way. The parts of the
pass are taken one by one, values, lists, fields and objects, and what each
comes to is a `PassOutcome` of the script it may write. A list too long for
its counter runs away (`Short`).

# The invariant

What one call knows of the next is its length alone, and a nested call
that is a length prefix short would be noticed by nobody. So a part of the
pass is specified by the set of things that it may write (`treeScript`,
`elemScript`): if it returns, it has put the bytes of one of them behind
the place it was given, and had the room for it. `Rounds` says this of a
round of a loop, `NestedWrites` of the call for a message inside, which is
the hypothesis of the recursion. Without fields of 64 signed bits a dict
means one message only, and then a bad access says that there was no room
(`det`).
-/
import Lwpb.Proofs.Python.Scripts
import Lwpb.Proofs.Python.Spelling

namespace Lwpb.Python

open Memory Base128

-- =================================================================== values

/-- No list under a field is too long for its counter. -/
inductive Short (sch : Schema) : Option MsgRef → PyObject → Prop where
  | dict {md : Option MsgRef} {items : List (String × PyObject)}
      (lists : ∀ desc ∈ fieldsOf sch md, ∀ held,
        items.lookup desc.name = some held → held.values.length < 2 ^ 32)
      (messages : ∀ desc ∈ fieldsOf sch md, desc.opts.typ = .message →
        ∀ held, items.lookup desc.name = some held →
        ∀ pyval ∈ held.values, Short sch desc.msgDesc pyval) :
      Short sch md (.dict items)

def ShortValues (sch : Schema) (desc : FieldDesc) (values : List PyObject) :
    Prop :=
  desc.opts.typ = .message → ∀ pyval ∈ values, Short sch desc.msgDesc pyval

def ShortList (sch : Schema) (desc : FieldDesc) (values : List PyObject) :
    Prop :=
  values.length < 2 ^ 32 ∧ ShortValues sch desc values

/-- The messages with this meaning, at their places. -/
def treeScript (sch : Schema) (lo hi : Nat) (spelled : Tree → Prop) :
    Script Tree :=
  ⟨spelled, fun t => (t.wire sch).bytes, Room sch lo hi⟩

/-- The elements of a packed run. -/
def elemScript (typ : FieldType) (lo hi : Nat)
    (spelled : List (Value Bytes) → Prop) : Script (List (Value Bytes)) :=
  ⟨spelled, fun vs => elemBytes (vs.map (Value.payload typ)),
    fun a vs => Fit lo hi a (elemBytes (vs.map (Value.payload typ))).length⟩

/-- Scripts of trees follow each other as trees are appended. -/
theorem treeScript_joins {sch : Schema} {lo hi : Nat}
    {first second whole : Tree → Prop}
    (h : ∀ u, whole u ↔ ∃ t, first t ∧ ∃ t', second t' ∧ u = t.append t') :
    Joins (treeScript sch lo hi first) (treeScript sch lo hi second)
      (treeScript sch lo hi whole) Tree.append where
  spelled := h
  bytes := Tree.bytes_append sch
  room := fun _ _ _ => room_append

/-- Scripts of elements follow each other as lists are appended. -/
theorem elemScript_joins {typ : FieldType} {lo hi : Nat}
    {first second whole : List (Value Bytes) → Prop}
    (h : ∀ u, whole u ↔ ∃ t, first t ∧ ∃ t', second t' ∧ u = t ++ t') :
    Joins (elemScript typ lo hi first) (elemScript typ lo hi second)
      (elemScript typ lo hi whole) (· ++ ·) where
  spelled := h
  bytes := fun t t' => by
    show elemBytes ((t ++ t').map _) = _
    rw [List.map_append]
    exact List.flatMap_append
  room := fun a t t' => by
    show Fit lo hi a (elemBytes ((t ++ t').map _)).length ↔ _
    rw [List.map_append]
    unfold elemBytes
    rw [List.flatMap_append, List.length_append, fit_append]
    rfl

/-- A value was added: the place and the length have moved on. -/
def Added {τ : Type} (l : ValueLocals) (a : Nat) (bytes : τ → Bytes) :
    Option ValueLocals → τ → Prop
  | none, _ => False
  | some l', t => l'.valuebuf = some (a + (bytes t).length) ∧
      l'.fieldlen = l.fieldlen + UInt64.ofNat (bytes t).length

section

variable {lo hi a : Nat} {s : State} {uninit : UInt64} {desc : FieldDesc}
  {l : ValueLocals} {bs : Bytes} {wrote : Mem → Mem → Prop}

/-- A length that fits the block fits 64 bits. -/
theorem toNat_of_fit {n : Nat} (hsmall : hi < lo + 2 ^ 64)
    (h : Fit lo hi a n) : (UInt64.ofNat n).toNat = n := by
  refine UInt64.toNat_ofNat_of_lt' ?_
  show n < 2 ^ 64
  unfold Fit at h
  omega

/-- Adding a value to the block moves the pointer by its bytes, or the bytes
do not fit and the write is a fault. -/
theorem addValue_adds (hsmall : hi < lo + 2 ^ 64)
    (hl : l.valuebuf = some a)
    (hadd : Adds lo hi a s (addField uninit desc l.val (some a) s) bs wrote) :
    (¬ Fit lo hi a bs.length ∧
        ((addValue uninit desc l s).bind fun l s => .ret (some l) s)
          = .fault) ∨
      (Fit lo hi a bs.length ∧ ∃ l' s',
        ((addValue uninit desc l s).bind fun l s => .ret (some l) s)
            = .ret (some l') s' ∧
        l'.valuebuf = some (a + bs.length) ∧
        l'.fieldlen = l.fieldlen + UInt64.ofNat bs.length ∧
        s'.packed = s.packed ∧ InBlock lo hi s'.heap ∧
        wrote s.heap.mem s'.heap.mem) := by
  unfold addValue
  rw [hl]
  rcases hadd with ⟨hno, hfault⟩ | ⟨hfit, s', hret, hrest⟩
  · rw [hfault]
    exact .inl ⟨hno, rfl⟩
  · rw [hret]
    refine .inr ⟨hfit, _, s', rfl, ?_, rfl, hrest⟩
    show advance (some a) _ = _
    rw [advance, toNat_of_fit hsmall hfit]
    rfl

/-- A value that is no message. -/
theorem encodeValue_scalar {τ : Type} {det : Prop} {py : PythonApi}
    {nested : PyObject → Option MsgRef → Option Nat → State → Ret UInt64}
    {pyval : PyObject} {w : Script τ} {wrap : Value Bytes → τ}
    (hsmall : hi < lo + 2 ^ 64) (htyp : desc.opts.typ ≠ .message)
    (hspelled : ∀ u, w.spelled u ↔
      ∃ v, Converts py desc.opts.typ pyval v ∧ u = wrap v)
    (hroom : ∀ v, w.room a (wrap v) ↔ Fit lo hi a (w.bytes (wrap v)).length)
    (hlong : det → desc.opts.typ.isLong = false)
    (hconv : ∃ v, Converts py desc.opts.typ pyval v)
    (hadd : ∀ val v, Stands desc.opts.typ val v →
      Encoder2.addField s.packed uninit s.heap desc val (some a)
        = Encoder2.emit s.heap (some a) 0 (w.bytes (wrap v)))
    (hl : l.valuebuf = some a) (hb : InBlock lo hi s.heap) :
    PassOutcome lo hi det True w a s
      (encodeValue py uninit nested desc pyval l s)
      (Added l a w.bytes) := by
  obtain ⟨v₀, hv₀⟩ := hconv
  obtain ⟨val, pending, hval, hstands, hv⟩ := hv₀.again l.val
  unfold encodeValue
  rw [if_neg htyp, hval]
  have hemits := @addField_emits lo hi a
    { s with error := pending.or s.error } uninit desc val _ hb
    (hadd val _ hstands)
  rcases @addValue_adds lo hi a _ uninit desc { l with val := val } _ _ hsmall
    hl hemits with
    ⟨hno, hfault⟩ | ⟨hfit, l', s', hret, hbuf, hlen, hpacked, hblock, hwrote⟩
  · simp only
    rw [hfault]
    intro hdet u hu hroom'
    obtain ⟨v', hv', rfl⟩ := (hspelled u).mp hu
    obtain rfl := Converts.unique (hlong hdet) hv hv'
    exact hno ((hroom _).mp hroom')
  · simp only
    rw [hret]
    exact ⟨trivial, wrap _, (hspelled _).mpr ⟨_, hv, rfl⟩,
      (hroom _).mpr hfit, ⟨hbuf, hlen⟩, hpacked, hblock, fun _ => hwrote⟩

/-- What a nested call has to be: it writes what the object spells. -/
def NestedWrites (sch : Schema) (lo hi : Nat) (det : Prop)
    (spelled : PyObject → MsgRef → Tree → Prop)
    (nested : PyObject → Option MsgRef → Option Nat → State → Ret UInt64) :
    Prop :=
  ∀ obj m a s, (∃ t, spelled obj m t) → InBlock lo hi s.heap →
    s.packed = false →
    PassOutcome lo hi det (Short sch (some m) obj)
      (treeScript sch lo hi (spelled obj m)) a s
      (nested obj (some m) (some a) s) fun len t =>
        len = UInt64.ofNat (t.wire sch).bytes.length

variable {det : Prop} {py : PythonApi} {sch : Schema} {f : FieldRef}
  {nested : PyObject → Option MsgRef → Option Nat → State → Ret UInt64}
  {spelled : PyObject → MsgRef → Tree → Prop} {pyval : PyObject}

/-- A message. -/
theorem encodeValue_message {m : MsgRef} (hsmall : hi < lo + 2 ^ 64)
    (hfield : sch.field f = desc) (hnum : desc.number.toNat < 2 ^ 29)
    (htyp : desc.opts.typ = .message) (hdesc : desc.msgDesc = some m)
    (hnested : NestedWrites sch lo hi det spelled nested)
    (hunique : det → ∀ t t', spelled pyval m t → spelled pyval m t' → t = t')
    (hspells : ∃ t, spelled pyval m t) (hl : l.valuebuf = some a)
    (hb : InBlock lo hi s.heap) (hpacked : s.packed = false) :
    PassOutcome lo hi det (Short sch desc.msgDesc pyval)
      (treeScript sch lo hi fun t =>
        ∃ body, spelled pyval m body ∧ t = .message f body .nil) a s
      (encodeValue py uninit nested desc pyval l s)
      (Added l a fun t => (t.wire sch).bytes) := by
  have hwire : ∀ t : Tree, ((Tree.message f t .nil).wire sch).bytes
      = desc.framed (t.wire sch).bytes := by
    intro t
    show ((sch.field f).key .string ++ _) ++ [] = _
    rw [List.append_nil, hfield]
    rfl
  unfold encodeValue
  rw [if_pos htyp, hdesc, hl]
  refine PassOutcome.frame desc (Tree.message f · .nil) rfl
    (fun u => Iff.rfl) ?_ ?_ hunique
    (hnested pyval m (a + 10) s hspells hb hpacked) ?_
  · exact hwire
  · intro t
    show _ ∧ Fit lo hi a ((sch.field f).framed _).length ∧ True ↔ _
    rw [hfield, and_true]
    rfl
  · intro len t s' hsp hroom hgood hpacked' hblock
    have hfit := room_bytes hroom
    have hadds := @addField_framed lo hi a s' uninit desc
      (setMessage l.val (reserve (some a)) len) (t.wire sch).bytes hnum
      (.inl htyp) (hpacked'.trans hpacked) hblock hfit
      (by unfold Fit at hfit; omega) hgood rfl
    rw [if_neg UInt64.not_lt_zero]
    rcases @addValue_adds lo hi a s' uninit desc
      ⟨l.extralen + UInt64.ofNat msgReserveBytes,
        setMessage l.val (reserve (some a)) len, some a, l.fieldlen⟩ _ _
      hsmall rfl hadds with
      ⟨hno, hfault⟩ | ⟨hfit', l', s'', hret, hbuf, hlen, hp, hblk, hwrote⟩
    · exact .inl ⟨hno, hfault⟩
    · refine .inr ⟨hfit', some l', s'', hret, ⟨?_, ?_⟩, hp.trans hpacked',
        hblk, hwrote⟩
      · rw [← hwire] at hbuf
        exact hbuf
      · rw [← hwire] at hlen
        exact hlen

end

-- ==================================================================== loops

section

variable {τ : Type} {lo hi a : Nat} {det packed : Prop} {s : State}
  {uninit : UInt64} {desc : FieldDesc} {l : ValueLocals} {py : PythonApi}
  {nested : PyObject → Option MsgRef → Option Nat → State → Ret UInt64}
  {all : List PyObject → Script τ} {join : τ → τ → τ}
  {short : PyObject → Prop} {values : List PyObject} {flag : Bool}

/-- What the loop over the values of a field needs: how its scripts are
put together, and what each of its rounds does. -/
structure Rounds (lo hi : Nat) (det : Prop) (flag : Bool)
    (uninit : UInt64) (py : PythonApi)
    (nested : PyObject → Option MsgRef → Option Nat → State → Ret UInt64)
    (desc : FieldDesc) (short : PyObject → Prop)
    (all : List PyObject → Script τ) (join : τ → τ → τ)
    (values : List PyObject) : Prop where
  nil : ∃ t, (all []).spelled t ∧ (all []).bytes t = [] ∧
    ∀ a, (all []).room a t
  joins : ∀ vs ws, Joins (all vs) (all ws) (all (vs ++ ws)) join
  unique : det → ∀ vs t t', (all vs).spelled t → (all vs).spelled t' → t = t'
  round : ∀ pyval ∈ values, ∀ (a : Nat) (s : State) (l : ValueLocals),
    l.valuebuf = some a → InBlock lo hi s.heap → s.packed = flag →
    PassOutcome lo hi det (short pyval) (all [pyval]) a s
      (encodeValue py uninit nested desc pyval l s)
      (Added l a (all [pyval]).bytes)

/-- What holds of the rounds over a list holds of those over some of its
values. -/
theorem Rounds.mono {values' : List PyObject}
    (h : Rounds lo hi det flag uninit py nested desc short all join values)
    (hsub : ∀ v ∈ values', v ∈ values) :
    Rounds lo hi det flag uninit py nested desc short all join values' where
  nil := h.nil
  joins := h.joins
  unique := h.unique
  round := fun v hv => h.round v (hsub v hv)

/-- The loop over the values of a list: by induction on the list, one round at
the head and the rest behind it. -/
theorem encodeValues_outcome
    (h : Rounds lo hi det flag uninit py nested desc short all join values)
    (hl : l.valuebuf = some a) (hb : InBlock lo hi s.heap)
    (hs : s.packed = flag) :
    PassOutcome lo hi det (∀ pyval ∈ values, short pyval) (all values) a s
      (encodeValues py uninit nested desc values l s)
      (Added l a (all values).bytes) := by
  induction values generalizing a l s with
  | nil =>
      obtain ⟨t, hspelled, hbytes, hroom⟩ := h.nil
      refine ⟨fun v hv => absurd hv List.not_mem_nil, t, hspelled, hroom a,
        ?_, rfl, hb, fun _ => ?_⟩
      · show l.valuebuf = some (a + _) ∧ l.fieldlen = l.fieldlen + _
        rw [hbytes]
        exact ⟨hl, (UInt64.add_zero _).symm⟩
      · rw [hbytes]
        exact .nil hi _ a
  | cons pyval values ih =>
      refine PassOutcome.short_congr List.forall_mem_cons.symm ?_
      refine PassOutcome.bind (h.joins [pyval] values)
        (fun hdet => h.unique hdet [pyval])
        (h.round pyval List.mem_cons_self a s l hl hb hs) ?_
      intro b t s' hspelled hroom hadded hpacked hblock
      cases b with
      | none => exact hadded.elim
      | some l' =>
          refine (ih (h.mono fun v hv => List.mem_cons_of_mem pyval hv)
            hadded.1 hblock (hpacked.trans hs)).imp ?_
          intro c t' hspelled' hroom' hadded'
          cases c with
          | none => exact hadded'.elim
          | some l'' =>
              obtain ⟨hbuf, hlen⟩ := hadded
              obtain ⟨hbuf', hlen'⟩ := hadded'
              have hbytes := (h.joins [pyval] values).bytes t t'
              show l''.valuebuf = some (a + ((all (pyval :: values)).bytes
                  (join t t')).length) ∧ l''.fieldlen = _
              rw [show (all (pyval :: values)).bytes (join t t') = _
                from hbytes, List.length_append, hbuf', hlen', hlen,
                UInt64.ofNat_add, Nat.add_assoc, UInt64.add_assoc]
              exact ⟨rfl, rfl⟩

/-- The loop with its counter, which runs away from `2 ^ 32` values on. -/
theorem encodeList_outcome
    (h : Rounds lo hi det flag uninit py nested desc short all join values)
    (hl : l.valuebuf = some a) (hb : InBlock lo hi s.heap)
    (hs : s.packed = flag) :
    PassOutcome lo hi det
      (values.length < 2 ^ 32 ∧ ∀ pyval ∈ values, short pyval) (all values) a
      s (encodeList py uninit nested desc values l s)
      (Added l a (all values).bytes) := by
  unfold encodeList
  by_cases hlen : values.length < 2 ^ 32
  · rw [if_pos hlen]
    refine PassOutcome.short_congr ?_ (encodeValues_outcome h hl hb hs)
    exact ⟨fun hall => ⟨hlen, hall⟩, fun hboth => hboth.2⟩
  · rw [if_neg hlen]
    have htake := h.mono fun v (hv : v ∈ values.take (2 ^ 32)) =>
      List.mem_of_mem_take hv
    have hjoin := h.joins (values.take (2 ^ 32)) (values.drop (2 ^ 32))
    rw [List.take_append_drop] at hjoin
    have hnever : (∀ v ∈ values.take (2 ^ 32), short v) ∧ False ↔
        values.length < 2 ^ 32 ∧ ∀ v ∈ values, short v :=
      ⟨fun hno => hno.2.elim, fun hboth => absurd hboth.1 hlen⟩
    refine PassOutcome.short_congr hnever ?_
    refine PassOutcome.bind hjoin (fun hdet => h.unique hdet _)
      (encodeValues_outcome htake hl hb hs) ?_
    intro b t s' _ _ hadded _ _
    cases b with
    | none => exact hadded.elim
    | some l' => exact fun hfalse => hfalse

end

-- =================================================================== rounds

section

variable {lo hi : Nat} {det : Prop} {uninit : UInt64} {py : PythonApi}
  {sch : Schema} {f : FieldRef} {desc : FieldDesc}
  {nested : PyObject → Option MsgRef → Option Nat → State → Ret UInt64}
  {spelled : PyObject → MsgRef → Tree → Prop} {values : List PyObject}

/-- The values of a field that is not packed. -/
theorem plain_rounds (hsmall : hi < lo + 2 ^ 64)
    (hfield : sch.field f = desc) (hnum : desc.number.toNat < 2 ^ 29)
    (hrun : desc.isPackedRepeated = false)
    (hlong : det → desc.opts.typ.isLong = false)
    (hnested : NestedWrites sch lo hi det spelled nested)
    (hunique : det → ∀ obj m t t', spelled obj m t → spelled obj m t' →
      t = t')
    (hspells : ∃ t, SpellsValues py spelled f desc values t) :
    Rounds lo hi det false uninit py nested desc
      (fun v => desc.opts.typ = .message → Short sch desc.msgDesc v)
      (fun vs => treeScript sch lo hi (SpellsValues py spelled f desc vs))
      Tree.append values where
  nil := ⟨.nil, rfl, rfl, fun _ => trivial⟩
  joins := fun vs ws => treeScript_joins fun u => spellsValues_append
  unique := fun hdet vs t t' => spellsValues_unique (hlong hdet)
    (hunique hdet)
  round := by
    intro v hv a s l hl hb hs
    obtain ⟨t₀, ht₀⟩ := hspells
    obtain ⟨u, hu⟩ := spellsValues_mem ht₀ hv
    by_cases htyp : desc.opts.typ = .message
    · obtain ⟨rest, -, hone⟩ := id hu
      rw [if_pos htyp] at hone
      obtain ⟨m, body, hm, hbody, -⟩ := hone
      have hscript : SpellsValues py spelled f desc [v]
          = fun t => ∃ body, spelled v m body ∧ t = .message f body .nil :=
        funext fun t => propext (spellsValues_message htyp hm)
      rw [hscript]
      refine PassOutcome.short_congr ?_ (encodeValue_message hsmall hfield hnum
        htyp hm hnested (fun hdet => hunique hdet v m) ⟨body, hbody⟩ hl hb hs)
      exact ⟨fun h _ => h, fun h => h htyp⟩
    · obtain ⟨x, hx, -⟩ := (spellsValues_scalar htyp).mp hu
      refine PassOutcome.short_congr ?_ (encodeValue_scalar hsmall htyp
        (fun t => spellsValues_scalar htyp) ?_ hlong ⟨x, hx⟩ ?_ hl hb)
      · exact ⟨fun _ hmsg => absurd hmsg htyp, fun _ => trivial⟩
      · intro x
        show _ ∧ True ↔ Fit lo hi a (((sch.field f).key _ ++ _) ++ []).length
        rw [and_true, List.append_nil]
      · intro val x hx
        rw [hs, Encoder2.addField_scalar hnum hrun hx]
        show _ = Encoder2.emit _ _ _ (((sch.field f).key _ ++ _) ++ [])
        rw [List.append_nil, hfield]

/-- The elements of a packed run. -/
theorem packed_rounds (hsmall : hi < lo + 2 ^ 64)
    (hnumeric : desc.opts.typ.isNumeric = true)
    (hlong : det → desc.opts.typ.isLong = false)
    {xs : List (Value Bytes)}
    (hspells : List.Forall₂ (Converts py desc.opts.typ) values xs) :
    Rounds lo hi det true uninit py nested desc (fun _ => True)
      (fun vs => elemScript desc.opts.typ lo hi
        (List.Forall₂ (Converts py desc.opts.typ) vs))
      (· ++ ·) values where
  nil := ⟨[], .nil, rfl, fun _ => .inl rfl⟩
  joins := fun vs ws => elemScript_joins fun u => convert_append
  unique := fun hdet vs t t' => convert_unique (hlong hdet)
  round := by
    intro v hv a s l hl hb hs
    have htyp : desc.opts.typ ≠ .message := by
      intro hmsg
      rw [hmsg] at hnumeric
      cases hnumeric
    refine encodeValue_scalar hsmall htyp (fun t => convert_one)
      (fun x => Iff.rfl) hlong (convert_mem hspells hv) ?_ hl hb
    intro val x hx
    rw [hs, Encoder2.addField_elem hx]
    show _ = Encoder2.emit _ _ _ (elemBytes [_])
    rw [elemBytes, List.flatMap_singleton]

end

-- =================================================================== fields

/-- A field was added: the place and the length have moved on. -/
def FieldAdded (sch : Schema) (l : FieldLocals) (a : Nat) :
    Option FieldLocals → Tree → Prop
  | none, _ => False
  | some l', t => l'.buf = some (a + (t.wire sch).bytes.length) ∧
      l'.len = l.len + UInt64.ofNat (t.wire sch).bytes.length

section

variable {lo hi a : Nat} {det : Prop} {uninit : UInt64} {py : PythonApi}
  {sch : Schema} {f : FieldRef} {desc : FieldDesc} {s : State}
  {nested : PyObject → Option MsgRef → Option Nat → State → Ret UInt64}
  {spelled : PyObject → MsgRef → Tree → Prop} {values : List PyObject}
  {l : FieldLocals}

/-- A list is short if its length is, and the messages in it are. -/
theorem shortList_iff : (values.length < 2 ^ 32 ∧ ∀ v ∈ values,
    desc.opts.typ = .message → Short sch desc.msgDesc v) ↔
      ShortList sch desc values :=
  ⟨fun h => ⟨h.1, fun htyp v hv => h.2 v hv htyp⟩,
    fun h => ⟨h.1, fun v hv htyp => h.2 htyp v hv⟩⟩

/-- A list of numbers has no messages in it. -/
theorem shortList_of_numeric (hnumeric : desc.opts.typ.isNumeric = true) :
    (values.length < 2 ^ 32 ∧ ∀ v ∈ values, True) ↔
      ShortList sch desc values := by
  refine ⟨fun h => ⟨h.1, fun htyp => ?_⟩, fun h => ⟨h.1, fun _ _ => trivial⟩⟩
  rw [htyp] at hnumeric
  cases hnumeric

/-- The values of a field that is not packed: a key in front of each. -/
theorem encodePlain_outcome (hsmall : hi < lo + 2 ^ 64)
    (hfield : sch.field f = desc) (hnum : desc.number.toNat < 2 ^ 29)
    (hrun : desc.isPackedRepeated = false)
    (hlong : det → desc.opts.typ.isLong = false)
    (hnested : NestedWrites sch lo hi det spelled nested)
    (hunique : det → ∀ obj m t t', spelled obj m t → spelled obj m t' →
      t = t')
    (hspells : ∃ t, SpellsValues py spelled f desc values t)
    (hl : l.buf = some a) (hb : InBlock lo hi s.heap)
    (hs : s.packed = false) :
    PassOutcome lo hi det (ShortList sch desc values)
      (treeScript sch lo hi (SpellsValues py spelled f desc values)) a s
      (encodePlain py uninit nested desc values l s) (FieldAdded sch l a) := by
  have hlist := @encodeList_outcome Tree lo hi a det s uninit desc
    ⟨l.extralen, l.val, l.buf, 0⟩ py nested _ Tree.append _ values false
    (plain_rounds hsmall hfield hnum hrun hlong hnested hunique hspells) hl hb
    hs
  refine PassOutcome.short_congr shortList_iff
    (hlist.andThen_ret fun b t _ hroom hadded => ?_)
  cases b with
  | none => exact hadded.elim
  | some v =>
      obtain ⟨-, hlen⟩ := hadded
      have hlen' : v.fieldlen = UInt64.ofNat (t.wire sch).bytes.length :=
        hlen.trans (UInt64.zero_add _)
      refine ⟨v, rfl, ?_, ?_⟩
      · show advance l.buf v.fieldlen = _
        rw [hl, hlen', advance, toNat_of_fit hsmall (room_bytes hroom)]
        rfl
      · show l.len + v.fieldlen = _
        rw [hlen']

/-- A packed field: the length is sized in a first loop, then one key, the
length and the elements. -/
theorem encodePacked_outcome (hsmall : hi < lo + 2 ^ 64)
    (hfield : sch.field f = desc) (hnum : desc.number.toNat < 2 ^ 29)
    (hrun : desc.isPackedRepeated = true)
    (hnumeric : desc.opts.typ.isNumeric = true)
    (hlong : det → desc.opts.typ.isLong = false)
    (hspells : ∃ xs, List.Forall₂ (Converts py desc.opts.typ) values xs)
    (hl : l.buf = some a) (hb : InBlock lo hi s.heap)
    (hs : s.packed = false) :
    PassOutcome lo hi det (ShortList sch desc values)
      (treeScript sch lo hi fun t =>
        ∃ xs, List.Forall₂ (Converts py desc.opts.typ) values xs ∧
          t = .packed f xs .nil) a s
      (encodePacked py uninit nested desc values l s)
      (FieldAdded sch l a) := by
  obtain ⟨xs₀, hxs₀⟩ := hspells
  have hlist := @encodeList_outcome _ lo hi (a + 10) det
    { s with packed := true } uninit desc
    ⟨l.extralen + UInt64.ofNat msgReserveBytes, l.val, reserve l.buf, 0⟩ py
    nested _ (· ++ ·) _ values true
    (packed_rounds hsmall hnumeric hlong hxs₀) (by rw [hl]; rfl) hb rfl
  have hwire : ∀ xs, ((Tree.packed f xs .nil).wire sch).bytes
      = desc.framed (elemBytes (xs.map (Value.payload desc.opts.typ))) := by
    intro xs
    show ((sch.field f).key .string ++ _) ++ [] = _
    rw [List.append_nil, hfield]
    rfl
  refine PassOutcome.short_congr (shortList_of_numeric hnumeric) ?_
  unfold encodePacked Encoder2.packedRepeatedStart
  rw [hrun, hs]
  refine PassOutcome.frame desc (Tree.packed f · .nil) ?_ (fun u => Iff.rfl) ?_
    ?_ (fun hdet t t' => convert_unique (hlong hdet)) hlist ?_
  · rfl
  · exact hwire
  · intro xs
    show Fit lo hi (a + 10) (elemBytes (xs.map
      (Value.payload (sch.field f).opts.typ))).length ∧
      Fit lo hi a ((sch.field f).framed _).length ∧ True ↔ _
    rw [hfield, and_true]
    rfl
  · intro b xs s' _ hfit hadded hpacked hblock
    cases b with
    | none => exact hadded.elim
    | some v =>
        obtain ⟨-, hlen⟩ := hadded
        have hlen' : v.fieldlen = UInt64.ofNat
            (elemBytes (xs.map (Value.payload desc.opts.typ))).length :=
          hlen.trans (UInt64.zero_add _)
        have hend : Encoder2.packedRepeatedEnd s'.packed = some false := by
          rw [hpacked]
          rfl
        have hadds := @addField_framed lo hi a { s' with packed := false }
          uninit desc (setMessage v.val (reserve l.buf) v.fieldlen)
          (elemBytes (xs.map (Value.payload desc.opts.typ))) hnum (.inr hrun)
          rfl hblock hfit
          (by
            have hfit' : Fit lo hi (a + 10) (elemBytes (xs.map
              (Value.payload desc.opts.typ))).length := hfit
            unfold Fit at hfit'
            omega) hlen' (by rw [hl]; rfl)
        simp only [hend, hl]
        rw [hl] at hadds
        rcases hadds with ⟨hno, hfault⟩ | ⟨hfit', s'', hret, hp, hblk, hwrote⟩
        · rw [hfault]
          exact .inl ⟨hno, rfl⟩
        · rw [hret]
          refine .inr ⟨hfit', _, s'', rfl, ⟨?_, ?_⟩, hp.trans hs.symm, hblk,
            hwrote⟩
          · show advance (some a) _ = _
            rw [advance, toNat_of_fit hsmall hfit', hwire]
            rfl
          · show l.len + _ = _
            rw [hwire]

end

-- =================================================================== objects

section

variable {lo hi a : Nat} {uninit : UInt64} {py : PythonApi} {sch : Schema}
  {m : MsgRef} {i : Nat} {desc : FieldDesc} {s : State} {l : FieldLocals}
  {fields : List FieldDesc} {items : List (String × PyObject)}
  {held : PyObject}
  {nested : PyObject → Option MsgRef → Option Nat → State → Ret UInt64}
  {spelled : PyObject → MsgRef → Tree → Prop}

/-- A dict is short if the lists of the fields it holds are. -/
theorem short_dict : Short sch (some m) (.dict items) ↔
    ∀ desc ∈ (sch.msg m).fields, ∀ held,
      items.lookup desc.name = some held → ShortList sch desc held.values := by
  constructor
  · intro h desc hdesc held hheld
    obtain ⟨hlists, hmessages⟩ := h
    exact ⟨hlists desc hdesc held hheld, fun htyp =>
      hmessages desc hdesc htyp held hheld⟩
  · intro h
    exact ⟨fun desc hdesc held hheld => (h desc hdesc held hheld).1,
      fun desc hdesc htyp held hheld => (h desc hdesc held hheld).2 htyp⟩

/-- A field that the dict holds, packed or plain. -/
theorem encodeField_outcome (hsmall : hi < lo + 2 ^ 64)
    (hnum : sch.SmallNumbers) (hpacked : sch.PackedNumeric)
    (hat : FieldAt sch m i desc fields)
    (hnested : NestedWrites sch lo hi sch.NoLong spelled nested)
    (hunique : sch.NoLong → ∀ obj m t t', spelled obj m t →
      spelled obj m t' → t = t')
    (hheld : items.lookup desc.name = some held)
    (hspells : ∃ t, SpellsField py spelled ⟨m, i⟩ desc held t)
    (hl : l.buf = some a) (hb : InBlock lo hi s.heap)
    (hs : s.packed = false) :
    PassOutcome lo hi sch.NoLong (ShortList sch desc held.values)
      (treeScript sch lo hi (SpellsField py spelled ⟨m, i⟩ desc held)) a s
      (encodeField py uninit nested items desc l s) (FieldAdded sch l a) := by
  have hn := hnum _ hat.message desc hat.mem
  have hlong : sch.NoLong → desc.opts.typ.isLong = false :=
    fun hno => hno _ hat.message desc hat.mem
  unfold encodeField
  rw [hheld]
  obtain ⟨t, ht⟩ := hspells
  cases hrun : desc.isPackedRepeated with
  | true =>
      have hscript : SpellsField py spelled ⟨m, i⟩ desc held = fun t =>
          ∃ xs, List.Forall₂ (Converts py desc.opts.typ) held.values xs ∧
            t = .packed ⟨m, i⟩ xs .nil := by
        funext t
        rw [SpellsField, hrun, if_pos rfl]
      rw [hscript] at ht ⊢
      obtain ⟨xs, hxs, -⟩ := ht
      exact encodePacked_outcome hsmall hat.field hn hrun
        (hpacked _ hat.message desc hat.mem hrun) hlong ⟨xs, hxs⟩ hl hb hs
  | false =>
      have hscript : SpellsField py spelled ⟨m, i⟩ desc held
          = SpellsValues py spelled ⟨m, i⟩ desc held.values := by
        funext t
        rw [SpellsField, hrun, if_neg Bool.false_ne_true]
      rw [hscript] at ht ⊢
      exact encodePlain_outcome hsmall hat.field hn hrun hlong hnested hunique
        ⟨t, ht⟩ hl hb hs

/-- A field that the dict does not hold is passed over. -/
theorem encodeField_skip (hheld : items.lookup desc.name = none) :
    encodeField py uninit nested items desc l s = .ret (some l) s := by
  rw [encodeField, hheld]

/-- A field that the dict does not hold asks nothing. -/
theorem short_fields_skip (hheld : items.lookup desc.name = none) :
    (∀ desc' ∈ fields, ∀ held, items.lookup desc'.name = some held →
        ShortList sch desc' held.values) ↔
      ∀ desc' ∈ desc :: fields, ∀ held,
        items.lookup desc'.name = some held →
        ShortList sch desc' held.values := by
  rw [List.forall_mem_cons, hheld]
  simp

/-- One that it holds asks that its list be short. -/
theorem short_fields_cons (hheld : items.lookup desc.name = some held) :
    (ShortList sch desc held.values ∧
        ∀ desc' ∈ fields, ∀ held, items.lookup desc'.name = some held →
          ShortList sch desc' held.values) ↔
      ∀ desc' ∈ desc :: fields, ∀ held,
        items.lookup desc'.name = some held →
        ShortList sch desc' held.values := by
  rw [List.forall_mem_cons, hheld]
  simp

/-- The loop over the fields of the descriptor: by induction on those that are
left. -/
theorem encodeFields_outcome (hsmall : hi < lo + 2 ^ 64)
    (hnum : sch.SmallNumbers) (hpacked : sch.PackedNumeric)
    (hnested : NestedWrites sch lo hi sch.NoLong spelled nested)
    (hunique : sch.NoLong → ∀ obj m t t', spelled obj m t →
      spelled obj m t' → t = t')
    (hfields : (sch.msg m).fields.drop i = fields)
    (hspells : ∃ t, SpellsFields py spelled m items i fields t)
    (hl : l.buf = some a) (hb : InBlock lo hi s.heap)
    (hs : s.packed = false) :
    PassOutcome lo hi sch.NoLong
      (∀ desc ∈ fields, ∀ held, items.lookup desc.name = some held →
        ShortList sch desc held.values)
      (treeScript sch lo hi (SpellsFields py spelled m items i fields)) a s
      (encodeFields py uninit nested items fields l s)
      (FieldAdded sch l a) := by
  induction fields generalizing i a l s with
  | nil =>
      refine ⟨fun _ h => absurd h List.not_mem_nil, .nil, rfl, trivial,
        ⟨hl, (UInt64.add_zero _).symm⟩, rfl, hb, fun _ => .nil hi _ a⟩
  | cons desc fields ih =>
      have hat := at_of_drop hfields
      obtain ⟨t, ht⟩ := hspells
      unfold encodeFields
      cases hheld : items.lookup desc.name with
      | none =>
          have hscript : SpellsFields py spelled m items i (desc :: fields)
              = SpellsFields py spelled m items (i + 1) fields := by
            funext t
            rw [SpellsFields, hheld]
          rw [hscript] at ht ⊢
          rw [encodeField_skip hheld]
          exact PassOutcome.short_congr (short_fields_skip hheld)
            (ih hat.rest ⟨t, ht⟩ hl hb hs)
      | some held =>
          have hscript : ∀ t, SpellsFields py spelled m items i
              (desc :: fields) t ↔
                ∃ first, SpellsField py spelled ⟨m, i⟩ desc held first ∧
                  ∃ rest, SpellsFields py spelled m items (i + 1) fields rest ∧
                    t = first.append rest := by
            intro t
            rw [SpellsFields, hheld]
            simp
          obtain ⟨first, hfirst, rest, hrest, -⟩ := (hscript t).mp ht
          refine PassOutcome.short_congr (short_fields_cons hheld) ?_
          refine PassOutcome.bind (treeScript_joins hscript)
            (fun hno t t' => spellsField_unique
              (hno _ hat.message desc hat.mem) (hunique hno))
            (encodeField_outcome hsmall hnum hpacked hat hnested hunique hheld
              ⟨first, hfirst⟩ hl hb hs) ?_
          intro b t s' _ _ hadded hp hblock
          cases b with
          | none => exact hadded.elim
          | some l' =>
              refine (ih hat.rest ⟨rest, hrest⟩ hadded.1 hblock
                (hp.trans hs)).imp ?_
              intro c t' _ _ hadded'
              cases c with
              | none => exact hadded'.elim
              | some l'' =>
                  obtain ⟨hbuf, hlen⟩ := hadded
                  obtain ⟨hbuf', hlen'⟩ := hadded'
                  refine ⟨?_, ?_⟩
                  · rw [hbuf', Tree.bytes_append, List.length_append,
                      Nat.add_assoc]
                  · rw [hlen', hlen, Tree.bytes_append, List.length_append,
                      UInt64.ofNat_add, UInt64.add_assoc]

/-- Every call writes what its object spells. -/
theorem encodeObject_writes (garbage : Nat → Scratch)
    (hsmall : hi < lo + 2 ^ 64) (hnum : sch.SmallNumbers)
    (hpacked : sch.PackedNumeric) (stack : Nat) :
    NestedWrites sch lo hi sch.NoLong (SpellsObject py sch stack)
      (encodeObject py sch garbage stack) := by
  induction stack with
  | zero => exact fun obj m a s h => h.elim fun _ hfalse => hfalse.elim
  | succ stack ih =>
      intro obj m a s hspells hb hs
      obtain ⟨t, ht⟩ := hspells
      cases obj with
      | list elems | bool b | other id => exact ht.elim
      | dict items =>
          have hfields := @encodeFields_outcome lo hi a
            (garbage s.calls).wireValue py sch m 0
            { s with calls := s.calls + 1 }
            ⟨0, 0, (garbage s.calls).value, some a⟩ (sch.msg m).fields items _
            _ hsmall hnum hpacked ih
            (fun hno => spellsObject_unique hno stack) rfl ⟨t, ht⟩ rfl hb hs
          refine PassOutcome.short_congr short_dict.symm ?_
          simp only [encodeObject]
          revert hfields
          generalize encodeFields py (garbage s.calls).wireValue
            (encodeObject py sch garbage stack) items (sch.msg m).fields
            ⟨0, 0, (garbage s.calls).value, some a⟩
            { s with calls := s.calls + 1 } = r
          intro hfields
          cases r with
          | ret b s' =>
              obtain ⟨hsh, u, hu, hroom, hadded, hrest⟩ := hfields
              cases b with
              | none => exact hadded.elim
              | some l' =>
                  obtain ⟨hbuf, hlen⟩ := hadded
                  refine ⟨hsh, u, hu, hroom, ?_, hrest⟩
                  rw [hbuf, Option.isSome_some, if_pos rfl, hlen]
                  exact UInt64.zero_add _
          | abort => exact hfields
          | fault => exact hfields
          | runaway => exact hfields

end

end Lwpb.Python
