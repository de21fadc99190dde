/-
The sizing pass.

Without a buffer the lengths of nested messages are counted together with
the ten bytes reserved inside of them, and their own prefixes are those of
these longer lengths: `Tree.sized` and `Tree.estimate`. The estimate is
room enough for the writing pass at every moment (`room_of_estimate`), and
no more than eleven times what is written, so that it does not wrap
around (`estimate_le`).
-/
import Lwpb.Proofs.Python.Writing

namespace Lwpb

open Base128

-- ================================================================ estimates

/-- The frames of two contents joined. -/
theorem Tree.frames_append (t u : Tree) :
    (t.append u).frames = t.frames + u.frames := by
  induction t with
  | nil => exact (Nat.zero_add _).symm
  | scalar f v rest ih => exact ih
  | message f body rest ihb ihr =>
      rw [append, frames, frames, ihr]
      omega
  | packed f elems rest ih =>
      rw [append, frames, frames, ih]
      omega

/-- Their sizes without the length words. -/
theorem Tree.sized_append (sch : Schema) (t u : Tree) :
    (t.append u).sized sch = t.sized sch + u.sized sch := by
  induction t with
  | nil => exact (Nat.zero_add _).symm
  | scalar f v rest ih => simp only [append, sized, ih, Nat.add_assoc]
  | message f body rest ihb ihr =>
      simp only [append, sized, ihr, Nat.add_assoc]
  | packed f elems rest ih => simp only [append, sized, ih, Nat.add_assoc]

/-- Room for the estimate is room enough. -/
theorem room_of_estimate (sch : Schema) {lo hi a : Nat} (t : Tree)
    (hlo : lo ≤ a) (hhi : a + t.estimate sch ≤ hi) : Room sch lo hi a t := by
  unfold Tree.estimate at hhi
  induction t generalizing a with
  | nil => trivial
  | scalar f v rest ih =>
      simp only [Tree.sized, Tree.frames] at hhi
      exact ⟨.inr ⟨hlo, by omega⟩, ih (by omega) (by omega)⟩
  | message f body rest ihb ihr =>
      have hbody := length_le_estimate sch body
      have hprefix := encode_length_mono hbody
      unfold Tree.estimate at hbody hprefix
      simp only [Tree.sized, Tree.frames, List.length_append] at hhi
      have hframed : ((sch.field f).framed (body.wire sch).bytes).length
          ≤ ((sch.field f).key .string).length
            + (encode (body.sized sch + 10 * body.frames)).length
            + (body.sized sch + 10 * body.frames) := by
        simp only [FieldDesc.framed, List.length_append]
        omega
      exact ⟨ihb (by omega) (by omega), .inr ⟨hlo, by omega⟩,
        ihr (by omega) (by omega)⟩
  | packed f elems rest ih =>
      simp only [Tree.sized, Tree.frames] at hhi
      have hframed : (elemBytes (elems.map
          (Value.payload (sch.field f).opts.typ))).length
          ≤ ((sch.field f).framed (elemBytes (elems.map
            (Value.payload (sch.field f).opts.typ)))).length := by
        simp only [FieldDesc.framed, List.length_append]
        omega
      exact ⟨.inr ⟨by omega, by omega⟩, .inr ⟨hlo, by omega⟩,
        ih (by omega) (by omega)⟩

/-- The estimate of a short message is not much longer. -/
theorem estimate_le (sch : Schema) (t : Tree)
    (h : Python.Brief (t.wire sch).bytes) :
    t.estimate sch ≤ 11 * (t.wire sch).bytes.length := by
  unfold Python.Brief at h
  unfold Tree.estimate
  induction t with
  | nil => exact Nat.le_refl 0
  | scalar f v rest ih =>
      simp only [Tree.wire, Wire.bytes, Tree.sized, Tree.frames,
        List.length_append] at h ih ⊢
      have := ih (by omega)
      omega
  | message f body rest ihb ihr =>
      have hkey := key_length_pos (sch.field f) .string
      have hpos := encode_length_pos (body.wire sch).bytes.length
      simp only [Tree.wire, Wire.bytes, Tree.sized, Tree.frames,
        List.length_append] at h ihr ⊢
      have hbody := ihb (by omega)
      have hrest := ihr (by omega)
      have hten : (encode (body.sized sch + 10 * body.frames)).length ≤ 10 :=
        encode_length_le_of_lt (k := 9) (by
          have : body.sized sch + 10 * body.frames < 2 ^ 64 := by omega
          calc body.sized sch + 10 * body.frames < 2 ^ 64 := this
            _ ≤ 128 ^ 10 := by norm_num)
      omega
  | packed f elems rest ih =>
      have hkey := key_length_pos (sch.field f) .string
      simp only [Tree.wire, Wire.bytes, Tree.sized, Tree.frames,
        FieldDesc.framed, List.length_append] at h ih ⊢
      have := ih (by omega)
      omega

/-- The estimate of contents whose bytes fit the memory does not wrap. -/
theorem estimate_lt (sch : Schema) (t : Tree)
    (h : Python.Brief (t.wire sch).bytes) : t.estimate sch < 2 ^ 64 := by
  have hle := estimate_le sch t h
  unfold Python.Brief at h
  omega

namespace Python

-- ================================================================= the pass

/-- How a part of the sizing pass goes: it returns, unless it runs away
from a list that is too long. -/
def Sizes {α : Type} (short : Prop) (flag : Bool) (r : Ret α)
    (good : α → Prop) : Prop :=
  match r with
  | .ret b s => short ∧ s.packed = flag ∧ good b
  | .abort | .fault => False
  | .runaway => ¬ short

section

variable {α β : Type} {short short' : Prop} {flag flag' : Bool} {r : Ret α}
  {good goal : α → Prop} {good' : β → Prop}

/-- Two parts of the pass, the second of which goes on with what the first
returned. -/
theorem Sizes.bind {next : α → State → Ret β} (h : Sizes short flag r good)
    (hnext : ∀ b s, s.packed = flag → good b →
      Sizes short' flag' (next b s) good') :
    Sizes (short ∧ short') flag' (r.bind next) good' := by
  cases r with
  | ret b s =>
      obtain ⟨hshort, hpacked, hgood⟩ := h
      have hrest := hnext b s hpacked hgood
      rw [Ret.ret_bind]
      cases hr : next b s with
      | ret c s' =>
          rw [hr] at hrest
          exact ⟨⟨hshort, hrest.1⟩, hrest.2⟩
      | abort =>
          rw [hr] at hrest
          exact hrest
      | fault =>
          rw [hr] at hrest
          exact hrest
      | runaway =>
          rw [hr] at hrest
          exact fun hboth => hrest hboth.2
  | abort => exact h
  | fault => exact h
  | runaway => exact fun hboth => h hboth.1

/-- The bound on the lists can be put in other words. -/
theorem Sizes.short_congr (hshort : short ↔ short')
    (h : Sizes short flag r good) : Sizes short' flag r good := by
  rw [← propext hshort]
  exact h

/-- What is known of the result can be weakened. -/
theorem Sizes.imp (h : Sizes short flag r good)
    (hgood : ∀ b, good b → goal b) : Sizes short flag r goal := by
  cases r with
  | ret b s => exact ⟨h.1, h.2.1, hgood b h.2.2⟩
  | abort => exact h
  | fault => exact h
  | runaway => exact h

/-- A loop that was not broken off, with something made of its result. -/
theorem Sizes.andThen_ret {r : Ret (Option α)} {g : α → β}
    {good : Option α → Prop} {goal : Option β → Prop}
    (h : Sizes short flag r good)
    (hgood : ∀ b, good b → ∃ v, b = some v ∧ goal (some (g v))) :
    Sizes short flag (r.andThen fun v s => .ret (some (g v)) s) goal := by
  cases r with
  | ret b s =>
      obtain ⟨hshort, hflag, hg⟩ := h
      obtain ⟨v, rfl, hgoal⟩ := hgood b hg
      exact ⟨hshort, hflag, hgoal⟩
  | abort => exact h
  | fault => exact h
  | runaway => exact h

end

/-- Bytes were counted, and bytes to reserve. -/
structure Counted (l l' : ValueLocals) (n k : Nat) : Prop where
  buf : l'.valuebuf = none
  len : l'.fieldlen = l.fieldlen + UInt64.ofNat n
  extra : l'.extralen = l.extralen + UInt64.ofNat k

/-- Counted in a loop that was not broken off. -/
def CountedAll (l : ValueLocals) (n k : Nat) : Option ValueLocals → Prop
  | none => False
  | some l' => Counted l l' n k

section

variable {py : PythonApi} {sch : Schema} {uninit : UInt64}
  {desc : FieldDesc} {flag : Bool} {s : State} {l : ValueLocals}
  {nested : PyObject → Option MsgRef → Option Nat → State → Ret UInt64}
  {spelled : PyObject → MsgRef → Tree → Prop} {f : FieldRef}
  {pyval : PyObject} {values : List PyObject}

-- =================================================================== values

/-- Without a buffer, adding a value adds its length. -/
theorem addValue_sizes {n : UInt64}
    (hadd : Encoder2.addField s.packed uninit s.heap desc l.val none
      = some (s.heap, n)) (hbuf : l.valuebuf = none) :
    ((addValue uninit desc l s).bind fun l s => .ret (some l) s)
      = .ret (some { l with fieldlen := l.fieldlen + n }) s := by
  unfold addValue addField
  rw [hbuf, hadd]
  obtain ⟨extralen, val, valuebuf, fieldlen⟩ := l
  cases hbuf
  rfl

/-- A value that is no message. -/
theorem encodeValue_sizes {v : Value Bytes} {n : Nat}
    (htyp : desc.opts.typ ≠ .message)
    (hlong : desc.opts.typ.isLong = false)
    (hconv : Converts py desc.opts.typ pyval v)
    (hadd : ∀ val, Stands desc.opts.typ val v → ∀ h,
      Encoder2.addField flag uninit h desc val none
        = some (h, UInt64.ofNat n))
    (hbuf : l.valuebuf = none) (hs : s.packed = flag) :
    Sizes True flag (encodeValue py uninit nested desc pyval l s)
      (CountedAll l n 0) := by
  obtain ⟨val, pending, hval, hstands, hv⟩ := hconv.again l.val
  rw [hv.unique hlong hconv] at hstands
  unfold encodeValue
  rw [if_neg htyp, hval]
  simp only
  rw [@addValue_sizes uninit desc { s with error := pending.or s.error }
    { l with val := val } (UInt64.ofNat n)
    (by rw [hs]; exact hadd val hstands _) hbuf]
  exact ⟨trivial, hs, hbuf, rfl, (UInt64.add_zero _).symm⟩

/-- What a nested call has to be: it returns the estimate. -/
def NestedSizes (sch : Schema) (spelled : PyObject → MsgRef → Tree → Prop)
    (nested : PyObject → Option MsgRef → Option Nat → State → Ret UInt64) :
    Prop :=
  ∀ obj m s t, spelled obj m t → Brief (t.wire sch).bytes →
    s.packed = false →
    Sizes (Short sch (some m) obj) false (nested obj (some m) none s)
      (· = UInt64.ofNat (t.estimate sch))

/-- A frame is counted without being there. -/
theorem addField_counts {val : RawValue} {n : Nat} (h : Heap)
    (hnum : desc.number.toNat < 2 ^ 29)
    (hframe : desc.opts.typ = .message ∨ desc.isPackedRepeated = true)
    (hn : n < 2 ^ 64) (hlen : val.len = UInt64.ofNat n) :
    Encoder2.addField false uninit h desc val none
      = some (h, UInt64.ofNat ((desc.key .string ++ encode n).length + n)) := by
  have hnat : val.len.toNat = n := by
    rw [hlen, UInt64.toNat_ofNat_of_lt' hn]
  rw [Encoder2.addField_frame hframe, Encoder2.encodeKeyed_frame hnum]
  simp only [hnat]
  rw [UInt64.ofNat_add, ← hlen]
  rfl

/-- A message: its estimate behind the prefix of that length. -/
theorem encodeValue_sizes_message {m : MsgRef} {body : Tree}
    (hnum : desc.number.toNat < 2 ^ 29) (htyp : desc.opts.typ = .message)
    (hdesc : desc.msgDesc = some m)
    (hnested : NestedSizes sch spelled nested)
    (hspelled : spelled pyval m body)
    (hbrief : Brief (body.wire sch).bytes) (hbuf : l.valuebuf = none)
    (hs : s.packed = false) :
    Sizes (Short sch desc.msgDesc pyval) false
      (encodeValue py uninit nested desc pyval l s)
      (CountedAll l ((desc.key .string
        ++ encode (body.estimate sch)).length + body.estimate sch) 10) := by
  unfold encodeValue
  rw [if_pos htyp, hdesc, hbuf]
  refine Sizes.short_congr (iff_of_eq (and_true _)) ?_
  refine Sizes.bind (hnested pyval m s body hspelled hbrief hs) ?_
  intro len s' hs' hlen
  rw [if_neg UInt64.not_lt_zero, addValue_sizes (n := UInt64.ofNat
    ((desc.key .string ++ encode (body.estimate sch)).length
      + body.estimate sch)) ?_ rfl]
  · exact ⟨trivial, hs', rfl, rfl, rfl⟩
  · rw [hs']
    exact addField_counts _ hnum (.inl htyp) (estimate_lt sch body hbrief) hlen

-- ==================================================================== loops

/-- What a round of the loop adds. -/
def Costs (flag : Bool) (uninit : UInt64) (py : PythonApi)
    (nested : PyObject → Option MsgRef → Option Nat → State → Ret UInt64)
    (desc : FieldDesc) (short : PyObject → Prop) (pyval : PyObject)
    (cost : Nat × Nat) : Prop :=
  ∀ (s : State) (l : ValueLocals), l.valuebuf = none → s.packed = flag →
    Sizes (short pyval) flag (encodeValue py uninit nested desc pyval l s)
      (CountedAll l cost.1 cost.2)

variable {short : PyObject → Prop} {costs : List (Nat × Nat)}

/-- The loop over the values adds the costs of all of them. -/
theorem encodeValues_sizes
    (h : List.Forall₂ (Costs flag uninit py nested desc short) values costs)
    (hbuf : l.valuebuf = none) (hs : s.packed = flag) :
    Sizes (∀ v ∈ values, short v) flag
      (encodeValues py uninit nested desc values l s)
      (CountedAll l (costs.map Prod.fst).sum (costs.map Prod.snd).sum) := by
  induction h generalizing l s with
  | nil =>
      exact ⟨fun v hv => absurd hv List.not_mem_nil, hs, hbuf,
        (UInt64.add_zero _).symm, (UInt64.add_zero _).symm⟩
  | cons hone _ ih =>
      refine Sizes.short_congr List.forall_mem_cons.symm ?_
      refine Sizes.bind (hone s l hbuf hs) ?_
      intro b s' hs' hcounted
      cases b with
      | none => exact hcounted.elim
      | some l' =>
          refine (ih hcounted.buf hs').imp ?_
          intro c hcounted'
          cases c with
          | none => exact hcounted'.elim
          | some l'' =>
              refine ⟨hcounted'.buf, ?_, ?_⟩
              · rw [hcounted'.len, hcounted.len, List.map_cons,
                  List.sum_cons, UInt64.ofNat_add, UInt64.add_assoc]
              · rw [hcounted'.extra, hcounted.extra, List.map_cons,
                  List.sum_cons, UInt64.ofNat_add, UInt64.add_assoc]

/-- With the loop counter, if the list is short. -/
theorem encodeList_sizes
    (h : List.Forall₂ (Costs flag uninit py nested desc short) values costs)
    (hbuf : l.valuebuf = none) (hs : s.packed = flag) :
    Sizes (values.length < 2 ^ 32 ∧ ∀ v ∈ values, short v) flag
      (encodeList py uninit nested desc values l s)
      (CountedAll l (costs.map Prod.fst).sum (costs.map Prod.snd).sum) := by
  unfold encodeList
  by_cases hlen : values.length < 2 ^ 32
  · rw [if_pos hlen]
    refine Sizes.short_congr ?_ (encodeValues_sizes h hbuf hs)
    exact ⟨fun hall => ⟨hlen, hall⟩, fun hboth => hboth.2⟩
  · rw [if_neg hlen]
    have hnever : (∀ v ∈ values.take (2 ^ 32), short v) ∧ False ↔
        values.length < 2 ^ 32 ∧ ∀ v ∈ values, short v :=
      ⟨fun hno => hno.2.elim, fun hboth => absurd hboth.1 hlen⟩
    refine Sizes.short_congr hnever ?_
    refine Sizes.bind (encodeValues_sizes (List.forall₂_take _ h) hbuf hs) ?_
    intro b s' _ hcounted
    cases b with
    | none => exact hcounted.elim
    | some l' => exact fun hfalse => hfalse

/-- The rounds of a field that is not packed. -/
theorem plain_costs {t : Tree} (hfield : sch.field f = desc)
    (hnum : desc.number.toNat < 2 ^ 29)
    (hrun : desc.isPackedRepeated = false)
    (hlong : desc.opts.typ.isLong = false)
    (hnested : NestedSizes sch spelled nested)
    (h : SpellsValues py spelled f desc values t)
    (hbrief : Brief (t.wire sch).bytes) :
    ∃ costs, List.Forall₂ (Costs false uninit py nested desc fun v =>
        desc.opts.typ = .message → Short sch desc.msgDesc v) values costs ∧
      (costs.map Prod.fst).sum = t.sized sch ∧
      (costs.map Prod.snd).sum = 10 * t.frames := by
  induction values generalizing t with
  | nil =>
      cases h
      exact ⟨[], .nil, rfl, rfl⟩
  | cons v values ih =>
      obtain ⟨rest, hrest, hone⟩ := h
      unfold Brief at hbrief
      by_cases htyp : desc.opts.typ = .message
      · rw [if_pos htyp] at hone
        obtain ⟨m, body, hm, hbody, rfl⟩ := hone
        simp only [Tree.wire, Wire.bytes, List.length_append] at hbrief
        obtain ⟨costs, hcosts, hfst, hsnd⟩ := ih hrest
          (show (rest.wire sch).bytes.length < 2 ^ 35 by omega)
        refine ⟨((desc.key .string ++ encode (body.estimate sch)).length
          + body.estimate sch, 10) :: costs, .cons ?_ hcosts, ?_, ?_⟩
        · intro s l hbuf hs
          refine Sizes.short_congr ⟨fun hsh _ => hsh, fun hsh => hsh htyp⟩ ?_
          exact encodeValue_sizes_message hnum htyp hm hnested hbody
            (show (body.wire sch).bytes.length < 2 ^ 35 by omega) hbuf hs
        · rw [List.map_cons, List.sum_cons, hfst, Tree.sized, hfield]
          rfl
        · rw [List.map_cons, List.sum_cons, hsnd, Tree.frames]
          omega
      · rw [if_neg htyp] at hone
        obtain ⟨x, hx, rfl⟩ := hone
        simp only [Tree.wire, Wire.bytes, List.length_append] at hbrief
        obtain ⟨costs, hcosts, hfst, hsnd⟩ := ih hrest
          (show (rest.wire sch).bytes.length < 2 ^ 35 by omega)
        refine ⟨((desc.key (x.payload desc.opts.typ).wireType
          ++ (x.payload desc.opts.typ).bytes).length, 0) :: costs,
          .cons ?_ hcosts, ?_, ?_⟩
        · intro s l hbuf hs
          refine Sizes.short_congr ⟨fun _ hmsg => absurd hmsg htyp,
            fun _ => trivial⟩ ?_
          refine encodeValue_sizes htyp hlong hx ?_ hbuf hs
          intro val hval h
          rw [Encoder2.addField_scalar hnum hrun hval, Encoder2.emit_none,
            UInt64.zero_add]
        · rw [List.map_cons, List.sum_cons, hfst, Tree.sized, hfield]
        · rw [List.map_cons, List.sum_cons, hsnd, Tree.frames, Nat.zero_add]

/-- The rounds of a packed run. -/
theorem packed_costs {xs : List (Value Bytes)}
    (hnumeric : desc.opts.typ.isNumeric = true)
    (hlong : desc.opts.typ.isLong = false)
    (h : List.Forall₂ (Converts py desc.opts.typ) values xs) :
    ∃ costs, List.Forall₂ (Costs true uninit py nested desc fun _ => True)
        values costs ∧
      (costs.map Prod.fst).sum
        = (elemBytes (xs.map (Value.payload desc.opts.typ))).length ∧
      (costs.map Prod.snd).sum = 0 := by
  have htyp : desc.opts.typ ≠ .message := by
    intro hmsg
    rw [hmsg] at hnumeric
    cases hnumeric
  induction h with
  | nil => exact ⟨[], .nil, rfl, rfl⟩
  | @cons v x _ _ hx _ ih =>
      obtain ⟨costs, hcosts, hfst, hsnd⟩ := ih
      refine ⟨((x.payload desc.opts.typ).bytes.length, 0) :: costs,
        .cons ?_ hcosts, ?_, ?_⟩
      · intro s l hbuf hs
        refine encodeValue_sizes htyp hlong hx ?_ hbuf hs
        intro val hval h
        rw [Encoder2.addField_elem hval, Encoder2.emit_none, UInt64.zero_add]
      · rw [List.map_cons, List.sum_cons, hfst, List.map_cons]
        exact List.length_append.symm
      · rw [List.map_cons, List.sum_cons, hsnd]

end

-- =================================================================== fields

/-- A field was counted. -/
structure FieldCounted (l l' : FieldLocals) (n k : Nat) : Prop where
  buf : l'.buf = none
  len : l'.len = l.len + UInt64.ofNat n
  extra : l'.extralen = l.extralen + UInt64.ofNat k

/-- Counted in a loop that was not broken off. -/
def FieldsCounted (l : FieldLocals) (n k : Nat) : Option FieldLocals → Prop
  | none => False
  | some l' => FieldCounted l l' n k

section

variable {py : PythonApi} {sch : Schema} {uninit : UInt64}
  {desc : FieldDesc} {s : State} {l : FieldLocals}
  {nested : PyObject → Option MsgRef → Option Nat → State → Ret UInt64}
  {spelled : PyObject → MsgRef → Tree → Prop} {f : FieldRef} {t : Tree}
  {values : List PyObject} {items : List (String × PyObject)}
  {fields : List FieldDesc} {m : MsgRef} {i : Nat}

/-- A field that is not packed: a key and a value for each. -/
theorem encodePlain_sizes (hfield : sch.field f = desc)
    (hnum : desc.number.toNat < 2 ^ 29)
    (hrun : desc.isPackedRepeated = false)
    (hlong : desc.opts.typ.isLong = false)
    (hnested : NestedSizes sch spelled nested)
    (h : SpellsValues py spelled f desc values t)
    (hbrief : Brief (t.wire sch).bytes) (hbuf : l.buf = none)
    (hs : s.packed = false) :
    Sizes (ShortList sch desc values) false
      (encodePlain py uninit nested desc values l s)
      (FieldsCounted l (t.sized sch) (10 * t.frames)) := by
  obtain ⟨costs, hcosts, hfst, hsnd⟩ := @plain_costs py sch uninit desc nested
    spelled f values t hfield hnum hrun hlong hnested h hbrief
  have hlist := @encodeList_sizes py uninit desc false s
    ⟨l.extralen, l.val, l.buf, 0⟩ nested values _ costs hcosts hbuf hs
  rw [hfst, hsnd] at hlist
  refine Sizes.short_congr shortList_iff
    (hlist.andThen_ret fun b hcounted => ?_)
  cases b with
  | none => exact hcounted.elim
  | some v =>
      refine ⟨v, rfl, ?_, ?_, hcounted.extra⟩
      · show advance l.buf _ = none
        rw [hbuf]
        rfl
      · show l.len + v.fieldlen = _
        rw [hcounted.len, UInt64.zero_add]

/-- A packed field: one key, one length word that is counted as ten bytes, and
the elements. -/
theorem encodePacked_sizes {xs : List (Value Bytes)}
    (hfield : sch.field f = desc) (hnum : desc.number.toNat < 2 ^ 29)
    (hrun : desc.isPackedRepeated = true)
    (hnumeric : desc.opts.typ.isNumeric = true)
    (hlong : desc.opts.typ.isLong = false)
    (h : List.Forall₂ (Converts py desc.opts.typ) values xs)
    (hbrief : Brief ((Tree.packed f xs .nil).wire sch).bytes)
    (hbuf : l.buf = none) (hs : s.packed = false) :
    Sizes (ShortList sch desc values) false
      (encodePacked py uninit nested desc values l s)
      (FieldsCounted l ((Tree.packed f xs .nil).sized sch) 10) := by
  obtain ⟨costs, hcosts, hfst, hsnd⟩ := @packed_costs py uninit desc nested
    values xs hnumeric hlong h
  have hlist := @encodeList_sizes py uninit desc true
    { s with packed := true }
    ⟨l.extralen + UInt64.ofNat msgReserveBytes, l.val, reserve l.buf, 0⟩
    nested values _ costs hcosts (by rw [hbuf]; rfl) rfl
  rw [hfst, hsnd] at hlist
  refine Sizes.short_congr
    ((and_iff_left trivial).trans (shortList_of_numeric hnumeric)) ?_
  unfold encodePacked Encoder2.packedRepeatedStart
  rw [hrun, hs]
  refine Sizes.bind hlist ?_
  intro b s' hs' hcounted
  cases b with
  | none => exact hcounted.elim
  | some v =>
      have hend : Encoder2.packedRepeatedEnd s'.packed = some false := by
        rw [hs']
        rfl
      have hlen : v.fieldlen = UInt64.ofNat
          (elemBytes (xs.map (Value.payload desc.opts.typ))).length :=
        hcounted.len.trans (UInt64.zero_add _)
      have hsmall : (elemBytes (xs.map
          (Value.payload desc.opts.typ))).length < 2 ^ 64 := by
        unfold Brief at hbrief
        simp only [Tree.wire, Wire.bytes, List.length_append, hfield]
          at hbrief
        omega
      have hadd := @addField_counts uninit desc
        (setMessage v.val (reserve l.buf) v.fieldlen) _ s'.heap hnum
        (.inr hrun) hsmall hlen
      simp only [hend, hbuf]
      rw [hbuf] at hadd
      unfold addField
      simp only [hadd]
      refine ⟨trivial, rfl, rfl, ?_, ?_⟩
      · rw [Tree.sized, Tree.sized, hfield, FieldDesc.framed,
          ← List.append_assoc, @List.length_append _ _ (elemBytes _)]
        rfl
      · have hextra := hcounted.extra
        exact hextra.trans (UInt64.add_zero _)

/-- A field that the dict holds. -/
theorem encodeField_sizes {held : PyObject} (hnum : sch.SmallNumbers)
    (hpacked : sch.PackedNumeric) (hno : sch.NoLong)
    (hat : FieldAt sch m i desc fields)
    (hnested : NestedSizes sch spelled nested)
    (hheld : items.lookup desc.name = some held)
    (h : SpellsField py spelled ⟨m, i⟩ desc held t)
    (hbrief : Brief (t.wire sch).bytes) (hbuf : l.buf = none)
    (hs : s.packed = false) :
    Sizes (ShortList sch desc held.values) false
      (encodeField py uninit nested items desc l s)
      (FieldsCounted l (t.sized sch) (10 * t.frames)) := by
  have hn := hnum _ hat.message desc hat.mem
  have hlong := hno _ hat.message desc hat.mem
  unfold encodeField
  rw [hheld]
  unfold SpellsField at h
  cases hrun : desc.isPackedRepeated with
  | true =>
      rw [hrun, if_pos rfl] at h
      obtain ⟨xs, hxs, rfl⟩ := h
      exact encodePacked_sizes hat.field hn hrun
        (hpacked _ hat.message desc hat.mem hrun) hlong hxs hbrief hbuf hs
  | false =>
      rw [hrun, if_neg Bool.false_ne_true] at h
      exact encodePlain_sizes hat.field hn hrun hlong hnested h hbrief hbuf hs

/-- All fields of the message: by induction on those that are left. -/
theorem encodeFields_sizes (hnum : sch.SmallNumbers)
    (hpacked : sch.PackedNumeric) (hno : sch.NoLong)
    (hnested : NestedSizes sch spelled nested)
    (hfields : (sch.msg m).fields.drop i = fields)
    (h : SpellsFields py spelled m items i fields t)
    (hbrief : Brief (t.wire sch).bytes) (hbuf : l.buf = none)
    (hs : s.packed = false) :
    Sizes (∀ desc ∈ fields, ∀ held, items.lookup desc.name = some held →
        ShortList sch desc held.values) false
      (encodeFields py uninit nested items fields l s)
      (FieldsCounted l (t.sized sch) (10 * t.frames)) := by
  induction fields generalizing i t l s with
  | nil =>
      cases h
      exact ⟨fun _ h => absurd h List.not_mem_nil, hs, hbuf,
        (UInt64.add_zero _).symm, (UInt64.add_zero _).symm⟩
  | cons desc fields ih =>
      have hat := at_of_drop hfields
      unfold SpellsFields at h
      unfold encodeFields
      cases hheld : items.lookup desc.name with
      | none =>
          rw [hheld] at h
          rw [encodeField_skip hheld]
          exact Sizes.short_congr (short_fields_skip hheld)
            (ih hat.rest h hbrief hbuf hs)
      | some held =>
          rw [hheld] at h
          obtain ⟨first, rest, hfirst, hrest, rfl⟩ := h
          unfold Brief at hbrief
          rw [Tree.bytes_append, List.length_append] at hbrief
          refine Sizes.short_congr (short_fields_cons hheld) ?_
          refine Sizes.bind (encodeField_sizes hnum hpacked hno hat hnested
            hheld hfirst ?_ hbuf hs) ?_
          · exact Nat.lt_of_le_of_lt (Nat.le_add_right ..) hbrief
          intro b s' hs' hcounted
          cases b with
          | none => exact hcounted.elim
          | some l' =>
              refine (ih hat.rest hrest ?_ hcounted.buf hs').imp ?_
              · exact Nat.lt_of_le_of_lt (Nat.le_add_left ..) hbrief
              intro c hcounted'
              cases c with
              | none => exact hcounted'.elim
              | some l'' =>
                  refine ⟨hcounted'.buf, ?_, ?_⟩
                  · rw [hcounted'.len, hcounted.len, Tree.sized_append,
                      UInt64.ofNat_add, UInt64.add_assoc]
                  · rw [hcounted'.extra, hcounted.extra, Tree.frames_append,
                      Nat.mul_add, UInt64.ofNat_add, UInt64.add_assoc]

/-- Every call without a buffer returns the estimate. -/
theorem encodeObject_sizes (garbage : Nat → Scratch)
    (hnum : sch.SmallNumbers) (hpacked : sch.PackedNumeric)
    (hno : sch.NoLong) (stack : Nat) :
    NestedSizes sch (SpellsObject py sch stack)
      (encodeObject py sch garbage stack) := by
  induction stack with
  | zero => exact fun obj m s t h => h.elim
  | succ stack ih =>
      intro obj m s t h hbrief hs
      cases obj with
      | list elems | bool b | other id => exact h.elim
      | dict items =>
          have hfields := @encodeFields_sizes py sch
            (garbage s.calls).wireValue { s with calls := s.calls + 1 }
            ⟨0, 0, (garbage s.calls).value, none⟩ _ _ t items
            (sch.msg m).fields m 0 hnum hpacked hno ih rfl h hbrief rfl hs
          refine Sizes.short_congr short_dict.symm ?_
          simp only [encodeObject]
          revert hfields
          generalize encodeFields py (garbage s.calls).wireValue
            (encodeObject py sch garbage stack) items (sch.msg m).fields
            ⟨0, 0, (garbage s.calls).value, none⟩
            { s with calls := s.calls + 1 } = r
          intro hfields
          cases r with
          | ret b s' =>
              obtain ⟨hsh, hpacked', hcounted⟩ := hfields
              cases b with
              | none => exact hcounted.elim
              | some l' =>
                  refine ⟨hsh, hpacked', ?_⟩
                  rw [hcounted.buf, Option.isSome_none,
                    if_neg Bool.false_ne_true, hcounted.len, hcounted.extra,
                    Tree.estimate, UInt64.ofNat_add, UInt64.zero_add,
                    UInt64.zero_add]
          | abort => exact hfields
          | fault => exact hfields
          | runaway => exact hfields

end

end Python

end Lwpb
