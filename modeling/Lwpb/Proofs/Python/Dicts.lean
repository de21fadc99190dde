/-
The dict of a message.

`Tree.fill` is what a message adds to a dict, by recursion over the
message. The handlers come to the same with references and a stack
(`handles_tree`): a submessage is filled in place, at the end of a way one
slot longer than that to the dict around it.

That a way leads somewhere, and that nothing is refused, takes that what a
dict holds under a name is what the field of this name makes: `Shaped`.
-/
import Lwpb.Python.Decoder
import Lwpb.Python.Messages
import Lwpb.Proofs.RoundTrip

namespace Lwpb.Python

-- ============================================================== references

section

variable {items inner : Items} {slot : Slot} {path : Path}
  {change change' : Items → Items} {pyval : PyObject}

/-- What was put at a place that is there is found at it. -/
theorem Slot.get_put (h : slot.get items ≠ none) :
    slot.get (slot.put items pyval) = some pyval := by
  obtain ⟨name, idx⟩ := slot
  cases idx with
  | none => exact Assoc.lookup_set_self
  | some i =>
      unfold get at h
      unfold put get
      cases hheld : items.lookup name with
      | none =>
          simp only [hheld] at h
          exact absurd rfl h
      | some held =>
          cases held with
          | list elems =>
              simp only [hheld, Assoc.lookup_set_self] at h ⊢
              have hlt : i < elems.length := by
                by_contra hge
                exact h (List.getElem?_eq_none (Nat.not_lt.mp hge))
              rw [List.getElem?_set_self hlt]
          | dict _ | bool _ | other _ =>
              simp only [hheld] at h
              exact absurd rfl h

/-- Of two things put at one place the second stays. -/
theorem Slot.put_put {pyval' : PyObject} :
    slot.put (slot.put items pyval) pyval' = slot.put items pyval' := by
  obtain ⟨name, idx⟩ := slot
  cases idx with
  | none => exact Assoc.set_set
  | some i =>
      unfold put
      cases hheld : items.lookup name with
      | none => simp only [hheld]
      | some held =>
          cases held with
          | list elems =>
              simp only [Assoc.lookup_set_self, List.set_set, Assoc.set_set]
          | dict _ | bool _ | other _ => simp only [hheld]

/-- Putting back what is there changes nothing. -/
theorem Slot.put_get (h : slot.get items = some pyval) :
    slot.put items pyval = items := by
  obtain ⟨name, idx⟩ := slot
  cases idx with
  | none => exact Assoc.set_of_lookup h
  | some i =>
      unfold get at h
      unfold put
      cases hheld : items.lookup name with
      | none => rfl
      | some held =>
          cases held with
          | list elems =>
              simp only [hheld] at h ⊢
              obtain ⟨hlt, heq⟩ := List.getElem?_eq_some_iff.mp h
              rw [← heq, List.set_getElem_self]
              exact Assoc.set_of_lookup hheld
          | dict _ | bool _ | other _ => rfl

/-- A way is followed slot by slot. -/
theorem follow_cons (h : slot.get items = some (.dict inner)) (path : Path) :
    follow items (slot :: path) = follow inner path := by
  rw [follow, h]

/-- A change at the end of a way is one in the dict that its first slot leads
to. -/
theorem update_cons (h : slot.get items = some (.dict inner)) (path : Path) :
    update change items (slot :: path)
      = slot.put items (.dict (update change inner path)) := by
  rw [update, h]

/-- A way that leads somewhere leads to the dict in its first slot. -/
theorem follow_cons_some {d : Items}
    (h : follow items (slot :: path) = some d) :
    ∃ inner, slot.get items = some (.dict inner) ∧
      follow inner path = some d := by
  unfold follow at h
  split at h
  · exact ⟨_, ‹_›, h⟩
  · cases h

/-- Behind a change a way leads to the dict that was changed. -/
theorem follow_update {d : Items} (h : follow items path = some d) :
    follow (update change items path) path = some (change d) := by
  induction path generalizing items with
  | nil =>
      cases h
      rfl
  | cons slot path ih =>
      obtain ⟨inner, hget, hinner⟩ := follow_cons_some h
      rw [update_cons hget, follow_cons (Slot.get_put ?_), ih hinner]
      rw [hget]
      exact Option.some_ne_none _

/-- Two changes at the end of one way are one. -/
theorem update_update {d : Items} (h : follow items path = some d) :
    update change' (update change items path) path
      = update (fun d => change' (change d)) items path := by
  induction path generalizing items with
  | nil => rfl
  | cons slot path ih =>
      obtain ⟨inner, hget, hinner⟩ := follow_cons_some h
      rw [update_cons hget, update_cons (Slot.get_put ?_), Slot.put_put,
        ih hinner, update_cons hget]
      rw [hget]
      exact Option.some_ne_none _

/-- Only what a change does to the dict there makes a difference. -/
theorem update_congr {d : Items} (h : follow items path = some d)
    (heq : change d = change' d) :
    update change items path = update change' items path := by
  induction path generalizing items with
  | nil =>
      cases h
      exact heq
  | cons slot path ih =>
      obtain ⟨inner, hget, hinner⟩ := follow_cons_some h
      rw [update_cons hget, update_cons hget, ih hinner]

/-- A change to what is there already is none. -/
theorem update_same {d : Items} (h : follow items path = some d) :
    update (fun _ => d) items path = items := by
  induction path generalizing items with
  | nil =>
      cases h
      rfl
  | cons slot path ih =>
      obtain ⟨inner, hget, hinner⟩ := follow_cons_some h
      rw [update_cons hget, ih hinner, Slot.put_get hget]

/-- One slot further on. -/
theorem follow_append {d : Items} (h : follow items path = some d)
    (hslot : slot.get d = some (.dict inner)) :
    follow items (path ++ [slot]) = some inner := by
  induction path generalizing items with
  | nil =>
      cases h
      exact follow_cons hslot []
  | cons slot' path ih =>
      obtain ⟨inner', hget, hinner⟩ := follow_cons_some h
      rw [List.cons_append, follow_cons hget, ih hinner]

/-- A change one slot further on is a change of the dict in front of it, which
gets the changed dict put back. -/
theorem update_append {d : Items} (h : follow items path = some d)
    (hslot : slot.get d = some (.dict inner)) :
    update change items (path ++ [slot])
      = update (fun d => slot.put d (.dict (change inner))) items path := by
  induction path generalizing items with
  | nil =>
      cases h
      exact update_cons hslot []
  | cons slot' path ih =>
      obtain ⟨inner', hget, hinner⟩ := follow_cons_some h
      rw [List.cons_append, update_cons hget, update_cons hget, ih hinner]

end

-- ================================================================== scalars

/-- The object of a value. -/
def toPy (new : PythonNew) (v : Value Bytes) (typ : FieldType) : PyObject :=
  match lwpbToPy new v typ with
  | .ok pyval => pyval
  | .error _ => .other 0

/-- Objects that hold no others. -/
def PyObject.isScalar : PyObject → Bool
  | .bool _ | .other _ => true
  | _ => false

/-- Every value of a type has an object. -/
theorem lwpbToPy_ofType (new : PythonNew) {v : Value Bytes} {typ : FieldType}
    (h : v.OfType typ) :
    lwpbToPy new v typ = .ok (toPy new v typ) ∧
      (toPy new v typ).isScalar = true := by
  have hok : ∃ pyval, lwpbToPy new v typ = .ok pyval ∧
      pyval.isScalar = true := by
    cases v with
    | double b | float b | bool b | enum b =>
        cases h
        exact ⟨_, rfl, rfl⟩
    | string b | bytes b =>
        obtain ⟨rfl, -⟩ := h
        exact ⟨_, rfl, rfl⟩
    | int32 b | int64 b =>
        rcases h with rfl | rfl | rfl
        all_goals exact ⟨_, rfl, rfl⟩
    | uint32 b | uint64 b =>
        rcases h with rfl | rfl
        all_goals exact ⟨_, rfl, rfl⟩
  obtain ⟨pyval, hok, hscalar⟩ := hok
  unfold toPy
  rw [hok]
  exact ⟨rfl, hscalar⟩

-- ================================================================= contents

/-- The dict that a submessage is filled into. -/
def childOf (desc : FieldDesc) (top : Items) : Items :=
  if desc.opts.label = .repeated then []
  else
    match top.lookup desc.name with
    | some (.dict inner) => inner
    | _ => []

end Lwpb.Python

namespace Lwpb

open Python

/-- A dict with a message added to it. -/
def Tree.fill (new : PythonNew) (sch : Schema) : Tree → Items → Items
  | .nil, top => top
  | .scalar f v rest, top =>
      let desc := sch.field f
      fill new sch rest (store desc (toPy new v desc.opts.typ) top)
  | .message f body rest, top =>
      let desc := sch.field f
      fill new sch rest
        (store desc (.dict (fill new sch body (childOf desc top))) top)
  | .packed f elems rest, top =>
      let desc := sch.field f
      fill new sch rest
        (elems.foldl (fun top v => store desc (toPy new v desc.opts.typ) top)
          top)

/-- No two fields of a message have one name. -/
def Schema.DistinctNames (sch : Schema) : Prop :=
  ∀ m ∈ sch.msgs, (m.fields.map FieldDesc.name).Nodup

instance (sch : Schema) : Decidable sch.DistinctNames :=
  inferInstanceAs (Decidable
    (∀ m ∈ sch.msgs, (m.fields.map FieldDesc.name).Nodup))

/-- Two fields of a message that have one name are the same. -/
theorem Schema.DistinctNames.eq {sch : Schema} (h : sch.DistinctNames)
    {m : MsgRef} {desc desc' : FieldDesc} (hdesc : desc ∈ (sch.msg m).fields)
    (hdesc' : desc' ∈ (sch.msg m).fields) (hname : desc.name = desc'.name) :
    desc = desc' := by
  obtain ⟨i, hi, -⟩ := List.getElem_of_mem hdesc
  exact List.inj_on_of_nodup_map (h _ (sch.msg_mem hi)) hdesc hdesc' hname

/-- A field of a message is among its fields. -/
theorem Schema.Numbered.mem {sch : Schema} {m : MsgRef} {f : FieldRef}
    (h : sch.Numbered m f) : sch.field f ∈ (sch.msg m).fields := by
  obtain ⟨hm, hlt⟩ := h.holds
  subst hm
  rw [Schema.field_eq hlt]
  exact List.getElem_mem hlt

end Lwpb

namespace Lwpb.Python

/-- A dict holds under every name what the field of this name makes. -/
inductive Shaped (sch : Schema) : MsgRef → Items → Prop where
  | intro {m : MsgRef} {items : Items} (nodup : (items.map Prod.fst).Nodup)
      (lists : ∀ desc ∈ (sch.msg m).fields, desc.opts.label = .repeated →
        ∀ held, items.lookup desc.name = some held →
        ∃ elems, held = .list elems)
      (dicts : ∀ desc ∈ (sch.msg m).fields, desc.opts.label ≠ .repeated →
        desc.opts.typ = .message → ∀ held,
        items.lookup desc.name = some held → ∃ inner, held = .dict inner)
      (within : ∀ desc ∈ (sch.msg m).fields, desc.opts.label ≠ .repeated →
        desc.opts.typ = .message → ∀ inner,
        items.lookup desc.name = some (.dict inner) →
        Shaped sch (desc.msgDesc.getD 0) inner) :
      Shaped sch m items

section

variable {new : PythonNew} {sch : Schema} {m : MsgRef} {f : FieldRef}
  {desc : FieldDesc} {top : Items} {pyval : PyObject} {t : Tree}

/-- An empty dict has the shape of any message. -/
theorem Shaped.empty (sch : Schema) (m : MsgRef) : Shaped sch m [] :=
  .intro List.nodup_nil (fun _ _ _ held h => absurd h.symm
      (Option.some_ne_none held))
    (fun _ _ _ _ held h => absurd h.symm (Option.some_ne_none held))
    fun _ _ _ _ _ h => absurd h.symm (Option.some_ne_none _)

/-- A dict keeps its shape if what is put under the name of a field has the
shape of the field. -/
theorem Shaped.set {held : PyObject} (hnames : sch.DistinctNames)
    (hdesc : desc ∈ (sch.msg m).fields) (h : Shaped sch m top)
    (hlist : desc.opts.label = .repeated → ∃ elems, held = .list elems)
    (hdict : desc.opts.label ≠ .repeated → desc.opts.typ = .message →
      ∃ inner, held = .dict inner ∧
        Shaped sch (desc.msgDesc.getD 0) inner) :
    Shaped sch m (Assoc.set desc.name held top) := by
  obtain ⟨nodup, lists, dicts, within⟩ := h
  refine .intro (Assoc.nodup_set nodup) ?_ ?_ ?_
  · intro desc' hdesc' hrep held' hlook
    by_cases hname : desc.name = desc'.name
    · obtain rfl := hnames.eq hdesc hdesc' hname
      rw [Assoc.lookup_set_self] at hlook
      obtain rfl := Option.some.inj hlook
      exact hlist hrep
    · rw [Assoc.lookup_set_ne hname] at hlook
      exact lists desc' hdesc' hrep held' hlook
  · intro desc' hdesc' hrep htyp held' hlook
    by_cases hname : desc.name = desc'.name
    · obtain rfl := hnames.eq hdesc hdesc' hname
      rw [Assoc.lookup_set_self] at hlook
      obtain rfl := Option.some.inj hlook
      obtain ⟨inner, rfl, -⟩ := hdict hrep htyp
      exact ⟨inner, rfl⟩
    · rw [Assoc.lookup_set_ne hname] at hlook
      exact dicts desc' hdesc' hrep htyp held' hlook
  · intro desc' hdesc' hrep htyp inner hlook
    by_cases hname : desc.name = desc'.name
    · obtain rfl := hnames.eq hdesc hdesc' hname
      rw [Assoc.lookup_set_self] at hlook
      obtain ⟨inner', hheld, hinner⟩ := hdict hrep htyp
      rw [hheld] at hlook
      cases hlook
      exact hinner
    · rw [Assoc.lookup_set_ne hname] at hlook
      exact within desc' hdesc' hrep htyp inner hlook

/-- What a list field holds so far. -/
def elemsOf (desc : FieldDesc) (top : Items) : List PyObject :=
  match top.lookup desc.name with
  | some (.list elems) => elems
  | _ => []

/-- A value of a repeated field is stored at the end of its list, which is
made where it is missing. -/
theorem store_repeated (hdesc : desc ∈ (sch.msg m).fields)
    (h : Shaped sch m top) (hrep : desc.opts.label = .repeated) :
    store desc pyval top
      = Assoc.set desc.name (.list (elemsOf desc top ++ [pyval])) top := by
  obtain ⟨-, lists, -, -⟩ := h
  unfold store elemsOf
  rw [if_pos hrep]
  cases hheld : top.lookup desc.name with
  | none => rfl
  | some held =>
      obtain ⟨elems, rfl⟩ := lists desc hdesc hrep held hheld
      rfl

/-- A value of any other field is stored over the old one. -/
theorem store_single (hrep : desc.opts.label ≠ .repeated) :
    store desc pyval top = Assoc.set desc.name pyval top :=
  if_neg hrep

/-- A dict that holds a list, or nothing, under the name of a repeated field
takes what is stored. -/
theorem takes_of_lists (h : desc.opts.label = .repeated → ∀ held,
    top.lookup desc.name = some held → ∃ elems, held = .list elems) :
    takes desc top = true := by
  unfold takes
  by_cases hrep : desc.opts.label = .repeated
  · rw [if_pos hrep]
    cases hheld : top.lookup desc.name with
    | none => rfl
    | some held =>
        obtain ⟨elems, rfl⟩ := h hrep held hheld
        rfl
  · rw [if_neg hrep]

/-- So does a dict of the shape of its message. -/
theorem Shaped.takes (hdesc : desc ∈ (sch.msg m).fields)
    (h : Shaped sch m top) : takes desc top = true := by
  obtain ⟨-, lists, -, -⟩ := h
  exact takes_of_lists (lists desc hdesc)

/-- A store keeps the shape. -/
theorem Shaped.store (hnames : sch.DistinctNames)
    (hdesc : desc ∈ (sch.msg m).fields) (h : Shaped sch m top)
    (hdict : desc.opts.label ≠ .repeated → desc.opts.typ = .message →
      ∃ inner, pyval = .dict inner ∧
        Shaped sch (desc.msgDesc.getD 0) inner) :
    Shaped sch m (store desc pyval top) := by
  by_cases hrep : desc.opts.label = .repeated
  · rw [store_repeated hdesc h hrep]
    exact h.set hnames hdesc (fun _ => ⟨_, rfl⟩) fun hno => absurd hrep hno
  · rw [store_single hrep]
    exact h.set hnames hdesc (fun hyes => absurd hyes hrep) hdict

/-- The place of what is stored next, and what is there. -/
theorem nextSlot_store (hdesc : desc ∈ (sch.msg m).fields)
    (h : Shaped sch m top) :
    (nextSlot desc top).get (store desc pyval top) = some pyval ∧
      ∀ pyval', (nextSlot desc top).put (store desc pyval top) pyval'
        = store desc pyval' top := by
  by_cases hrep : desc.opts.label = .repeated
  · have hslot : nextSlot desc top
        = ⟨desc.name, some (elemsOf desc top).length⟩ := by
      obtain ⟨-, lists, -, -⟩ := h
      unfold nextSlot elemsOf
      rw [if_pos hrep]
      cases hheld : top.lookup desc.name with
      | none => rfl
      | some held =>
          obtain ⟨elems, rfl⟩ := lists desc hdesc hrep held hheld
          rfl
    rw [hslot, store_repeated hdesc h hrep]
    refine ⟨?_, fun pyval' => ?_⟩
    · unfold Slot.get
      simp
    · rw [store_repeated hdesc h hrep]
      unfold Slot.put
      simp [Assoc.set_set]
  · rw [nextSlot, if_neg hrep, store_single hrep]
    refine ⟨Assoc.lookup_set_self, fun pyval' => ?_⟩
    rw [store_single hrep]
    exact Assoc.set_set

/-- The dict that a submessage is read into, a new one or the one that is
there, has the shape of the submessage. -/
theorem childOf_shaped (hdesc : desc ∈ (sch.msg m).fields)
    (htyp : desc.opts.typ = .message) (h : Shaped sch m top) :
    Shaped sch (desc.msgDesc.getD 0) (childOf desc top) := by
  obtain ⟨-, -, -, within⟩ := h
  unfold childOf
  by_cases hrep : desc.opts.label = .repeated
  · rw [if_pos hrep]
    exact .empty sch _
  · rw [if_neg hrep]
    cases hheld : top.lookup desc.name with
    | none => exact .empty sch _
    | some held =>
        cases held with
        | dict inner => exact within desc hdesc hrep htyp inner hheld
        | list _ | bool _ | other _ => exact .empty sch _

/-- A message is no value. -/
theorem ofType_ne_message {v : Value Bytes} {typ : FieldType}
    (h : v.OfType typ) : typ ≠ .message := by
  intro hmsg
  subst hmsg
  cases v with
  | double _ | float _ | bool _ | enum _ => cases h
  | string _ | bytes _ => cases h.1
  | int32 _ | int64 _ => rcases h with h | h | h <;> cases h
  | uint32 _ | uint64 _ => rcases h with h | h <;> cases h

/-- A value keeps the shape. -/
theorem Shaped.store_value (hnames : sch.DistinctNames)
    (hdesc : desc ∈ (sch.msg m).fields) (h : Shaped sch m top)
    {v : Value Bytes} (hv : v.OfType desc.opts.typ) :
    Shaped sch m (Python.store desc (toPy new v desc.opts.typ) top) :=
  h.store hnames hdesc fun _ htyp => absurd htyp (ofType_ne_message hv)

/-- Filling a dict with the contents of a message keeps its shape. -/
theorem Shaped.fill (hnames : sch.DistinctNames)
    (ht : t.Typed Value.OfType sch m) (h : Shaped sch m top) :
    Shaped sch m (t.fill new sch top) := by
  induction t generalizing m top with
  | nil => exact h
  | scalar f v rest ih =>
      obtain ⟨hf, -, hv, hrest⟩ := ht
      exact ih hrest (h.store_value hnames hf.mem hv)
  | message f body rest ihb ihr =>
      obtain ⟨hf, hmsg, -, hbody, hrest⟩ := ht
      refine ihr hrest (h.store hnames hf.mem fun _ _ => ⟨_, rfl, ?_⟩)
      exact ihb hbody (childOf_shaped hf.mem hmsg h)
  | packed f elems rest ih =>
      obtain ⟨hf, -, hv, hrest⟩ := ht
      refine ih hrest ?_
      clear ih
      induction elems generalizing top with
      | nil => exact h
      | cons v elems ih =>
          exact ih (h.store_value hnames hf.mem (hv v List.mem_cons_self))
            fun v' hmem => hv v' (List.mem_cons_of_mem v hmem)

/-- Contents that are joined fill a dict one after the other. -/
theorem fill_append (t u : Tree) :
    (t.append u).fill new sch top = u.fill new sch (t.fill new sch top) := by
  induction t generalizing top with
  | nil => rfl
  | scalar f v rest ih => exact ih
  | message f body rest ihb ihr => exact ihr
  | packed f elems rest ih => exact ih

end

-- ================================================================== handlers

section

variable {new : PythonNew} {sch : Schema} {m : MsgRef} {f : FieldRef}
  {top : Items} {t : Tree} {c : Context} {path : Path} {below : List Ref}
  {ns : List Note}

/-- A handler call, where those of packed runs are left out. -/
def handleNote (new : PythonNew) (sch : Schema) (c : Context) :
    Note → Option Context
  | .start _ => some c
  | .stop _ => some (msgEndHandler false c)
  | .field f v => fieldHandler new sch f v c

def handleNotes (new : PythonNew) (sch : Schema) :
    Context → List Note → Option Context
  | c, [] => some c
  | c, n :: ns => (handleNote new sch c n).bind (handleNotes new sch · ns)

/-- The handlers do nothing with starts and with the ends of runs: they depend
on the notifications only. -/
theorem handleAll_notes (es : List (Event Bytes)) :
    handleAll new sch c es
      = handleNotes new sch c (es.filterMap Event.note) := by
  induction es generalizing c with
  | nil => rfl
  | cons e es ih =>
      have hbind : ∀ o : Option Context, o.bind (handleAll new sch · es)
          = o.bind (handleNotes new sch · (es.filterMap Event.note)) := by
        intro o
        cases o with
        | none => rfl
        | some c => exact ih
      cases e with
      | msgStart m packed =>
          cases packed with
          | true => exact ih
          | false => exact ih
      | msgEnd m packed =>
          cases packed with
          | true => exact ih
          | false => exact ih
      | field m f v packed => exact hbind _

/-- The field handler, where the top of the stack is a dict that takes what
is stored. -/
theorem fieldHandler_stores {value : Option (Value Bytes)} {pyval : PyObject}
    (hstack : c.stack = ⟨none, path⟩ :: below)
    (hfollow : follow c.dst path = some top)
    (htakes : takes (sch.field f) top = true)
    (hpy : pyvalOf new (sch.field f) value top = .ok pyval) :
    fieldHandler new sch f value c
      = some { c with
          dst := update (store (sch.field f) pyval) c.dst path
          stack := if value.isNone
            then ⟨none, path ++ [nextSlot (sch.field f) top]⟩ :: c.stack
            else c.stack } := by
  have hdict : c.dict ⟨none, path⟩ = some top := hfollow
  unfold fieldHandler
  rw [hstack]
  simp only [hdict, Option.getD_some, hpy, htakes, if_true]
  cases value with
  | none => simp [Context.change, Context.push, hstack]
  | some v => simp [Context.change, hstack]

/-- The context, with the dict at the end of a way filled. -/
def Context.filled (c : Context) (path : Path) (top : Items) : Context :=
  { c with dst := update (fun _ => top) c.dst path }

/-- The dict at the end of a way, after it was filled. -/
theorem Context.follow_filled {top' : Items}
    (h : follow c.dst path = some top) :
    follow (c.filled path top').dst path = some top' :=
  follow_update h

/-- Filled twice is filled once, with the second. -/
theorem Context.filled_filled {top' top'' : Items}
    (h : follow c.dst path = some top) :
    (c.filled path top').filled path top'' = c.filled path top'' := by
  unfold filled
  rw [update_update h]

/-- A value goes to the dict at the top. -/
theorem handle_value {v : Value Bytes}
    (hdesc : sch.field f ∈ (sch.msg m).fields)
    (hstack : c.stack = ⟨none, path⟩ :: below)
    (hfollow : follow c.dst path = some top) (htop : Shaped sch m top)
    (hv : v.OfType (sch.field f).opts.typ) :
    handleNotes new sch c (.field f (some v) :: ns)
      = handleNotes new sch (c.filled path
          (store (sch.field f) (toPy new v (sch.field f).opts.typ) top))
          ns := by
  have hpy : pyvalOf new (sch.field f) (some v) top
      = .ok (toPy new v (sch.field f).opts.typ) := (lwpbToPy_ofType new hv).1
  have hstep : handleNote new sch c (.field f (some v))
      = some (c.filled path (store (sch.field f)
        (toPy new v (sch.field f).opts.typ) top)) := by
    have hthere : update (store (sch.field f)
        (toPy new v (sch.field f).opts.typ)) c.dst path
          = update (fun _ => store (sch.field f)
            (toPy new v (sch.field f).opts.typ) top) c.dst path :=
      update_congr hfollow rfl
    refine (fieldHandler_stores hstack hfollow (htop.takes hdesc) hpy).trans ?_
    rw [hthere]
    rfl
  rw [handleNotes, hstep]
  rfl

/-- A message starts: its dict is there, and at the top. -/
theorem handle_message (hdesc : sch.field f ∈ (sch.msg m).fields)
    (hmsg : (sch.field f).opts.typ = .message)
    (hstack : c.stack = ⟨none, path⟩ :: below)
    (hfollow : follow c.dst path = some top) (htop : Shaped sch m top) :
    handleNotes new sch c (.field f none :: ns)
      = handleNotes new sch ((c.filled path
          (store (sch.field f) (.dict (childOf (sch.field f) top)) top)).push
            ⟨none, path ++ [nextSlot (sch.field f) top]⟩) ns := by
  have hpy : pyvalOf new (sch.field f) none top
      = .ok (.dict (childOf (sch.field f) top)) := by
    obtain ⟨-, -, dicts, -⟩ := htop
    unfold pyvalOf childOf
    simp only
    by_cases hrep : (sch.field f).opts.label = .repeated
    · rw [if_pos hrep, if_pos hrep]
    · rw [if_neg hrep, if_neg hrep]
      cases hheld : top.lookup (sch.field f).name with
      | none => rfl
      | some held =>
          obtain ⟨inner, rfl⟩ := dicts _ hdesc hrep hmsg held hheld
          rfl
  have hstep : handleNote new sch c (.field f none)
      = some ((c.filled path
          (store (sch.field f) (.dict (childOf (sch.field f) top)) top)).push
            ⟨none, path ++ [nextSlot (sch.field f) top]⟩) := by
    have hthere : update (store (sch.field f)
        (.dict (childOf (sch.field f) top))) c.dst path
          = update (fun _ => store (sch.field f)
            (.dict (childOf (sch.field f) top)) top) c.dst path :=
      update_congr hfollow rfl
    refine (fieldHandler_stores hstack hfollow (htop.takes hdesc) hpy).trans ?_
    rw [hthere]
    rfl
  rw [handleNotes, hstep]
  rfl

/-- A submessage is filled where it stands. -/
theorem handle_submessage {body : List Note} {inner : Items} {m' : MsgRef}
    (hdesc : sch.field f ∈ (sch.msg m).fields)
    (hmsg : (sch.field f).opts.typ = .message)
    (hstack : c.stack = ⟨none, path⟩ :: below)
    (hfollow : follow c.dst path = some top) (htop : Shaped sch m top)
    (hbody : ∀ (c' : Context) (path' : Path) (below' : List Ref)
      (ns' : List Note), c'.stack = ⟨none, path'⟩ :: below' →
      follow c'.dst path' = some (childOf (sch.field f) top) →
      handleNotes new sch c' (body ++ ns')
        = handleNotes new sch (c'.filled path' inner) ns') :
    handleNotes new sch c
        (.field f none :: .start m' :: (body ++ .stop m' :: ns))
      = handleNotes new sch
          (c.filled path (store (sch.field f) (.dict inner) top)) ns := by
  obtain ⟨hget, hput⟩ := @nextSlot_store sch m (sch.field f) top
    (.dict (childOf (sch.field f) top)) hdesc htop
  have hthere := @Context.follow_filled top c path
    (store (sch.field f) (.dict (childOf (sch.field f) top)) top) hfollow
  have hsame : update (fun _ => inner)
      (c.filled path (store (sch.field f) (.dict (childOf (sch.field f) top))
        top)).dst (path ++ [nextSlot (sch.field f) top])
        = update (fun _ => store (sch.field f) (.dict inner) top) c.dst
          path := by
    rw [update_append hthere hget, Context.filled, update_update hfollow]
    exact update_congr hfollow (hput (.dict inner))
  rw [handle_message hdesc hmsg hstack hfollow htop]
  refine (hbody ((c.filled path
      (store (sch.field f) (.dict (childOf (sch.field f) top)) top)).push
        ⟨none, path ++ [nextSlot (sch.field f) top]⟩)
    (path ++ [nextSlot (sch.field f) top]) c.stack _ rfl
    (follow_append hthere hget)).trans ?_
  have hpop : handleNote new sch
      (((c.filled path
        (store (sch.field f) (.dict (childOf (sch.field f) top)) top)).push
          ⟨none, path ++ [nextSlot (sch.field f) top]⟩).filled
        (path ++ [nextSlot (sch.field f) top]) inner) (.stop m')
      = some (c.filled path (store (sch.field f) (.dict inner) top)) :=
    congrArg (fun dst => some (Context.mk dst c.loose c.stack c.error)) hsame
  rw [handleNotes, hpop]
  rfl

/-- The elements of a run are stored one after the other in the dict at the
top. -/
theorem handle_elems {elems : List (Value Bytes)}
    (hnames : sch.DistinctNames) (hdesc : sch.field f ∈ (sch.msg m).fields)
    (hstack : c.stack = ⟨none, path⟩ :: below)
    (hfollow : follow c.dst path = some top) (htop : Shaped sch m top)
    (hv : ∀ v ∈ elems, v.OfType (sch.field f).opts.typ) :
    handleNotes new sch c (elems.map (fun v => .field f (some v)) ++ ns)
      = handleNotes new sch (c.filled path (elems.foldl (fun top v =>
          store (sch.field f) (toPy new v (sch.field f).opts.typ) top)
          top)) ns := by
  induction elems generalizing c top with
  | nil =>
      rw [List.foldl_nil, Context.filled, update_same hfollow]
      rfl
  | cons v elems ih =>
      rw [List.map_cons, List.cons_append, handle_value hdesc hstack hfollow
        htop (hv v List.mem_cons_self)]
      refine (ih (c := c.filled path _) hstack (c.follow_filled hfollow)
        (htop.store_value hnames hdesc (hv v List.mem_cons_self))
        fun v' hmem => hv v' (List.mem_cons_of_mem v hmem)).trans ?_
      rw [c.filled_filled hfollow]
      rfl

/-- The handlers fill the dict at the top. -/
theorem handles_tree (hnames : sch.DistinctNames)
    (ht : t.Typed Value.OfType sch m) (hstack : c.stack = ⟨none, path⟩ :: below)
    (hfollow : follow c.dst path = some top) (htop : Shaped sch m top) :
    handleNotes new sch c (t.notes sch ++ ns)
      = handleNotes new sch (c.filled path (t.fill new sch top)) ns := by
  induction t generalizing m c path below top ns with
  | nil =>
      show handleNotes new sch c ns = handleNotes new sch (c.filled path top) ns
      rw [Context.filled, update_same hfollow]
  | scalar f v rest ih =>
      obtain ⟨hf, -, hv, hrest⟩ := ht
      refine (handle_value hf.mem hstack hfollow htop hv).trans ?_
      refine (ih (c := c.filled path _) hrest hstack (c.follow_filled hfollow)
        (htop.store_value hnames hf.mem hv)).trans ?_
      rw [c.filled_filled hfollow]
      rfl
  | message f body rest ihb ihr =>
      obtain ⟨hf, hmsg, -, hbody, hrest⟩ := ht
      have hchild := childOf_shaped hf.mem hmsg htop
      have hnotes : (Tree.message f body rest).notes sch ++ ns
          = .field f none :: .start (sch.subDesc f) ::
            (body.notes sch ++ .stop (sch.subDesc f) ::
              (rest.notes sch ++ ns)) := by
        simp only [Tree.notes, List.cons_append, List.append_assoc]
      rw [hnotes, handle_submessage hf.mem hmsg hstack hfollow htop
        fun c' path' below' ns' hs hfol => ihb hbody hs hfol hchild]
      refine (ihr (c := c.filled path _) hrest hstack (c.follow_filled hfollow)
        (htop.store hnames hf.mem fun _ _ =>
          ⟨_, rfl, hchild.fill hnames hbody⟩)).trans ?_
      rw [c.filled_filled hfollow]
      rfl
  | packed f elems rest ih =>
      obtain ⟨hf, hrun, hv, hrest⟩ := ht
      rw [Tree.notes, List.append_assoc,
        handle_elems hnames hf.mem hstack hfollow htop hv]
      refine (ih (c := c.filled path _) hrest hstack (c.follow_filled hfollow)
        (@Shaped.fill new sch m top (.packed f elems .nil) hnames
          ⟨hf, hrun, hv, trivial⟩ htop)).trans ?_
      rw [c.filled_filled hfollow]
      rfl

/-- A message is decoded to its dict. -/
theorem decoderDecode_tree {msgnum : UInt32} (uninit : UInt64)
    (hm : msgnum.toNat < sch.msgs.length) (hnames : sch.DistinctNames)
    (hdistinct : sch.Distinct) (hpacked : sch.PackedNumeric)
    (ht : t.Typed Value.OfType sch msgnum.toNat)
    (hdepth : t.nesting ≤ maxDepth)
    (hlen : (t.wire sch).bytes.length < 2 ^ 31) :
    decoderDecode new sch uninit (t.wire sch).bytes msgnum
      = .dict (t.fill new sch []) none := by
  obtain ⟨out, hdec, hout⟩ := decode_wire uninit
    (Tree.wellFormed hdistinct hpacked ht (by omega)) (t.leading false)
    (by rw [Tree.nesting_wire]; exact hdepth)
  have hnotes : (resolve (t.wire sch).bytes out).filterMap Event.note
      = .start msgnum.toNat :: (t.notes sch ++ [.stop msgnum.toNat]) := by
    rw [hout.resolves, Wire.report, List.filterMap_append,
      List.filterMap_cons, Tree.notifs_notes msgnum.toNat ht]
    rfl
  have hhandle : handleAll new sch startContext
      (resolve (t.wire sch).bytes out)
        = some ⟨t.fill new sch [], [], [], none⟩ := by
    rw [handleAll_notes, hnotes]
    exact handles_tree (c := startContext) hnames ht rfl rfl
      (.empty sch _)
  unfold decoderDecode
  rw [if_neg (by omega), if_neg (by omega), hdec.decode_eq]
  simp only [hhandle]

end

end Lwpb.Python
