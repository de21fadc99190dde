/-
The stack of dicts, on every input.

The handlers of `Decoder_decode` push a dict when a submessage is reported
and pop one when a message ends. What they should have on the stack is
said without them, by a reader of the calls (`Opened`): the messages that
were started and not ended, each with the field it was reported for. The
handlers are in step (`Context.InStep`) if there is one dict for each of
these, and every dict but the outermost is the one that the dict under it
was given last for that field.

They are in step at every call for a field, and left with an empty stack by
a call that succeeds, as long as a submessage is reported only where the
dict at the top holds what a field of this kind leaves there, or nothing
(`dict_stack_in_step`). Otherwise what is pushed is no dict of that
message.

# The invariant

Starts and ends are not the pushes and pops. A dict is pushed when the
field is reported, a move before the message is started, and both frames
and starts are made for packed runs too. `Opened.entries` adds the message
that is reported and not started; `Dec.Accompanied` relates it to the
decoder's frames.
-/
import Lwpb.Proofs.Decoder.Containers
import Lwpb.Proofs.Python.Dicts
import Lwpb.Python.Runtime

namespace Lwpb.Python

open Machine

-- =========================================================== open messages

/-- The messages that were started and not ended, innermost first, each
with the field it was reported for, and the field that was reported last
for a message that is still to be started. A packed run is no message. -/
structure Opened where
  opened : List (Option FieldRef)
  next : Option FieldRef
  deriving Repr, DecidableEq

/-- Nothing was called yet. -/
def Opened.init : Opened := ⟨[], none⟩

/-- One more call. -/
def Opened.see {σ : Type} (n : Opened) : Event σ → Opened
  | .msgStart _ false => ⟨n.next :: n.opened, none⟩
  | .msgEnd _ false => { n with opened := n.opened.tail }
  | .field _ f none _ => { n with next := some f }
  | _ => n

-- ============================================================ being in step

/-- The place of what a field was given last. -/
def lastSlot (desc : FieldDesc) (items : Items) : Slot :=
  if desc.opts.label = .repeated then
    ⟨desc.name, some ((elemsOf desc items).length - 1)⟩
  else ⟨desc.name, none⟩

/-- The references lead to dicts, the outermost to the whole one, and
every other to what the dict under it was given last for its field. -/
inductive Linked (sch : Schema) (dst : Items) :
    List Ref → List (Option FieldRef) → Prop where
  | root : Linked sch dst [⟨none, []⟩] [none]
  | sub {path parent : Path} {refs : List Ref} {f : FieldRef}
      {fs : List (Option FieldRef)} {items inner : Items} :
      Linked sch dst (⟨none, parent⟩ :: refs) fs →
      follow dst parent = some items →
      path = parent ++ [lastSlot (sch.field f) items] →
      follow dst path = some inner →
      Linked sch dst (⟨none, path⟩ :: ⟨none, parent⟩ :: refs) (some f :: fs)

/-- The stack is that of these open messages. -/
structure Context.InStep (sch : Schema) (c : Context)
    (opened : List (Option FieldRef)) : Prop where
  count : c.stack.length = opened.length
  nonempty : c.stack ≠ []
  linked : Linked sch c.dst c.stack opened

/-- The dict at the top holds nothing under the field's name, or what a
field of its kind leaves there. -/
def Finds (desc : FieldDesc) (top : Items) : Prop :=
  ∀ held, top.lookup desc.name = some held →
    if desc.opts.label = .repeated then ∃ elems, held = .list elems
    else ∃ inner, held = .dict inner

/-- What a field of this kind leaves: a list if it is repeated, else a
dict. -/
def leftBy (desc : FieldDesc) : PyObject → Bool
  | .list _ => desc.opts.label = .repeated
  | .dict _ => desc.opts.label ≠ .repeated
  | .bool _ | .other _ => false

/-- The condition on the dict on top, as it is decided. -/
theorem finds_iff (desc : FieldDesc) (top : Items) :
    (∀ held ∈ top.lookup desc.name, leftBy desc held = true) ↔
      Finds desc top := by
  refine forall₂_congr fun held _ => ?_
  by_cases hrep : desc.opts.label = .repeated
  · cases held <;> simp [leftBy, hrep]
  · cases held <;> simp [leftBy, hrep]

instance (desc : FieldDesc) (top : Items) : Decidable (Finds desc top) :=
  decidable_of_iff _ (finds_iff desc top)

/-- The dict at the top of the stack. -/
def Context.top (c : Context) : Option Items :=
  c.stack.head?.bind c.dict

section

variable (new : PythonNew) (sch : Schema)

/-- What is watched: the context, unless there was a bad access, and the
messages that are open. -/
abbrev Watched := Option Context × Opened

/-- One more call. -/
def Watched.see (g : Watched) (e : Event Bytes) : Watched :=
  (g.1.bind (handle new sch · e), g.2.see e)

/-- The handlers are in step whenever the field handler is called. -/
def inStep : Watch Watched (Event Bytes) where
  see := Watched.see new sch
  ok g e :=
    match e with
    | .field _ _ _ _ => ∃ c, g.1 = some c ∧ c.InStep sch g.2.opened
    | _ => True

/-- A submessage is reported where the dict at the top holds what its
field leaves there, or nothing. -/
def finding : Watch Watched (Event Bytes) where
  see := Watched.see new sch
  ok g e :=
    match e with
    | .field _ f none _ =>
        ∀ c top, g.1 = some c → c.top = some top → Finds (sch.field f) top
    | _ => True

/-- The condition on one call, as it is decided. -/
theorem finding_iff (g : Watched) (m : MsgRef) (f : FieldRef) (b : Bool) :
    (∀ top ∈ g.1.bind Context.top, Finds (sch.field f) top) ↔
      (finding new sch).ok g (.field m f none b) := by
  constructor
  · intro hall c top hc htop
    exact hall top (Option.bind_eq_some_iff.mpr ⟨c, hc, htop⟩)
  · intro hall top htop
    obtain ⟨c, hc, htop⟩ := Option.bind_eq_some_iff.mp htop
    exact hall c top hc htop

instance (g : Watched) (e : Event Bytes) :
    Decidable ((finding new sch).ok g e) :=
  match e with
  | .field m f none b => decidable_of_iff _ (finding_iff new sch g m f b)
  | .field _ _ (some _) _ | .msgStart _ _ | .msgEnd _ _ => isTrue trivial

/-- Where watching begins. -/
def watchedInit : Watched := (some startContext, .init)

end

-- ================================================================= linking

section

variable {sch : Schema} {dst : Items} {path : Path} {refs : List Ref}
  {fs : List (Option FieldRef)} {desc : FieldDesc} {top : Items}

/-- There is a reference for every frame. -/
theorem Linked.length {stack : List Ref} (h : Linked sch dst stack fs) :
    stack.length = fs.length := by
  induction h with
  | root => rfl
  | sub _ _ _ _ ih =>
      rw [List.length_cons, ih, List.length_cons]

/-- The top reference leads to a dict. -/
theorem Linked.cons {stack : List Ref} (h : Linked sch dst stack fs) :
    ∃ path refs items, stack = ⟨none, path⟩ :: refs ∧
      follow dst path = some items := by
  cases h with
  | root => exact ⟨[], [], dst, rfl, rfl⟩
  | sub _ _ _ hfollow => exact ⟨_, _, _, rfl, hfollow⟩

/-- A linked stack is in step. -/
theorem Linked.inStep {c : Context} (h : Linked sch c.dst c.stack fs) :
    c.InStep sch fs := by
  obtain ⟨path, refs, items, hstack, -⟩ := h.cons
  refine ⟨h.length, ?_, h⟩
  rw [hstack]
  exact List.cons_ne_nil _ refs

/-- A dict that is changed in its place keeps the place. -/
theorem lastSlot_put (items : Items) (pyval : PyObject) :
    lastSlot desc ((lastSlot desc items).put items pyval)
      = lastSlot desc items := by
  by_cases hrep : desc.opts.label = .repeated
  · have hslot : lastSlot desc items
        = ⟨desc.name, some ((elemsOf desc items).length - 1)⟩ := if_pos hrep
    rw [hslot]
    unfold Slot.put lastSlot
    rw [if_pos hrep]
    cases hheld : items.lookup desc.name with
    | none => rfl
    | some held =>
        cases held with
        | list elems =>
            simp only [elemsOf, Assoc.lookup_set_self, List.length_set,
              hheld]
        | dict _ | bool _ | other _ => rfl
  · unfold lastSlot
    rw [if_neg hrep, if_neg hrep]

/-- A path followed one slot further ends in a dict of that slot. -/
theorem follow_append_some {slot : Slot} {inner : Items}
    (h : follow dst path = some top)
    (hfollow : follow dst (path ++ [slot]) = some inner) :
    slot.get top = some (.dict inner) := by
  induction path generalizing dst with
  | nil =>
      cases h
      obtain ⟨inner', hget, hinner⟩ := follow_cons_some hfollow
      cases hinner
      exact hget
  | cons slot' path ih =>
      obtain ⟨d, hget, hd⟩ := follow_cons_some h
      rw [List.cons_append, follow_cons hget] at hfollow
      exact ih hd hfollow

/-- Whatever is done to the dict at the top, the stack stays linked. -/
theorem Linked.update {stack : List Ref} (h : Linked sch dst stack fs) :
    ∀ (change : Items → Items) {path : Path} {refs : List Ref},
      stack = ⟨none, path⟩ :: refs →
        Linked sch (update change dst path) stack fs := by
  induction h with
  | root =>
      intro change path refs heq
      cases heq
      exact .root
  | @sub path' parent refs' f fs items inner _ hparent hpath hfollow ih =>
      intro change path refs heq
      obtain ⟨hhead, rfl⟩ := List.cons.inj heq
      cases hhead
      have hget : (lastSlot (sch.field f) items).get items
          = some (.dict inner) := by
        rw [hpath] at hfollow
        exact follow_append_some hparent hfollow
      have hup : Python.update change dst path'
          = Python.update (fun d => (lastSlot (sch.field f) items).put d
              (.dict (change inner))) dst parent := by
        rw [hpath]
        exact update_append hparent hget
      have hthere := @follow_update _ _
        (fun d => (lastSlot (sch.field f) items).put d
          (.dict (change inner))) _ hparent
      have hinner : follow (Python.update change dst path') path'
          = some (change inner) := follow_update hfollow
      rw [hup] at hinner ⊢
      refine .sub (ih _ rfl) hthere ?_ hinner
      rw [hpath, lastSlot_put]

-- ================================================================ handlers

/-- Following the top reference gives the dict on top. -/
theorem follow_of_top {c : Context} (hstack : c.stack = ⟨none, path⟩ :: refs)
    (hfollow : follow c.dst path = some top) : c.top = some top := by
  unfold Context.top
  rw [hstack]
  exact hfollow

/-- Where the dict at the top holds a list or nothing, what is stored next
is what was given last afterwards. -/
theorem lastSlot_store {pyval : PyObject} (h : Finds desc top) :
    lastSlot desc (store desc pyval top) = nextSlot desc top ∧
      (nextSlot desc top).get (store desc pyval top) = some pyval := by
  by_cases hrep : desc.opts.label = .repeated
  · unfold lastSlot nextSlot store
    simp only [if_pos hrep]
    cases hheld : top.lookup desc.name with
    | none =>
        refine ⟨?_, ?_⟩
        · simp [elemsOf]
        · unfold Slot.get
          simp
    | some held =>
        have hlist := h held hheld
        rw [if_pos hrep] at hlist
        obtain ⟨elems, rfl⟩ := hlist
        refine ⟨?_, ?_⟩
        · simp [elemsOf]
        · unfold Slot.get
          simp
  · unfold lastSlot nextSlot store
    simp only [if_neg hrep]
    exact ⟨trivial, Assoc.lookup_set_self⟩

variable {new : PythonNew} {f : FieldRef} {c : Context}

/-- Where the dict at the top holds what its field leaves there, or nothing,
it takes what is stored. -/
theorem Finds.takes (h : Finds desc top) : takes desc top = true := by
  refine takes_of_lists fun hrep held hheld => ?_
  have hlist := h held hheld
  rwa [if_pos hrep] at hlist

/-- A value leaves the stack as it is, whether it is converted and stored or
not. -/
theorem fieldHandler_value (v : Value Bytes)
    (h : Linked sch c.dst c.stack fs) :
    ∃ c', fieldHandler new sch f (some v) c = some c' ∧
      Linked sch c'.dst c'.stack fs := by
  obtain ⟨path, refs, top, hstack, hfollow⟩ := h.cons
  have hdict : c.dict ⟨none, path⟩ = some top := hfollow
  cases hpy : pyvalOf new (sch.field f) (some v) top with
  | error e =>
      refine ⟨{ c with error := some e }, ?_, h⟩
      unfold fieldHandler
      rw [hstack]
      simp only [hdict, Option.getD_some, hpy]
  | ok pyval =>
      cases htakes : takes (sch.field f) top with
      | true =>
          refine ⟨_, fieldHandler_stores hstack hfollow htakes hpy, ?_⟩
          exact h.update _ hstack
      | false =>
          refine ⟨c.refused (some v), ?_, h⟩
          unfold fieldHandler
          rw [hstack]
          simp only [hdict, Option.getD_some, hpy, htakes, Bool.false_eq_true,
            if_false]

/-- A submessage puts a dict on the stack, and it is the one that the dict
under it was given last. -/
theorem fieldHandler_none (h : Linked sch c.dst c.stack fs)
    (hfinds : ∀ top, c.top = some top → Finds (sch.field f) top) :
    ∃ c', fieldHandler new sch f none c = some c' ∧
      Linked sch c'.dst c'.stack (some f :: fs) := by
  obtain ⟨path, refs, top, hstack, hfollow⟩ := h.cons
  have hfind := hfinds top (follow_of_top hstack hfollow)
  obtain ⟨inner, hpy⟩ : ∃ inner,
      pyvalOf new (sch.field f) none top = .ok (.dict inner) := by
    unfold pyvalOf
    by_cases hrep : (sch.field f).opts.label = .repeated
    · exact ⟨[], if_pos hrep⟩
    · simp only [if_neg hrep]
      cases hheld : top.lookup (sch.field f).name with
      | none => exact ⟨[], rfl⟩
      | some held =>
          have hdict := hfind held hheld
          rw [if_neg hrep] at hdict
          obtain ⟨inner, rfl⟩ := hdict
          exact ⟨inner, rfl⟩
  refine ⟨_, fieldHandler_stores hstack hfollow hfind.takes hpy, ?_⟩
  obtain ⟨hlast, hget⟩ := @lastSlot_store _ _ (.dict inner) hfind
  have hthere := @follow_update _ _ (store (sch.field f) (.dict inner)) _
    hfollow
  rw [hstack] at h ⊢
  refine .sub (h.update _ rfl) hthere ?_ (follow_append hthere hget)
  rw [hlast]

end

-- ============================================================ the invariant

/-- The messages that are open where the decoder stands: those that were
started, and the one the next move starts. -/
def Opened.entries (n : Opened) (s : Dec) : List (Option FieldRef) :=
  if s.point = .nested ∧ bufUsed s.frame.buf = 0 ∧ s.packed = false then
    n.next :: n.opened
  else n.opened

/-- The handlers and the decoder between two moves. -/
structure Accompanied (sch : Schema) (data : Bytes) (g : Watched)
    (s : Dec) : Prop where
  described : s.Described sch
  announced : ∃ opened, s.Announced sch data opened
  context : ∃ c, g.1 = some c ∧ Linked sch c.dst c.stack (g.2.entries s)
  depth : (g.2.entries s).length + (if s.packed then 1 else 0) = s.depth

section

variable {new : PythonNew} {sch : Schema} {root : MsgRef} {data : Bytes}
  {uninit : UInt64} {g : Watched} {s t s' : Dec} {wt : WireType}
  {f : FieldRef} {n : Opened} {out : List (Event Span)} {r : Result}

/-- At the start the decoder is in its first frame, and the stack is empty. -/
theorem decodeInit_accompanied :
    Accompanied sch data watchedInit (decodeInit root data uninit) where
  described := decodeInit_described
  announced := ⟨[], decodeInit_announced⟩
  context := ⟨startContext, rfl, .root⟩
  depth := rfl

/-- In the loop all frames have been reported. -/
theorem Opened.entries_loop (n : Opened) (h : s.point = .loop) :
    n.entries s = n.opened := by
  unfold entries
  rw [if_neg]
  intro h
  obtain ⟨hpt, -⟩ := h
  rw [h] at hpt
  cases hpt

/-- So they have when a byte of the frame is used. -/
theorem Opened.entries_used (n : Opened) (h : bufUsed s.frame.buf ≠ 0) :
    n.entries s = n.opened :=
  if_neg fun hall => h hall.2.1

/-- So they have inside a run, which opens no dict. -/
theorem Opened.entries_packed (n : Opened) (h : s.packed = true) :
    n.entries s = n.opened := by
  unfold entries
  rw [if_neg]
  intro h
  obtain ⟨-, -, hpk⟩ := h
  rw [h] at hpk
  cases hpk

/-- A frame that was just opened has not been reported. -/
theorem Opened.entries_fresh (n : Opened) (hpt : s.point = .nested)
    (hused : bufUsed s.frame.buf = 0) (hpk : s.packed = false) :
    n.entries s = n.next :: n.opened :=
  if_pos ⟨hpt, hused, hpk⟩

/-- In packed mode a number is read: no frame is opened. -/
theorem numeric_of_packed (hp : sch.PackedNumeric) (hs : s.Described sch)
    (h : Reads sch data s wt t) (hf : t.fieldDesc = some f)
    (hpk : s.packed = true) :
    wt ≠ .string ∧ (sch.field f).opts.typ.isMessage = false := by
  obtain ⟨g, hg, hrun⟩ := hs.packed hpk
  cases h with
  | mk hkey hval =>
      obtain ⟨-, rfl, -, g', hg', hwt⟩ := readKey_packed hpk hkey
      obtain rfl : g = f := Option.some.inj (hg.symm.trans hf)
      obtain rfl : g' = g := Option.some.inj (hg'.symm.trans hf)
      have hnum := hp.field (hs.field g' hg') hrun
      obtain ⟨wt', hwt', hnostr, -⟩ := fieldWireType_numeric hnum
      obtain rfl : wt' = wt := Option.some.inj (hwt'.symm.trans hwt)
      refine ⟨hnostr, ?_⟩
      cases htyp : (sch.field g').opts.typ with
      | message | group => rw [htyp] at hnum; cases hnum
      | _ => rfl

/-- What pushes a frame is read outside a packed run. -/
theorem packed_of_pushes (hp : sch.PackedNumeric) (hs : s.Described sch)
    (h : Reads sch data s wt t) (hf : t.fieldDesc = some f)
    (hpush : Pushes sch wt f) : t.packed = false := by
  rw [h.frame.2.2.1]
  cases hpk : s.packed with
  | false => rfl
  | true =>
      obtain ⟨hnostr, hnomsg⟩ := numeric_of_packed hp hs h hf hpk
      rcases hpush with ⟨hstr, -⟩ | hmsg
      · exact absurd hstr hnostr
      · rw [hnomsg] at hmsg
        cases hmsg

/-- A read keeps what is known between moves. -/
theorem Accompanied.read (hs : Accompanied sch data g s)
    (hpt : s.point = .loop) (h : Reads sch data s wt t) :
    Accompanied sch data g t := by
  obtain ⟨opened, hopened⟩ := hs.announced
  have hpt' : t.point = .loop := h.frame.2.2.2.trans hpt
  have hentries : g.2.entries t = g.2.entries s := by
    rw [g.2.entries_loop hpt, g.2.entries_loop hpt']
  refine ⟨h.described hs.described, ⟨opened, (h.announced hopened hpt).2⟩,
    ?_, ?_⟩
  · rw [hentries]
    exact hs.context
  · rw [hentries, h.depth, h.frame.2.2.1]
    exact hs.depth

/-- The context at a call, and what it is linked to. -/
theorem Accompanied.linked (hs : Accompanied sch data g s)
    (hpt : s.point = .loop) :
    ∃ c, g.1 = some c ∧ Linked sch c.dst c.stack g.2.opened := by
  have h := hs.context
  rw [g.2.entries_loop hpt] at h
  exact h

/-- The handlers are in step at every call of a move. -/
theorem Accompanied.calls (hs : Accompanied sch data g s)
    (h : Calls sch root data s out) :
    ((inStep new sch).comap (Event.resolve data)).Accepts g out := by
  cases h with
  | enter hpt =>
      unfold notifyStart
      split
      · split
        · exact ⟨trivial, trivial⟩
        · trivial
      · trivial
  | leave hpt hleft =>
      unfold notifyEnd
      split
      · exact ⟨trivial, trivial⟩
      · trivial
  | quiet hno => trivial
  | sub hreads hf hnot hmsg hopens =>
      obtain ⟨c, hc, hlinked⟩ := hs.linked hopens.1
      exact ⟨⟨c, hc, hlinked.inStep⟩, trivial⟩
  | value hpt hno hreads hf hm =>
      obtain ⟨c, hc, hlinked⟩ := hs.linked hpt
      exact ⟨⟨c, hc, hlinked.inStep⟩, trivial⟩

/-- A frame that was pushed: what the handlers have is for the frame under
it, and for the new one if it is a message's. -/
theorem Opens.entries {desc : Option MsgRef} {packed : Bool}
    (h : Opens data t desc packed s') (n : Opened) :
    n.entries s' = (if packed then n.opened else n.next :: n.opened) ∧
      s'.depth = t.depth + 1 ∧ s'.packed = packed := by
  obtain ⟨-, p, -, -, rfl⟩ := h
  refine ⟨?_, rfl, rfl⟩
  cases packed with
  | true => exact n.entries_packed rfl
  | false => exact n.entries_fresh rfl (ptrDiff_self _) rfl

/-- The half of it that the handlers have to do with. -/
structure InContext (sch : Schema) (g : Watched) (s : Dec) : Prop where
  context : ∃ c, g.1 = some c ∧ Linked sch c.dst c.stack (g.2.entries s)
  depth : (g.2.entries s).length + (if s.packed then 1 else 0) = s.depth

variable {fs : List (Option FieldRef)} {c c' : Context} {e : Event Span}

/-- The stack is in step when it has a dict for every reported frame. -/
theorem InContext.of_entries (hentries : g.2.entries s = fs)
    (hc : g.1 = some c) (hlinked : Linked sch c.dst c.stack fs)
    (hdepth : fs.length + (if s.packed then 1 else 0) = s.depth) :
    InContext sch g s := by
  subst hentries
  exact ⟨⟨c, hc, hlinked⟩, hdepth⟩

/-- The context behind one call. -/
theorem after_single (hc : g.1 = some c)
    (h : handle new sch c (e.resolve data) = some c') :
    (((inStep new sch).comap (Event.resolve data)).after g [e]).1
      = some c' := by
  show g.1.bind _ = some c'
  rw [hc]
  exact h

/-- The start of a message, or of a packed run, is reported, unless there
was one already. -/
theorem Accompanied.enter (new : PythonNew) (hs : Accompanied sch data g s)
    (hpt : s.point = .nested) :
    InContext sch (((inStep new sch).comap (Event.resolve data)).after g
      (notifyStart s)) { s with point := .loop } := by
  obtain ⟨m, hdesc⟩ := hs.described.desc s.frame (List.mem_cons_self ..)
  obtain ⟨c, hc, hlinked⟩ := hs.context
  have hdepth := hs.depth
  by_cases hused : bufUsed s.frame.buf = 0
  · have hcall : notifyStart s = [.msgStart m s.packed] := by
      unfold notifyStart
      simp only [hdesc, if_pos hused]
    rw [hcall]
    rcases Bool.eq_false_or_eq_true s.packed with hpk | hpk
    · rw [g.2.entries_packed hpk] at hlinked hdepth
      rw [hpk] at hdepth ⊢
      exact .of_entries (Opened.entries_loop _ rfl) (after_single hc rfl)
        hlinked hdepth
    · -- the message that was reported is now started
      rw [g.2.entries_fresh hpt hused hpk] at hlinked hdepth
      rw [hpk] at hdepth ⊢
      exact .of_entries (Opened.entries_loop _ rfl) (after_single hc rfl)
        hlinked hdepth
  · rw [g.2.entries_used hused] at hlinked hdepth
    rw [notifyStart_used hused]
    exact .of_entries (Opened.entries_loop _ rfl) hc hlinked hdepth

/-- What is under the dict of a message that ends. -/
theorem Linked.tail {dst : Items} {stack : List Ref}
    (h : Linked sch dst stack fs) (hlen : 2 ≤ fs.length) :
    Linked sch dst (stack.drop 1) fs.tail := by
  cases h with
  | root => simp at hlen
  | sub hrest => exact hrest

/-- The end of a frame. -/
theorem Accompanied.pop (new : PythonNew) (hs : Accompanied sch data g s)
    {frame : Frame} {below : List Frame} (hpt : s.point = .loop)
    (hbelow : s.below = frame :: below) :
    InContext sch (((inStep new sch).comap (Event.resolve data)).after g
      (notifyEnd s))
      { s with
        frame := frame
        below := below
        packed := false
        point := .nested } := by
  obtain ⟨m, hdesc⟩ := hs.described.desc s.frame (List.mem_cons_self ..)
  obtain ⟨opened, hopened⟩ := hs.announced
  have hframe : frame.buf.base < frame.buf.pos := by
    apply hopened.below frame
    rw [hbelow]
    exact List.mem_cons_self ..
  -- a frame with a field behind it was started before
  have hused : bufUsed frame.buf ≠ 0 := by
    intro hzero
    have := (bufUsed_eq_zero_iff (Nat.le_of_lt hframe)).mp hzero
    omega
  obtain ⟨c, hc, hlinked⟩ := hs.linked hpt
  have hdepth := hs.depth
  rw [g.2.entries_loop hpt] at hdepth
  unfold Dec.depth at hdepth
  rw [hbelow, List.length_cons] at hdepth
  have hcall : notifyEnd s = [.msgEnd m s.packed] := by
    unfold notifyEnd
    simp only [hdesc]
  rw [hcall]
  cases hpk : s.packed with
  | true =>
      rw [hpk, if_pos rfl] at hdepth
      apply InContext.of_entries (Opened.entries_used _ hused)
        (after_single hc rfl) hlinked
      show g.2.opened.length + 0 = below.length + 1
      omega
  | false =>
      rw [hpk] at hdepth
      simp only [Bool.false_eq_true, if_false] at hdepth
      apply InContext.of_entries (Opened.entries_used _ hused)
        (after_single hc rfl) (hlinked.tail (by omega))
      show g.2.opened.tail.length + 0 = below.length + 1
      rw [List.length_tail]
      omega

/-- A packed run. -/
theorem Accompanied.run (hp : sch.PackedNumeric)
    (hs : Accompanied sch data g s) (hpt : s.point = .loop)
    (hreads : Reads sch data s .string t) (hf : t.fieldDesc = some f)
    (hrun : (sch.field f).isPackedRepeated = true)
    (hopen : Opens data t t.frame.msgDesc true s') :
    InContext sch g s' := by
  have ht := hs.read hpt hreads
  have hpk := packed_of_pushes hp hs.described hreads hf (.inl ⟨rfl, hrun⟩)
  obtain ⟨hentries, hdepth, hpk'⟩ := Opens.entries hopen g.2
  have hpt' := hreads.frame.2.2.2.trans hpt
  obtain ⟨c, hc, hlinked⟩ := ht.linked hpt'
  have htdepth := ht.depth
  rw [g.2.entries_loop hpt', hpk] at htdepth
  apply InContext.of_entries hentries hc hlinked
  rw [hdepth, hpk', ← htdepth]
  rfl

/-- A submessage that is reported has its dict on the stack. -/
theorem Accompanied.sub (hp : sch.PackedNumeric)
    (hs : Accompanied sch data g s) (hpt : s.point = .loop)
    (hreads : Reads sch data s wt t) (hf : t.fieldDesc = some f)
    (hmsg : (sch.field f).opts.typ.isMessage = true)
    (hopen : Opens data t (sch.field f).msgDesc t.packed s')
    (hfind : ((finding new sch).comap (Event.resolve data)).Accepts g
      [.field root f none t.packed]) :
    InContext sch (((inStep new sch).comap (Event.resolve data)).after g
      [.field root f none t.packed]) s' := by
  have ht := hs.read hpt hreads
  have hpk := packed_of_pushes hp hs.described hreads hf (.inr hmsg)
  rw [hpk] at hopen
  have hpt' := hreads.frame.2.2.2.trans hpt
  obtain ⟨c, hc, hlinked⟩ := ht.linked hpt'
  obtain ⟨c', hc', hlinked'⟩ : ∃ c',
      handle new sch c (.field root f none t.packed) = some c' ∧
        Linked sch c'.dst c'.stack (some f :: g.2.opened) :=
    fieldHandler_none hlinked (hfind.1 c · hc)
  obtain ⟨hentries, hdepth, hpk'⟩ :=
    Opens.entries hopen { g.2 with next := some f }
  have htdepth := ht.depth
  rw [g.2.entries_loop hpt', hpk] at htdepth
  apply InContext.of_entries hentries (after_single hc hc') hlinked'
  rw [hdepth, hpk', ← htdepth]
  rfl

/-- A value that is reported leaves the stack as it is. -/
theorem Accompanied.value (hs : Accompanied sch data g s)
    (hpt : s.point = .loop) (hreads : Reads sch data s wt t)
    {m : MsgRef} {v : Value Span} {packed : Bool} :
    InContext sch (((inStep new sch).comap (Event.resolve data)).after g
      [.field m f (some v) packed]) t := by
  have ht := hs.read hpt hreads
  have hpt' := hreads.frame.2.2.2.trans hpt
  obtain ⟨c, hc, hlinked⟩ := ht.linked hpt'
  obtain ⟨c', hc', hlinked'⟩ : ∃ c',
      handle new sch c (Event.resolve data (.field m f (some v) packed))
        = some c' ∧ Linked sch c'.dst c'.stack g.2.opened :=
    fieldHandler_value _ hlinked
  have htdepth := ht.depth
  rw [g.2.entries_loop hpt'] at htdepth
  exact .of_entries (g.2.entries_loop hpt') (after_single hc hc') hlinked'
    htdepth

/-- A move that meets the condition keeps the handlers in step. -/
theorem Accompanied.move (hm : sch.MessagesDescribed)
    (hp : sch.PackedNumeric) (hs : Accompanied sch data g s)
    (h : Moves sch root data s s' out)
    (hfind : ((finding new sch).comap (Event.resolve data)).Accepts g out) :
    Accompanied sch data
      (((inStep new sch).comap (Event.resolve data)).after g out) s' := by
  have hdescribed := h.described hm hs.described
  obtain ⟨opened, hopened⟩ := hs.announced
  have hannounced := h.announced hopened
  have hcontext : InContext sch
      (((inStep new sch).comap (Event.resolve data)).after g out) s' := by
    cases h with
    | enter hpt => exact hs.enter new hpt
    | pop hpt _ hbelow => exact hs.pop new hpt hbelow
    | skip hpt _ hreads _ =>
        have ht := hs.read hpt hreads
        exact ⟨ht.context, ht.depth⟩
    | run hpt _ hreads hf hrun hopen => exact hs.run hp hpt hreads hf hrun hopen
    | sub hpt _ hreads hf _ hmsg hopen =>
        exact hs.sub hp hpt hreads hf hmsg hopen hfind
    | value hpt _ hreads _ _ _ _ => exact hs.value hpt hreads
  exact ⟨hdescribed, ⟨_, hannounced⟩, hcontext.context, hcontext.depth⟩

/-- A call succeeds with the end of the outermost message. -/
theorem decodeMove_ok {used : Nat}
    (h : decodeMove sch root data s = .halt (.ok used) out) :
    s.point = .loop ∧ s.below = [] ∧ out = notifyEnd s := by
  cases decodeMove_halt h with
  | done hpt hleft hbelow =>
      refine ⟨hpt, hbelow, ?_⟩
      have hleave : decodeMove sch root data s = Lwpb.leave s := by
        unfold decodeMove
        simp only [hpt, hleft, Nat.lt_irrefl, if_false]
      rw [hleave] at h
      unfold Lwpb.leave at h
      simp only [hbelow] at h
      injection h with _ hout
      exact hout.symm

/-- The stack is empty behind a call that succeeds. -/
theorem Accompanied.done (hs : Accompanied sch data g s)
    (h : decodeMove sch root data s = .halt r out) :
    ∀ used, r = .ok used → ∃ c,
      (((inStep new sch).comap (Event.resolve data)).after g out).1 = some c ∧
        c.stack = [] := by
  intro used h
  subst h
  obtain ⟨hpt, hbelow, rfl⟩ := decodeMove_ok h
  obtain ⟨m, hdesc⟩ := hs.described.desc s.frame (List.mem_cons_self ..)
  obtain ⟨c, hc, hlinked⟩ := hs.linked hpt
  have hdepth := hs.depth
  unfold Dec.depth at hdepth
  rw [g.2.entries_loop hpt, hbelow] at hdepth
  have hcall : notifyEnd s = [.msgEnd m s.packed] := by
    unfold notifyEnd
    simp only [hdesc]
  have hlen := hlinked.length
  obtain ⟨path, refs, items, hstack, -⟩ := hlinked.cons
  rw [hstack, List.length_cons] at hlen
  have hpk : s.packed = false := by
    cases hpk : s.packed with
    | false => rfl
    | true =>
        rw [hpk, if_pos rfl, List.length_nil] at hdepth
        omega
  have hone : g.2.opened.length ≤ 1 := by
    rw [List.length_nil] at hdepth
    omega
  have hrefs : refs = [] := List.length_eq_zero_iff.mp (by omega)
  rw [hcall, hpk]
  refine ⟨msgEndHandler false c, ?_, ?_⟩
  · show g.1.bind _ = some (msgEndHandler false c)
    rw [hc]
    rfl
  · show c.stack.drop 1 = []
    rw [hstack, hrefs]
    rfl

/-- The watched context is that of all handlers one after another. -/
theorem after_fst (new : PythonNew) (sch : Schema) (g : Watched)
    (es : List (Event Bytes)) :
    ((inStep new sch).after g es).1 = g.1.bind (handleAll new sch · es) := by
  induction es generalizing g with
  | nil =>
      obtain ⟨c, n⟩ := g
      cases c <;> rfl
  | cons e es ih =>
      refine (ih (Watched.see new sch g e)).trans ?_
      cases hc : g.1 with
      | none => simp only [Watched.see, hc, Option.bind_none]
      | some c => simp only [Watched.see, hc, Option.bind_some, handleAll]

/-- As long as a submessage is reported only where the dict at the top
holds what its field leaves there, or nothing, the stack is in step at
every call of the field handler, and empty behind a decode that
succeeds. -/
theorem dict_stack_in_step (new : PythonNew) (hm : sch.MessagesDescribed)
    (hp : sch.PackedNumeric) (h : Decodes sch root data uninit out r)
    (hfind : (finding new sch).Accepts watchedInit (resolve data out)) :
    (inStep new sch).Accepts watchedInit (resolve data out) ∧
      ∀ used, r = .ok used → ∃ c,
        handleAll new sch startContext (resolve data out) = some c ∧
          c.stack = [] := by
  obtain ⟨haccepts, hend⟩ := @Halts.accepts_of _ _ _ _ _
    ((inStep new sch).comap (Event.resolve data))
    ((finding new sch).comap (Event.resolve data))
    (Accompanied sch data)
    (fun g r => ∀ used, r = .ok used → ∃ c, g.1 = some c ∧ c.stack = []) rfl
    (fun g s s' o hs hmove hask => by
      have hcalls := decodeMove_calls sch root data s
      rw [hmove] at hcalls
      exact ⟨hs.calls hcalls, hs.move hm hp (decodeMove_next hmove) hask⟩)
    (fun g s r o hs hmove _ => by
      have hcalls := decodeMove_calls sch root data s
      rw [hmove] at hcalls
      exact ⟨hs.calls hcalls, hs.done hmove⟩)
    watchedInit _ _ _ decodeInit_accompanied h
    (Watch.accepts_comap.mpr hfind)
  refine ⟨Watch.accepts_comap.mp haccepts, fun used hr => ?_⟩
  have hafter := hend used hr
  rw [Watch.after_comap, after_fst] at hafter
  exact hafter

end

/-- Messages `a`, each with a message `x` and a packed run, and a number. -/
def listedNames : Schema :=
  ⟨[⟨[⟨1, ⟨.repeated, .message, 0⟩, some 1, "a"⟩,
      ⟨2, ⟨.optional, .int32, 0⟩, none, "n"⟩]⟩,
    ⟨[⟨1, ⟨.optional, .message, 0⟩, some 2, "x"⟩,
      ⟨2, ⟨.repeated, .int32, flagPacked⟩, none, "run"⟩]⟩,
    ⟨[⟨1, ⟨.optional, .int32, 0⟩, none, "z"⟩]⟩]⟩

/-- `a { x { z: 1 } run: 1, 2 }`, then `a { x { } }`, and `n: 5`. -/
def listedMessage : Bytes :=
  [0x0a, 0x08, 0x0a, 0x02, 0x08, 0x01, 0x12, 0x02, 0x01, 0x02,
    0x0a, 0x02, 0x0a, 0x00, 0x10, 0x05]

/-- What is reported of it. -/
def listedCalls : List (Event Span) :=
  [.msgStart 0 false,
    .field 0 ⟨0, 0⟩ none false, .msgStart 1 false,
    .field 0 ⟨1, 0⟩ none false, .msgStart 2 false,
    .field 2 ⟨2, 0⟩ (some (.int32 1)) false, .msgEnd 2 false,
    .msgStart 1 true, .field 1 ⟨1, 1⟩ (some (.int32 1)) true,
    .field 1 ⟨1, 1⟩ (some (.int32 2)) true, .msgEnd 1 true,
    .msgEnd 1 false,
    .field 0 ⟨0, 0⟩ none false, .msgStart 1 false,
    .field 0 ⟨1, 0⟩ none false, .msgStart 2 false, .msgEnd 2 false,
    .msgEnd 1 false,
    .field 0 ⟨0, 1⟩ (some (.int32 5)) false, .msgEnd 0 false]

/-- Dicts in a list, a dict under a dict, and a run between them: the stack
is in step throughout, and empty at the end. -/
theorem dict_stack_in_step_nested :
    Decodes listedNames 0 listedMessage 0 listedCalls (.ok 16) ∧
      (inStep plainNew listedNames).Accepts watchedInit
        (resolve listedMessage listedCalls) ∧
      ∃ c, handleAll plainNew listedNames startContext
          (resolve listedMessage listedCalls) = some c ∧ c.stack = [] := by
  have hrun : Decodes listedNames 0 listedMessage 0 listedCalls (.ok 16) :=
    halts_of_eval 40 (by decide +kernel)
  have hfind : (finding plainNew listedNames).Accepts watchedInit
      (resolve listedMessage listedCalls) := by decide +kernel
  have hstep := dict_stack_in_step plainNew (by decide) (by decide) hrun hfind
  exact ⟨hrun, hstep.1, hstep.2 16 rfl⟩

/-- A message `a` with a message `x`, next to a number `x`. -/
def nameTwice : Schema :=
  ⟨[⟨[⟨1, ⟨.optional, .message, 0⟩, some 1, "a"⟩,
      ⟨2, ⟨.optional, .int32, 0⟩, none, "x"⟩]⟩,
    ⟨[⟨1, ⟨.optional, .message, 0⟩, some 2, "x"⟩]⟩,
    ⟨[⟨1, ⟨.optional, .int32, 0⟩, none, "z"⟩]⟩]⟩

/-- A number `x`, then `a { x { } }`, then a field without a descriptor
that holds a message: it is read as another `x` of `a`. -/
def staleMessage : Bytes :=
  [0x10, 0x05, 0x0a, 0x02, 0x0a, 0x00, 0x3a, 0x02, 0x08, 0x01]

/-- What is reported of it. -/
def staleCalls : List (Event Span) :=
  [.msgStart 0 false, .field 0 ⟨0, 1⟩ (some (.int32 5)) false,
    .field 0 ⟨0, 0⟩ none false, .msgStart 1 false,
    .field 0 ⟨1, 0⟩ none false, .msgStart 2 false, .msgEnd 2 false,
    .msgEnd 1 false, .field 0 ⟨1, 0⟩ none false, .msgStart 2 false,
    .field 2 ⟨2, 0⟩ (some (.int32 1)) false, .msgEnd 2 false,
    .msgEnd 0 false]

theorem staleMessage_decodes :
    Decodes nameTwice 0 staleMessage 0 staleCalls (.ok 10) :=
  halts_of_eval 24 (by decide +kernel)

/-- The dict of the message that is read last is the number `x`. -/
theorem dict_stack_holds_number :
    nameTwice.MessagesDescribed ∧ nameTwice.PackedNumeric ∧
      ∃ out, Decodes nameTwice 0 staleMessage 0 out (.ok 10) ∧
        ¬ (inStep plainNew nameTwice).Accepts watchedInit
          (resolve staleMessage out) := by
  refine ⟨by decide, by decide, _, staleMessage_decodes, ?_⟩
  intro h
  obtain ⟨-, -, h⟩ := h
  -- `x` is there, and `a` is opened
  change (inStep plainNew nameTwice).Accepts
    (some ⟨[("x", .other (plainNew.intFromLong (Int32.toInt64 5)))], [],
      [⟨none, []⟩], none⟩, ⟨[none], none⟩) _ at h
  obtain ⟨-, -, h⟩ := h
  change (inStep plainNew nameTwice).Accepts
    (some ⟨[("x", .other (plainNew.intFromLong (Int32.toInt64 5))),
        ("a", .dict [])], [], [⟨none, [⟨"a", none⟩]⟩, ⟨none, []⟩], none⟩,
      ⟨[some ⟨0, 0⟩, none], none⟩) _ at h
  obtain ⟨-, -, -, -, h⟩ := h
  -- the stale `x` is opened on the number
  change (inStep plainNew nameTwice).Accepts
    (some ⟨[("x", .other (plainNew.intFromLong (Int32.toInt64 5))),
        ("a", .dict [("x", .dict [])])], [], [⟨none, []⟩], none⟩,
      ⟨[none], none⟩) _ at h
  obtain ⟨-, -, ⟨c, hc, hstep⟩, -⟩ := h
  cases hc
  cases hstep.linked with
  | sub _ _ _ hfollow => cases hfollow

/-- The number takes nothing, and the dict comes back with an exception
pending. -/
example : decoderDecode plainNew nameTwice 0 staleMessage 0
    = .dict [("x", .other (plainNew.intFromLong 5)),
        ("a", .dict [("x", .dict [])])] (some badInternalCall) := by
  have hdecode : decode nameTwice (0 : UInt32).toNat staleMessage 0
      = (staleCalls, .ok 10) := staleMessage_decodes.decode_eq
  unfold decoderDecode
  rw [if_neg (by decide), if_neg (by decide), hdecode]
  rfl

end Lwpb.Python
