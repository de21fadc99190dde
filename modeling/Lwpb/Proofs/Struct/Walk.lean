/-
The struct decoder along a message.

The handlers keep their frames in step with the messages that are open:
the index of a frame counts the occurrences in a row
(`StructFrame.Behind`). So a message leaves in memory what its `placings`
say, each value where it was put (`Wire.unpacked`); and if an occurrence has
no entry, or a field occurs `2 ^ 31` times in a row, the walk is stopped
(`Wire.unpacked_stopped`). Both are inductions on the tree, with the calls
of its handlers taken apart as the tree is.
-/
import Lwpb.Proofs.Struct.Elements

namespace Lwpb

open Memory

variable {maps : Maps} {sch : Schema} {data : Bytes}
  {behind : Nat → UInt8} {root m : MsgRef} {frame : StructFrame}
  {below : List StructFrame} {s s' : StructDec} {field : MapField}
  {f : FieldRef} {before : List FieldRef} {base : Nat}

-- ===================================================================== calls

/-- The first call of a list. -/
theorem Reports.cons {out : List (Event Span)} {e : Event Bytes}
    {es : List (Event Bytes)} (h : Reports data out (e :: es)) :
    ∃ o out', out = o :: out' ∧ o.resolve data = e ∧ o.InInput data ∧
      Reports data out' es := by
  obtain ⟨hres, hin⟩ := h
  cases out with
  | nil => cases hres
  | cons o out' =>
      obtain ⟨ho, hout⟩ := List.cons.inj hres
      exact ⟨o, out', rfl, ho, hin o List.mem_cons_self, hout,
        fun e he => hin e (List.mem_cons_of_mem _ he)⟩

/-- The calls of two lists. -/
theorem Reports.split {out : List (Event Span)} {es es' : List (Event Bytes)}
    (h : Reports data out (es ++ es')) :
    ∃ out₁ out₂, out = out₁ ++ out₂ ∧ Reports data out₁ es ∧
      Reports data out₂ es' := by
  obtain ⟨hres, hin⟩ := h
  obtain ⟨out₁, out₂, rfl, h₁, h₂⟩ := List.map_eq_append_iff.mp hres
  exact ⟨out₁, out₂, rfl,
    ⟨h₁, fun e he => hin e (List.mem_append_left _ he)⟩,
    ⟨h₂, fun e he => hin e (List.mem_append_right _ he)⟩⟩

/-- A start or end call has no values, so it is the call itself. -/
theorem resolve_eq_msgStart {o : Event Span} {packed : Bool}
    (h : o.resolve data = .msgStart m packed) : o = .msgStart m packed := by
  cases o <;> cases h
  rfl

/-- An end of a message has no value to resolve. -/
theorem resolve_eq_msgEnd {o : Event Span} {packed : Bool}
    (h : o.resolve data = .msgEnd m packed) : o = .msgEnd m packed := by
  cases o <;> cases h
  rfl

/-- A field notice has the value of the input behind its span. -/
theorem resolve_eq_field {o : Event Span} {v : Option (Value Bytes)}
    {packed : Bool} (h : o.resolve data = .field m f v packed) :
    ∃ v', o = .field m f v' packed ∧
      v'.map (Value.map (spanBytes data)) = v := by
  cases o <;> cases h
  exact ⟨_, rfl, rfl⟩

/-- The calls of a submessage, part by part. -/
theorem Reports.sub {out : List (Event Span)} {key len : Bytes}
    {body rest : Wire}
    (h : Reports data out ((Wire.sub f key len body rest).notifs sch root m)) :
    ∃ outb outr, out = .field root f none false
        :: .msgStart (sch.subDesc f) false
        :: outb ++ .msgEnd (sch.subDesc f) false :: outr ∧
      Reports data outb (body.notifs sch root (sch.subDesc f)) ∧
      Reports data outr (rest.notifs sch root m) := by
  obtain ⟨outb, outr, rfl, hcalls, hcallsr⟩ := h.split
  obtain ⟨o₁, outb₁, rfl, hres₁, -, hcalls₁⟩ := hcalls.cons
  obtain ⟨o₂, outb₂, rfl, hres₂, -, houtb⟩ := hcalls₁.cons
  obtain ⟨o₃, outr, rfl, hres₃, -, houtr⟩ := hcallsr.cons
  obtain ⟨v, rfl, hv⟩ := resolve_eq_field hres₁
  cases Option.map_eq_none_iff.mp hv
  cases resolve_eq_msgStart hres₂
  cases resolve_eq_msgEnd hres₃
  exact ⟨outb₂, outr, rfl, houtb, houtr⟩

/-- The run along the first part of its calls, and from there. -/
theorem StructDec.handleAll_append {es es' : List (Event Span)}
    {stores : List Store}
    (h : s.handleAll data behind maps sch es = (stores, .ok s')) :
    s.handleAll data behind maps sch (es ++ es')
      = (stores ++ (s'.handleAll data behind maps sch es').1,
        (s'.handleAll data behind maps sch es').2) := by
  induction es generalizing s stores with
  | nil =>
      cases h
      rfl
  | cons e es ih =>
      rw [StructDec.handleAll] at h
      rw [List.cons_append, StructDec.handleAll]
      cases hcall : s.handle data behind maps sch e with
      | error stop =>
          rw [hcall] at h
          cases h
      | ok r =>
          obtain ⟨s₁, stores₁⟩ := r
          rw [hcall] at h
          simp only [Prod.mk.injEq] at h
          obtain ⟨rfl, hfinal⟩ := h
          simp only
          rw [ih (Prod.ext rfl hfinal), List.append_assoc]

/-- Handlers that have stopped stay so. -/
theorem StructDec.handleAll_stopped {es es' : List (Event Span)}
    {stop : Stop}
    (h : (s.handleAll data behind maps sch es).2 = .error stop) :
    (s.handleAll data behind maps sch (es ++ es')).2 = .error stop := by
  induction es generalizing s with
  | nil => cases h
  | cons e es ih =>
      rw [StructDec.handleAll] at h
      rw [List.cons_append, StructDec.handleAll]
      cases hcall : s.handle data behind maps sch e with
      | error stop' =>
          rw [hcall] at h
          exact h
      | ok r =>
          rw [hcall] at h
          exact ih h

/-- Stores are carried out in their order. -/
theorem storeAll_append {mem : Mem} {stores stores' : List Store} :
    storeAll mem (stores ++ stores')
      = storeAll (storeAll mem stores) stores' := by
  unfold storeAll
  rw [List.foldl_append]

-- ==================================================================== values

/-- Bytes of the input. -/
theorem copied_eq {q n : Nat} (h : q + n ≤ data.length) :
    copied data behind q n = (data.drop q).take n := by
  apply List.ext_getElem?
  intro i
  unfold copied
  by_cases hi : i < n
  · rw [List.getElem?_map, List.getElem?_range hi, Option.map_some,
      List.getElem?_take_of_lt hi, List.getElem?_drop,
      List.getD_eq_getElem?_getD, List.getElem?_eq_getElem (by omega)]
    rfl
  · rw [List.getElem?_eq_none (by
      rw [List.length_map, List.length_range]
      omega)]
    exact (List.getElem?_eq_none (by
      rw [List.length_take]
      omega)).symm

/-- A copy that is one byte longer. -/
theorem copied_succ (q n : Nat) :
    copied data behind q (n + 1)
      = copied data behind q n ++ [data.getD (q + n) (behind (q + n))] := by
  unfold copied
  rw [List.range_succ, List.map_append]
  rfl

/-- The last of the bytes stored is stored again. -/
theorem store_last (mem : Mem) (a : Nat) (bs : Bytes) (x y : UInt8) :
    Memory.store (Memory.store mem a (bs ++ [x])) (a + bs.length) [y]
      = Memory.store mem a (bs ++ [y]) := by
  rw [store_append, store_append]
  generalize Memory.store mem a bs = mem
  show put (put mem (a + bs.length) x) (a + bs.length) y
    = put mem (a + bs.length) y
  funext i
  unfold put
  by_cases hi : i = a + bs.length
  · rw [if_pos hi, if_pos hi]
  · rw [if_neg hi, if_neg hi, if_neg hi]

/-- The stored bytes of a number do not depend on where strings stand. -/
theorem stored_map {σ τ : Type} (g : σ → τ) (typ : FieldType)
    (v : Value σ) : stored typ (v.map g) = stored typ v := by
  cases typ <;> cases v <;> rfl

-- ==================================================================== frames

/-- The frame has come behind these fields of its message. -/
structure StructFrame.Behind (frame : StructFrame)
    (before : List FieldRef) : Prop where
  last : frame.lastField = before.head?.bind (findMapField frame.map)
  index : ∀ f, before.head? = some f → frame.fieldIndex = inRow before f

/-- For the next field the index counts its occurrences in a row. -/
theorem StructFrame.Behind.enter_index (h : frame.Behind before)
    (hfield : findMapField frame.map f = some field) :
    (frame.enter field).fieldIndex = inRow before f := by
  obtain ⟨hlast, hindex⟩ := h
  show (if frame.lastField = some field then frame.fieldIndex else 0) = _
  cases before with
  | nil =>
      have hno : frame.lastField = none := hlast
      rw [hno]
      rfl
  | cons g before =>
      have hg : frame.lastField = findMapField frame.map g := hlast
      by_cases hgf : g = f
      · subst hgf
        rw [hg, if_pos hfield]
        exact hindex g rfl
      · rw [inRow_other hgf, if_neg]
        intro heq
        rw [hg] at heq
        obtain ⟨-, hgdesc⟩ := findMapField_some heq
        obtain ⟨-, hfdesc⟩ := findMapField_some hfield
        exact hgf (hgdesc.symm.trans hfdesc)

/-- The frame behind an occurrence. -/
def StructFrame.after (frame : StructFrame) (field : MapField) :
    StructFrame :=
  { frame.enter field with fieldIndex := (frame.enter field).fieldIndex + 1 }

/-- A frame that no field has come to. -/
theorem StructFrame.behind_nil (h : frame.lastField = none) :
    frame.Behind [] :=
  ⟨h, fun _ hno => by cases hno⟩

/-- The counter of the next field can count on, if it has not come too often
in a row. -/
theorem StructFrame.Behind.counts_iff (h : frame.Behind before)
    (hfield : findMapField frame.map f = some field) :
    (frame.enter field).Counts ↔ inRow before f + 1 < 2 ^ 31 := by
  unfold StructFrame.Counts
  rw [h.enter_index hfield]

/-- A frame stands behind a field that it has counted. -/
theorem StructFrame.Behind.after (h : frame.Behind before)
    (hfield : findMapField frame.map f = some field) :
    (frame.after field).Behind (f :: before) := by
  constructor
  · exact hfield.symm
  · intro g hg
    cases hg
    rw [inRow_self, ← h.enter_index hfield]
    rfl

-- ==================================================================== fields

/-- What `unpack_field` stores for a string of the input: as much of it as
the slot has room for, and a NUL. -/
theorem unpackField_string (hlen : 0 < field.len) {str : Span} {q : Nat}
    (hq : str.data = some q) (hin : q + str.len ≤ data.length)
    (hshort : str.len + 1 < 2 ^ 64) :
    ∃ stores, unpackField data behind .string below frame field
        (some (.string str))
          = (frame.enter field).bump.bind (fun frame => .ok (frame, stores)) ∧
      ∀ mem, storeAll mem stores = Memory.store mem
        (fieldBase field frame.base (frame.enter field).fieldIndex)
        (placed field .string (.string (spanBytes data str))) := by
  have hsucc : stringLen field str = min (field.len - 1) str.len + 1 := by
    unfold stringLen
    rw [Nat.mod_eq_of_lt hshort]
    omega
  refine ⟨_, by
    simp only [unpackField, memcpyFrom, hq, hsucc, Nat.succ_ne_zero, if_false]
    rfl, fun mem => ?_⟩
  have hbase : (frame.enter field).base = frame.base := rfl
  rw [hbase]
  generalize fieldBase field frame.base (frame.enter field).fieldIndex = slot
  have hle : min (field.len - 1) str.len ≤ str.len := Nat.min_le_right ..
  have hcopied : copied data behind q (min (field.len - 1) str.len)
      = (spanBytes data str).take (field.len - 1) := by
    unfold spanBytes
    rw [hq, List.take_take]
    exact copied_eq (by omega)
  have hlast : slot + (min (field.len - 1) str.len + 1) - 1
      = slot + (copied data behind q
        (min (field.len - 1) str.len)).length := by
    rw [copied_length]
    omega
  show Memory.store (Memory.store mem slot _) _ [0] = _
  rw [hlast, copied_succ, store_last, hcopied]
  rfl

/-- A string whose length and one more is no `size_t`. -/
theorem unpackField_long {str : Span} {q : Nat} (hq : str.data = some q)
    (hlong : str.len + 1 = 2 ^ 64) :
    unpackField data behind .string below frame field (some (.string str))
      = .error .fault := by
  have hzero : stringLen field str = 0 := by
    unfold stringLen
    rw [hlong, Nat.mod_self, Nat.min_zero]
  simp only [unpackField, memcpyFrom, hq, hzero, if_true]
  rfl

/-- A `bytes` value inside the input is stored as it stands there. -/
theorem unpackField_bytes {str : Span} {q : Nat}
    (hq : str.data = some q) (hin : q + str.len ≤ data.length) :
    ∃ stores, unpackField data behind .bytes below frame field
        (some (.bytes str))
          = (frame.enter field).bump.bind (fun frame => .ok (frame, stores)) ∧
      ∀ mem, storeAll mem stores = Memory.store mem
        (fieldBase field frame.base (frame.enter field).fieldIndex)
        (placed field .bytes (.bytes (spanBytes data str))) := by
  refine ⟨_, by simp only [unpackField, memcpyFrom, hq]; rfl, fun mem => ?_⟩
  have hle : min field.len str.len ≤ str.len := Nat.min_le_right ..
  have hcopied : copied data behind q (min field.len str.len)
      = (spanBytes data str).take field.len := by
    unfold spanBytes
    rw [hq, List.take_take]
    exact copied_eq (by omega)
  show Memory.store mem _ (copied data behind q (min field.len str.len)) = _
  rw [hcopied]
  rfl

/-- A number is stored whole. -/
theorem unpackField_number {typ : FieldType} {v : Value Span} {bs : Bytes}
    (htyp : typ.isNumeric = true) (hlen : field.len = typ.storedSize)
    (hbs : stored typ v = some bs) :
    ∃ stores, unpackField data behind typ below frame field (some v)
          = (frame.enter field).bump.bind (fun frame => .ok (frame, stores)) ∧
      ∀ mem, storeAll mem stores = Memory.store mem
        (fieldBase field frame.base (frame.enter field).fieldIndex) bs := by
  have hsize : typ.storedSize ≠ 0 := by
    cases typ <;> first | cases htyp; done | exact Nat.succ_ne_zero _
  rw [unpackField_stored hsize, if_neg (not_not_intro hlen), hbs]
  exact ⟨_, rfl, fun mem => rfl⟩

/-- An occurrence that opens no frame, when the counter can count on: it is
placed in the slot that the index says. -/
theorem unpackField_placed {p : Payload} {v : Value Span} {typ : FieldType}
    (hscalar : typ.isMessage = false)
    (hnum : typ.isNumeric = true → field.len = typ.storedSize)
    (hstr : typ = .string → 0 < field.len)
    (hwt : fieldWireType typ = some p.wireType)
    (hshort : typ = .string → p.content.length + 1 < 2 ^ 64)
    (hv : v.map (spanBytes data) = p.read typ) (hin : v.InInput data) :
    ∃ stores, unpackField data behind typ below frame field (some v)
          = (frame.enter field).bump.bind (fun frame => .ok (frame, stores)) ∧
      ∀ mem, storeAll mem stores = Memory.store mem
        (fieldBase field frame.base (frame.enter field).fieldIndex)
        (placed field typ (p.read typ)) := by
  by_cases htyp : typ.isNumeric = true
  · have hbs : stored typ v = some (p.read typ).image := by
      rw [← stored_map (spanBytes data), hv]
      exact p.stored_read htyp hwt
    rw [placed_number htyp]
    exact unpackField_number htyp (hnum htyp) hbs
  · cases typ with
    | string =>
        cases p with
        | string len content =>
            cases v with
            | string str =>
                have hlen := spanBytes_length hin
                have hcontent : spanBytes data str = content :=
                  Value.string.inj hv
                rw [hcontent] at hlen
                have hshort : content.length + 1 < 2 ^ 64 := hshort rfl
                obtain ⟨q, hq, hend⟩ := hin
                rw [← hv]
                exact unpackField_string (hstr rfl) hq hend (by omega)
            | _ => cases hv
        | _ => cases hwt
    | bytes =>
        cases p with
        | string len content =>
            cases v with
            | bytes str =>
                obtain ⟨q, hq, hend⟩ := hin
                rw [← hv]
                exact unpackField_bytes hq hend
            | _ => cases hv
        | _ => cases hwt
    | message | group => cases hscalar
    | _ => exact absurd rfl htyp

/-- A string that is too long to count its NUL. -/
theorem unpackField_too_long {p : Payload} {v : Value Span} {typ : FieldType}
    (hp : p.Complete) (hstr : typ = .string)
    (hwt : fieldWireType typ = some p.wireType)
    (hlong : ¬ p.content.length + 1 < 2 ^ 64)
    (hv : v.map (spanBytes data) = p.read typ) (hin : v.InInput data) :
    unpackField data behind typ below frame field (some v)
      = .error .fault := by
  subst hstr
  cases p with
  | string len content =>
      cases v with
      | string str =>
          have hlen := spanBytes_length hin
          have hcontent : spanBytes data str = content := Value.string.inj hv
          have hword := (varintWord len).toNat_lt
          have hcount : (varintWord len).toNat = content.length := hp.2
          have hlong : ¬ content.length + 1 < 2 ^ 64 := hlong
          rw [hcontent] at hlen
          obtain ⟨q, hq, -⟩ := hin
          exact unpackField_long hq (by omega)
      | _ => cases hv
  | _ => cases hwt

-- ===================================================================== steps

/-- A known field has an entry. -/
theorem StructMap.Laid.covered {map : StructMap} {n : Nat}
    (h : map.Laid maps sch) (hmap : map.msgDesc = m)
    (hknown : sch.known m n = some f) :
    ∃ field, findMapField map f = some field := by
  obtain ⟨-, hmsg, hidx⟩ := Schema.known_lt hknown
  have hf : f = ⟨map.msgDesc, f.idx⟩ := by
    rw [hmap, ← hmsg]
  rw [hf]
  refine h.covers f.idx ?_
  rw [hmap]
  exact hidx

/-- The entry of a submessage leads to a map of it. -/
theorem StructMap.Fitting.submessage {map : StructMap}
    (h : map.Fitting maps sch) (hfield : findMapField map f = some field)
    (hmsg : (sch.field f).opts.typ.isMessage = true) :
    ∃ inner, field ∈ map.fields ∧ field.IsMessage sch ∧
      maps field.len = some inner ∧ inner.msgDesc = sch.subDesc f := by
  obtain ⟨hmem, rfl⟩ := findMapField_some hfield
  obtain ⟨inner, hthere, hinner⟩ := h.nested field hmem hmsg
  exact ⟨inner, hmem, hmsg, hthere, hinner⟩

/-- No field is packed. -/
theorem StructMap.Laid.not_packed {map : StructMap} {n : Nat}
    (h : map.Laid maps sch) (hmap : map.msgDesc = m)
    (hknown : sch.known m n = some f) :
    (sch.field f).isPackedRepeated ≠ true := by
  obtain ⟨field, hfield⟩ := h.covered hmap hknown
  obtain ⟨hmem, rfl⟩ := findMapField_some hfield
  rw [h.unpacked field hmem]
  exact Bool.false_ne_true

/-- Maps that cover their messages have an entry for every occurrence, and
none of them is a packed run. -/
theorem Wire.mappedBy_of_laid {w : Wire} {map : StructMap}
    (hlaid : AllLaid maps sch map) (hmap : map.msgDesc = m)
    (hwf : w.WellFormed sch typed m) : w.MappedBy maps map ∧ w.RunFree := by
  induction w generalizing m map with
  | nil => exact ⟨trivial, trivial⟩
  | unknown key p rest ih =>
      obtain ⟨-, -, -, hrest⟩ := hwf
      exact ih hlaid hmap hrest
  | scalar f key p rest ih =>
      obtain ⟨-, -, hknown, -, -, hrest⟩ := hwf
      obtain ⟨hmapped, hfree⟩ := ih hlaid hmap hrest
      exact ⟨⟨hlaid.laid.covered hmap hknown, hmapped⟩, hfree⟩
  | sub f key len body rest ihb ihr =>
      obtain ⟨-, -, hknown, -, hmsg, -, -, hbody, hrest⟩ := hwf
      obtain ⟨hmapped, hfree⟩ := ihr hlaid hmap hrest
      obtain ⟨field, hfield⟩ := hlaid.laid.covered hmap hknown
      obtain ⟨inner, hmem, hmessage, hthere, hinner⟩ :=
        hlaid.fitting.fitting.submessage hfield hmsg
      obtain ⟨hmappedb, hfreeb⟩ :=
        ihb (hlaid.nested hmem hmessage hthere) hinner hbody
      refine ⟨⟨⟨field, hfield, fun inner' hthere' => ?_⟩, hmapped⟩, hfreeb,
        hfree⟩
      cases hthere.symm.trans hthere'
      exact hmappedb
  | run f key len elems rest ih =>
      obtain ⟨-, -, hknown, hpacked, -, -⟩ := hwf
      exact absurd hpacked (hlaid.laid.not_packed hmap hknown)

/-- A field without an entry stops the call. -/
theorem handle_field_unmapped {bottom : StructFrame}
    {v : Option (Value Span)} {packed : Bool}
    (h : findMapField frame.map f = none) :
    StructDec.handle data behind maps sch ⟨frame :: below, bottom⟩
      (.field m f v packed) = .error .fault := by
  unfold StructDec.handle sdecoderFieldHandler
  simp only [h]

/-- The handler of a field in the map, by its `unpack_field`. -/
theorem handle_field {bottom frame' : StructFrame}
    {v : Option (Value Span)} {packed : Bool}
    (hfield : findMapField frame.map f = some field)
    {stores : List Store}
    (h : unpackField data behind (sch.field f).opts.typ below frame field v
      = .ok (frame', stores)) :
    StructDec.handle data behind maps sch ⟨frame :: below, bottom⟩
      (.field m f v packed) = .ok (⟨frame' :: below, bottom⟩, stores) := by
  unfold StructDec.handle sdecoderFieldHandler
  simp only [hfield, h]
  rfl

/-- It faults where `unpack_field` does. -/
theorem handle_field_fault {bottom : StructFrame} {v : Option (Value Span)}
    {packed : Bool} (hfield : findMapField frame.map f = some field)
    (h : unpackField data behind (sch.field f).opts.typ below frame field v
      = .error .fault) :
    StructDec.handle data behind maps sch ⟨frame :: below, bottom⟩
      (.field m f v packed) = .error .fault := by
  unfold StructDec.handle sdecoderFieldHandler
  simp only [hfield, h]
  rfl

/-- The frame of a submessage that is opened next. -/
def StructFrame.opened (frame : StructFrame) (field : MapField)
    (inner : StructMap) : StructFrame :=
  ⟨inner, frame.base + field.ofs
    + inner.structSize * (frame.enter field).fieldIndex, none, 0⟩

/-- The call for a submessage moves the frame on to its field. -/
theorem handle_open {bottom : StructFrame} {packed : Bool}
    (hfield : findMapField frame.map f = some field)
    (hmsg : (sch.field f).opts.typ.isMessage = true) :
    StructDec.handle data behind maps sch ⟨frame :: below, bottom⟩
      (.field m f none packed)
        = .ok (⟨frame.enter field :: below, bottom⟩, []) := by
  refine handle_field hfield ?_
  cases htyp : (sch.field f).opts.typ <;> rw [htyp] at hmsg <;>
    first | rfl | cases hmsg

/-- Opening a submessage pushes a frame on its place and counts it. -/
theorem handle_start {bottom : StructFrame} {inner : StructMap}
    {packed : Bool} (hdepth : below.length + 1 < maxDepth)
    (hthere : maps field.len = some inner) (hdesc : inner.msgDesc = m)
    (hcount : (frame.enter field).Counts) :
    StructDec.handle data behind maps sch
      ⟨frame.enter field :: below, bottom⟩ (.msgStart m packed)
        = .ok (⟨frame.opened field inner :: frame.after field :: below,
          bottom⟩, []) := by
  unfold StructDec.handle
  simp only
  rw [msgStart_opens hdepth hcount rfl hthere, if_pos hdesc]
  rfl

/-- Where the map has no further place, that is a fault. -/
theorem handle_start_fault {bottom : StructFrame} {packed : Bool}
    (hcount : ¬ (frame.enter field).Counts) :
    StructDec.handle data behind maps sch
      ⟨frame.enter field :: below, bottom⟩ (.msgStart m packed)
        = .error .fault := by
  have hshut : ¬ (frame.enter field).Opens maps below :=
    fun hopens => hcount hopens.2.1
  unfold StructDec.handle
  simp only
  rw [msgStart_fault hshut]
  rfl

/-- A call that goes through, and the run behind it. -/
theorem StructDec.handleAll_cons {e : Event Span} {es : List (Event Span)}
    {stores : List Store}
    (h : s.handle data behind maps sch e = .ok (s', stores)) :
    s.handleAll data behind maps sch (e :: es)
      = (stores ++ (s'.handleAll data behind maps sch es).1,
        (s'.handleAll data behind maps sch es).2) := by
  rw [StructDec.handleAll, h]

/-- A first event that faults ends the run. -/
theorem StructDec.handleAll_cons_fault {e : Event Span}
    {es : List (Event Span)}
    (h : s.handle data behind maps sch e = .error .fault) :
    (s.handleAll data behind maps sch (e :: es)).2 = .error .fault := by
  rw [StructDec.handleAll, h]

/-- The calls of a submessage up to its end, and the run behind it: the
frame of the submessage has been opened and closed again. -/
theorem StructDec.handleAll_sub {bottom frameb : StructFrame}
    {inner : StructMap} {outb outr : List (Event Span)}
    {stores : List Store}
    (hfield : findMapField frame.map f = some field)
    (hmsg : (sch.field f).opts.typ.isMessage = true)
    (hdepth : below.length + 1 < maxDepth)
    (hthere : maps field.len = some inner)
    (hdesc : inner.msgDesc = sch.subDesc f)
    (hcount : (frame.enter field).Counts)
    (hbody : StructDec.handleAll data behind maps sch
      ⟨frame.opened field inner :: frame.after field :: below, bottom⟩ outb
        = (stores, .ok ⟨frameb :: frame.after field :: below, bottom⟩)) :
    StructDec.handleAll data behind maps sch ⟨frame :: below, bottom⟩
        (.field m f none false :: .msgStart (sch.subDesc f) false
          :: outb ++ .msgEnd (sch.subDesc f) false :: outr)
      = (stores ++ (StructDec.handleAll data behind maps sch
            ⟨frame.after field :: below, bottom⟩ outr).1,
          (StructDec.handleAll data behind maps sch
            ⟨frame.after field :: below, bottom⟩ outr).2) := by
  rw [List.cons_append, List.cons_append,
    StructDec.handleAll_cons (handle_open hfield hmsg),
    StructDec.handleAll_cons (handle_start hdepth hthere hdesc hcount),
    StructDec.handleAll_append hbody, StructDec.handleAll_cons rfl]
  rfl

/-- If the calls inside a submessage are stopped, so is the run. -/
theorem StructDec.handleAll_sub_stopped {bottom : StructFrame}
    {inner : StructMap} {outb outr : List (Event Span)} {stop : Stop}
    (hfield : findMapField frame.map f = some field)
    (hmsg : (sch.field f).opts.typ.isMessage = true)
    (hdepth : below.length + 1 < maxDepth)
    (hthere : maps field.len = some inner)
    (hdesc : inner.msgDesc = sch.subDesc f)
    (hcount : (frame.enter field).Counts)
    (hbody : (StructDec.handleAll data behind maps sch
      ⟨frame.opened field inner :: frame.after field :: below, bottom⟩
        outb).2 = .error stop) :
    (StructDec.handleAll data behind maps sch ⟨frame :: below, bottom⟩
      (.field m f none false :: .msgStart (sch.subDesc f) false
        :: outb ++ .msgEnd (sch.subDesc f) false :: outr)).2
      = .error stop := by
  rw [List.cons_append, List.cons_append,
    StructDec.handleAll_cons (handle_open hfield hmsg),
    StructDec.handleAll_cons (handle_start hdepth hthere hdesc hcount)]
  exact StructDec.handleAll_stopped hbody

/-- A submessage that its counter cannot count. -/
theorem StructDec.handleAll_sub_uncounted {bottom : StructFrame}
    {outb outr : List (Event Span)}
    (hfield : findMapField frame.map f = some field)
    (hmsg : (sch.field f).opts.typ.isMessage = true)
    (hcount : ¬ (frame.enter field).Counts) :
    (StructDec.handleAll data behind maps sch ⟨frame :: below, bottom⟩
      (.field m f none false :: .msgStart (sch.subDesc f) false
        :: outb ++ .msgEnd (sch.subDesc f) false :: outr)).2
      = .error .fault := by
  rw [List.cons_append, List.cons_append,
    StructDec.handleAll_cons (handle_open hfield hmsg)]
  exact StructDec.handleAll_cons_fault (handle_start_fault hcount)

/-- What is left of the stack for a submessage and for what is behind it. -/
theorem Wire.nesting_sub_le {n : Nat} {key len : Bytes} {body rest : Wire}
    (h : n + (Wire.sub f key len body rest).nesting ≤ maxDepth) :
    n + 1 < maxDepth ∧ n + 1 + body.nesting ≤ maxDepth ∧
      n + rest.nesting ≤ maxDepth := by
  have hmax : (Wire.sub f key len body rest).nesting
      = max (body.nesting + 1) rest.nesting := rfl
  have hpos := body.nesting_pos
  omega

-- ===================================================================== walks

/-- A run over a message: it comes to its end, and what it leaves in memory
is these placings. -/
def Unpacks (maps : Maps) (sch : Schema) (data : Bytes)
    (behind : Nat → UInt8) (frame : StructFrame) (below : List StructFrame)
    (bottom : StructFrame) (out : List (Event Span))
    (ts : List (Placing Place)) : Prop :=
  ∃ stores frame', StructDec.handleAll data behind maps sch
      ⟨frame :: below, bottom⟩ out
        = (stores, .ok ⟨frame' :: below, bottom⟩) ∧
    ∀ mem, storeAll mem stores
      = writeAll mem (ts.map (Placing.put (address maps sch frame.base)))

/-- The call for a scalar: its value is placed, if it is short. -/
theorem handle_scalar {bottom : StructFrame} {p : Payload} {o : Event Span}
    (hfit : frame.map.Fitting maps sch) (hcomplete : p.Complete)
    (hfield : findMapField frame.map f = some field)
    (hopens : ¬ (sch.field f).opens p.wireType)
    (htyped : typed (sch.field f) p.wireType) (hframe : frame.Behind before)
    (hres : o.resolve data = .field m f
      (some (p.read (sch.field f).opts.typ)) false)
    (hin : o.InInput data) :
    (p.Short sch before f →
      ∃ stores, StructDec.handle data behind maps sch
          ⟨frame :: below, bottom⟩ o
            = .ok (⟨frame.after field :: below, bottom⟩, stores) ∧
        ∀ mem, storeAll mem stores = writeAll mem
          [(scalarPlacing sch before f p field).put
            (address maps sch frame.base)]) ∧
    (¬ p.Short sch before f →
      StructDec.handle data behind maps sch ⟨frame :: below, bottom⟩ o
        = .error .fault) := by
  obtain ⟨v, rfl, hv⟩ := resolve_eq_field hres
  obtain ⟨v, rfl, hread⟩ := Option.map_eq_some_iff.mp hv
  have hscalar := htyped.not_message hopens
  have hindex := hframe.enter_index hfield
  obtain ⟨hmem, hdesc⟩ := findMapField_some hfield
  have hnumeric := hfit.numeric field hmem
  have hstring := hfit.string field hmem
  rw [hdesc] at hnumeric hstring
  have hplaced := @unpackField_placed data behind frame below field p v _
    hscalar hnumeric hstring htyped.1
  constructor
  · rintro ⟨hcount, hshort⟩
    obtain ⟨stores, hunpack, hleaves⟩ := hplaced hshort hread hin
    rw [bump_eq ((hframe.counts_iff hfield).mpr hcount)] at hunpack
    refine ⟨stores, handle_field hfield hunpack, fun mem => ?_⟩
    have hwidth : field.width maps sch = field.len :=
      MapField.width_scalar (by
        unfold MapField.IsMessage
        rw [hdesc, hscalar]
        exact Bool.false_ne_true)
    have haddr : address maps sch frame.base [(field, inRow before f)]
        = fieldBase field frame.base (frame.enter field).fieldIndex := by
      unfold fieldBase
      rw [hindex, ← hwidth]
      rfl
    rw [hleaves mem, ← haddr]
    rfl
  · intro hbad
    by_cases hshort : (sch.field f).opts.typ = .string →
        p.content.length + 1 < 2 ^ 64
    · obtain ⟨stores, hunpack, -⟩ := hplaced hshort hread hin
      have hcount : ¬ inRow before f + 1 < 2 ^ 31 :=
        fun hcount => hbad ⟨hcount, hshort⟩
      rw [bump_fault (mt (hframe.counts_iff hfield).mp hcount)] at hunpack
      exact handle_field_fault hfield hunpack
    · refine handle_field_fault hfield ?_
      obtain ⟨hstr, hlong⟩ := Classical.not_imp.mp hshort
      exact unpackField_too_long hcomplete hstr htyped.1 hlong hread hin

/-- The run behind a call that stores the first placings. -/
theorem Unpacks.cons {bottom frame' : StructFrame} {o : Event Span}
    {out : List (Event Span)} {stores : List Store}
    {ts ts' : List (Placing Place)}
    (hcall : StructDec.handle data behind maps sch ⟨frame :: below, bottom⟩ o
      = .ok (⟨frame' :: below, bottom⟩, stores))
    (hbase : frame'.base = frame.base)
    (hleaves : ∀ mem, storeAll mem stores
      = writeAll mem (ts.map (Placing.put (address maps sch frame.base))))
    (h : Unpacks maps sch data behind frame' below bottom out ts') :
    Unpacks maps sch data behind frame below bottom (o :: out)
      (ts ++ ts') := by
  obtain ⟨stores', frame'', hrun, hrest⟩ := h
  refine ⟨stores ++ stores', frame'', ?_, fun mem => ?_⟩
  · rw [StructDec.handleAll_cons hcall, hrun]
  · rw [storeAll_append, hleaves, hrest, hbase, List.map_append,
      writeAll_append]

/-- A message is walked to its end, and each of its values is in memory
where it was put. -/
theorem Wire.unpacked {w : Wire} {bottom : StructFrame}
    {out : List (Event Span)} (hfit : AllFitting maps sch frame.map)
    (hmap : frame.map.msgDesc = m) (hwf : w.WellFormed sch typed m)
    (hfree : w.RunFree) (hmapped : w.MappedBy maps frame.map)
    (hframe : frame.Behind before)
    (hdepth : below.length + w.nesting ≤ maxDepth)
    (hshort : w.Short sch before)
    (hout : Reports data out (w.notifs sch root m)) :
    Unpacks maps sch data behind frame below bottom out
      (w.placings maps sch frame.map before) := by
  induction w generalizing m frame before below out with
  | nil =>
      obtain ⟨hres, -⟩ := hout
      cases List.map_eq_nil_iff.mp hres
      exact ⟨[], frame, rfl, fun mem => rfl⟩
  | unknown key p rest ih =>
      obtain ⟨-, -, -, hrest⟩ := hwf
      exact ih hfit hmap hrest hfree hmapped hframe hdepth hshort hout
  | scalar f key p rest ih =>
      obtain ⟨-, hcomplete, -, hopens, htyped, hrest⟩ := hwf
      obtain ⟨hcount, hshort⟩ := hshort
      obtain ⟨⟨field, hfield⟩, hmapped⟩ := hmapped
      obtain ⟨o, out, rfl, hres, hin, hout⟩ := hout.cons
      obtain ⟨hcall, -⟩ := @handle_scalar maps sch data behind m frame below
        field f before bottom p o hfit.fitting hcomplete hfield hopens htyped
        hframe hres hin
      obtain ⟨stores, hcall, hleaves⟩ := hcall hcount
      rw [Wire.placings, hfield]
      refine .cons hcall rfl hleaves ?_
      exact @ih m (frame.after field) below (f :: before) out hfit hmap
        hrest hfree hmapped (hframe.after hfield) hdepth hshort hout
  | sub f key len body rest ihb ihr =>
      obtain ⟨-, -, -, -, hmsg, -, -, hbody, hrest⟩ := hwf
      obtain ⟨hcount, hshortb, hshort⟩ := hshort
      obtain ⟨hfreeb, hfree⟩ := hfree
      obtain ⟨⟨field, hfield, hmappedb⟩, hmapped⟩ := hmapped
      obtain ⟨inner, hmem, hmessage, hthere, hinner⟩ :=
        hfit.fitting.submessage hfield hmsg
      obtain ⟨hstart, hdeepb, hdeep⟩ := Wire.nesting_sub_le hdepth
      obtain ⟨outb, outr, rfl, houtb, houtr⟩ := hout.sub
      obtain ⟨storesb, frameb, hrunb, hleavesb⟩ := @ihb _
        (frame.opened field inner) (frame.after field :: below) [] outb
        (hfit.nested hmem hmessage hthere) hinner hbody hfreeb
        (hmappedb inner hthere) (StructFrame.behind_nil rfl) hdeepb hshortb
        houtb
      -- the rest begins where the submessage has ended
      obtain ⟨storesr, framer, hrunr, hleavesr⟩ := @ihr m
        (frame.after field) below (f :: before) outr hfit hmap hrest hfree
        hmapped (hframe.after hfield) hdeep hshort houtr
      refine ⟨storesb ++ storesr, framer, ?_, fun mem => ?_⟩
      · rw [StructDec.handleAll_sub hfield hmsg hstart hthere hinner
          ((hframe.counts_iff hfield).mpr hcount) hrunb, hrunr]
      · rw [storeAll_append, hleavesb, hleavesr, Wire.placings, hfield]
        simp only [hthere]
        have hstruct : (frame.opened field inner).base
            = frame.base + field.ofs
              + field.width maps sch * inRow before f := by
          rw [MapField.width_message hmessage hthere,
            ← hframe.enter_index hfield]
          rfl
        rw [List.map_append, writeAll_append, List.map_map, hstruct]
        rfl
  | run f key len elems rest ih => exact hfree.elim

/-- If an occurrence has no entry, or a field occurs `2 ^ 31` times in a
row, the walk is stopped. -/
theorem Wire.unpacked_stopped {w : Wire} {bottom : StructFrame}
    {out : List (Event Span)} (hfit : AllFitting maps sch frame.map)
    (hmap : frame.map.msgDesc = m) (hwf : w.WellFormed sch typed m)
    (hfree : w.RunFree) (hframe : frame.Behind before)
    (hdepth : below.length + w.nesting ≤ maxDepth)
    (hbad : ¬ (w.MappedBy maps frame.map ∧ w.Short sch before))
    (hout : Reports data out (w.notifs sch root m)) :
    (StructDec.handleAll data behind maps sch ⟨frame :: below, bottom⟩
      out).2 = .error .fault := by
  induction w generalizing m frame before below out with
  | nil => exact absurd ⟨trivial, trivial⟩ hbad
  | unknown key p rest ih =>
      obtain ⟨-, -, -, hrest⟩ := hwf
      exact ih hfit hmap hrest hfree hframe hdepth hbad hout
  | scalar f key p rest ih =>
      obtain ⟨-, hcomplete, -, hopens, htyped, hrest⟩ := hwf
      obtain ⟨o, out, rfl, hres, hin, hout⟩ := hout.cons
      cases hfield : findMapField frame.map f with
      | none =>
          obtain ⟨v, rfl, -⟩ := resolve_eq_field hres
          exact StructDec.handleAll_cons_fault (handle_field_unmapped hfield)
      | some field =>
          obtain ⟨hcall, hfault⟩ := @handle_scalar maps sch data behind m
            frame below field f before bottom p o hfit.fitting hcomplete
            hfield hopens htyped hframe hres hin
          by_cases hcount : p.Short sch before f
          · obtain ⟨stores, hcall, -⟩ := hcall hcount
            rw [StructDec.handleAll_cons hcall]
            refine @ih m (frame.after field) below (f :: before) out hfit hmap
              hrest hfree (hframe.after hfield) hdepth ?_ hout
            intro hrest
            obtain ⟨hmapped, hshort⟩ := hrest
            exact hbad ⟨⟨⟨field, hfield⟩, hmapped⟩, hcount, hshort⟩
          · exact StructDec.handleAll_cons_fault (hfault hcount)
  | sub f key len body rest ihb ihr =>
      obtain ⟨-, -, -, -, hmsg, -, -, hbody, hrest⟩ := hwf
      obtain ⟨hfreeb, hfree⟩ := hfree
      obtain ⟨hstart, hdeepb, hdeep⟩ := Wire.nesting_sub_le hdepth
      obtain ⟨outb, outr, rfl, houtb, houtr⟩ := hout.sub
      cases hfield : findMapField frame.map f with
      | none =>
          exact StructDec.handleAll_cons_fault (handle_field_unmapped hfield)
      | some field =>
      obtain ⟨inner, hmem, hmessage, hthere, hinner⟩ :=
        hfit.fitting.submessage hfield hmsg
      by_cases hcount : inRow before f + 1 < 2 ^ 31
      · have hcounts := (hframe.counts_iff hfield).mpr hcount
        have hfitb := hfit.nested hmem hmessage hthere
        have hopened : (frame.opened field inner).Behind [] :=
          StructFrame.behind_nil rfl
        by_cases hinside : body.MappedBy maps inner ∧ body.Short sch []
        · obtain ⟨hmappedb, hshortb⟩ := hinside
          obtain ⟨storesb, frameb, hrunb, -⟩ := @Wire.unpacked maps sch data
            behind root _ (frame.opened field inner)
            (frame.after field :: below) [] body bottom outb hfitb hinner
            hbody hfreeb hmappedb hopened hdeepb hshortb houtb
          rw [StructDec.handleAll_sub hfield hmsg hstart hthere hinner hcounts
            hrunb]
          apply @ihr m (frame.after field) below (f :: before) outr hfit
            hmap hrest hfree (hframe.after hfield) hdeep ?_ houtr
          -- the defect is in the rest, if it is not in the submessage
          intro hrest
          obtain ⟨hmapped, hshort⟩ := hrest
          refine hbad ⟨⟨⟨field, hfield, fun inner' hthere' => ?_⟩, hmapped⟩,
            hcount, hshortb, hshort⟩
          cases hthere.symm.trans hthere'
          exact hmappedb
        · apply StructDec.handleAll_sub_stopped hfield hmsg hstart hthere
            hinner hcounts
          exact @ihb _ (frame.opened field inner)
            (frame.after field :: below) [] outb hfitb hinner hbody hfreeb
            hopened hdeepb hinside houtb
      · exact StructDec.handleAll_sub_uncounted hfield hmsg
          (mt (hframe.counts_iff hfield).mp hcount)
  | run f key len elems rest ih => exact hfree.elim

-- ==================================================================== decode

/-- The decoder does not return from a message that is too deep. -/
theorem nesting_le_of_ok {w : Wire} {map : StructMap} {uninit : UInt64}
    (hwf : w.WellFormed sch typed map.msgDesc)
    (hlead : w.Leading sch false map.msgDesc) {used : Nat}
    (hok : (structDecoderDecode w.bytes behind maps sch map base uninit).2
      = .ok used) : w.nesting ≤ maxDepth := by
  by_contra hdeep
  obtain ⟨out, hdec⟩ := decode_wire_deep uninit hwf hlead
    (Nat.not_le.mp hdeep)
  unfold structDecoderDecode at hok
  rw [hdec.decode_eq] at hok
  simp only at hok
  split at hok <;> cases hok

/-- The first call opens the root frame. -/
theorem handle_root (map : StructMap) (base : Nat) (packed : Bool) :
    (structInit map base).handle data behind maps sch
      (.msgStart map.msgDesc packed)
        = .ok (⟨[⟨map, base, none, 0⟩], ⟨map, base, none, 0⟩⟩, []) := by
  unfold StructDec.handle sdecoderMsgStartHandler structInit
  simp only [if_pos trivial]
  rfl

/-- The struct decoder on a message without packed runs that leads with its
unknown fields and fits the stack. -/
theorem structDecoderDecode_runFree {w : Wire} {map : StructMap}
    (uninit : UInt64) (hfit : AllFitting maps sch map)
    (hwf : w.WellFormed sch typed map.msgDesc) (hfree : w.RunFree)
    (hlead : w.Leading sch false map.msgDesc)
    (hdepth : w.nesting ≤ maxDepth) :
    (w.MappedBy maps map → w.Short sch [] →
      (structDecoderDecode w.bytes behind maps sch map base uninit).2
          = .ok w.bytes.length ∧
        ∀ mem, storeAll mem (structDecoderDecode w.bytes behind maps sch map
            base uninit).1
          = writeAll mem ((w.placings maps sch map []).map
            (Placing.put (address maps sch base)))) ∧
    (¬ (w.MappedBy maps map ∧ w.Short sch []) →
      (structDecoderDecode w.bytes behind maps sch map base uninit).2
        = .fault .pointer) := by
  obtain ⟨out, hdec, hrep⟩ := decode_wire uninit hwf hlead hdepth
  obtain ⟨o₁, out₁, rfl, hres₁, -, hcalls⟩ := hrep.cons
  obtain ⟨out, out₂, rfl, hout, hends⟩ := hcalls.split
  obtain ⟨o₂, out₃, rfl, hres₂, -, hnil⟩ := hends.cons
  cases List.map_eq_nil_iff.mp hnil.resolves
  cases resolve_eq_msgStart hres₁
  cases resolve_eq_msgEnd hres₂
  have hbehind : (StructFrame.mk map base none 0).Behind [] :=
    StructFrame.behind_nil rfl
  unfold structDecoderDecode
  rw [hdec.decode_eq]
  simp only
  rw [StructDec.handleAll_cons (handle_root map base false)]
  constructor
  · intro hmapped hshort
    obtain ⟨stores, frame', hrun, hleaves⟩ := @Wire.unpacked maps sch
      w.bytes behind map.msgDesc map.msgDesc ⟨map, base, none, 0⟩ [] [] w
      ⟨map, base, none, 0⟩ out hfit rfl hwf hfree hmapped hbehind (by
        rw [List.length_nil]
        omega) hshort hout
    rw [StructDec.handleAll_append hrun, StructDec.handleAll_cons rfl]
    refine ⟨rfl, fun mem => ?_⟩
    show storeAll mem (stores ++ []) = _
    rw [List.append_nil]
    exact hleaves mem
  · intro hbad
    have hfault := @Wire.unpacked_stopped maps sch w.bytes behind map.msgDesc
      map.msgDesc ⟨map, base, none, 0⟩ [] [] w ⟨map, base, none, 0⟩ out
      hfit rfl hwf hfree hbehind (by
        rw [List.length_nil]
        omega) hbad hout
    have hstop := @StructDec.handleAll_stopped maps sch w.bytes behind _ out
      [.msgEnd map.msgDesc false] _ hfault
    simp only [hstop]

/-- And with maps that cover their messages. -/
theorem structDecoderDecode_wire {w : Wire} {map : StructMap}
    (uninit : UInt64) (hlaid : AllLaid maps sch map)
    (hwf : w.WellFormed sch typed map.msgDesc)
    (hlead : w.Leading sch false map.msgDesc)
    (hdepth : w.nesting ≤ maxDepth) :
    (w.Short sch [] →
      (structDecoderDecode w.bytes behind maps sch map base uninit).2
          = .ok w.bytes.length ∧
        ∀ mem, storeAll mem (structDecoderDecode w.bytes behind maps sch map
            base uninit).1
          = writeAll mem ((w.placings maps sch map []).map
            (Placing.put (address maps sch base)))) ∧
    (¬ w.Short sch [] →
      (structDecoderDecode w.bytes behind maps sch map base uninit).2
        = .fault .pointer) := by
  obtain ⟨hmapped, hfree⟩ := Wire.mappedBy_of_laid hlaid rfl hwf
  obtain ⟨hok, hstop⟩ := @structDecoderDecode_runFree maps sch behind base w
    map uninit hlaid.fitting hwf hfree hlead hdepth
  refine ⟨hok hmapped, fun hlong => hstop fun h => hlong h.2⟩

end Lwpb
