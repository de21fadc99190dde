/-
What the struct decoder stores is where there is a slot for it.

A run of the struct decoder stays inside the mapped slots if and only if
each of its handler calls fits. One lemma for each handler says so of a call
(`handle_fits`), and an induction over the calls of the run
(`struct_decode_contained`).

What the lemmas share is `StructDec.Stands`: every frame of the decoder
belongs to an element of the map of the frame below it, so that a slot of
the top frame is a slot of the root struct. It holds from the start, and a
call keeps it whether it fits or not, as long as it returns. So the first
call that does not fit is the first store, or bad access, outside of the
slots.
-/
import Lwpb.Proofs.Struct.Slots

namespace Lwpb

open Memory Machine

-- ==================================================================== calls

section

variable {maps : Maps} {sch : Schema} {data : Bytes}
  {behind : Nat → UInt8} {root : StructMap} {base : Nat}
  {frame last : StructFrame} {below : List StructFrame} {s : StructDec}
  {field : MapField}

/-- The frames that a decoder has. -/
def StructDec.Stands (maps : Maps) (root : StructMap) (base : Nat)
    (s : StructDec) : Prop :=
  match s.stack with
  | [] => Stacked maps root base [s.bottom]
  | stack => Stacked maps root base stack

/-- The root frame stands on the base. -/
theorem structInit_stands :
    (structInit root base).Stands maps root base :=
  .root rfl rfl fun _ h => by cases h

/-- An entry that is found is one of the map, for that field. -/
theorem findMapField_some {map : StructMap} {f : FieldRef}
    (h : findMapField map f = some field) :
    field ∈ map.fields ∧ field.fieldDesc = f :=
  ⟨List.mem_of_find?_eq_some h, by simpa using List.find?_some h⟩

/-- A handler that stores nothing. -/
theorem of_noStores {r : Except Stop StructDec} {s' : StructDec}
    {stores : List Store}
    (h : r.map (fun s' => (s', ([] : List Store))) = .ok (s', stores)) :
    r = .ok s' ∧ stores = [] := by
  cases r with
  | error stop => cases h
  | ok s'' =>
      cases h
      exact ⟨rfl, rfl⟩

/-- A submessage can be started in the top frame. -/
def StructFrame.Opens (maps : Maps) (below : List StructFrame)
    (last : StructFrame) : Prop :=
  (last :: below).length < maxDepth ∧ last.Counts ∧
    ∃ field, last.lastField = some field ∧ maps field.len ≠ none

/-- A start of a message, where the map has a place for it. -/
theorem msgStart_opens {m : MsgRef} {bottom : StructFrame}
    {inner : StructMap} (hdepth : (last :: below).length < maxDepth)
    (hcount : last.Counts) (hlast : last.lastField = some field)
    (hmap : maps field.len = some inner) :
    sdecoderMsgStartHandler maps m ⟨last :: below, bottom⟩ =
      if inner.msgDesc = m then
        .ok ⟨⟨inner, last.base + field.ofs
            + inner.structSize * last.fieldIndex, none, 0⟩
          :: { last with fieldIndex := last.fieldIndex + 1 } :: below,
          bottom⟩
      else .error .abort := by
  unfold sdecoderMsgStartHandler
  simp only [if_neg (Nat.not_le.mpr hdepth), hlast, hmap, bump_eq hcount]
  rfl

/-- Where it has none, the start is a fault. -/
theorem msgStart_fault {m : MsgRef} {bottom : StructFrame}
    (h : ¬ last.Opens maps below) :
    sdecoderMsgStartHandler maps m ⟨last :: below, bottom⟩
      = .error .fault := by
  unfold sdecoderMsgStartHandler
  by_cases hdepth : maxDepth ≤ (last :: below).length
  · exact if_pos hdepth
  · simp only [if_neg hdepth]
    cases hlast : last.lastField with
    | none => rfl
    | some field =>
        cases hmap : maps field.len with
        | none => simp only [hmap]
        | some inner =>
            have hcount : ¬ last.Counts := by
              intro hcount
              refine h ⟨Nat.not_le.mp hdepth, hcount, field, hlast, ?_⟩
              rw [hmap]
              exact Option.some_ne_none inner
            simp only [hmap, bump_fault hcount]
            rfl

/-- A start call that goes through found a map of its message by the last
field of the top frame. -/
theorem msgStart_ok {m : MsgRef} {bottom : StructFrame} {s' : StructDec}
    (h : sdecoderMsgStartHandler maps m ⟨last :: below, bottom⟩ = .ok s') :
    ∃ field inner, last.lastField = some field ∧
      maps field.len = some inner ∧ inner.msgDesc = m ∧
      s' = ⟨⟨inner, last.base + field.ofs
          + inner.structSize * last.fieldIndex, none, 0⟩
        :: { last with fieldIndex := last.fieldIndex + 1 } :: below,
        bottom⟩ := by
  by_cases hopens : last.Opens maps below
  · obtain ⟨hdepth, hcount, field, hlast, hthere⟩ := hopens
    obtain ⟨inner, hmap⟩ := Option.ne_none_iff_exists'.mp hthere
    rw [msgStart_opens hdepth hcount hlast hmap] at h
    split at h
    · next hm =>
        cases h
        exact ⟨field, inner, hlast, hmap, hm, rfl⟩
    · cases h
  · rw [msgStart_fault hopens] at h
    cases h

/-- A submessage is put on the frames, in the element that its field stands
at. -/
theorem msgStart_stands {m : MsgRef} {s' : StructDec}
    (h : s.Stands maps root base)
    (hcall : sdecoderMsgStartHandler maps m s = .ok s') :
    s'.Stands maps root base := by
  obtain ⟨stack, bottom⟩ := s
  cases stack with
  | nil =>
      unfold sdecoderMsgStartHandler at hcall
      simp only at hcall
      split at hcall
      · cases hcall
        exact h
      · cases hcall
  | cons last below =>
      have hlast : Stacked maps root base (last :: below) := h
      obtain ⟨field, inner, hfield, hmap, -, rfl⟩ := msgStart_ok hcall
      refine .nested (hlast.turn rfl rfl fun _ => hlast.known) hfield rfl
        hmap rfl ?_
      intro _ hno
      cases hno

/-- The end of a message uncovers the frame below. -/
theorem msgEnd_stands {s' : StructDec} (h : s.Stands maps root base)
    (hcall : sdecoderMsgEndHandler s = .ok s') : s'.Stands maps root base := by
  obtain ⟨stack, bottom⟩ := s
  unfold sdecoderMsgEndHandler at hcall
  cases stack with
  | nil => cases hcall
  | cons frame below =>
      cases below with
      | nil =>
          cases hcall
          exact h
      | cons last below =>
          cases hcall
          exact h.pop

/-- A value that is stored in a slot of the top frame is stored in one of
the root. -/
theorem Stacked.in_of_kept (h : Stacked maps root base (frame :: below))
    (hmem : field ∈ frame.map.fields)
    (hscalar : (sch.field field.fieldDesc).opts.typ.isMessage = false)
    {st : Store} (hfield : st.field = field)
    (houter : st.outer = outerOf below)
    (hslot : st.slot = fieldBase field frame.base st.index)
    (hkept : st.Kept sch data) : st.In maps sch root base := by
  intro a hlo hhi
  rcases hkept with hnil | ⟨hlt, hleft, hin, hend, -⟩
  · rw [hnil] at hhi
    exact absurd hlo (Nat.not_le.mpr hhi)
  · rw [hfield] at hlt hend
    rw [houter] at hleft
    rw [hslot] at hin hend
    refine h.mapped (h.outer_iff.mp hleft)
      (.slot hmem ?_ hlt (by omega) (by omega))
    unfold MapField.IsMessage
    rw [hscalar]
    exact Bool.false_ne_true

/-- A field notice leaves the frames standing, and its stores are in the
entries of the maps. -/
theorem field_stands {f : FieldRef} {value : Option (Value Span)}
    {s' : StructDec} {stores : List Store} (h : s.Stands maps root base)
    (hcall : sdecoderFieldHandler data behind sch f value s
      = .ok (s', stores)) :
    s'.Stands maps root base ∧
      ∀ st ∈ stores, st.OfEntries maps root ∧
        (st.Kept sch data → st.In maps sch root base) := by
  obtain ⟨stack, bottom⟩ := s
  unfold sdecoderFieldHandler at hcall
  cases stack with
  | nil => cases hcall
  | cons frame below =>
      have hframe : Stacked maps root base (frame :: below) := h
      cases hfield : findMapField frame.map f with
      | none =>
          simp only [hfield] at hcall
          cases hcall
      | some field =>
          obtain ⟨hmem, rfl⟩ := findMapField_some hfield
          simp only [hfield] at hcall
          obtain ⟨⟨frame', stores'⟩, hunpack, hcall⟩ :=
            Sequence.ok_of_bind hcall
          cases hcall
          obtain ⟨hmap, hbase, hlast, hall⟩ := unpackField_spec hunpack
          refine ⟨hframe.turn hmap hbase fun _ heq => ?_, ?_⟩
          · rw [hlast] at heq
            cases heq
            exact hmem
          · intro st hst
            obtain ⟨hscalar, hstf, hstouter, hslot⟩ := hall st hst
            refine ⟨⟨frame.map, ?_, ?_⟩,
              hframe.in_of_kept hmem hscalar hstf hstouter hslot⟩
            · rw [hstouter]
              exact hframe.through
            · rw [hstf]
              exact hmem

/-- A call keeps the frames in order. What it stores is for entries, and in
a slot it is mapped. -/
theorem handle_stands {e : Event Span} {s' : StructDec}
    {stores : List Store} (h : s.Stands maps root base)
    (hcall : s.handle data behind maps sch e = .ok (s', stores)) :
    s'.Stands maps root base ∧
      ∀ st ∈ stores, st.OfEntries maps root ∧
        (st.Kept sch data → st.In maps sch root base) := by
  cases e with
  | msgStart m packed =>
      obtain ⟨hstart, rfl⟩ := of_noStores hcall
      exact ⟨msgStart_stands h hstart,
        fun _ hst => absurd hst List.not_mem_nil⟩
  | msgEnd m packed =>
      obtain ⟨hend, rfl⟩ := of_noStores hcall
      exact ⟨msgEnd_stands h hend, fun _ hst => absurd hst List.not_mem_nil⟩
  | field m f value packed => exact field_stands h hcall

/-- A call that stores nothing is fine if it does not fault. -/
theorem noStores_fine {r : Except Stop StructDec} :
    r ≠ .error .fault ↔
      r.map (fun s' => (s', ([] : List Store))) ≠ .error .fault ∧
        ∀ s' stores, r.map (fun s' => (s', ([] : List Store)))
          = .ok (s', stores) → ∀ st ∈ stores, st.Kept sch data := by
  constructor
  · intro hr
    constructor
    · cases r with
      | error stop =>
          intro heq
          cases heq
          exact hr rfl
      | ok s' => exact fun heq => by cases heq
    · intro s' stores heq st hst
      rw [(of_noStores heq).2] at hst
      exact absurd hst List.not_mem_nil
  · intro h₁ h₂
    obtain ⟨hne, -⟩ := h₁
    subst h₂
    exact hne rfl

/-- A start of a message fits if it does not fault. -/
theorem msgStart_fits {m : MsgRef} {packed : Bool} :
    s.Fits maps sch data (.msgStart m packed) ↔
      sdecoderMsgStartHandler maps m s ≠ .error .fault := by
  obtain ⟨stack, bottom⟩ := s
  cases stack with
  | nil =>
      refine iff_of_true trivial ?_
      unfold sdecoderMsgStartHandler
      simp only
      split <;> exact fun heq => by cases heq
  | cons last below =>
      show last.Opens maps below ↔ _
      by_cases hopens : last.Opens maps below
      · refine iff_of_true hopens ?_
        obtain ⟨hdepth, hcount, field, hlast, hthere⟩ := hopens
        obtain ⟨inner, hmap⟩ := Option.ne_none_iff_exists'.mp hthere
        rw [msgStart_opens hdepth hcount hlast hmap]
        split <;> exact fun heq => by cases heq
      · exact iff_of_false hopens fun hne => hne (msgStart_fault hopens)

/-- So does an end. -/
theorem msgEnd_fits {m : MsgRef} {packed : Bool} :
    s.Fits maps sch data (.msgEnd m packed) ↔
      sdecoderMsgEndHandler s ≠ .error .fault := by
  obtain ⟨stack, bottom⟩ := s
  unfold StructDec.Fits sdecoderMsgEndHandler
  cases stack with
  | nil => exact iff_of_false (fun hne => hne rfl) fun hne => hne rfl
  | cons frame below =>
      refine iff_of_true (List.cons_ne_nil _ _) ?_
      cases below <;> exact fun heq => by cases heq

/-- A field notice fits if, besides, its stores are kept in their slots. -/
theorem field_fits {m : MsgRef} {f : FieldRef} {value : Option (Value Span)}
    {packed : Bool} (h : s.Stands maps root base) :
    s.Fits maps sch data (.field m f value packed) ↔
      sdecoderFieldHandler data behind sch f value s ≠ .error .fault ∧
        ∀ s' stores, sdecoderFieldHandler data behind sch f value s
          = .ok (s', stores) → ∀ st ∈ stores, st.Kept sch data := by
  obtain ⟨stack, bottom⟩ := s
  unfold StructDec.Fits sdecoderFieldHandler
  cases stack with
  | nil => exact iff_of_false id fun hfine => hfine.1 rfl
  | cons frame below =>
      have hframe : Stacked maps root base (frame :: below) := h
      cases hfield : findMapField frame.map f with
      | none =>
          simp only [hfield]
          refine iff_of_false ?_ fun hfine => hfine.1 rfl
          intro h
          obtain ⟨field, hsome, -⟩ := h
          cases hsome
      | some field =>
          obtain ⟨hmem, rfl⟩ := findMapField_some hfield
          have hfine : ValueFits sch data below (frame.enter field)
              field (sch.field field.fieldDesc).opts.typ value ↔
                Fine sch data (unpackField data behind
                  (sch.field field.fieldDesc).opts.typ below frame
                  field value) :=
            unpackField_fine hframe hmem _ value
          simp only [hfield]
          refine Iff.trans ?_ (hfine.trans ?_)
          · constructor
            · intro h
              obtain ⟨field', hsome, hfits⟩ := h
              cases hsome
              exact hfits
            · exact fun hfits => ⟨field, rfl, hfits⟩
          · unfold Fine
            cases unpackField data behind
                (sch.field field.fieldDesc).opts.typ below frame field
                value with
            | error stop =>
                refine and_congr ⟨fun hne heq => hne ?_,
                  fun hne heq => hne ?_⟩ (iff_of_true ?_ ?_)
                · cases heq
                  rfl
                · cases heq
                  rfl
                · exact fun _ _ heq => by cases heq
                · exact fun _ _ heq => by cases heq
            | ok r =>
                obtain ⟨frame', stores⟩ := r
                refine and_congr (iff_of_true (fun heq => by cases heq)
                  fun heq => by cases heq) ?_
                constructor
                · intro hall s' stores' heq
                  cases heq
                  exact hall frame' stores rfl
                · intro hall frame'' stores' heq
                  cases heq
                  exact hall _ stores rfl

/-- A call is in order if and only if it fits. -/
theorem handle_fits {e : Event Span} (h : s.Stands maps root base) :
    s.Fits maps sch data e ↔
      s.handle data behind maps sch e ≠ .error .fault ∧
        ∀ s' stores, s.handle data behind maps sch e = .ok (s', stores) →
          ∀ st ∈ stores, st.Kept sch data := by
  cases e with
  | msgStart m packed => exact msgStart_fits.trans noStores_fine
  | msgEnd m packed => exact msgEnd_fits.trans noStores_fine
  | field m f value packed => exact field_fits h

-- ===================================================================== runs

/-- What is stored in mapped bytes leaves the others. -/
theorem storeAll_within {stores : List Store}
    (h : ∀ st ∈ stores, st.In maps sch root base) (mem : Mem) {a : Nat}
    (ha : ¬ Mapped maps sch root base a) : storeAll mem stores a = mem a := by
  induction stores generalizing mem with
  | nil => rfl
  | cons st stores ih =>
      have hrest : ∀ st ∈ stores, st.In maps sch root base :=
        fun st hst => h st (List.mem_cons_of_mem _ hst)
      refine (ih hrest (store mem st.dst st.bytes)).trans
        (store_within st.bytes a ?_)
      have hone := h st List.mem_cons_self a
      by_contra hin
      exact ha (hone (by omega) (by omega))

/-- A run is in order if and only if all of its calls fit. -/
theorem allFit_iff {es : List (Event Span)} (h : s.Stands maps root base) :
    s.AllFit maps sch data behind es ↔
      (s.handleAll data behind maps sch es).2 ≠ .error .fault ∧
        ∀ st ∈ (s.handleAll data behind maps sch es).1,
          st.Kept sch data := by
  induction es generalizing s with
  | nil =>
      refine iff_of_true trivial ⟨?_, ?_⟩
      · intro heq
        cases heq
      · exact fun _ hst => absurd hst List.not_mem_nil
  | cons e es ih =>
      unfold StructDec.AllFit StructDec.handleAll
      rw [@handle_fits maps sch data behind root base s e h]
      cases hr : s.handle data behind maps sch e with
      | error stop =>
          constructor
          · intro h
            obtain ⟨⟨hne, -⟩, -⟩ := h
            refine ⟨fun heq => hne ?_, fun _ hst =>
              absurd hst List.not_mem_nil⟩
            cases heq
            rfl
          · intro h
            obtain ⟨hne, -⟩ := h
            refine ⟨⟨fun heq => hne ?_, fun _ _ heq => by cases heq⟩,
              fun _ _ heq => by cases heq⟩
            cases heq
            rfl
      | ok r =>
          obtain ⟨s', stores⟩ := r
          obtain ⟨hstands, -⟩ := handle_stands h hr
          have hrest := ih hstands
          simp only
          constructor
          · intro h
            obtain ⟨⟨-, hkept⟩, hfit⟩ := h
            obtain ⟨hdefined, hlater⟩ := hrest.mp (hfit s' stores rfl)
            refine ⟨hdefined, fun st hst => ?_⟩
            rcases List.mem_append.mp hst with hst | hst
            · exact hkept s' stores rfl st hst
            · exact hlater st hst
          · intro h
            obtain ⟨hdefined, hall⟩ := h
            refine ⟨⟨?_, ?_⟩, ?_⟩
            · intro heq
              cases heq
            · intro s'' stores' heq st hst
              cases heq
              exact hall st (List.mem_append_left _ hst)
            · intro s'' stores' heq
              cases heq
              exact hrest.mpr ⟨hdefined, fun st hst =>
                hall st (List.mem_append_right _ hst)⟩

/-- What a run stores is for entries, and in slots it is mapped. -/
theorem handleAll_in {es : List (Event Span)} (h : s.Stands maps root base) :
    ∀ st ∈ (s.handleAll data behind maps sch es).1,
      st.OfEntries maps root ∧
        (st.Kept sch data → st.In maps sch root base) := by
  induction es generalizing s with
  | nil => exact fun _ hst => absurd hst List.not_mem_nil
  | cons e es ih =>
      unfold StructDec.handleAll
      cases hr : s.handle data behind maps sch e with
      | error stop => exact fun _ hst => absurd hst List.not_mem_nil
      | ok r =>
          obtain ⟨s', stores⟩ := r
          obtain ⟨hstands, hin⟩ := handle_stands h hr
          intro st hst
          rcases List.mem_append.mp hst with hst | hst
          · exact hin st hst
          · exact ih hstands st hst

end

/-- What a call stores is what its handlers store. -/
theorem structDecoderDecode_stores {maps : Maps} {sch : Schema}
    {behind : Nat → UInt8} {map : StructMap} {base : Nat} {uninit : UInt64}
    (data : Bytes) :
    (structDecoderDecode data behind maps sch map base uninit).1
      = ((structInit map base).handleAll data behind maps sch
        (decode sch map.msgDesc data uninit).1).1 := by
  unfold structDecoderDecode
  simp only
  split <;> simp only [*]

/-- `lwpb_struct_decoder_decode` writes the struct in its mapped slots, and
nothing into them but values and bytes of the input, if and only if each of
its handler calls fits. -/
theorem struct_decode_contained (maps : Maps) (sch : Schema) (data : Bytes)
    (behind : Nat → UInt8) (map : StructMap) (base : Nat)
    (uninit : UInt64) :
    Contained maps sch data map base
        (structDecoderDecode data behind maps sch map base uninit).1
        ((structInit map base).handleAll data behind maps sch
          (decode sch map.msgDesc data uninit).1).2 ↔
      (structInit map base).AllFit maps sch data behind
        (decode sch map.msgDesc data uninit).1 := by
  have hstands : (structInit map base).Stands maps map base :=
    structInit_stands
  rw [structDecoderDecode_stores, allFit_iff hstands]
  constructor
  · intro h
    obtain ⟨hdefined, hkept, -⟩ := h
    exact ⟨hdefined, hkept⟩
  · intro h
    obtain ⟨hdefined, hkept⟩ := h
    exact ⟨hdefined, hkept, fun mem a ha => storeAll_within
      (fun st hst => (handleAll_in hstands st hst).2 (hkept st hst)) mem ha⟩

/-- A struct with room for one `n`. -/
def oneSlot : StructMap := ⟨0, 4, [⟨⟨0, 0⟩, 0, 4, 1⟩]⟩

/-- Of a field that comes twice, the second value is stored behind the
struct. -/
theorem struct_decode_overruns :
    ¬ Contained (fun _ => none) oneInt32 [0x08, 0x01, 0x08, 0x02] oneSlot
        4096
        (structDecoderDecode [0x08, 0x01, 0x08, 0x02] (fun _ => 0)
          (fun _ => none) oneInt32 oneSlot 4096 0).1
        ((structInit oneSlot 4096).handleAll [0x08, 0x01, 0x08, 0x02]
          (fun _ => 0) (fun _ => none) oneInt32
          (decode oneInt32 0 [0x08, 0x01, 0x08, 0x02] 0).1).2 := by
  have hdec : Decodes oneInt32 0 [0x08, 0x01, 0x08, 0x02] 0
      [.msgStart 0 false, .field 0 ⟨0, 0⟩ (some (.int32 1)) false,
        .field 0 ⟨0, 0⟩ (some (.int32 2)) false, .msgEnd 0 false]
      (.ok 4) := halts_of_eval 5 rfl
  have hstores : (structDecoderDecode [0x08, 0x01, 0x08, 0x02] (fun _ => 0)
      (fun _ => none) oneInt32 oneSlot 4096 0).1
        = [⟨⟨⟨0, 0⟩, 0, 4, 1⟩, 0, [], 4096, 4096, [1, 0, 0, 0], none⟩,
          ⟨⟨⟨0, 0⟩, 0, 4, 1⟩, 1, [], 4100, 4100, [2, 0, 0, 0], none⟩] := by
    unfold structDecoderDecode
    rw [show oneSlot.msgDesc = 0 from rfl, hdec.decode_eq]
    decide
  intro h
  have hbehind := h.within (fun _ => 0) 4100
  rw [hstores] at hbehind
  have hmapped : ¬ Mapped (fun _ => none) oneInt32 oneSlot 4096 4100 := by
    intro hmapped
    cases hmapped with
    | slot mem _ inside _ hi =>
        cases List.mem_singleton.mp mem
        have hi' : 4100 < 4096 + 0 + 4 * _ + 4 := hi
        have inside' : _ < 1 := inside
        omega
    | nested _ _ _ there => cases there
  exact absurd (hbehind hmapped) (by decide)

end Lwpb
