/-
Message boundaries.

A reader that follows the start and end calls expects a pair of them for
every message occurrence and for nothing else (`Wire.faithful`). A packed
run is no message, but the decoder gives it a frame, and every frame that
has a descriptor and is still at its beginning is announced: a run is
started and ended like a message, with the descriptor of the message it
stands in. It makes two calls more for each (`notifs_length`), so the
calls are the expected ones if and only if the message has no runs and
nothing else adds calls either (`decode_boundaries_iff`).
-/
import Lwpb.Proofs.Decoder.Unknown

namespace Lwpb

open Machine

variable {sch : Schema} {root : MsgRef} {uninit : UInt64}

namespace Wire

/-- What a reader should be told about a message: every submessage is
started and ended, around the calls for its own fields, and the elements
of a packed run are calls like others. -/
def faithful (sch : Schema) (root m : MsgRef) : Wire → List (Event Bytes)
  | .nil => []
  | .unknown _ _ rest => faithful sch root m rest
  | .scalar f _ p rest =>
      .field m f (some (p.read (sch.field f).opts.typ)) false
        :: faithful sch root m rest
  | .sub f _ _ body rest =>
      .field root f none false :: .msgStart (sch.subDesc f) false
        :: faithful sch root (sch.subDesc f) body
        ++ .msgEnd (sch.subDesc f) false :: faithful sch root m rest
  | .run f _ _ elems rest =>
      elemNotifs sch m f elems ++ faithful sch root m rest

/-- How many packed runs a message has, at any depth. -/
def runs : Wire → Nat
  | .nil => 0
  | .unknown _ _ rest => runs rest
  | .scalar _ _ _ rest => runs rest
  | .sub _ _ _ body rest => runs body + runs rest
  | .run _ _ _ _ rest => runs rest + 1

/-- A packed run is two calls more. -/
theorem notifs_length (w : Wire) :
    ∀ m, (w.notifs sch root m).length
      = (w.faithful sch root m).length + 2 * w.runs := by
  induction w with
  | nil => intro m; rfl
  | unknown key p rest ih => exact ih
  | scalar f key p rest ih =>
      intro m
      simp only [notifs, faithful, runs, List.length_cons, ih]
      omega
  | sub f key len body rest ihb ihr =>
      intro m
      simp only [notifs, faithful, runs, List.length_append,
        List.length_cons, ihb, ihr]
      omega
  | run f key len elems rest ih =>
      intro m
      simp only [notifs, faithful, runs, elemNotifs, List.length_append,
        List.length_cons, List.length_map, ih]
      omega

/-- Without packed runs the calls are the expected ones. -/
theorem notifs_faithful {w : Wire} (h : w.runs = 0) :
    ∀ m, w.notifs sch root m = w.faithful sch root m := by
  induction w with
  | nil => intro m; rfl
  | unknown key p rest ih => exact ih h
  | scalar f key p rest ih =>
      intro m
      rw [notifs, faithful, ih h]
  | sub f key len body rest ihb ihr =>
      intro m
      obtain ⟨hb, hr⟩ := Nat.add_eq_zero_iff.mp h
      rw [notifs, faithful, ihb hb, ihr hr]
  | run f key len elems rest ih => cases h

end Wire

/-- The calls of the handlers are the start of the outermost message,
those expected for its contents, and its end. -/
def ReportsBoundaries (sch : Schema) (root : MsgRef) (uninit : UInt64)
    (w : Wire) : Prop :=
  ∃ out used, Decodes sch root w.bytes uninit out (.ok used) ∧
    Reports w.bytes out (.msgStart root false ::
      w.faithful sch root root ++ [.msgEnd root false])

/-- Message boundaries are reported faithfully exactly if there are no
packed runs, the unknown fields stand in front of the first known field,
under numbers that are no known number modulo `2 ^ 32`, and the nesting
fits the stack. -/
theorem decode_boundaries_iff {w : Wire}
    (hw : w.WellFormed sch typed root) :
    ReportsBoundaries sch root uninit w ↔
      w.runs = 0 ∧ w.Leading sch false root ∧ w.nesting ≤ maxDepth := by
  constructor
  · intro h
    obtain ⟨out, used, hdec, hout⟩ := h
    obtain ⟨hnest, hle, hlead⟩ := leading_of_ok hw hdec
    have hlen := congrArg List.length hout.resolves
    have hcount := @Wire.notifs_length sch root w root
    unfold resolve at hlen
    simp only [Wire.report, List.length_map, List.length_append,
      List.length_cons, List.length_nil] at hlen hle hlead
    exact ⟨by omega, hlead (by omega), hnest⟩
  · intro h
    obtain ⟨hruns, hlead, hnest⟩ := h
    obtain ⟨out, hdec, hout⟩ := decode_wire uninit hw hlead hnest
    rw [Wire.report, Wire.notifs_faithful hruns] at hout
    exact ⟨out, _, hdec, hout⟩

/-- A message with a message of its own kind and a number. -/
def ownKind : Schema :=
  ⟨[⟨[⟨1, ⟨.repeated, .message, 0⟩, some 0, "inner"⟩,
    ⟨2, ⟨.optional, .int32, 0⟩, none, "n"⟩]⟩]⟩

/-- An unknown field, a message in a message, an empty one, and a number. -/
def nestedTwice : Wire :=
  .unknown [0x22] (.string [0x01] [0x71])
    (.sub ⟨0, 0⟩ [0x0a] [0x06]
        (.sub ⟨0, 0⟩ [0x0a] [0x02]
            (.scalar ⟨0, 1⟩ [0x10] (.varint [0x01]) .nil)
          (.scalar ⟨0, 1⟩ [0x10] (.varint [0x02]) .nil))
      (.sub ⟨0, 0⟩ [0x0a] [0x00] .nil
        (.scalar ⟨0, 1⟩ [0x10] (.varint [0x05]) .nil)))

/-- Its messages are started and ended once each. -/
theorem decode_boundaries_iff_nested :
    ReportsBoundaries ownKind 0 0 nestedTwice :=
  (decode_boundaries_iff (by decide)).mpr
    ⟨by decide, by decide, by decide⟩

/-- One packed field of int32 values, number 1. -/
def packedInt32 : Schema :=
  ⟨[⟨[⟨1, ⟨.repeated, .int32, 2⟩, none, "n"⟩]⟩]⟩

/-- A run of one value. -/
def oneRun : Wire := .run ⟨0, 0⟩ [0x0a] [0x01] [.varint [0x05]] .nil

theorem oneRun_wellFormed : oneRun.WellFormed packedInt32 typed 0 := by
  refine ⟨⟨by decide, rfl⟩, by decide, rfl, rfl, ?_, trivial⟩
  intro e he
  rw [List.mem_singleton.mp he]
  exact ⟨by decide, ⟨rfl, fun h => WireType.noConfusion h⟩, rfl⟩

/-- The run is started and ended like a message. -/
theorem decode_starts_run :
    oneRun.WellFormed packedInt32 typed 0 ∧
      ¬ ReportsBoundaries packedInt32 0 0 oneRun := by
  refine ⟨oneRun_wellFormed, ?_⟩
  intro h
  obtain ⟨out, used, hdec, hout⟩ := h
  have hrun : Decodes packedInt32 0 oneRun.bytes 0
      [.msgStart 0 false, .msgStart 0 true,
        .field 0 ⟨0, 0⟩ (some (.int32 5)) true, .msgEnd 0 true,
        .msgEnd 0 false] (.ok 3) := halts_of_eval 8 rfl
  obtain ⟨rfl, -⟩ := hdec.unique hrun
  cases congrArg List.length hout.resolves

end Lwpb
