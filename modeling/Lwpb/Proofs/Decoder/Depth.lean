/-
When the decoder aborts.

The stack is an array of `LWPB_MAX_DEPTH` slots and `push_stack_frame`
asserts that there is one left; nothing before it looks at the depth. So
no slot outside the array is ever used (`DecReach.bounded`), and the call
aborts exactly if a pass opens a frame while every slot is in use. For a
well-formed message that is a matter of its nesting alone.

`Overflows` is that pass, read off the state before it. That it aborts is
`pushStackFrame_full`, that nothing else does is the inversion of an abort
in `Moves.lean`, and a run is both ways a matter of its states. For a
well-formed message the run is known from `Trees.lean`: it is walked to
the end where the stack holds its nesting, and fails the assertion where
it does not. A packed run counts as a level, since it takes a slot like a
submessage.
-/
import Lwpb.Proofs.Decoder.Trees

namespace Lwpb

open Machine

variable {sch : Schema} {root : MsgRef} {data : Bytes} {uninit : UInt64}

/-- The pass opens a frame, and every slot is in use. -/
def Overflows (sch : Schema) (data : Bytes) (s : Dec) : Prop :=
  s.point = .loop ∧ 0 < bufLeft s.frame.buf ∧ s.depth = maxDepth ∧
    ∃ wt t f, Reads sch data s wt t ∧ t.fieldDesc = some f ∧
      Pushes sch wt f

/-- No assertion fails, no slot outside the stack is used, and nesting
that the stack does not hold is reported as an error. -/
structure NeverAborts (sch : Schema) (root : MsgRef) (data : Bytes)
    (uninit : UInt64) : Prop where
  no_abort : ∀ out, ¬ Decodes sch root data uninit out .abort
  slot : ∀ s, DecReach sch root data uninit s → s.depth ≤ maxDepth
  too_deep : (∃ s, DecReach sch root data uninit s ∧
      Overflows sch data s) →
    ∃ out e, Decodes sch root data uninit out (.err e)

theorem pushStackFrame_full {t : Dec} (desc : Option MsgRef) (packed : Bool)
    (out : List (Event Span)) (ht : t.depth = maxDepth) :
    pushStackFrame data t desc packed out = .halt .abort out := by
  unfold pushStackFrame
  rw [if_neg (by omega)]

/-- A pass that opens a frame over a full stack aborts. -/
theorem Overflows.aborts (root : MsgRef) {s : Dec}
    (h : Overflows sch data s) :
    ∃ out, decodeMove sch root data s = .halt .abort out := by
  obtain ⟨hpt, hleft, hfull, wt, t, f, hreads, hf, hpush⟩ := h
  have hfull' : t.depth = maxDepth := by rw [hreads.depth, hfull]
  rw [hreads.decodeMove hpt hleft]
  by_cases hrun : wt = .string ∧ (sch.field f).isPackedRepeated = true
  · obtain ⟨rfl, hrun⟩ := hrun
    rw [dispatch_run hf hrun]
    exact ⟨_, pushStackFrame_full _ _ _ hfull'⟩
  · have hmsg := hpush.resolve_left hrun
    rw [dispatch_sub hf hrun hmsg]
    exact ⟨_, pushStackFrame_full _ _ _ hfull'⟩

/-- And an abort is such a pass. -/
theorem overflows_of_abort {s : Dec} {out : List (Event Span)}
    (hs : s.Bounded data)
    (h : decodeMove sch root data s = .halt .abort out) :
    Overflows sch data s := by
  have hdepth := hs.depth
  cases decodeMove_halt h with
  | @tooDeep wt t f hpt hleft hreads hf hpush hdeep =>
      exact ⟨hpt, hleft, by omega, wt, t, f, hreads, hf, hpush⟩

theorem neverAborts_iff_abort :
    NeverAborts sch root data uninit ↔
      ∀ out, ¬ Decodes sch root data uninit out .abort := by
  constructor
  · exact NeverAborts.no_abort
  · intro hno
    refine ⟨hno, fun s hs => hs.bounded.depth, ?_⟩
    intro h
    obtain ⟨s, hs, hover⟩ := h
    obtain ⟨out, hmove⟩ := hover.aborts root
    obtain ⟨out', hdec⟩ := hs.decodes hmove
    exact absurd hdec (hno out')

theorem neverAborts_of_no_overflow
    (h : ∀ s, DecReach sch root data uninit s → ¬ Overflows sch data s) :
    NeverAborts sch root data uninit := by
  rw [neverAborts_iff_abort]
  intro out hdec
  obtain ⟨s, o₁, o₂, he, hmove, -⟩ := hdec.last
  have hs : DecReach sch root data uninit s := ⟨o₁, he⟩
  exact h s hs (overflows_of_abort hs.bounded hmove)

/-- The decoder never aborts on an input exactly if no pass of its run
opens a frame over a full stack; a well-formed message does not make it
abort exactly if its nesting fits the stack. -/
theorem decode_never_aborts_iff (sch : Schema) (root : MsgRef)
    (data : Bytes) (uninit : UInt64) :
    (NeverAborts sch root data uninit ↔
        ∀ s, DecReach sch root data uninit s → ¬ Overflows sch data s) ∧
      ∀ w : Wire, w.WellFormed sch typed root → w.Leading sch false root →
        (NeverAborts sch root w.bytes uninit ↔ w.nesting ≤ maxDepth) := by
  refine ⟨⟨?_, neverAborts_of_no_overflow⟩, ?_⟩
  · intro h s hs hover
    obtain ⟨out, hmove⟩ := hover.aborts root
    obtain ⟨out', hdec⟩ := hs.decodes hmove
    exact h.no_abort out' hdec
  · intro w hwf hlead
    rw [neverAborts_iff_abort]
    constructor
    · intro hno
      by_contra hdeep
      obtain ⟨out, hdec⟩ := decode_wire_deep uninit hwf hlead
        (Nat.not_le.mp hdeep)
      exact hno out hdec
    · intro hfits
      obtain ⟨out, hdec, -⟩ := decode_wire uninit hwf hlead hfits
      exact hdec.only nofun

/-- A message whose one field, number 1, is the message again. -/
def selfNested : Schema :=
  ⟨[⟨[⟨1, ⟨.optional, .message, 0⟩, some 0, "m"⟩]⟩]⟩

/-- `n` messages, one inside the other, inside an outermost one. -/
def nested : Nat → Wire
  | 0 => .nil
  | n + 1 => .sub ⟨0, 0⟩ [0x0a] [UInt8.ofNat (2 * n)] (nested n) .nil

/-- 33 messages, one inside the other, abort the decoder. -/
theorem decode_aborts_nested :
    ¬ NeverAborts selfNested 0 (nested 32).bytes 0 := by
  intro h
  have hdec : Decodes selfNested 0 (nested 32).bytes 0
      (.msgStart 0 false :: (List.replicate 31
          [Event.field 0 ⟨0, 0⟩ none false, .msgStart 0 false]).flatten
        ++ [.field 0 ⟨0, 0⟩ none false]) .abort :=
    halts_of_eval 64 (by decide +kernel)
  exact h.no_abort _ hdec

end Lwpb
