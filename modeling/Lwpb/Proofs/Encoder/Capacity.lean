/-
How large a buffer must be.

A start opens its frame ten bytes further on, and the end of the frame
moves the contents back over what the header leaves of them. So a buffer
of the length of the message is too small for most messages, and a buffer
of ten bytes more for every submessage is larger than it has to be: what
counts are the frames that are open at the same time
(`encoder_capacity_iff`).

`Tree.need` counts them: the room for a submessage is ten bytes and what
its contents need, or its length once it is closed and what comes behind
needs, whichever is more. That the calls are accepted exactly with this
room is the tree induction of `Trees.lean`; what is shown here is where
the number lies, between the length of the message (`length_le_need`) and
ten bytes more for each level (`need_le_length`), so that a caller who
knows the depth can do without it.
-/
import Lwpb.Proofs.Encoder.Serialise

namespace Lwpb

variable {sch : Schema}

-- ================================================================== bounds

/-- A message is not longer than the room it needs. -/
theorem length_le_need (sch : Schema) (T : Tree) :
    (T.wire sch).bytes.length ≤ T.need sch := by
  induction T with
  | nil => exact Nat.le_refl 0
  | scalar f v rest ih =>
      simp only [Tree.wire, Wire.bytes, Tree.need, List.length_append]
        at ih ⊢
      omega
  | message f body rest ihb ihr =>
      simp only [Tree.wire, Wire.bytes, Tree.need, framed_length,
        List.length_append] at ihr ⊢
      omega
  | packed f elems rest ih =>
      simp only [Tree.wire, Wire.bytes, Tree.need, framed_length,
        List.length_append] at ih ⊢
      omega

/-- Ten bytes for every frame that is open at the deepest point are
enough. -/
theorem need_le_length (sch : Schema) (T : Tree) :
    T.need sch ≤ (T.wire sch).bytes.length + 10 * (T.nesting - 1) := by
  induction T with
  | nil => exact Nat.le_refl 0
  | scalar f v rest ih =>
      simp only [Tree.wire, Wire.bytes, Tree.need, Tree.nesting,
        List.length_append] at ih ⊢
      omega
  | message f body rest ihb ihr =>
      have hbody := body.nesting_pos
      have hrest := rest.nesting_pos
      simp only [Tree.wire, Wire.bytes, Tree.need, Tree.nesting,
        framed_length, List.length_append] at ihr ⊢
      omega
  | packed f elems rest ih =>
      have hrest := rest.nesting_pos
      simp only [Tree.wire, Wire.bytes, Tree.need, Tree.nesting,
        framed_length, List.length_append] at ih ⊢
      omega

-- ================================================================ capacity

/-- The calls that write a message are accepted, and then write it, if and
only if the buffer has the room that they need: the length of the message
at least, and ten bytes for every level of its nesting at most. -/
theorem encoder_capacity_iff (sch : Schema) (s : Enc) (root : MsgRef)
    (data len : Nat) (T : Tree) (session : List (Scratch × Act))
    (hlen : len < 2 ^ 35) (hT : T.Conforms sch root)
    (hdepth : T.nesting ≤ maxDepth)
    (hcalls : session.map (·.2) = T.calls) :
    (Accepted (runActs sch (encoderStart s root data len) session).1 ↔
        T.need sch ≤ len) ∧
      (T.wire sch).bytes.length ≤ T.need sch ∧
      T.need sch ≤ (T.wire sch).bytes.length + 10 * (T.nesting - 1) := by
  refine ⟨?_, length_le_need sch T, need_le_length sch T⟩
  unfold runActs
  have hruns := fun hgrant => @Tree.runs_need sch _ root _ _ session []
    T (drives_run sch) (encoderStart_open s root data hlen) hT.typed
    (by show 1 + T.nesting ≤ maxDepth + 1; omega)
    (hcalls.trans (List.append_nil _).symm) hgrant
  constructor
  · intro hacc
    obtain ⟨t, rest, -, -, -, hroom⟩ := hruns (.inl hacc)
    have hroom : data + T.need sch ≤ data + len := hroom
    omega
  · intro hneed
    obtain ⟨t, rest, ⟨made, hclean, heq⟩, hrest, -, -⟩ :=
      hruns (.inr (by show data + T.need sch ≤ data + len; omega))
    have hnil : rest = [] := List.map_eq_nil_iff.mp hrest
    subst hnil
    rw [heq]
    intro x hx _
    have hx : x ∈ made ++ [] := hx
    rw [List.append_nil] at hx
    exact (hclean x hx).1

/-- The sample message of 13 bytes needs 25: the three bytes of its run are
written behind the two of the first field, and twice ten. -/
theorem encoder_capacity_iff_sample :
    (Accepted (runActs sampleSchema (encoderStart freshEncoder 0 1000 25)
        sampleSession).1 ↔ sampleTree.need sampleSchema ≤ 25) ∧
      (sampleTree.wire sampleSchema).bytes.length
        ≤ sampleTree.need sampleSchema ∧
      sampleTree.need sampleSchema
        ≤ (sampleTree.wire sampleSchema).bytes.length
          + 10 * (sampleTree.nesting - 1) :=
  encoder_capacity_iff sampleSchema freshEncoder 0 1000 25 sampleTree
    sampleSession (by decide) sampleTree_conforms (by decide) rfl

end Lwpb
