/-
The encoder writes protocol buffers.

`encoder_serialises` is the statement for a whole call sequence: if the
starts and the values of a message are accepted, its frames can be closed
and the buffer holds the message's protocol buffer.

The statement is made once for any way of calling (`Serialises`) and
proved for two: `lwpb_encoder_add_field`, given any union that stands for
the value, and the setters, which fill one. Both come down to
`session_runs`: the start leaves an open outermost frame, the tree
induction of `Trees.lean` appends the contents to it, and the finish
returns how far its position has come. Nothing is assumed about what the
encoder was used for before (`encoderStart_open`).
-/
import Lwpb.Proofs.Encoder.Trees

namespace Lwpb

open Memory

variable {sch : Schema}

instance (made : List Made) : Decidable (Accepted made) :=
  inferInstanceAs (Decidable (∀ x ∈ made, x.act.isEnd = false → x.err = .ok))

theorem encoderStart_open (s : Enc) (root : MsgRef) (data : Nat) {len : Nat}
    (hlen : len < 2 ^ 35) : (encoderStart s root data len).Open root where
  started := Nat.one_pos
  packed := rfl
  described := rfl
  ordered := bufInit_ordered data len
  small := by
    show data + len < data + 2 ^ 35
    omega

/-- The calls of a message, from the start to the finish. -/
theorem session_runs {kind : Value Bytes → FieldType → Prop}
    {step : Scratch → Enc → Act → Ret} {s : Enc} {root : MsgRef}
    {data len : Nat} {T : Tree} {session : List (Scratch × Act)}
    (hd : Drives kind sch step) (hlen : len < 2 ^ 35)
    (hT : T.Typed kind sch root) (hdepth : T.nesting ≤ maxDepth)
    (hcalls : session.map (·.2) = T.calls)
    (hgrant : Granted step (encoderStart s root data len) session
      (T.estimate sch)) :
    ∃ made t, runSteps step (encoderStart s root data len) session
        = (made, some t) ∧ Clean sch made ∧
      (T.wire sch).bytes.length ≤ len ∧
      encoderFinish t = (T.wire sch).bytes.length ∧
      read t.mem data (encoderFinish t) = (T.wire sch).bytes := by
  obtain ⟨t, rest, ⟨made, hclean, heq⟩, hrest, happ⟩ :=
    Tree.runs hd (encoderStart_open s root data hlen) hT
      (by show 1 + T.nesting ≤ maxDepth + 1; omega)
      (hcalls.trans (List.append_nil _).symm) hgrant
  have hnil : rest = [] := List.map_eq_nil_iff.mp hrest
  subst hnil
  have hused : encoderFinish t = (T.wire sch).bytes.length := by
    have htop : t.stack 0 = t.top := by
      unfold Enc.top
      rw [happ.depth]
      rfl
    unfold encoderFinish
    rw [htop, happ.top]
    show ptrDiff (data + _) data = _
    rw [ptrDiff_of_le (Nat.le_add_right ..), Nat.add_sub_cancel_left]
  have hroom : data + (T.wire sch).bytes.length ≤ data + len := happ.room
  refine ⟨made, t, ?_, hclean, by omega, hused, ?_⟩
  · rw [heq]
    exact congrArg (·, some t) (List.append_nil made)
  · rw [hused]
    exact happ.written

/-- If every start and every value of a run is accepted, every end
succeeds, no header is written over the payload behind it, and the buffer
holds these bytes. -/
def Serialises (sch : Schema) (data : Nat) (bytes : Bytes)
    (run : List Made × Option Enc) : Prop :=
  Accepted run.1 → Clean sch run.1 ∧
    ∃ t, run.2 = some t ∧ read t.mem data (encoderFinish t) = bytes

/-- The calls that write a message, on any encoder, give its protocol
buffer: `lwpb_encoder_add_field` with any unions, and the setters. -/
theorem encoder_serialises (sch : Schema) (s : Enc) (root : MsgRef)
    (data len : Nat) (T : Tree) (session : List (Scratch × Act))
    (hlen : len < 2 ^ 35) (hdepth : T.nesting ≤ maxDepth)
    (hcalls : session.map (·.2) = T.calls) :
    (T.Typed Value.OfType sch root →
      Serialises sch data (T.wire sch).bytes
        (feedActs sch (encoderStart s root data len) session)) ∧
    (T.Conforms sch root →
      Serialises sch data (T.wire sch).bytes
        (runActs sch (encoderStart s root data len) session)) := by
  constructor
  · intro hT hacc
    obtain ⟨made, t, hrun, hclean, -, -, hread⟩ :=
      session_runs (drives_feed sch) hlen hT hdepth hcalls (.inl hacc)
    unfold feedActs
    rw [hrun]
    exact ⟨hclean, t, rfl, hread⟩
  · intro hT hacc
    obtain ⟨made, t, hrun, hclean, -, -, hread⟩ :=
      session_runs (drives_run sch) hlen hT.typed hdepth hcalls (.inl hacc)
    unfold runActs
    rw [hrun]
    exact ⟨hclean, t, rfl, hread⟩

/-- A message of a number, a submessage with a packed run, and a
string. -/
def sampleSchema : Schema :=
  ⟨[⟨[⟨1, ⟨.optional, .sint32, 0⟩, none, "n"⟩,
    ⟨2, ⟨.optional, .message, 0⟩, some 0, "inner"⟩,
    ⟨3, ⟨.repeated, .uint64, flagPacked⟩, none, "run"⟩,
    ⟨4, ⟨.repeated, .string, 0⟩, none, "str"⟩]⟩]⟩

def sampleTree : Tree :=
  .scalar ⟨0, 0⟩ (.int32 (-3))
    (.message ⟨0, 1⟩ (.packed ⟨0, 2⟩ [.uint64 1, .uint64 300] .nil)
      (.scalar ⟨0, 3⟩ (.string [104, 105]) .nil))

/-- An encoder that was not used before. -/
def freshEncoder : Enc where
  stack := fun _ => ⟨⟨0, 0, 0⟩, none, none⟩
  depth := 0
  packed := false
  mem := fun _ => 0
  data := 0
  len := 0

def sampleSession : List (Scratch × Act) :=
  sampleTree.calls.map (⟨⟨0, .ext fun _ => 0, 0⟩, 0⟩, ·)

theorem sampleTree_conforms : sampleTree.Conforms sampleSchema 0 := by
  refine ⟨⟨rfl, by decide, by decide⟩, rfl, .inr (.inl rfl),
    ⟨rfl, by decide, by decide⟩, rfl, ⟨0, rfl⟩,
    ⟨⟨rfl, by decide, by decide⟩, rfl, ?_, trivial⟩,
    ⟨rfl, by decide, by decide⟩, rfl, ⟨rfl, by decide, by decide⟩, trivial⟩
  intro v hv
  rcases List.mem_cons.mp hv with rfl | hv
  · exact .inl rfl
  · rw [List.mem_singleton.mp hv]
    exact .inl rfl

/-- The sample is written by both. -/
theorem encoder_serialises_sample :
    Serialises sampleSchema 1000
        [8, 5, 18, 5, 26, 3, 1, 172, 2, 34, 2, 104, 105]
        (feedActs sampleSchema (encoderStart freshEncoder 0 1000 64)
          sampleSession) ∧
      Serialises sampleSchema 1000
        [8, 5, 18, 5, 26, 3, 1, 172, 2, 34, 2, 104, 105]
        (runActs sampleSchema (encoderStart freshEncoder 0 1000 64)
          sampleSession) ∧
      Accepted (feedActs sampleSchema (encoderStart freshEncoder 0 1000 64)
        sampleSession).1 ∧
      Accepted (runActs sampleSchema (encoderStart freshEncoder 0 1000 64)
        sampleSession).1 := by
  have hbytes : (sampleTree.wire sampleSchema).bytes
      = [8, 5, 18, 5, 26, 3, 1, 172, 2, 34, 2, 104, 105] := by
    decide +kernel
  have htyped : sampleTree.Typed Value.OfType sampleSchema 0 :=
    sampleTree_conforms.typed.mono fun _ _ hv => hv.ofType
  obtain ⟨hfeed, hrun⟩ := encoder_serialises sampleSchema freshEncoder
    0 1000 64 sampleTree sampleSession (by decide) (by decide) rfl
  rw [hbytes] at hfeed hrun
  exact ⟨hfeed htyped, hrun sampleTree_conforms, by decide +kernel,
    by decide +kernel⟩

end Lwpb
